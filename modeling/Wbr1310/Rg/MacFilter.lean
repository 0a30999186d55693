import Wbr1310.Lib.Generator

/-!
# The filter for hardware addresses

`flush_macfilter.php` writes the chain `PRE_MACFILTER`; `flush_main.php` sends packets there if the
counter of the first script is positive. What the two scripts come to is the policy that the table
of addresses stands for.
-/

namespace Wbr1310.Rg.MacFilter

open Lib List Function

abbrev Mac := BitVec 48

/-- The chains of the table `nat` that `PREROUTING` leads to. -/
inductive Chain where
  | prerouting
  | preMacfilter
  | prePortt
  | preDos
  | preSpi
  | preVrtsrv
  | preUpnp
  | preMisc
  | preDmz
  | preDefault
  deriving DecidableEq, Repr

/-- What a rule does with a packet. -/
inductive Target where
  | ret
  | drop
  | log (tag : String)
  | jump (chain : Chain)
  deriving DecidableEq, Repr

/-- A rule: `-i` or `-i !` with an interface, `--mac-source`, `-d`. -/
structure Rule where
  inInterface : Option String
  notInterface : Option String
  macSource : Option Mac
  destination : Option String
  target : Target
  deriving DecidableEq, Repr

/-- A line of a script. -/
inductive Command where
  | flush (chain : Chain)
  | append (chain : Chain) (rule : Rule)
  | logger (message : String)
  deriving DecidableEq, Repr

/-- `/security/macfilter`, `/security/log/droppacketinfo` and the interface of the local network. An
entry of the table may be blank. -/
structure Config where
  enable : String
  action : String
  droppacketinfo : String
  entries : List (Option Mac)
  lanif : String

section

variable (cfg : Config) (main : MainConfig) (chains : Chains)

def lanRule (mac : Option Mac) (target : Target) : Rule :=
  ⟨some cfg.lanif, none, mac, none, target⟩

/-- A rule that drops, behind one that logs if that is wanted. -/
def dropRules (mac : Option Mac) : List Rule :=
  (if cfg.droppacketinfo = "1" then [lanRule cfg mac (.log "DRP:004:")] else []) ++
    [lanRule cfg mac .drop]

/-- The body of the loop over the table, with `$count`. -/
def countEntry (rules : Mac → List Rule) (_ : ℕ) (entry : Option Mac) (count : ℕ) : ℕ × List Rule :=
  match entry with
  | none => (count, [])
  | some mac => (count + 1, rules mac)

/-- The rules and `$count`. -/
def macRules : ℕ × List Rule :=
  if cfg.entries.length = 0 ∨ cfg.enable = "0" then (0, [])
  else if cfg.action = "1" then
    let allowed := Generator.loop (countEntry fun mac => [lanRule cfg mac .ret]) 0 cfg.entries 0
    (allowed.1, allowed.2.flatten ++ dropRules cfg none)
  else if cfg.action = "0" then
    let denied := Generator.loop (countEntry fun mac => dropRules cfg mac) 0 cfg.entries 0
    (denied.1, denied.2.flatten)
  else (0, [])

def macMessage : List Command :=
  if cfg.entries.length = 0 ∨ cfg.enable = "0" then [.logger "SYS:007"]
  else if cfg.action = "1" then [.logger "SYS:008"]
  else if cfg.action = "0" then [.logger "SYS:009"]
  else []

/-- `flush_macfilter.php`: `/runtime/func/macfilter` and the commands. -/
def flushMacfilter : ℕ × List Command :=
  let rules := macRules cfg
  (rules.1, .flush .preMacfilter :: macMessage cfg ++ rules.2.map (.append .preMacfilter))

/-- What `flush_main.php` reads for `PREROUTING`: the interfaces and the address, the counters of
the other scripts, and two settings. -/
structure MainConfig where
  lanif : String
  wanif : String
  wanip : String
  portt : ℕ
  vrtsrv : ℕ
  dmz : ℕ
  dosEnable : String
  upnpEnable : String

def jumpTo (chain : Chain) : Rule := ⟨none, none, none, none, .jump chain⟩

/-- The rules of `PREROUTING` behind the one for the filter. -/
def mainRules (cfg : MainConfig) : List Rule :=
  (if 0 < cfg.portt ∧ cfg.wanip ≠ "" then
    [{ jumpTo .prePortt with destination := some cfg.wanip }] else []) ++
  (if cfg.dosEnable = "1" ∧ cfg.wanif ≠ "" then
    [{ jumpTo .preDos with inInterface := some cfg.wanif },
      { jumpTo .preSpi with inInterface := some cfg.wanif }] else []) ++
  (if 0 < cfg.vrtsrv then [jumpTo .preVrtsrv] else []) ++
  (if cfg.upnpEnable = "1" then [jumpTo .preUpnp] else []) ++
  [jumpTo .preMisc] ++
  (if 0 < cfg.dmz ∧ cfg.wanip ≠ "" then
    [{ jumpTo .preDmz with destination := some cfg.wanip }] else []) ++
  [{ jumpTo .preDefault with notInterface := some cfg.lanif }]

/-- `flush_main.php`, as far as it concerns `PREROUTING` of the table `nat`. -/
def flushMain (cfg : MainConfig) (macfilter : ℕ) : List Command :=
  .flush .prerouting ::
    ((if 0 < macfilter then
      [{ jumpTo .preMacfilter with inInterface := some cfg.lanif }] else []) ++
      mainRules cfg).map (.append .prerouting)

/-- A packet: the interface it comes from, its source and its destination. -/
structure Packet where
  inInterface : String
  macSource : Mac
  destination : String

def Rule.Applies (r : Rule) (p : Packet) : Prop :=
  (∀ i ∈ r.inInterface, p.inInterface = i) ∧ (∀ i ∈ r.notInterface, p.inInterface ≠ i) ∧
    (∀ mac ∈ r.macSource, p.macSource = mac) ∧ ∀ d ∈ r.destination, p.destination = d

instance (r : Rule) (p : Packet) : Decidable (r.Applies p) :=
  inferInstanceAs (Decidable (_ ∧ _ ∧ _ ∧ _))

/-- Whether the rules of a chain drop a packet: the first rule that applies decides, unless it only
logs, or sends the packet to a chain that lets it through. -/
def drops (chain : Chain → Packet → Bool) : List Rule → Packet → Bool
  | [], _ => false
  | r :: rules, p =>
    if r.Applies p then
      match r.target with
      | .ret => false
      | .drop => true
      | .log _ => drops chain rules p
      | .jump c => chain c p || drops chain rules p
    else drops chain rules p

abbrev Chains := Chain → List Rule

def afterCommand : Command → Chains
  | .flush c => Function.update chains c []
  | .append c r => Function.update chains c (chains c ++ [r])
  | .logger _ => chains

/-- The rules after both scripts, which get the same interface of the local network. -/
def afterScripts : Chains :=
  let written := flushMacfilter cfg
  (written.2 ++ flushMain { main with lanif := cfg.lanif } written.1).foldl afterCommand chains

/-- A packet is dropped by `PREROUTING` or by `PRE_MACFILTER`. -/
def Dropped (p : Packet) : Prop :=
  drops (fun c p => c = .preMacfilter && drops (fun _ _ => false) (chains .preMacfilter) p)
    (chains .prerouting) p = true

instance (chains : Chains) (p : Packet) : Decidable (Dropped chains p) :=
  inferInstanceAs (Decidable (_ = true))

/-- The policy: the table has all addresses that are allowed, or all that are denied. -/
def Config.Denies (mac : Mac) : Prop :=
  cfg.enable ≠ "0" ∧
    (cfg.action = "1" ∧ some mac ∉ cfg.entries ∨ cfg.action = "0" ∧ some mac ∈ cfg.entries)

end

theorem foldl_append (c : Chain) (rules : List Rule) (chains : Chains) :
    (rules.map (Command.append c)).foldl afterCommand chains =
      Function.update chains c (chains c ++ rules) := by
  induction rules generalizing chains with
  | nil => rw [map_nil, foldl_nil, append_nil, update_eq_self]
  | cons r rules ih =>
    rw [map_cons, foldl_cons, ih, afterCommand, update_self,
      update_idem, append_assoc, singleton_append]

theorem foldl_flush (c : Chain) (rules : List Rule) (chains : Chains) :
    (Command.flush c :: rules.map (Command.append c)).foldl afterCommand chains =
      Function.update chains c rules := by
  rw [foldl_cons, foldl_append, afterCommand, update_self, update_idem,
    nil_append]

theorem foldl_macMessage (cfg : Config) (chains : Chains) :
    (macMessage cfg).foldl afterCommand chains = chains := by
  rw [macMessage]
  split
  · rfl
  split
  · rfl
  split
  · rfl
  · rfl

theorem afterScripts_eq (cfg : Config) (main : MainConfig) (chains : Chains) :
    afterScripts cfg main chains =
      Function.update (Function.update chains .preMacfilter (macRules cfg).2) .prerouting
        ((if 0 < (macRules cfg).1 then
          [{ jumpTo .preMacfilter with inInterface := some cfg.lanif }] else []) ++
          mainRules { main with lanif := cfg.lanif }) := by
  have hmac : (flushMacfilter cfg).2.foldl afterCommand chains =
      update chains .preMacfilter (macRules cfg).2 := by
    rw [flushMacfilter, List.cons_append, List.foldl_cons, List.foldl_append, foldl_macMessage,
      foldl_append, afterCommand, update_self, update_idem, nil_append]
  simp only [afterScripts]
  rw [List.foldl_append, hmac, flushMain, foldl_flush]
  rfl

variable {chain : Chain → Packet → Bool} {p : Packet}

theorem drops_log {r : Rule} {tag : String} (hr : r.target = .log tag) (rules : List Rule) :
    drops chain (r :: rules) p = drops chain rules p := by
  rw [drops]
  split
  · rw [hr]
  · rfl

theorem drops_drop {r : Rule} (hr : r.target = .drop) (rules : List Rule) :
    drops chain (r :: rules) p = (decide (r.Applies p) || drops chain rules p) := by
  rw [drops]
  split
  · next h => rw [hr, decide_eq_true h, Bool.true_or]
  · next h => rw [decide_eq_false h, Bool.false_or]

theorem drops_dropRules (cfg : Config) (mac : Option Mac) (rules : List Rule) :
    drops chain (dropRules cfg mac ++ rules) p =
      (decide ((lanRule cfg mac .drop).Applies p) || drops chain rules p) := by
  rw [dropRules]
  split
  · rw [append_assoc, singleton_append, singleton_append, drops_log rfl,
      drops_drop rfl]
  · rw [nil_append, singleton_append, drops_drop rfl]

theorem drops_jumps {filter : Packet → Bool} {rules : List Rule}
    (h : ∀ r ∈ rules, ∃ c, r.target = .jump c ∧ c ≠ .preMacfilter) :
    drops (fun c p => c = .preMacfilter && filter p) rules p = false := by
  induction rules with
  | nil => rfl
  | cons r rules ih =>
    rw [forall_mem_cons] at h
    obtain ⟨⟨c, htarget, hc⟩, hrules⟩ := h
    rw [drops, ih hrules]
    split
    · simp [htarget, hc]
    · rfl

theorem mainRules_jumps (cfg : MainConfig) :
    ∀ r ∈ mainRules cfg, ∃ c, r.target = .jump c ∧ c ≠ .preMacfilter := by
  have hwhen {q : Prop} [Decidable q] {rules : List Rule}
      (h : ∀ r ∈ rules, ∃ c, r.target = .jump c ∧ c ≠ .preMacfilter) :
      ∀ r ∈ (if q then rules else []), ∃ c, r.target = .jump c ∧ c ≠ .preMacfilter := by
    split
    · exact h
    · exact fun _ hr => nomatch hr
  simp only [mainRules, forall_mem_append]
  refine ⟨⟨⟨⟨⟨⟨hwhen ?_, hwhen ?_⟩, hwhen ?_⟩, hwhen ?_⟩, ?_⟩, hwhen ?_⟩, ?_⟩
  all_goals simp [jumpTo]

variable {cfg : Config}

theorem applies_lanRule (hp : p.inInterface = cfg.lanif) (mac : Mac) (target : Target) :
    (lanRule cfg (some mac) target).Applies p ↔ p.macSource = mac := by
  simp [Rule.Applies, lanRule, hp]

theorem applies_lanRule_none (hp : p.inInterface = cfg.lanif) (target : Target) :
    (lanRule cfg none target).Applies p := by
  simp [Rule.Applies, lanRule, hp]

def linesOf (rules : Mac → List Rule) (entry : Option Mac) : List Rule := entry.toList.flatMap rules

theorem loop_countEntry (rules : Mac → List Rule) (entries : List (Option Mac)) :
    (Generator.loop (countEntry rules) 0 entries 0).1 = entries.countP Option.isSome ∧
      (Generator.loop (countEntry rules) 0 entries 0).2.flatten =
        entries.flatMap (linesOf rules) := by
  constructor
  · have hcount := Generator.loop_count (countEntry rules) id (fun e => e.isSome = true)
      (fun k e n => by cases e <;> rfl) 0 entries 0
    simpa using hcount
  · refine Generator.loop_lines (countEntry rules) (linesOf rules) (fun k e n => ?_) 0 entries 0
    cases e with
    | none => rfl
    | some mac => simp [countEntry, linesOf]

/-- A list of allowed addresses drops what is not in it. -/
theorem drops_allowed (hp : p.inInterface = cfg.lanif) (entries : List (Option Mac)) :
    drops chain (entries.flatMap (linesOf fun mac => [lanRule cfg mac .ret]) ++ dropRules cfg none)
        p =
      decide (some p.macSource ∉ entries) := by
  induction entries with
  | nil =>
    rw [flatMap_nil, nil_append, ← append_nil (dropRules cfg none),
      drops_dropRules, decide_eq_true (applies_lanRule_none hp _)]
    rfl
  | cons entry entries ih =>
    rw [flatMap_cons, append_assoc]
    cases entry with
    | none => simpa [linesOf] using ih
    | some mac =>
      have hline : linesOf (fun mac => [lanRule cfg mac .ret]) (some mac) =
          [lanRule cfg mac .ret] := rfl
      rw [hline, singleton_append, drops]
      by_cases hmac : p.macSource = mac
      · rw [if_pos ((applies_lanRule hp mac _).mpr hmac), hmac]
        simp [lanRule]
      · rw [if_neg (mt (applies_lanRule hp mac _).mp hmac), ih]
        simp [hmac]

theorem drops_denied (hp : p.inInterface = cfg.lanif) (entries : List (Option Mac)) :
    drops chain (entries.flatMap (linesOf fun mac => dropRules cfg mac)) p =
      decide (some p.macSource ∈ entries) := by
  induction entries with
  | nil => rfl
  | cons entry entries ih =>
    rw [flatMap_cons]
    cases entry with
    | none => simpa [linesOf] using ih
    | some mac =>
      have hline : linesOf (fun mac => dropRules cfg mac) (some mac) = dropRules cfg mac := by
        simp [linesOf]
      rw [hline, drops_dropRules, ih]
      simp [applies_lanRule hp]

theorem dropped_iff (main : MainConfig) (chains : Chains) (hp : p.inInterface = cfg.lanif) :
    Dropped (afterScripts cfg main chains) p ↔
      0 < (macRules cfg).1 ∧ drops (fun _ _ => false) (macRules cfg).2 p = true := by
  rw [Dropped, afterScripts_eq, update_self, update_of_ne (by decide),
    update_self]
  have hrest := mainRules_jumps { main with lanif := cfg.lanif }
  by_cases hcount : 0 < (macRules cfg).1
  · have happlies : Rule.Applies { jumpTo .preMacfilter with inInterface := some cfg.lanif } p := by
      simp [Rule.Applies, jumpTo, hp]
    rw [if_pos hcount, singleton_append, drops, if_pos happlies]
    simp only [jumpTo, drops_jumps hrest, decide_true, Bool.true_and, Bool.or_false, hcount,
      true_and]
  · rw [if_neg hcount, nil_append, drops_jumps hrest]
    exact iff_of_false (by decide) fun h => hcount h.1

/-- A packet from the local network is dropped exactly if the filter is switched on, the table has
entries, and the policy denies the source. Nothing is said about a list of allowed addresses with
blank entries only. -/
theorem macfilter_iff (cfg : Config) (main : MainConfig) (chains : Chains) (mac : Mac)
    (destination : String)
    (hblank : cfg.action = "1" → cfg.entries ≠ [] → ∃ m, some m ∈ cfg.entries) :
    Dropped (afterScripts cfg main chains) ⟨cfg.lanif, mac, destination⟩ ↔
      cfg.entries ≠ [] ∧ cfg.Denies mac := by
  rw [dropped_iff main chains rfl, macRules, Config.Denies]
  split
  · next hoff =>
    refine iff_of_false (fun h => absurd h.1 (Nat.lt_irrefl 0)) ?_
    rintro ⟨hne, henable, -⟩
    exact hoff.elim (fun h => hne (length_eq_zero_iff.mp h)) henable
  next hon =>
  rw [not_or, length_eq_zero_iff] at hon
  split
  · next haction =>
    obtain ⟨hcount, hlines⟩ := loop_countEntry (fun mac => [lanRule cfg mac .ret]) cfg.entries
    obtain ⟨m, hm⟩ := hblank haction hon.1
    have hpos : 0 < cfg.entries.countP Option.isSome := countP_pos_iff.mpr ⟨_, hm, rfl⟩
    simp only [hcount, hlines]
    rw [drops_allowed rfl]
    simp [hpos, hon, haction]
  next hallow =>
  split
  · next haction =>
    obtain ⟨hcount, hlines⟩ := loop_countEntry (fun mac => dropRules cfg mac) cfg.entries
    simp only [hcount, hlines]
    rw [drops_denied rfl]
    have hpos : some mac ∈ cfg.entries → 0 < cfg.entries.countP Option.isSome := fun hm =>
      countP_pos_iff.mpr ⟨_, hm, rfl⟩
    rw [decide_eq_true_eq]
    constructor
    · rintro ⟨-, hm⟩
      exact ⟨hon.1, hon.2, .inr ⟨haction, hm⟩⟩
    · rintro ⟨-, -, h | ⟨-, hm⟩⟩
      · exact absurd h.1 hallow
      · exact ⟨hpos hm, hm⟩
  · next hdeny =>
    refine iff_of_false (fun h => absurd h.1 (Nat.lt_irrefl 0)) ?_
    rintro ⟨-, -, h | h⟩
    · exact hallow h.1
    · exact hdeny h.1

def quietMain : MainConfig := ⟨"br0", "eth1", "", 0, 0, 0, "0", "0"⟩

/-- A device that is not in the list. -/
theorem macfilter_iff_stranger :
    Dropped (afterScripts ⟨"1", "1", "0", [none, some 1], "br0"⟩ quietMain fun _ => [])
        ⟨"br0", 2, "10.0.0.1"⟩ ↔
      (Config.mk "1" "1" "0" [none, some 1] "br0").entries ≠ [] ∧
        (Config.mk "1" "1" "0" [none, some 1] "br0").Denies 2 :=
  macfilter_iff _ quietMain _ 2 "10.0.0.1" fun _ _ => ⟨1, by decide⟩

/-- A list of allowed addresses without entries drops nothing. -/
theorem not_dropped_without_entries :
    ¬ (Dropped (afterScripts ⟨"1", "1", "0", [], "br0"⟩ quietMain fun _ => [])
        ⟨"br0", 2, "10.0.0.1"⟩ ↔
      (Config.mk "1" "1" "0" [] "br0").Denies 2) := by
  rw [dropped_iff quietMain _ rfl]
  intro h
  exact absurd (h.mpr ⟨by decide, .inl ⟨rfl, by decide⟩⟩).1 (Nat.lt_irrefl 0)

end Wbr1310.Rg.MacFilter
