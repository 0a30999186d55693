import Wbr1310.IptString.Match
import Wbr1310.Rg.Blocking

/-!
# The chain of forwarded packets

The rules for URLs and for domains stand in one chain, `FOR_BLOCKING`. `flush_main.php` sends the
packets for port 80 of TCP and for port 53 of UDP there. This file says when the verdict of
such a packet does not depend on the rules that are meant for the other ones.
-/

namespace Wbr1310.Rg

open Lib Buffer IptString List

/-- The protocols the rules speak of. -/
inductive Protocol where
  | tcp
  | udp
  deriving DecidableEq, Repr

/-- A packet that is forwarded from the LAN; the payload begins with the header of the protocol. -/
structure Packet where
  protocol : Protocol
  payload : List Byte
  deriving DecidableEq, Repr

def Packet.dport (p : Packet) : Option ℕ := do
  let high ← p.payload[2]?
  let low ← p.payload[3]?
  pure (high.toNat * 256 + low.toNat)

/-- `-p tcp --dport 80`. -/
def Packet.Web (p : Packet) : Prop := p.protocol = .tcp ∧ p.dport = some 80

/-- `-p udp --dport 53`. -/
def Packet.Dns (p : Packet) : Prop := p.protocol = .udp ∧ p.dport = some 53

instance : DecidablePred Packet.Web := fun _ => inferInstanceAs (Decidable (_ ∧ _))

instance : DecidablePred Packet.Dns := fun _ => inferInstanceAs (Decidable (_ ∧ _))

variable {p : Packet} {r : Rule} {u : UrlBlocking}

theorem Packet.Dns.not_web (h : p.Dns) : ¬ p.Web := by
  intro hweb
  have hboth := h.1.symm.trans hweb.1
  exact absurd hboth (by decide)

/-- `parse` of `libipt_string.c`; nothing if the rule is refused. -/
def StringOption.parse : StringOption → Option IptStringInfo
  | .url s => ((argument s).bind parseString).map fun string => ⟨string, false, .urlString⟩
  | .dns s => ((argument s).bind parseDnsString).map fun string => ⟨string, false, .genString⟩
  | .httpReq => some ⟨[], false, .httpReq⟩

/-- The option applies to a packet. A rule that was refused is not in the chain, where it could
as well be a rule that never applies. -/
def StringOption.applies (o : StringOption) (p : Packet) : Checked Bool :=
  match o.parse with
  | some info => matchSkb info p.payload
  | none => pure false

/-- A rule applies to a packet: the protocol is looked at before the string. -/
def Rule.applies (r : Rule) (p : Packet) : Checked Bool :=
  if r.web = true ∧ ¬ p.Web then pure false
  else match r.string with
    | some o => o.applies p
    | none => pure true

/-- What becomes of a packet. -/
inductive Verdict where
  | accept
  | drop
  deriving DecidableEq, Repr

/-- The first rule that applies decides, unless it only logs; nothing if none does. -/
def traverse : List Rule → Packet → Checked (Option Verdict)
  | [], _ => pure none
  | r :: rules, p => do
    let found ← r.applies p
    if found then
      match r.target with
      | .accept => pure (some .accept)
      | .drop => pure (some .drop)
      | .log _ => traverse rules p
    else traverse rules p

def afterAppend (chain : Chain) (rules : List Rule) : Command → List Rule
  | .flush c => if c = chain then [] else rules
  | .append c r => if c = chain then rules ++ [r] else rules
  | _ => rules

def chainRules (chain : Chain) (rules : List Rule) (cs : List Command) : List Rule :=
  cs.foldl (afterAppend chain) rules

/-- The verdict of `FOR_BLOCKING`, if `flush_main.php` sends the packet there, after
`flush_blocking.php` has written the chain. -/
def forwardVerdict (cfg : BlockingConfig) (f : Func) (rules : List Rule) (p : Packet) :
    Checked (Option Verdict) :=
  let written := flushBlocking cfg f
  let chain := chainRules .forBlocking rules written.2
  if p.Web ∧ 0 < written.1.urlfilter then traverse chain p
  else if p.Dns ∧ cfg.domain.enable ≠ "0" then traverse chain p
  else pure none

variable (droppacketinfo : String) (chain : Chain) (cfg : BlockingConfig) (f : Func)
  (rules : List Rule)

theorem traverse_append (rest : List Rule) (p : Packet) :
    traverse (rules ++ rest) p = traverse rules p >>= fun
      | some v => .ok (some v)
      | none => traverse rest p := by
  induction rules with
  | nil => rfl
  | cons r rules ih =>
    rw [cons_append, traverse, traverse]
    cases r.applies p with
    | error e => rfl
    | ok found =>
      cases found with
      | false => exact ih
      | true =>
        cases r.target with
        | log tag => simp only [ok_bind, if_true, ih]
        | accept => simp
        | drop => simp

theorem traverse_append_of_idle {rules rest : List Rule}
    (h : ∀ r ∈ rules, r.applies p = .ok false) :
    traverse (rules ++ rest) p = traverse rest p := by
  induction rules with
  | nil => rfl
  | cons r rules ih =>
    rw [cons_append, traverse, h r mem_cons_self, ok_bind]
    exact ih fun r' hr' => h r' (mem_cons_of_mem r hr')

theorem traverse_logFirst (hdrop : r.target = .drop) (p : Packet) :
    traverse (logFirst droppacketinfo r) p =
      r.applies p >>= fun found => if found then .ok (some .drop) else .ok none := by
  have hlog : Rule.applies { r with target := .log dropTag } p = r.applies p := rfl
  have hone : traverse [r] p =
      r.applies p >>= fun found => if found then .ok (some .drop) else .ok none := by
    rw [traverse, hdrop]
    rfl
  rw [logFirst]
  split
  · rw [singleton_append, traverse, hlog, hone]
    cases r.applies p with
    | error e => rfl
    | ok found =>
      cases found with
      | false => rfl
      | true => rfl
  · exact hone

/-- The rules decide about a packet. -/
def Settles (rules : List Rule) (p : Packet) : Prop := ∃ v, traverse rules p = .ok (some v)

theorem settles_append_iff (rest : List Rule) (p : Packet) :
    Settles (rules ++ rest) p ↔
      Settles rules p ∨ traverse rules p = .ok none ∧ Settles rest p := by
  simp only [Settles, traverse_append]
  cases traverse rules p with
  | error e => simp
  | ok v =>
    cases v with
    | none => simp
    | some v => simp

/-- The lines of one option decide about a packet if it applies, and are passed if not. -/
structure Tests (lines : List Rule) (o : StringOption) (p : Packet) : Prop where
  settles_iff : Settles lines p ↔ o.applies p = .ok true
  none_iff : traverse lines p = .ok none ↔ o.applies p = .ok false

theorem tests_of_traverse {lines : List Rule} {o : StringOption} {v : Verdict}
    (h : traverse lines p = o.applies p >>= fun found =>
      if found then .ok (some v) else .ok none) : Tests lines o p := by
  constructor
  · rw [Settles, h]
    cases o.applies p with
    | error e => simp
    | ok found => cases found <;> simp
  · rw [h]
    cases o.applies p with
    | error e => simp
    | ok found => cases found <;> simp

theorem tests_logFirst (hdrop : r.target = .drop) {o : StringOption}
    (ho : r.applies p = o.applies p) : Tests (logFirst droppacketinfo r) o p :=
  tests_of_traverse (ho ▸ traverse_logFirst droppacketinfo hdrop p)

/-- One of the options applies to a packet, and those in front of it do not. -/
def FirstApplies (p : Packet) : List StringOption → Prop
  | [] => False
  | o :: os => o.applies p = .ok true ∨ o.applies p = .ok false ∧ FirstApplies p os

instance decidableFirstApplies (p : Packet) : (os : List StringOption) →
    Decidable (FirstApplies p os)
  | [] => inferInstanceAs (Decidable False)
  | o :: os =>
    have := decidableFirstApplies p os
    inferInstanceAs (Decidable (o.applies p = .ok true ∨ o.applies p = .ok false ∧ _))

theorem settles_flatMap_iff {lines : List Byte → List Rule} (xs : List (List Byte))
    (h : ∀ s, Tests (lines s) (.url s) p) {rest : List Rule} {os : List StringOption}
    (hrest : Settles rest p ↔ FirstApplies p os) :
    Settles (xs.flatMap lines ++ rest) p ↔ FirstApplies p (xs.map .url ++ os) := by
  induction xs with
  | nil => exact hrest
  | cons s xs ih =>
    rw [flatMap_cons, append_assoc, settles_append_iff, (h s).settles_iff, (h s).none_iff, ih]
    rfl

theorem chainRules_append (cs ds : List Command) :
    chainRules chain rules (cs ++ ds) = chainRules chain (chainRules chain rules cs) ds :=
  foldl_append

theorem chainRules_of_other {cs : List Command}
    (h : ∀ c ∈ cs, ∀ rules, afterAppend chain rules c = rules) (rules : List Rule) :
    chainRules chain rules cs = rules := by
  induction cs generalizing rules with
  | nil => rfl
  | cons c cs ih =>
    change chainRules chain (afterAppend chain rules c) cs = rules
    rw [h c mem_cons_self, ih fun d hd => h d (mem_cons_of_mem c hd)]

theorem chainRules_flatMap (lines : Rule → List Command)
    (h : ∀ r rules, chainRules chain rules (lines r) = rules ++ [r]) (rs rules : List Rule) :
    chainRules chain rules (rs.flatMap lines) = rules ++ rs := by
  induction rs generalizing rules with
  | nil => exact (append_nil rules).symm
  | cons r rs ih =>
    rw [flatMap_cons, chainRules_append, h, ih, append_assoc, singleton_append]

theorem chainRules_flushBlocking :
    chainRules .forBlocking rules (flushBlocking cfg f).2 =
      (urlRules cfg.droppacketinfo cfg.url).2 ++ domainRules cfg.droppacketinfo cfg.domain := by
  have hurl : ∀ rs rules : List Rule,
      chainRules .forBlocking rules (rs.map (Command.append .forBlocking)) = rules ++ rs := by
    intro rs rules
    rw [map_eq_flatMap]
    exact chainRules_flatMap .forBlocking _ (fun _ _ => rfl) rs rules
  have hmessage : ∀ rules, chainRules .forBlocking rules (urlMessage cfg.url) = rules := by
    refine chainRules_of_other .forBlocking fun c hc rules => ?_
    rw [urlMessage] at hc
    split at hc
    · split at hc
      · cases hc
      · obtain rfl := mem_singleton.mp hc
        rfl
    · obtain rfl := mem_singleton.mp hc
      rfl
  have hfastnat : ∀ (remove load : Prop) [Decidable remove] [Decidable load] (f : Func) rules,
      chainRules .forBlocking rules (flushFastnat remove load f).2 = rules := by
    intro remove load _ _ f
    refine chainRules_of_other .forBlocking fun c hc rules => ?_
    simp only [flushFastnat, mem_append] at hc
    obtain hc | hc := hc
    · split at hc
      · obtain rfl := mem_singleton.mp hc
        rfl
      · cases hc
    · split at hc
      · obtain rfl := mem_singleton.mp hc
        rfl
      · cases hc
  have hdomain := chainRules_flatMap .forBlocking
    (fun r => [.append .inpBlocking r, .append .forBlocking r]) (fun _ _ => rfl)
  have hlast : ∀ rules, chainRules .forBlocking rules [domainMessage cfg.domain] = rules := by
    refine chainRules_of_other .forBlocking fun c hc rules => ?_
    obtain rfl := mem_singleton.mp hc
    rw [domainMessage]
    split_ifs
    · rfl
    · rfl
    · rfl
  rw [flushBlocking]
  simp only [chainRules_append, hlast, hdomain, hfastnat, hmessage, hurl]
  rfl

theorem forwardVerdict_web (hactive : cfg.url.Active) (hp : p.Web) :
    forwardVerdict cfg f rules p = traverse ((urlRules cfg.droppacketinfo cfg.url).2 ++
      domainRules cfg.droppacketinfo cfg.domain) p := by
  have hpos : 0 < (flushBlocking cfg f).1.urlfilter :=
    (urlRules_pos_iff cfg.droppacketinfo cfg.url).mpr hactive
  simp only [forwardVerdict, chainRules_flushBlocking]
  rw [if_pos ⟨hp, hpos⟩]

theorem forwardVerdict_dns (hp : p.Dns) :
    forwardVerdict cfg f rules p =
      if cfg.domain.enable = "0" then .ok none
      else traverse ((urlRules cfg.droppacketinfo cfg.url).2 ++
        domainRules cfg.droppacketinfo cfg.domain) p := by
  simp only [forwardVerdict, chainRules_flushBlocking]
  rw [if_neg fun h => hp.not_web h.1]
  by_cases hdomain : cfg.domain.enable = "0"
  · rw [if_neg fun h => h.2 hdomain, if_pos hdomain]
    rfl
  · rw [if_pos ⟨hp, hdomain⟩, if_neg hdomain]

def allowRule (s : List Byte) : List Rule :=
  if s ≠ [] then [⟨false, some (.url s), .accept⟩] else []

def denyRule (droppacketinfo : String) (s : List Byte) : List Rule :=
  if s ≠ [] then logFirst droppacketinfo ⟨false, some (.url s), .drop⟩ else []

theorem urlRules_lines (h : u.enable = "1") :
    (urlRules droppacketinfo u).2 =
      if u.action = "1" then
        u.strings.flatMap allowRule ++ logFirst droppacketinfo ⟨true, some .httpReq, .drop⟩
      else u.strings.flatMap (denyRule droppacketinfo) := by
  have hallow : (Generator.loop allowUrl 0 u.strings 0).2.flatten =
      u.strings.flatMap allowRule := by
    refine Generator.loop_lines allowUrl allowRule (fun k s n => ?_) 0 u.strings 0
    rw [allowUrl, allowRule]
    split
    · rfl
    · rfl
  have hdeny : (Generator.loop (denyUrl droppacketinfo) 0 u.strings 0).2.flatten =
      u.strings.flatMap (denyRule droppacketinfo) := by
    refine Generator.loop_lines _ (denyRule droppacketinfo) (fun k s n => ?_) 0 u.strings 0
    rw [denyUrl, denyRule]
    split
    · rfl
    · rfl
  rw [urlRules, if_pos h]
  split
  · exact congrArg (· ++ _) hallow
  · exact hdeny

/-- What the rules for URLs look for, in their order. -/
def UrlBlocking.options (u : UrlBlocking) : List StringOption :=
  u.strings.map .url ++ if u.action = "1" then [.httpReq] else []

/-- The rules for URLs decide about the packet: the first one that does not let it pass is one
that applies. -/
def UrlBlocking.Decides (u : UrlBlocking) (p : Packet) : Prop := FirstApplies p u.options

instance (u : UrlBlocking) (p : Packet) : Decidable (u.Decides p) :=
  inferInstanceAs (Decidable (FirstApplies _ _))

theorem tests_nil (p : Packet) : Tests [] (.url []) p := by
  have hidle : (StringOption.url []).applies p = .ok false := rfl
  exact ⟨by simp [Settles, traverse, hidle], by simp [traverse, hidle]⟩

theorem tests_allowRule (s : List Byte) (p : Packet) : Tests (allowRule s) (.url s) p := by
  rw [allowRule]
  split
  · exact tests_of_traverse rfl
  · next h =>
    obtain rfl := not_not.mp h
    exact tests_nil p

theorem tests_denyRule (s : List Byte) (p : Packet) :
    Tests (denyRule droppacketinfo s) (.url s) p := by
  rw [denyRule]
  split
  · exact tests_logFirst droppacketinfo rfl rfl
  · next h =>
    obtain rfl := not_not.mp h
    exact tests_nil p

theorem settles_urlRules_iff (h : u.enable = "1") (hp : p.Web) :
    Settles (urlRules droppacketinfo u).2 p ↔ u.Decides p := by
  have hweb : Rule.applies ⟨true, some .httpReq, .drop⟩ p = StringOption.httpReq.applies p :=
    if_neg fun hno => hno.2 hp
  rw [urlRules_lines droppacketinfo h, UrlBlocking.Decides, UrlBlocking.options]
  split
  · refine settles_flatMap_iff _ (tests_allowRule · p) ?_
    rw [(tests_logFirst droppacketinfo rfl hweb).settles_iff, FirstApplies, FirstApplies,
      and_false, or_false]
  · rw [← append_nil (flatMap _ _)]
    exact settles_flatMap_iff _ (tests_denyRule droppacketinfo · p)
      (by simp [Settles, traverse, FirstApplies])

theorem applies_of_mem_logFirst {droppacketinfo : String} {r' : Rule}
    (h : r' ∈ logFirst droppacketinfo r) (p : Packet) : r'.applies p = r.applies p := by
  rw [logFirst, mem_append] at h
  obtain h | h := h
  · split at h
    · obtain rfl := mem_singleton.mp h
      rfl
    · cases h
  · obtain rfl := mem_singleton.mp h
    rfl

theorem applies_of_mem_urlRules {droppacketinfo : String} (h : r ∈ (urlRules droppacketinfo u).2)
    (hp : ¬ p.Web) :
    r.applies p = .ok false ∨ ∃ s ∈ u.strings, r.applies p = (StringOption.url s).applies p := by
  by_cases henable : u.enable = "1"
  · rw [urlRules_lines droppacketinfo henable] at h
    split at h
    · obtain h | h := mem_append.mp h
      · obtain ⟨s, hs, hr⟩ := mem_flatMap.mp h
        rw [allowRule] at hr
        split at hr
        · obtain rfl := mem_singleton.mp hr
          exact .inr ⟨s, hs, rfl⟩
        · cases hr
      · refine .inl ?_
        rw [applies_of_mem_logFirst h]
        exact if_pos ⟨rfl, hp⟩
    · obtain ⟨s, hs, hr⟩ := mem_flatMap.mp h
      rw [denyRule] at hr
      split at hr
      · exact .inr ⟨s, hs, applies_of_mem_logFirst hr p⟩
      · cases hr
  · rw [urlRules, if_neg henable] at h
    cases h

theorem traverse_urlRules_of_idle (u : UrlBlocking) {rest : List Rule} (hp : ¬ p.Web)
    (h : ∀ s, (StringOption.url s).applies p = .ok false) :
    traverse ((urlRules droppacketinfo u).2 ++ rest) p = traverse rest p := by
  refine traverse_append_of_idle fun r hr => ?_
  obtain hfalse | ⟨s, -, hs⟩ := applies_of_mem_urlRules hr hp
  · exact hfalse
  · rw [hs]
    exact h s

/-- One URL that is allowed, and one that is denied, in front of other rules. -/
theorem traverse_one_url {s : List Byte} (hs : s ≠ []) (rest : List Rule) (hp : ¬ p.Web) :
    traverse ((urlRules droppacketinfo ⟨"1", "1", [s]⟩).2 ++ rest) p =
        ((StringOption.url s).applies p >>= fun found =>
          if found then .ok (some .accept) else traverse rest p) ∧
      traverse ((urlRules droppacketinfo ⟨"1", "0", [s]⟩).2 ++ rest) p =
        ((StringOption.url s).applies p >>= fun found =>
          if found then .ok (some .drop) else traverse rest p) := by
  have hallow : allowRule s = [⟨false, some (.url s), .accept⟩] := if_pos hs
  have hdeny : denyRule droppacketinfo s =
      logFirst droppacketinfo ⟨false, some (.url s), .drop⟩ := if_pos hs
  have hhttp : traverse (logFirst droppacketinfo ⟨true, some .httpReq, .drop⟩ ++ rest) p =
      traverse rest p := by
    refine traverse_append_of_idle fun r hr => ?_
    rw [applies_of_mem_logFirst hr]
    exact if_pos ⟨rfl, hp⟩
  constructor
  · rw [urlRules_lines droppacketinfo rfl, if_pos rfl, append_assoc]
    simp only [flatMap_singleton, hallow, singleton_append]
    rw [traverse, hhttp]
    rfl
  · rw [urlRules_lines droppacketinfo rfl, if_neg (show ¬ "0" = "1" by decide), flatMap_singleton,
      hdeny,
      traverse_append, traverse_logFirst droppacketinfo rfl]
    change ((StringOption.url s).applies p >>= _) >>= _ = _
    cases (StringOption.url s).applies p with
    | error e => rfl
    | ok found =>
      cases found with
      | false => rfl
      | true => rfl

/-- Two runs of the chain end, and with the same verdict. -/
def SameVerdict (v v' : Checked (Option Verdict)) : Prop :=
  ∃ verdict, v = .ok verdict ∧ v' = .ok verdict

theorem web_independent_iff (hu : u.Active) (hp : p.Web) :
    (∀ d d', SameVerdict (forwardVerdict ⟨droppacketinfo, u, d⟩ f rules p)
      (forwardVerdict ⟨droppacketinfo, u, d'⟩ f rules p)) ↔ u.Decides p := by
  have hverdict := fun d => forwardVerdict_web ⟨droppacketinfo, u, d⟩ f rules hu hp
  simp only [hverdict, traverse_append, ← settles_urlRules_iff droppacketinfo hu.1 hp, Settles]
  constructor
  · intro hsame
    -- with the rules for URLs passed, a list of allowed domains drops what is left
    obtain ⟨v, hoff, hall⟩ := hsame ⟨"0", [], []⟩ ⟨"2", [], []⟩
    have hnone : traverse (domainRules droppacketinfo ⟨"0", [], []⟩) p = .ok none := rfl
    have hdrop : traverse (domainRules droppacketinfo ⟨"2", [], []⟩) p = .ok (some .drop) :=
      traverse_logFirst droppacketinfo rfl p
    cases hurl : traverse (urlRules droppacketinfo u).2 p with
    | error e =>
      rw [hurl] at hoff
      cases hoff
    | ok verdict =>
      cases verdict with
      | some verdict => exact ⟨verdict, rfl⟩
      | none =>
        simp only [hurl, ok_bind, hnone, hdrop] at hoff hall
        cases hoff.trans hall.symm
  · rintro ⟨verdict, hurl⟩ d d'
    rw [hurl]
    exact ⟨some verdict, rfl, rfl⟩

/-- The verdict on a packet for port 53 does not depend on the rules for URLs exactly when domains
are not blocked, or their rules can be passed through and no URL would apply. -/
theorem dns_independent_iff (d : DomainBlocking) (hp : p.Dns) :
    (∀ u u', SameVerdict (forwardVerdict ⟨droppacketinfo, u, d⟩ f rules p)
        (forwardVerdict ⟨droppacketinfo, u', d⟩ f rules p)) ↔
      d.enable = "0" ∨ (∃ v, traverse (domainRules droppacketinfo d) p = .ok v) ∧
        ∀ s, (StringOption.url s).applies p = .ok false := by
  simp only [forwardVerdict_dns _ f rules hp]
  by_cases hoff : d.enable = "0"
  · simp [hoff, SameVerdict]
  · simp only [hoff, if_false, false_or]
    constructor
    · intro hsame
      obtain ⟨v, hplain, -⟩ := hsame ⟨"0", "0", []⟩ ⟨"0", "0", []⟩
      refine ⟨⟨v, hplain⟩, fun s => ?_⟩
      by_cases hs : s = []
      · rw [hs]
        rfl
      · obtain ⟨hallow, hdeny⟩ := traverse_one_url droppacketinfo hs
          (domainRules droppacketinfo d) hp.not_web
        obtain ⟨v', haccept, hdrop⟩ := hsame ⟨"1", "1", [s]⟩ ⟨"1", "0", [s]⟩
        rw [hallow] at haccept
        rw [hdeny] at hdrop
        cases happlies : (StringOption.url s).applies p with
        | error e =>
          rw [happlies] at haccept
          cases haccept
        | ok found =>
          cases found with
          | false => rfl
          | true =>
            rw [happlies] at haccept hdrop
            cases haccept.trans hdrop.symm
    · rintro ⟨⟨v, hv⟩, hidle⟩ u u'
      rw [traverse_urlRules_of_idle droppacketinfo u hp.not_web hidle,
        traverse_urlRules_of_idle droppacketinfo u' hp.not_web hidle]
      exact ⟨v, hv, hv⟩

/-- URLs and domains are blocked independently of each other exactly for the packets about which
their own rules decide. -/
theorem blocking_independent_iff (droppacketinfo : String) (f : Func) (rules : List Rule)
    (u : UrlBlocking) (d : DomainBlocking) (p q : Packet) (hu : u.Active) (hp : p.Web)
    (hq : q.Dns) :
    ((∀ d d', SameVerdict (forwardVerdict ⟨droppacketinfo, u, d⟩ f rules p)
        (forwardVerdict ⟨droppacketinfo, u, d'⟩ f rules p)) ↔ u.Decides p) ∧
      ((∀ u u', SameVerdict (forwardVerdict ⟨droppacketinfo, u, d⟩ f rules q)
          (forwardVerdict ⟨droppacketinfo, u', d⟩ f rules q)) ↔
        d.enable = "0" ∨ (∃ v, traverse (domainRules droppacketinfo d) q = .ok v) ∧
          ∀ s, (StringOption.url s).applies q = .ok false) :=
  ⟨web_independent_iff droppacketinfo f rules hu hp,
    dns_independent_iff droppacketinfo f rules d hq⟩

def tcpHeader : List Byte := [0, 0, 0, 80, 0, 0, 0, 0, 0, 0, 0, 0, 0x50, 0, 0, 0, 0, 0, 0, 0]

def udpHeader : List Byte := [0, 0, 0, 53, 0, 0, 0, 0]

/-- All requests are denied and domains are not blocked: neither verdict depends on
the other configuration. -/
theorem blocking_independent_request :
    let p := Packet.mk .tcp (tcpHeader ++ ascii "GET / HTTP/1.0\r\n\r\n")
    let q := Packet.mk .udp (udpHeader ++ ascii "query")
    (∀ d d', SameVerdict (forwardVerdict ⟨"0", ⟨"1", "1", []⟩, d⟩ ⟨0, 0, 0, 0⟩ [] p)
        (forwardVerdict ⟨"0", ⟨"1", "1", []⟩, d'⟩ ⟨0, 0, 0, 0⟩ [] p)) ∧
      ∀ u u', SameVerdict (forwardVerdict ⟨"0", u, ⟨"0", [], []⟩⟩ ⟨0, 0, 0, 0⟩ [] q)
        (forwardVerdict ⟨"0", u', ⟨"0", [], []⟩⟩ ⟨0, 0, 0, 0⟩ [] q) := by
  intro p q
  obtain ⟨hweb, hdns⟩ := blocking_independent_iff "0" ⟨0, 0, 0, 0⟩ [] ⟨"1", "1", []⟩ ⟨"0", [], []⟩
    p q (by decide) (by decide) (by decide)
  exact ⟨hweb.mpr (by decide +kernel), hdns.mpr (.inl rfl)⟩

/-- One URL is denied. The first packet of a connection, which is no request, is dropped by
a list of allowed domains; a query that looks like a request is dropped by the rule for
the URL. -/
theorem blocking_not_independent :
    let p := Packet.mk .tcp tcpHeader
    let q := Packet.mk .udp (udpHeader ++ ascii "    0get / http/1.0\r\nhost: a\r\n")
    let u := UrlBlocking.mk "1" "0" [ascii "a"]
    (u.Active ∧ p.Web ∧
      forwardVerdict ⟨"0", u, ⟨"0", [], []⟩⟩ ⟨0, 0, 0, 0⟩ [] p = .ok none ∧
      forwardVerdict ⟨"0", u, ⟨"2", [], []⟩⟩ ⟨0, 0, 0, 0⟩ [] p = .ok (some .drop)) ∧
    q.Dns ∧
      forwardVerdict ⟨"0", ⟨"0", "0", []⟩, ⟨"1", [], []⟩⟩ ⟨0, 0, 0, 0⟩ [] q = .ok none ∧
      forwardVerdict ⟨"0", u, ⟨"1", [], []⟩⟩ ⟨0, 0, 0, 0⟩ [] q = .ok (some .drop) := by
  decide +kernel

end Wbr1310.Rg
