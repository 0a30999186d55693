import Wbr1310.Udhcpd.Provenance

/-!
# The search for an address

`find_address(1)` goes through the range and probes every address that the table lets
be given out. A probe that is answered marks the address in the table, in the oldest
expired slot, while the search goes on. The marks change nothing for the addresses
behind them, so the search comes to the lowest address that can be given out.
-/

namespace Wbr1310.Udhcpd

open Lib Program List

def consecutive : UInt32 → ℕ → List UInt32
  | _, 0 => []
  | a, n + 1 => a :: consecutive (a + 1) n

def ServerConfig.pool (cfg : ServerConfig) : List UInt32 :=
  consecutive cfg.startAddr (cfg.endAddr.toNat + 1 - cfg.startAddr.toNat)

variable {a : UInt32} {n : ℕ} {cfg : ServerConfig}

theorem toNat_add_one (h : a.toNat + 1 < 2 ^ 32) : (a + 1).toNat = a.toNat + 1 := by
  rw [UInt32.toNat_add, UInt32.toNat_one, Nat.mod_eq_of_lt h]

theorem mem_consecutive {b : UInt32} (h : a.toNat + n ≤ 2 ^ 32) :
    b ∈ consecutive a n ↔ a.toNat ≤ b.toNat ∧ b.toNat < a.toNat + n := by
  induction n generalizing a with
  | zero =>
    simp only [consecutive, not_mem_nil, false_iff]
    omega
  | succ n ih =>
    rw [consecutive, mem_cons, ← UInt32.toNat_inj]
    cases n with
    | zero =>
      simp only [consecutive, not_mem_nil, or_false]
      omega
    | succ n =>
      have hnext : (a + 1).toNat = a.toNat + 1 := toNat_add_one (by omega)
      rw [ih (by omega), hnext]
      omega

theorem pairwise_consecutive (h : a.toNat + n ≤ 2 ^ 32) :
    (consecutive a n).Pairwise (· < ·) := by
  induction n generalizing a with
  | zero => exact List.Pairwise.nil
  | succ n ih =>
    cases n with
    | zero => exact pairwise_singleton _ _
    | succ n =>
      have hnext : (a + 1).toNat = a.toNat + 1 := toNat_add_one (by omega)
      refine List.Pairwise.cons ?_ (ih (by omega))
      intro b hb
      rw [mem_consecutive (by omega), hnext] at hb
      rw [UInt32.lt_iff_toNat_lt]
      omega

theorem ServerConfig.mem_pool :
    a ∈ cfg.pool ↔ cfg.InRange a := by
  have hend := cfg.endAddr.toNat_lt
  have hstart := cfg.startAddr.toNat_lt
  rw [pool, mem_consecutive (by omega), InRange, UInt32.le_iff_toNat_le, UInt32.le_iff_toNat_le]
  omega

theorem ServerConfig.pairwise_pool (cfg : ServerConfig) : cfg.pool.Pairwise (· < ·) := by
  have hend := cfg.endAddr.toNat_lt
  have hstart := cfg.startAddr.toNat_lt
  exact pairwise_consecutive (by omega)

/-- The loop of `find_address`, over a list of addresses. -/
def search (env : Env) (cfg : ServerConfig) (checkExpired : Bool) : List UInt32 → Run UInt32
  | [] => pure 0
  | a :: as => do
    let ok ← tryAddress env cfg checkExpired a
    if ok then pure a else search env cfg checkExpired as

/-- The loop goes over the addresses up to the end of the range and comes to an end. -/
theorem findAddressFrom_eq_search {env : Env} {c : Bool} (hb : cfg.Bounded) {k : ℕ}
    (ha : a.toNat + k = cfg.endAddr.toNat + 1) (hn : k < n) :
    findAddressFrom env cfg c n a = search env cfg c (consecutive a k) := by
  have hend : cfg.endAddr.toNat + 1 < 2 ^ 32 := by
    have hlt := cfg.endAddr.toNat_lt
    have hne : cfg.endAddr.toNat ≠ 2 ^ 32 - 1 := fun e => hb (UInt32.toNat_inj.mp e)
    omega
  induction n generalizing a k with
  | zero => omega
  | succ n ih =>
    cases k with
    | zero =>
      have hpast : ¬ a ≤ cfg.endAddr := by
        rw [UInt32.le_iff_toNat_le]
        omega
      rw [findAddressFrom, if_neg hpast, consecutive, search]
    | succ k =>
      have hin : a ≤ cfg.endAddr := by
        rw [UInt32.le_iff_toNat_le]
        omega
      have hnext : (a + 1).toNat = a.toNat + 1 := toNat_add_one (by omega)
      have hrest : findAddressFrom env cfg c n (a + 1) =
          search env cfg c (consecutive (a + 1) k) := ih (by omega) (by omega)
      rw [findAddressFrom, if_pos hin, consecutive, search, hrest]

theorem findAddress_eq_search {env : Env} {c : Bool} (hb : cfg.Bounded)
    (hrange : cfg.startAddr ≤ cfg.endAddr)
    (hfuel : cfg.endAddr.toNat - cfg.startAddr.toNat + 2 ≤ env.fuel) :
    findAddress env cfg c = search env cfg c cfg.pool := by
  rw [UInt32.le_iff_toNat_le] at hrange
  exact findAddressFrom_eq_search hb (by omega) (by omega)

/-- The address may be probed: it ends in neither 0 nor 255, it is not reserved, and every entry
for it has expired. -/
structure Eligible (cfg : ServerConfig) (s : Server) (a : UInt32) : Prop where
  notNetwork : a &&& 0xFF ≠ 0
  notBroadcast : a &&& 0xFF ≠ 0xFF
  dynamic : cfg.Dynamic a
  untaken : ∀ l ∈ s.leases, l.yiaddr = a → l.Expired s.now

instance (cfg : ServerConfig) (s : Server) (a : UInt32) : Decidable (Eligible cfg s a) :=
  decidable_of_iff (a &&& 0xFF ≠ 0 ∧ a &&& 0xFF ≠ 0xFF ∧ cfg.Dynamic a ∧
      ∀ l ∈ s.leases, l.yiaddr = a → l.Expired s.now)
    ⟨fun ⟨hn, hb, hd, hu⟩ => ⟨hn, hb, hd, hu⟩, fun ⟨hn, hb, hd, hu⟩ => ⟨hn, hb, hd, hu⟩⟩

/-- The state after a probe of the address that was answered. -/
def Server.marked (s : Server) (cfg : ServerConfig) (a : UInt32) : Server :=
  { s with
    calls := s.calls + 1
    leases := (addLease s.leases s.now 0 a cfg.conflictTime none).1 }

def Server.HasSlot (s : Server) : Prop := ∃ l ∈ s.leases, l = .blank ∨ l.Expired s.now

/-- A mark that is set now has not expired at once, and a free slot counts as expired. -/
structure MarksRun (cfg : ServerConfig) (now : ℕ) : Prop where
  clock : time now ≠ 0
  wrap : (time now).toNat + cfg.conflictTime.toNat < 2 ^ 32

section OneAddress

variable {env : Env} {cfg : ServerConfig} {s : Server} {a b : UInt32}

theorem Eligible.ne_zero (h : Eligible cfg s a) : a ≠ 0 := by
  rintro rfl
  exact h.notNetwork rfl

theorem Server.free_true_iff (hs : UniqueKeys s.leases) (ha : a ≠ 0) :
    s.free true a = true ↔ ∀ l ∈ s.leases, l.yiaddr = a → l.Expired s.now := by
  constructor
  · intro hfree l hl hla
    obtain ⟨k, hk⟩ := exists_findLeaseByYiaddr hl
    obtain ⟨m, hm, hy⟩ := findLeaseByYiaddr_slot hk
    obtain rfl : m = l := hs.yiaddr.eq_of_mem (mem_of_getElem? hm) hl hy (hy ▸ hla ▸ ha)
    exact Server.free_stale hfree (hla ▸ hk) hm
  · intro hexp
    rw [Server.free]
    cases hk : findLeaseByYiaddr s.leases a with
    | none => rfl
    | some k =>
      obtain ⟨l, hl, hy⟩ := findLeaseByYiaddr_slot hk
      simp [hl, hexp l (mem_of_getElem? hl) hy]

theorem tryAddress_of_not_eligible (hs : UniqueKeys s.leases) (h : ¬ Eligible cfg s a) :
    tryAddress env cfg true a s = (some false, s) := by
  rw [tryAddress, get_bind_apply]
  split
  · rfl
  next hoctet =>
  split
  · rfl
  next hstatic =>
  rw [if_neg]
  · rfl
  · intro hfree
    obtain ⟨hlow, hhigh⟩ := not_or.mp hoctet
    have ha : a ≠ 0 := by
      rintro rfl
      exact hlow rfl
    have hd : cfg.Dynamic a := by simpa [ServerConfig.Dynamic] using hstatic
    exact h ⟨hlow, hhigh, hd, (Server.free_true_iff hs ha).mp hfree⟩

theorem tryAddress_of_eligible (hs : UniqueKeys s.leases) (h : Eligible cfg s a) {taken : Bool}
    (harp : env.arpping s.calls = (taken, 0)) :
    tryAddress env cfg true a s =
      (some (!taken), if taken then s.marked cfg a else { s with calls := s.calls + 1 }) := by
  have hfree : s.free true a = true := (Server.free_true_iff hs h.ne_zero).mpr h.untaken
  have hstatic : ¬ (cfg.findStaticLeaseByYiaddr a).isSome = true := by
    rw [show cfg.findStaticLeaseByYiaddr a = none from h.dynamic]
    simp
  have hask : ask env.arpping s = (some (taken, 0), { s with calls := s.calls + 1 }) := by
    rw [← harp]
    rfl
  have hcheck : checkIp env cfg a s =
      (some taken, if taken then s.marked cfg a else { s with calls := s.calls + 1 }) := by
    rw [checkIp, bind_of_some hask]
    cases taken with
    | false => rfl
    | true => rfl
  rw [tryAddress, get_bind_apply, if_neg (not_or.mpr ⟨h.notNetwork, h.notBroadcast⟩),
    if_neg hstatic, if_pos hfree, bind_of_some hcheck]
  rfl

theorem Eligible.mem_marked (h : Eligible cfg s a) {l : Lease} (hl : l ∈ s.leases)
    (hexp : ¬ l.Expired s.now) : l ∈ (s.marked cfg a).leases := by
  refine mem_storeLease_of_not_matches hl ?_ hexp
  rintro (⟨h0, -⟩ | ⟨-, hla⟩)
  · exact h0 rfl
  · exact hexp (h.untaken l hl hla)

theorem Eligible.marked_iff (h : Eligible cfg s a) (hab : b ≠ a) :
    Eligible cfg (s.marked cfg a) b ↔ Eligible cfg s b := by
  constructor
  · intro hb
    refine ⟨hb.notNetwork, hb.notBroadcast, hb.dynamic, ?_⟩
    intro l hl hlb
    by_contra hexp
    exact hexp (hb.untaken l (h.mem_marked hl hexp) hlb)
  · intro hb
    refine ⟨hb.notNetwork, hb.notBroadcast, hb.dynamic, ?_⟩
    intro l hl hlb
    obtain rfl | hl | ⟨o, -, rfl⟩ := mem_storeLease hl
    · exact absurd hlb.symm hb.ne_zero
    · exact hb.untaken l hl hlb
    · exact absurd hlb.symm hab

theorem exists_mark (h : MarksRun cfg s.now) (hslot : s.HasSlot) :
    ∃ l ∈ (s.marked cfg a).leases, l.chaddr = 0 ∧ l.yiaddr = a ∧ ¬ l.Expired s.now := by
  have hclock : 0 < time s.now := UInt32.pos_iff_ne_zero.mpr h.clock
  have hmark : ¬ time s.now + cfg.conflictTime < time s.now := by
    rw [UInt32.lt_iff_toNat_lt, UInt32.toNat_add, Nat.mod_eq_of_lt h.wrap]
    omega
  obtain ⟨o, ho, hfree⟩ := hslot
  obtain ⟨o', ho'⟩ := exists_recycled 0 a ho (.inr hfree) hclock
  exact ⟨_, (recycled_spec _ ho').2.2, rfl, rfl, hmark⟩

end OneAddress

/-- The state in which the loop comes to an address, when none before it was returned. -/
def comesTo (env : Env) (cfg : ServerConfig) (before : List UInt32) (s : Server) : Server :=
  before.foldl (fun s a => (tryAddress env cfg true a s).2) s

/-- What the search leaves behind: no entry that runs is lost, and, if marks run, an address that
answers is marked if there was a slot when the loop came to it. -/
structure Searched (env : Env) (cfg : ServerConfig) (answers : UInt32 → Bool) (as : List UInt32)
    (s t : Server) : Prop where
  now : t.now = s.now
  keeps : ∀ l ∈ s.leases, ¬ l.Expired s.now → l ∈ t.leases
  marks : MarksRun cfg s.now → ∀ before b after, as = before ++ b :: after → Eligible cfg s b →
    (∀ c ∈ before ++ [b], Eligible cfg s c → answers c = true) →
    (comesTo env cfg before s).HasSlot → ∃ l ∈ t.leases, l.chaddr = 0 ∧ l.yiaddr = b

/-- The address that the search should return from a list. -/
def firstUsable (cfg : ServerConfig) (answers : UInt32 → Bool) (s : Server) (as : List UInt32) :
    Option UInt32 :=
  as.find? fun b => decide (Eligible cfg s b) && !answers b

section Search

variable {env : Env} {cfg : ServerConfig} {answers : UInt32 → Bool} {s t : Server} {a : UInt32}
  {as : List UInt32}

theorem Searched.skip (h : Searched env cfg answers as s t) (hs : UniqueKeys s.leases)
    (ha : ¬ Eligible cfg s a) : Searched env cfg answers (a :: as) s t := by
  refine ⟨h.now, h.keeps, ?_⟩
  rintro hrun (_ | ⟨a', before⟩) b after hsplit hb hall hslot
  · obtain ⟨rfl, -⟩ := cons.inj hsplit
    exact absurd hb ha
  · obtain ⟨rfl, rfl⟩ := cons.inj hsplit
    have hsame : comesTo env cfg (a :: before) s = comesTo env cfg before s := by
      rw [comesTo, foldl_cons, tryAddress_of_not_eligible hs ha]
      rfl
    exact h.marks hrun before b after rfl hb (fun c hc => hall c (mem_cons_of_mem _ hc))
      (hsame ▸ hslot)

theorem Searched.mark (h : Searched env cfg answers as (s.marked cfg a) t)
    (hs : UniqueKeys s.leases) (ha : Eligible cfg s a) (harp : env.arpping s.calls = (true, 0))
    (hother : ∀ b ∈ as, b ≠ a) :
    Searched env cfg answers (a :: as) s t := by
  refine ⟨h.now, ?_, ?_⟩
  · intro l hl hexp
    exact h.keeps l (ha.mem_marked hl hexp) hexp
  · rintro hrun (_ | ⟨a', before⟩) b after hsplit hb hall hslot
    · obtain ⟨rfl, -⟩ := cons.inj hsplit
      obtain ⟨l, hl, hc, hy, hexp⟩ := exists_mark (a := a) hrun hslot
      exact ⟨l, h.keeps l hl hexp, hc, hy⟩
    · obtain ⟨rfl, rfl⟩ := cons.inj hsplit
      have hsame : comesTo env cfg (a :: before) s = comesTo env cfg before (s.marked cfg a) := by
        rw [comesTo, foldl_cons, tryAddress_of_eligible hs ha harp]
        rfl
      have hne : ∀ c ∈ before ++ [b], c ≠ a := by
        intro c hc
        apply hother c
        obtain hc | hc := mem_append.mp hc
        · exact mem_append_left _ hc
        · exact mem_append_right _ (mem_cons.mpr (.inl (mem_singleton.mp hc)))
      refine h.marks hrun before b after rfl ?_ ?_ (hsame ▸ hslot)
      · exact (ha.marked_iff (hne b (by simp))).mpr hb
      · intro c hc hec
        exact hall c (mem_cons_of_mem _ hc) ((ha.marked_iff (hne c hc)).mp hec)

/-- The search over increasing addresses returns the first one that may be probed and does not
answer; `answers` says how the addresses that are probed answer. -/
theorem search_spec (hs : UniqueKeys s.leases) (has : as.Pairwise (· < ·))
    (hans : ∀ i b, (as.filter (Eligible cfg s ·))[i]? = some b →
      env.arpping (s.calls + i) = (answers b, 0)) :
    ∃ t, search env cfg true as s = (some ((firstUsable cfg answers s as).getD 0), t) ∧
      Searched env cfg answers as s t := by
  induction as generalizing s with
  | nil =>
    refine ⟨s, rfl, rfl, fun l hl _ => hl, ?_⟩
    intro _ before b after hsplit
    exact absurd hsplit (by simp)
  | cons a as ih =>
    have hlater : ∀ b ∈ as, b ≠ a := by
      intro b hb e
      have hlt : a < b := (pairwise_cons.mp has).1 b hb
      rw [e] at hlt
      exact absurd hlt (UInt32.lt_irrefl a)
    by_cases ha : Eligible cfg s a
    · have harp : env.arpping s.calls = (answers a, 0) := hans 0 a (by simp [ha])
      cases htaken : answers a with
      | false =>
        rw [htaken] at harp
        have htry := tryAddress_of_eligible hs ha harp
        refine ⟨{ s with calls := s.calls + 1 }, ?_, rfl, fun l hl _ => hl, ?_⟩
        · rw [search, bind_of_some htry, firstUsable,
            find?_cons_of_pos (by simp [ha, htaken])]
          rfl
        · -- the search does not get behind the address
          intro _ before b after hsplit _ hall
          have hmem : a ∈ before ++ [b] := by
            cases before with
            | nil => simp [(cons.inj hsplit).1]
            | cons c before => simp [(cons.inj hsplit).1]
          rw [hall a hmem ha] at htaken
          cases htaken
      | true =>
        rw [htaken] at harp
        have htry := tryAddress_of_eligible hs ha harp
        have hsame : as.filter (Eligible cfg (s.marked cfg a) ·) =
            as.filter (Eligible cfg s ·) := by
          apply filter_congr
          intro b hb
          exact decide_eq_decide.mpr (ha.marked_iff (hlater b hb))
        have hfirst : firstUsable cfg answers (s.marked cfg a) as =
            firstUsable cfg answers s as := by
          rw [firstUsable, firstUsable, ← head?_filter, ← head?_filter]
          congr 1
          apply filter_congr
          intro b hb
          rw [decide_eq_decide.mpr (ha.marked_iff (hlater b hb))]
        obtain ⟨t, hrun, hsearched⟩ := ih (s := s.marked cfg a) (hs.addLease s.now 0 a _ _)
          (pairwise_cons.mp has).2 (by
            intro i b hb
            rw [hsame] at hb
            have hi := hans (i + 1) b (by simpa [ha] using hb)
            rw [← hi, Server.marked, Nat.add_assoc, Nat.add_comm 1])
        refine ⟨t, ?_, hsearched.mark hs ha harp hlater⟩
        rw [search, bind_of_some htry, firstUsable,
          find?_cons_of_neg (by simp [htaken])]
        rw [hfirst] at hrun
        exact hrun
    · obtain ⟨t, hrun, hsearched⟩ := ih hs (pairwise_cons.mp has).2 (by
        intro i b hb
        exact hans i b (by simpa [ha] using hb))
      refine ⟨t, ?_, hsearched.skip hs ha⟩
      rw [search, bind_of_some (tryAddress_of_not_eligible hs ha), firstUsable,
        find?_cons_of_neg (by simp [ha])]
      exact hrun

/-- The address can be given out: it is one of the range, may be probed and does not answer. -/
structure Usable (cfg : ServerConfig) (s : Server) (answers : UInt32 → Bool) (a : UInt32) :
    Prop where
  range : cfg.InRange a
  eligible : Eligible cfg s a
  quiet : answers a = false

theorem usable_iff : Usable cfg s answers a ↔
    a ∈ cfg.pool ∧ (decide (Eligible cfg s a) && !answers a) = true := by
  rw [ServerConfig.mem_pool, Bool.and_eq_true, decide_eq_true_eq, Bool.not_eq_true']
  exact ⟨fun h => ⟨h.range, h.eligible, h.quiet⟩, fun ⟨hr, he, hq⟩ => ⟨hr, he, hq⟩⟩

theorem firstUsable_some (h : firstUsable cfg answers s cfg.pool = some a) :
    Usable cfg s answers a ∧ ∀ b, Usable cfg s answers b → a ≤ b := by
  obtain ⟨ha, before, after, hpool, hbefore⟩ := find?_eq_some_iff_append.mp h
  have hmem : a ∈ cfg.pool := by simp [hpool]
  refine ⟨usable_iff.mpr ⟨hmem, ha⟩, ?_⟩
  intro b hb
  obtain ⟨hbmem, hbuse⟩ := usable_iff.mp hb
  have hsorted := cfg.pairwise_pool
  rw [hpool] at hbmem hsorted
  obtain hb | hb := mem_append.mp hbmem
  · have hno := hbefore b hb
    rw [hbuse] at hno
    cases hno
  · obtain rfl | hb := mem_cons.mp hb
    · exact UInt32.le_refl b
    · have hlt := (pairwise_cons.mp (pairwise_append.mp hsorted).2.1).1 b hb
      exact UInt32.le_of_lt hlt

theorem firstUsable_none (h : firstUsable cfg answers s cfg.pool = none) :
    ∀ b, ¬ Usable cfg s answers b := by
  intro b hb
  obtain ⟨hmem, huse⟩ := usable_iff.mp hb
  exact find?_eq_none.mp h b hmem huse

theorem firstUsable_getD (cfg : ServerConfig) (answers : UInt32 → Bool) (s : Server) :
    let a := (firstUsable cfg answers s cfg.pool).getD 0
    (a ≠ 0 → Usable cfg s answers a ∧ ∀ b, Usable cfg s answers b → a ≤ b) ∧
      (a = 0 ↔ ∀ b, ¬ Usable cfg s answers b) := by
  cases hfirst : firstUsable cfg answers s cfg.pool with
  | none => exact ⟨fun h => absurd rfl h, iff_of_true rfl (firstUsable_none hfirst)⟩
  | some a =>
    obtain ⟨ha, hlow⟩ := firstUsable_some hfirst
    refine ⟨fun _ => ⟨ha, hlow⟩, iff_of_false ha.eligible.ne_zero ?_⟩
    exact fun h => h a ha

theorem takeWhile_pool {before after : List UInt32} (h : cfg.pool = before ++ a :: after) :
    cfg.pool.takeWhile (· < a) = before := by
  have hsorted := cfg.pairwise_pool
  rw [h] at hsorted ⊢
  have hless : ∀ b ∈ before, decide (b < a) = true := by
    intro b hb
    exact decide_eq_true ((pairwise_append.mp hsorted).2.2 b hb a mem_cons_self)
  rw [takeWhile_append_of_pos hless, takeWhile_cons_of_neg (by simp), append_nil]

end Search

/-- In every state the server reaches, for a range whose last address does not end in 255, with
any answers to the probes, and while the clock stands still: the search ends with the lowest
address of the range that can be given out, or with zero if there is none, and no entry that runs
is lost. If the clock is not at zero and the end of a mark fits the clock, every address that is
probed and answers is marked when there was a slot for it. -/
theorem findAddress_complete (env₀ env : Env) (cfg : ServerConfig) (maxLeases start : ℕ)
    (file : Option (List FileRecord)) (events : List Event) (s : Server)
    (hs : s = (main env₀ cfg file events (.start maxLeases start)).2)
    (hrange : cfg.startAddr ≤ cfg.endAddr) (hoctet : cfg.endAddr &&& 0xFF ≤ 254)
    (hfuel : cfg.endAddr.toNat - cfg.startAddr.toNat + 2 ≤ env.fuel) (answers : UInt32 → Bool)
    (hans : ∀ i b, (cfg.pool.filter (Eligible cfg s ·))[i]? = some b →
      env.arpping (s.calls + i) = (answers b, 0)) :
    ∃ a t, findAddress env cfg true s = (some a, t) ∧
      (a ≠ 0 → Usable cfg s answers a ∧ ∀ b, Usable cfg s answers b → a ≤ b) ∧
      (a = 0 ↔ ∀ b, ¬ Usable cfg s answers b) ∧
      (∀ l ∈ s.leases, ¬ l.Expired s.now → l ∈ t.leases) ∧
      (MarksRun cfg s.now → ∀ b, cfg.InRange b → Eligible cfg s b → answers b = true →
        (a = 0 ∨ b < a) → (comesTo env cfg (cfg.pool.takeWhile (· < b)) s).HasSlot →
        ∃ l ∈ t.leases, l.chaddr = 0 ∧ l.yiaddr = b) := by
  have hkeys : UniqueKeys s.leases := by
    rw [hs]
    exact (main_keeps env₀ cfg file events (fun _ _ _ _ h => readRecords_uniqueKeys h)
      fun s t hs h => hs.uniqueKeys h).always (UniqueKeys.replicate maxLeases)
  have hb : cfg.Bounded := by
    intro e
    rw [e] at hoctet
    exact absurd hoctet (by decide)
  obtain ⟨t, hrun, hsearched⟩ := search_spec hkeys cfg.pairwise_pool hans
  obtain ⟨hlow, hzero⟩ := firstUsable_getD cfg answers s
  refine ⟨_, t, ?_, hlow, hzero, hsearched.keeps, ?_⟩
  · rw [findAddress_eq_search hb hrange hfuel]
    exact hrun
  · intro hmarks b hbr hbe hbans hbefore hslot
    obtain ⟨before, after, hpool⟩ := append_of_mem (ServerConfig.mem_pool.mpr hbr)
    rw [takeWhile_pool hpool] at hslot
    refine hsearched.marks hmarks before b after hpool hbe ?_ hslot
    -- up to the address all that may be probed answer, or one of them would be returned
    intro c hc hce
    by_contra hquiet
    have hcb : c ≤ b := by
      obtain hc | hc := mem_append.mp hc
      · have hsorted := cfg.pairwise_pool
        rw [hpool] at hsorted
        exact UInt32.le_of_lt ((pairwise_append.mp hsorted).2.2 c hc b mem_cons_self)
      · rw [mem_singleton.mp hc]
        exact UInt32.le_refl b
    have hcmem : c ∈ cfg.pool := by
      rw [hpool]
      obtain hc | hc := mem_append.mp hc
      · exact mem_append_left _ hc
      · exact mem_append_right _ (mem_cons.mpr (.inl (mem_singleton.mp hc)))
    have hcuse : Usable cfg s answers c :=
      ⟨ServerConfig.mem_pool.mp hcmem, hce, Bool.not_eq_true _ ▸ hquiet⟩
    obtain h0 | hlt := hbefore
    · exact hzero.mp h0 c hcuse
    · have hne := fun h0 => hzero.mp h0 c hcuse
      exact absurd ((hlow hne).2 c hcuse)
        (UInt32.not_le.mpr (UInt32.lt_of_le_of_lt hcb hlt))

/-- The first address of the small network answers, the second does not. -/
def firstTaken : Env := { quietNet with arpping := fun n => (n == 1, 0) }

/-- The first address answers and is marked, the second one is found. -/
theorem findAddress_complete_lan :
    ∃ t, findAddress firstTaken lan true (main quietNet lan none [] (.start 2 1000)).2 =
        (some 0xC0A80065, t) ∧ ∃ l ∈ t.leases, l.chaddr = 0 ∧ l.yiaddr = 0xC0A80064 := by
  have heligible : lan.pool.filter (Eligible lan
      (main quietNet lan none [] (.start 2 1000)).2 ·) = [0xC0A80064, 0xC0A80065] := by
    decide +kernel
  obtain ⟨a, t, hrun, -, -, -, hmarks⟩ :=
    findAddress_complete quietNet firstTaken lan 2 1000 none []
    (main quietNet lan none [] (.start 2 1000)).2 rfl (by decide) (by decide) (by decide)
    (fun a => a == 0xC0A80064) (by
      intro i b hb
      rw [heligible] at hb
      match i, hb with
      | 0, rfl => rfl
      | 1, rfl => rfl)
  have ha : (findAddress firstTaken lan true (main quietNet lan none [] (.start 2 1000)).2).1 =
      some 0xC0A80065 := by decide +kernel
  rw [hrun] at ha
  obtain rfl := Option.some.inj ha
  exact ⟨t, hrun, hmarks ⟨by decide, by decide⟩ 0xC0A80064 ⟨by decide, by decide⟩
    (by decide +kernel) rfl (.inr (by decide)) ⟨.blank, by decide +kernel, .inl rfl⟩⟩

def longConflict : ServerConfig := { lan with conflictTime := 0xFFFFFFFF }

def busyNet : Env := { quietNet with arpping := fun _ => (true, 0) }

/-- In a table with one slot the mark of the first address has expired at once, and that of the
second one takes its place, although the slot was free when the first one was probed. -/
theorem mark_lost :
    let s := (main busyNet longConflict none [] (.start 1 1000)).2
    s.HasSlot ∧ Eligible longConflict s 0xC0A80064 ∧
      (findAddress busyNet longConflict true s).1 = some 0 ∧
      (findAddress busyNet longConflict true s).2.leases = [⟨0, 0xC0A80065, 999, 0, []⟩] :=
  ⟨⟨.blank, by decide +kernel, .inl rfl⟩, by decide +kernel, by decide +kernel, by decide +kernel⟩

end Wbr1310.Udhcpd
