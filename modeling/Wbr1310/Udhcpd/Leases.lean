import Wbr1310.Lib.Table
import Wbr1310.Udhcpd.Options

/-!
# The lease table

The model of `leases.c`. The table is the list of the `max_leases` slots of the
array; a pointer to a slot is its index. `time(0)` is the clock of the server cut
to 32 bits, as are the times in the table.
-/

namespace Wbr1310.Udhcpd

open Lib

/-- `struct dhcpOfferedAddr`; the host name is the string in its field. -/
structure Lease where
  chaddr : Chaddr
  yiaddr : UInt32
  expires : UInt32
  acked : UInt32
  hostname : List UInt8
  deriving DecidableEq, Repr

/-- A slot after `memset`. -/
def Lease.blank : Lease := ⟨0, 0, 0, 0, []⟩

/-- What is read of an entry of `static_leases`. -/
structure StaticLease where
  chaddr : Chaddr
  yiaddr : UInt32
  deriving DecidableEq, Repr

/-- The configuration, as far as the handling of leases reads it. -/
structure ServerConfig where
  server : UInt32
  startAddr : UInt32
  endAddr : UInt32
  lease : UInt32
  minLease : UInt32
  offerTime : UInt32
  conflictTime : UInt32
  declineTime : UInt32
  remaining : Bool
  staticLeases : List StaticLease

def maxStaticLeases : ℕ := 32

namespace ServerConfig

variable (cfg : ServerConfig)

/-- The entries the searches of `static_leases` go through. -/
def statics : List StaticLease :=
  (cfg.staticLeases.take maxStaticLeases).takeWhile fun l => l.yiaddr ≠ 0

def findStaticLeaseByChaddr (chaddr : Chaddr) : Option StaticLease :=
  cfg.statics.find? fun l => l.chaddr = chaddr

def findStaticLeaseByYiaddr (yiaddr : UInt32) : Option StaticLease :=
  cfg.statics.find? fun l => l.yiaddr = yiaddr

def Unreserved (chaddr : Chaddr) : Prop := cfg.findStaticLeaseByChaddr chaddr = none

def Dynamic (yiaddr : UInt32) : Prop := cfg.findStaticLeaseByYiaddr yiaddr = none

instance (chaddr : Chaddr) : Decidable (cfg.Unreserved chaddr) :=
  inferInstanceAs (Decidable (_ = none))

instance (yiaddr : UInt32) : Decidable (cfg.Dynamic yiaddr) :=
  inferInstanceAs (Decidable (_ = none))

variable {cfg}

theorem static_found {chaddr : Chaddr} {l : StaticLease}
    (h : cfg.findStaticLeaseByChaddr chaddr = some l) : ¬ cfg.Dynamic l.yiaddr ∧ l.yiaddr ≠ 0 := by
  have hl : l ∈ cfg.statics := List.mem_of_find?_eq_some h
  constructor
  · intro hd
    have := List.find?_eq_none.mp hd l hl
    simp at this
  · have := List.mem_takeWhile_imp hl
    simpa using this

end ServerConfig

/-- `time(0)`. -/
def time (now : ℕ) : UInt32 := UInt32.ofNat now

/-- `lease_expired`. -/
def Lease.Expired (l : Lease) (now : ℕ) : Prop := l.expires < time now

instance (l : Lease) (now : ℕ) : Decidable (l.Expired now) :=
  inferInstanceAs (Decidable (_ < _))

def findLeaseByChaddr (leases : List Lease) (chaddr : Chaddr) : Option ℕ :=
  leases.findIdx? fun l => l.chaddr = chaddr

def findLeaseByYiaddr (leases : List Lease) (yiaddr : UInt32) : Option ℕ :=
  leases.findIdx? fun l => l.yiaddr = yiaddr

/-- The loop of `oldest_expired_lease`, from the slot `i` on. -/
def oldestFrom : List Lease → ℕ → UInt32 → Option ℕ → Option ℕ
  | [], _, _, oldest => oldest
  | l :: leases, i, oldestLease, oldest =>
    if oldestLease > l.expires then oldestFrom leases (i + 1) l.expires (some i)
    else oldestFrom leases (i + 1) oldestLease oldest

def oldestExpiredLease (leases : List Lease) (now : ℕ) : Option ℕ :=
  oldestFrom leases 0 (time now) none

variable {leases : List Lease} {k now : ℕ} {chaddr : Chaddr} {yiaddr : UInt32} {l : Lease}

theorem findIdx?_slot {p : Lease → Bool} (h : leases.findIdx? p = some k) :
    ∃ l, leases[k]? = some l ∧ p l = true := by
  obtain ⟨hk, hp, -⟩ := List.findIdx?_eq_some_iff_getElem.mp h
  exact ⟨leases[k], List.getElem?_eq_getElem hk, hp⟩

theorem findLeaseByChaddr_slot (h : findLeaseByChaddr leases chaddr = some k) :
    ∃ l, leases[k]? = some l ∧ l.chaddr = chaddr := by
  obtain ⟨l, hl, hp⟩ := findIdx?_slot h
  exact ⟨l, hl, of_decide_eq_true hp⟩

theorem findLeaseByYiaddr_slot (h : findLeaseByYiaddr leases yiaddr = some k) :
    ∃ l, leases[k]? = some l ∧ l.yiaddr = yiaddr := by
  obtain ⟨l, hl, hp⟩ := findIdx?_slot h
  exact ⟨l, hl, of_decide_eq_true hp⟩

theorem exists_findLeaseByYiaddr (h : l ∈ leases) :
    ∃ k, findLeaseByYiaddr leases l.yiaddr = some k := by
  apply Option.ne_none_iff_exists'.mp
  intro hn
  have := List.findIdx?_eq_none_iff.mp hn l h
  simp at this

theorem oldestFrom_some {i : ℕ} {best : UInt32} {oldest : Option ℕ}
    (h : oldestFrom leases i best oldest = some k) :
    oldest = some k ∨ ∃ j l, k = i + j ∧ leases[j]? = some l ∧ l.expires < best := by
  induction leases generalizing i best oldest with
  | nil => exact .inl h
  | cons m leases ih =>
    simp only [oldestFrom] at h
    split at h
    · next hm =>
      obtain h | ⟨j, l, rfl, hl, hlt⟩ := ih h
      · exact .inr ⟨0, m, by simpa using h.symm, rfl, hm⟩
      · exact .inr ⟨j + 1, l, by omega, hl, UInt32.lt_trans hlt hm⟩
    · obtain h | ⟨j, l, rfl, hl, hlt⟩ := ih h
      · exact .inl h
      · exact .inr ⟨j + 1, l, by omega, hl, hlt⟩

theorem oldestFrom_isSome {i : ℕ} {best : UInt32} {oldest : Option ℕ}
    (h : oldest.isSome ∨ ∃ l ∈ leases, l.expires < best) :
    (oldestFrom leases i best oldest).isSome := by
  induction leases generalizing i best oldest with
  | nil => simpa [oldestFrom] using h
  | cons m leases ih =>
    simp only [oldestFrom]
    split
    · exact ih (.inl rfl)
    · next hm =>
      apply ih
      obtain h | ⟨l, hl, hlt⟩ := h
      · exact .inl h
      · obtain rfl | hl := List.mem_cons.mp hl
        · exact absurd hlt hm
        · exact .inr ⟨l, hl, hlt⟩

theorem Lease.Expired.pos (h : l.Expired now) : 0 < now := by
  apply Nat.pos_of_ne_zero
  rintro rfl
  exact absurd h (UInt32.not_lt.mpr (UInt32.le_iff_toNat_le.mpr (Nat.zero_le _)))

theorem Lease.expired_iff (h : now < 2 ^ 32) :
    l.Expired now ↔ l.expires.toNat < now := by
  simp only [Lease.Expired, time, UInt32.lt_iff_toNat_lt, UInt32.toNat_ofNat', Nat.mod_eq_of_lt h]

theorem oldestExpiredLease_slot (h : oldestExpiredLease leases now = some k) :
    ∃ l, leases[k]? = some l ∧ l.Expired now := by
  obtain h | ⟨j, l, rfl, hl, hlt⟩ := oldestFrom_some h
  · exact absurd h (by simp)
  · exact ⟨l, by simpa using hl, hlt⟩

theorem oldestExpiredLease_isSome (hl : l ∈ leases) (h : l.Expired now) :
    (oldestExpiredLease leases now).isSome :=
  oldestFrom_isSome (.inr ⟨l, hl, h⟩)

/-- What `clear_lease` looks for: a nonzero address of either kind that is the given one. -/
def Lease.Matches (l : Lease) (chaddr : Chaddr) (yiaddr : UInt32) : Prop :=
  (chaddr ≠ 0 ∧ l.chaddr = chaddr) ∨ (yiaddr ≠ 0 ∧ l.yiaddr = yiaddr)

instance (l : Lease) (chaddr : Chaddr) (yiaddr : UInt32) : Decidable (l.Matches chaddr yiaddr) :=
  inferInstanceAs (Decidable (_ ∨ _))

section

variable (leases : List Lease) (now : ℕ) (chaddr : Chaddr) (yiaddr : UInt32)

def clearLease : List Lease :=
  leases.map fun l => if l.Matches chaddr yiaddr then .blank else l

/-- Clear the table for a client and an address and write to the oldest expired slot, if any. -/
def storeLease (write : Lease → Lease) : List Lease × Option ℕ :=
  let cleared := clearLease leases chaddr yiaddr
  match oldestExpiredLease cleared now with
  | none => (cleared, none)
  | some k => (cleared.modify k write, some k)

/-- `strncpy` to a host name field of 64 bytes whose last byte is then set to zero. -/
def hostnameField (s : List UInt8) : List UInt8 := (s.takeWhile fun b => b ≠ 0).take 63

/-- What `add_lease` writes to a slot; without a host name that of the slot stays. -/
def Lease.assign (expires : UInt32) (hostname : Option (List UInt8)) (l : Lease) : Lease :=
  { l with
    chaddr := chaddr, yiaddr := yiaddr, expires := expires
    hostname := (hostname.map hostnameField).getD l.hostname }

/-- `add_lease`: the new table and the slot it returns. -/
def addLease (lease : UInt32) (hostname : Option (List UInt8)) : List Lease × Option ℕ :=
  storeLease leases now chaddr yiaddr (.assign chaddr yiaddr (time now + lease) hostname)

/-- `ACKed = 1` for a slot that was returned. -/
def markAcked : Option ℕ → List Lease
  | none => leases
  | some k => leases.modify k fun l => { l with acked := 1 }

end

theorem mem_clearLease (h : l ∈ clearLease leases chaddr yiaddr) :
    l = .blank ∨ (l ∈ leases ∧ ¬ l.Matches chaddr yiaddr) := by
  obtain ⟨m, hm, rfl⟩ := List.mem_map.mp h
  split
  · exact .inl rfl
  · next hn => exact .inr ⟨hm, hn⟩

theorem mem_clearLease_of_not_matches (h : l ∈ leases) (hn : ¬ l.Matches chaddr yiaddr) :
    l ∈ clearLease leases chaddr yiaddr :=
  List.mem_map.mpr ⟨l, h, if_neg hn⟩

theorem DistinctKeys.clearLease {κ : Type*} {key : Lease → κ} {zero : κ}
    (h : DistinctKeys key zero leases) (hz : key .blank = zero) (chaddr : Chaddr)
    (yiaddr : UInt32) : DistinctKeys key zero (clearLease leases chaddr yiaddr) := by
  apply h.map
  intro l
  split
  · exact .inr hz
  · exact .inl rfl

/-- The slot that `add_lease` writes to. -/
def recycled (leases : List Lease) (now : ℕ) (chaddr : Chaddr) (yiaddr : UInt32) : Option Lease :=
  (oldestExpiredLease (clearLease leases chaddr yiaddr) now).bind fun k =>
    (clearLease leases chaddr yiaddr)[k]?

section Store

variable (leases : List Lease) (now : ℕ) (chaddr : Chaddr) (yiaddr : UInt32)
  (write : Lease → Lease)

/-- Either there is no expired slot, or one of them is written to. -/
theorem storeLease_cases : (storeLease leases now chaddr yiaddr write = (clearLease leases chaddr
      yiaddr, none) ∧ recycled leases now chaddr yiaddr = none) ∨
    ∃ k o, storeLease leases now chaddr yiaddr write = ((clearLease leases chaddr yiaddr).modify k
      write, some k) ∧ (clearLease leases chaddr yiaddr)[k]? = some o ∧ o.Expired now ∧
        recycled leases now chaddr yiaddr = some o := by
  simp only [storeLease, recycled]
  cases hk : oldestExpiredLease (clearLease leases chaddr yiaddr) now with
  | none => exact .inl ⟨rfl, rfl⟩
  | some k =>
    obtain ⟨o, ho, hexp⟩ := oldestExpiredLease_slot hk
    exact .inr ⟨k, o, rfl, ho, hexp, ho⟩

variable {leases now chaddr yiaddr write}

variable {l o : Lease}

variable (write) in
theorem recycled_spec (h : recycled leases now chaddr yiaddr = some o) :
    (o = .blank ∨ o ∈ leases) ∧ o.Expired now ∧
      write o ∈ (storeLease leases now chaddr yiaddr write).1 := by
  obtain ⟨-, e⟩ | ⟨k, o', e, ho, hexp, e'⟩ := storeLease_cases leases now chaddr yiaddr write
  · exact absurd (e.symm.trans h) (by simp)
  · obtain rfl := Option.some.inj (e'.symm.trans h)
    rw [e]
    exact ⟨(mem_clearLease (List.mem_of_getElem? ho)).imp_right And.left, hexp,
      mem_modify_self ho⟩

theorem storeLease_isSome_iff : (storeLease leases now chaddr yiaddr write).2.isSome ↔
    ∃ o, recycled leases now chaddr yiaddr = some o := by
  rw [← Option.isSome_iff_exists]
  obtain ⟨e, e'⟩ | ⟨k, o, e, -, -, e'⟩ := storeLease_cases leases now chaddr yiaddr write
  all_goals rw [e, e']; simp

theorem mem_storeLease (h : l ∈ (storeLease leases now chaddr yiaddr write).1) :
    l = .blank ∨ l ∈ leases ∨ ∃ o, recycled leases now chaddr yiaddr = some o ∧ l = write o := by
  have hold : l ∈ clearLease leases chaddr yiaddr → l = .blank ∨ l ∈ leases :=
    fun h => (mem_clearLease h).imp_right And.left
  obtain ⟨e, -⟩ | ⟨k, o, e, ho, -, e'⟩ := storeLease_cases leases now chaddr yiaddr write
  all_goals rw [e] at h
  · exact (hold h).imp_right .inl
  · obtain h | ⟨o', ho', hw⟩ := mem_modify h
    · exact (hold h).imp_right .inl
    · obtain rfl := Option.some.inj (ho.symm.trans ho')
      exact .inr (.inr ⟨o, e', hw⟩)

/-- What holds of a blank slot, of all entries and of what is written holds of all entries
afterwards. -/
theorem forall_mem_storeLease {R : Lease → Prop} (hblank : R .blank) (h : ∀ l ∈ leases, R l)
    (hw : ∀ o, recycled leases now chaddr yiaddr = some o → R (write o)) :
    ∀ l ∈ (storeLease leases now chaddr yiaddr write).1, R l := by
  intro l hl
  obtain rfl | hl | ⟨o, ho, rfl⟩ := mem_storeLease hl
  · exact hblank
  · exact h l hl
  · exact hw o ho

theorem mem_storeLease_of_not_matches (h : l ∈ leases) (hn : ¬ l.Matches chaddr yiaddr)
    (hl : ¬ l.Expired now) :
    l ∈ (storeLease leases now chaddr yiaddr write).1 := by
  have hc := mem_clearLease_of_not_matches h hn
  obtain ⟨e, -⟩ | ⟨k, o, e, ho, hexp, -⟩ := storeLease_cases leases now chaddr yiaddr write
  all_goals rw [e]
  · exact hc
  · apply mem_modify_of_ne hc
    rw [ho]
    rintro hkl
    exact hl (Option.some.inj hkl ▸ hexp)

variable (chaddr yiaddr) in
/-- There is a slot if an entry has to give way, is blank or has expired, unless the clock is at
zero. -/
theorem exists_recycled (hl : l ∈ leases)
    (h : l.Matches chaddr yiaddr ∨ l = .blank ∨ l.Expired now) (hnow : 0 < time now) :
    ∃ o, recycled leases now chaddr yiaddr = some o := by
  have hexpired : ∃ m ∈ clearLease leases chaddr yiaddr, m.Expired now := by
    by_cases hm : l.Matches chaddr yiaddr
    · exact ⟨.blank, List.mem_map.mpr ⟨l, hl, if_pos hm⟩, hnow⟩
    · refine ⟨l, mem_clearLease_of_not_matches hl hm, ?_⟩
      obtain rfl | hexp := h.resolve_left hm
      · exact hnow
      · exact hexp
  obtain ⟨m, hm, hexp⟩ := hexpired
  obtain ⟨k, hk⟩ := Option.isSome_iff_exists.mp (oldestExpiredLease_isSome hm hexp)
  obtain ⟨o, ho, -⟩ := oldestExpiredLease_slot hk
  exact ⟨o, Option.bind_eq_some_iff.mpr ⟨k, hk, ho⟩⟩

/-- A key stays distinct when the written key is blank or was cleared before. -/
theorem DistinctKeys.storeLease {κ : Type*} {key : Lease → κ} {zero new : κ}
    (h : DistinctKeys key zero leases) (hz : key .blank = zero) (hw : ∀ l, key (write l) = new)
    (hnew : new ≠ zero → ∀ l ∈ leases, key l = new → l.Matches chaddr yiaddr) :
    DistinctKeys key zero (storeLease leases now chaddr yiaddr write).1 := by
  have hc := DistinctKeys.clearLease h hz chaddr yiaddr
  obtain ⟨e, -⟩ | ⟨k, o, e, -⟩ := storeLease_cases leases now chaddr yiaddr write
  all_goals rw [e]
  · exact hc
  · apply hc.modify
    intro l _
    rw [hw]
    by_cases hn : new = zero
    · exact .inr (.inl hn)
    · refine .inr (.inr ?_)
      intro b hb hkb
      obtain rfl | ⟨hb, hnm⟩ := mem_clearLease hb
      · exact hn (hkb.symm.trans hz)
      · exact hnm (hnew hn b hb hkb)

theorem markAcked_storeLease : markAcked (storeLease leases now chaddr yiaddr write).1
      (storeLease leases now chaddr yiaddr write).2 =
    (storeLease leases now chaddr yiaddr fun l => { write l with acked := 1 }).1 := by
  simp only [storeLease]
  cases oldestExpiredLease (clearLease leases chaddr yiaddr) now with
  | none => rfl
  | some k => exact List.modify_modify_eq _ _ k _

end Store

end Wbr1310.Udhcpd
