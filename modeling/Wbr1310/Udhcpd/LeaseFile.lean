import Wbr1310.Lib.Digits
import Wbr1310.Udhcpd.AddressSearch

/-!
# The lease file

What `write_leases` saves and `read_leases` restores. The file is written field by field
and read as whole structures. Each record is entered by `add_lease`, which takes the
oldest expired slot: a free one, unless an entry that was restored before it has the end
zero, which is then given up again.
-/

namespace Wbr1310.Udhcpd

open Lib Program List

/-- What `write_leases` writes for a record: its fields, one after the other. -/
def FileRecord.fields (r : FileRecord) : List UInt8 :=
  bigEndian 16 r.chaddr.toNat ++ bigEndian 4 r.yiaddr.toNat ++ bigEndian 4 r.expires.toNat ++
    bigEndian 4 r.acked.toNat ++ r.hostname

/-- The size of `struct dhcpOfferedAddr`. -/
def structSize : ℕ := 92

/-- `struct dhcpOfferedAddr` in memory. -/
def structAt (bytes : List UInt8) : FileRecord where
  chaddr := BitVec.ofNat 128 (fromBigEndian (bytes.take 16))
  yiaddr := UInt32.ofNat (fromBigEndian ((bytes.drop 16).take 4))
  expires := UInt32.ofNat (fromBigEndian ((bytes.drop 20).take 4))
  acked := UInt32.ofNat (fromBigEndian ((bytes.drop 24).take 4))
  hostname := (bytes.drop 28).take 64

/-- The structures that `fread` gets from the file, as many as the first argument allows. -/
def freadAll : ℕ → List UInt8 → List FileRecord
  | 0, _ => []
  | n + 1, bytes =>
    if bytes.length < structSize then []
    else structAt (bytes.take structSize) :: freadAll n (bytes.drop structSize)

theorem FileRecord.length_fields {r : FileRecord} (h : r.hostname.length = 64) :
    r.fields.length = structSize := by
  simp only [fields, length_append, length_bigEndian, h]
  rfl

theorem word_bigEndian (x : UInt32) : UInt32.ofNat (fromBigEndian (bigEndian 4 x.toNat)) = x := by
  rw [fromBigEndian_bigEndian (by have := x.toNat_lt; omega), UInt32.ofNat_toNat]

/-- The fields are where the structure has them. -/
theorem structAt_append {chaddr yiaddr expires acked hostname : List UInt8}
    (hc : chaddr.length = 16) (hy : yiaddr.length = 4) (he : expires.length = 4)
    (ha : acked.length = 4) (hh : hostname.length = 64) :
    structAt (chaddr ++ yiaddr ++ expires ++ acked ++ hostname) =
      ⟨BitVec.ofNat 128 (fromBigEndian chaddr), UInt32.ofNat (fromBigEndian yiaddr),
        UInt32.ofNat (fromBigEndian expires), UInt32.ofNat (fromBigEndian acked), hostname⟩ := by
  simp only [append_assoc]
  generalize hbytes : chaddr ++ (yiaddr ++ (expires ++ (acked ++ hostname))) = bytes
  have h16 : bytes.drop 16 = yiaddr ++ (expires ++ (acked ++ hostname)) := by
    rw [← hbytes]
    exact drop_left' hc
  have h20 : bytes.drop 20 = expires ++ (acked ++ hostname) := by
    rw [show 20 = 16 + 4 from rfl, ← drop_drop, h16]
    exact drop_left' hy
  have h24 : bytes.drop 24 = acked ++ hostname := by
    rw [show 24 = 20 + 4 from rfl, ← drop_drop, h20]
    exact drop_left' he
  have h28 : bytes.drop 28 = hostname := by
    rw [show 28 = 24 + 4 from rfl, ← drop_drop, h24]
    exact drop_left' ha
  have h0 : bytes.take 16 = chaddr := by
    rw [← hbytes]
    exact take_left' hc
  rw [structAt, h0, h16, h20, h24, h28, take_left' hy, take_left' he,
    take_left' ha, take_of_length_le (Nat.le_of_eq hh)]

theorem structAt_fields {r : FileRecord} (h : r.hostname.length = 64) :
    structAt r.fields = r := by
  have hchaddr : BitVec.ofNat 128 (fromBigEndian (bigEndian 16 r.chaddr.toNat)) = r.chaddr := by
    rw [fromBigEndian_bigEndian (by have := r.chaddr.isLt; omega)]
    exact BitVec.ofNat_toNat _ r.chaddr |>.trans (BitVec.setWidth_eq r.chaddr)
  rw [FileRecord.fields, structAt_append (length_bigEndian _ _) (length_bigEndian _ _)
    (length_bigEndian _ _) (length_bigEndian _ _) h, hchaddr, word_bigEndian, word_bigEndian,
    word_bigEndian]

theorem freadAll_fields {rs : List FileRecord} (h : ∀ r ∈ rs, r.hostname.length = 64) {n : ℕ}
    (hn : rs.length ≤ n) : freadAll n (rs.flatMap FileRecord.fields) = rs := by
  induction rs generalizing n with
  | nil =>
    cases n with
    | zero => rfl
    | succ n => rfl
  | cons r rs ih =>
    obtain ⟨n, rfl⟩ : ∃ m, n = m + 1 := by
      rw [length_cons] at hn
      exact ⟨n - 1, by omega⟩
    have hr := h r mem_cons_self
    have hlen := FileRecord.length_fields hr
    have hrest := ih (fun r hr => h r (mem_cons_of_mem _ hr)) (n := n)
      (by rw [length_cons] at hn; omega)
    rw [flatMap_cons, freadAll, if_neg (by rw [length_append, hlen]; omega),
      take_left' hlen, drop_left' hlen, structAt_fields hr, hrest]

/-- An entry as the server writes it: the mark is zero or one, and the host name is a string that
fits its field. -/
structure Lease.Formed (l : Lease) : Prop where
  acked : l.acked = 0 ∨ l.acked = 1
  hostname : hostnameField l.hostname = l.hostname

/-- A table of `n` entries as the server writes them. -/
structure Formed (n : ℕ) (leases : List Lease) : Prop where
  length : leases.length = n
  entries : ∀ l ∈ leases, l.Formed

variable {s : List UInt8}

theorem hostnameField_self (hn : ∀ b ∈ s, b ≠ 0) (hlen : s.length ≤ 63) :
    hostnameField s = s := by
  rw [hostnameField, takeWhile_eq_self_iff.mpr fun b hb => decide_eq_true (hn b hb),
    take_of_length_le hlen]

theorem hostnameField_nonzero {b : UInt8} (hb : b ∈ hostnameField s) :
    b ≠ 0 := by
  have hmem : b ∈ s.takeWhile fun b => decide (b ≠ 0) := mem_of_mem_take hb
  simpa using mem_takeWhile_imp hmem

theorem length_hostnameField (s : List UInt8) : (hostnameField s).length ≤ 63 :=
  length_take_le _ _

theorem hostnameField_idem (s : List UInt8) :
    hostnameField (hostnameField s) = hostnameField s :=
  hostnameField_self (fun _ => hostnameField_nonzero) (length_hostnameField s)

theorem hostnameField_pad (h : hostnameField s = s) :
    hostnameField (s ++ List.replicate (64 - s.length) 0) = s := by
  have hlen : s.length ≤ 63 := h ▸ length_hostnameField s
  have hn : ∀ b ∈ s, decide (b ≠ 0) = true := by
    intro b hb
    rw [← h] at hb
    exact decide_eq_true (hostnameField_nonzero hb)
  obtain ⟨k, hk⟩ : ∃ k, 64 - s.length = k + 1 := ⟨63 - s.length, by omega⟩
  rw [hostnameField, takeWhile_append_of_pos hn, hk, replicate_succ,
    takeWhile_cons_of_neg (by simp), append_nil, take_of_length_le hlen]

section Formed

variable {env : Env} {cfg : ServerConfig} {p : Packet} {s t : Server} {n : ℕ}
  {leases : List Lease}

theorem Lease.Formed.blank : Lease.blank.Formed := ⟨.inl rfl, rfl⟩

theorem Lease.Formed.assign {l : Lease} (h : l.Formed) (chaddr : Chaddr) (a e : UInt32)
    (host : Option (List UInt8)) : (l.assign chaddr a e host).Formed := by
  refine ⟨h.acked, ?_⟩
  cases host with
  | none => exact h.hostname
  | some host => exact hostnameField_idem host

theorem Formed.storeLease (h : Formed n leases) {now : ℕ} {chaddr : Chaddr} {a : UInt32}
    {write : Lease → Lease} (hw : ∀ o, o.Formed → (write o).Formed) :
    Formed n (storeLease leases now chaddr a write).1 := by
  constructor
  · obtain ⟨e, -⟩ | ⟨k, o, e, -⟩ := storeLease_cases leases now chaddr a write
    · rw [e, clearLease, length_map, h.length]
    · rw [e, length_modify, clearLease, length_map, h.length]
  · refine forall_mem_storeLease .blank h.entries fun o ho => hw o ?_
    obtain rfl | ho := (recycled_spec write ho).1
    · exact .blank
    · exact h.entries o ho

theorem Formed.modify (h : Formed n leases) {write : Lease → Lease} (hw : Rewrites write) (k : ℕ) :
    Formed n (leases.modify k write) := by
  refine ⟨by rw [length_modify, h.length], forall_mem_modify h.entries (fun l hl => ?_) k⟩
  exact ⟨(hw.acked l).symm ▸ hl.acked, (hw.hostname l).symm ▸ hl.hostname⟩

theorem Formed.addLease (h : Formed n leases) (now : ℕ) (chaddr : Chaddr) (a t : UInt32)
    (host : Option (List UInt8)) : Formed n (addLease leases now chaddr a t host).1 :=
  h.storeLease fun _ ho => ho.assign _ _ _ _

theorem Formed.bindLease (h : Formed n leases) (now : ℕ) (chaddr : Chaddr) (a t : UInt32)
    (host : Option (List UInt8)) : Formed n (bindLease leases now chaddr a t host) := by
  rw [bindLease_eq]
  exact h.storeLease fun _ ho => ⟨.inr rfl, (ho.assign chaddr a (time now + t) host).hostname⟩

/-- Every step writes entries in this form. -/
theorem Step.formed (hs : Step cfg s t) (h : Formed n s.leases) : Formed n t.leases := by
  cases hs with
  | elapse | outside | receive | offer | refuse => exact h
  | conflict | reserve => exact h.addLease _ _ _ _ _
  | ack =>
    simp only [Server.acked]
    split
    · exact h
    · exact h.bindLease _ _ _ _ _
  | rewrite p k l write _ _ _ hw => exact h.modify hw k

theorem main_formed (env : Env) (cfg : ServerConfig) (maxLeases now : ℕ)
    (file : Option (List FileRecord)) (events : List Event) :
    Formed maxLeases (main env cfg file events (.start maxLeases now)).2.leases := by
  have hstart : Formed maxLeases (replicate maxLeases .blank) :=
    ⟨length_replicate, fun l hl => eq_of_mem_replicate hl ▸ .blank⟩
  have hmain := main_keeps env cfg file events (P := Formed maxLeases)
    (fun _ _ _ _ h => readRecords_keeps (fun _ _ _ _ h => h.bindLease _ _ _ _ _) h)
    fun _ _ hs h => hs.formed h
  exact hmain.always hstart

end Formed

section

variable (cfg : ServerConfig) (now later : ℕ) (l : Lease)

def Lease.left (now : ℕ) : UInt32 :=
  if l.Expired now then 0 else l.expires - time now

def Lease.record : FileRecord where
  chaddr := l.chaddr
  yiaddr := l.yiaddr
  expires := if cfg.remaining then l.left now else l.expires
  acked := l.acked
  hostname := l.hostname ++ List.replicate (64 - l.hostname.length) 0

/-- An entry that should be restored: it was ACKed, its address is in the range, and neither its
client nor its address is reserved. -/
def Lease.Kept : Prop :=
  l.acked = 1 ∧ cfg.InRange l.yiaddr ∧
    ∀ r ∈ cfg.statics, r.chaddr ≠ l.chaddr ∧ r.yiaddr ≠ l.yiaddr

instance (cfg : ServerConfig) (l : Lease) : Decidable (l.Kept cfg) :=
  inferInstanceAs (Decidable (_ ∧ (_ ∧ _) ∧ _))

def Lease.restored : Lease where
  chaddr := l.chaddr
  yiaddr := l.yiaddr
  expires := if cfg.remaining then time later + l.left now else l.expires
  acked := 1
  hostname := l.hostname

/-- The entries that are still there when all records are read: one with the end zero is given up
for the next one. -/
def survivors (cfg : ServerConfig) (now later : ℕ) : List Lease → List Lease
  | [] => []
  | [l] => [l]
  | l :: m :: ls =>
    if (l.restored cfg now later).expires = 0 then survivors cfg now later (m :: ls)
    else l :: survivors cfg now later (m :: ls)

def slots (n : ℕ) (used : List Lease) : List Lease :=
  used.map (·.restored cfg now later) ++ List.replicate (n - used.length) .blank

end

section Reading

variable {cfg : ServerConfig} {now later n : ℕ} {leases : List Lease}

variable {l : Lease}

theorem Lease.Formed.restorable_iff (h : l.Formed) :
    (l.record cfg now).Restorable cfg ↔ l.Kept cfg := by
  have hacked : l.acked ≠ 0 ↔ l.acked = 1 := by
    obtain h0 | h1 := h.acked
    · simp [h0]
    · simp [h1]
  have hexcluded : ¬ (l.record cfg now).Excluded cfg ↔
      ∀ r ∈ cfg.statics, r.chaddr ≠ l.chaddr ∧ r.yiaddr ≠ l.yiaddr := by
    rw [FileRecord.Excluded]
    push Not
    exact Iff.rfl
  rw [FileRecord.Restorable, Lease.Kept, hexcluded]
  change cfg.startAddr ≤ l.yiaddr ∧ l.yiaddr ≤ cfg.endAddr ∧ l.acked ≠ 0 ∧ _ ↔ _
  rw [hacked, ServerConfig.InRange]
  constructor
  · rintro ⟨hlow, hhigh, ha, hs⟩
    exact ⟨ha, ⟨hlow, hhigh⟩, hs⟩
  · rintro ⟨ha, ⟨hlow, hhigh⟩, hs⟩
    exact ⟨hlow, hhigh, ha, hs⟩

theorem readRecords_cons (room : ℕ) (r : FileRecord) (rs : List FileRecord)
    (leases : List Lease) : readRecords cfg later (room + 1) (r :: rs) leases =
      if r.Restorable cfg then match restore cfg later leases r with
        | (leases, none) => leases
        | (leases, some _) => readRecords cfg later room rs leases
      else readRecords cfg later (room + 1) rs leases := rfl

theorem readRecords_filter (room : ℕ) (rs : List FileRecord) (leases : List Lease) :
    readRecords cfg later room rs leases =
      readRecords cfg later room (rs.filter (·.Restorable cfg)) leases := by
  induction rs generalizing room leases with
  | nil => rfl
  | cons r rs ih =>
    cases room with
    | zero =>
      rw [readRecords, readRecords]
    | succ room =>
      by_cases hr : r.Restorable cfg
      · rw [filter_cons_of_pos (by simpa using hr), readRecords_cons, readRecords_cons,
          if_pos hr, if_pos hr]
        cases restore cfg later leases r with
        | mk table slot =>
          cases slot with
          | none => rfl
          | some k => exact ih room table
      · rw [filter_cons_of_neg (by simpa using hr), readRecords_cons, if_neg hr]
        exact ih (room + 1) leases

theorem filter_records (h : ∀ l ∈ leases, l.Formed) :
    (leases.filterMap (·.fileRecord cfg now)).filter (·.Restorable cfg) =
      (leases.filter fun l => l.yiaddr ≠ 0 ∧ l.Kept cfg).map (·.record cfg now) := by
  induction leases with
  | nil => rfl
  | cons l leases ih =>
    have hl := h l mem_cons_self
    have hrest := ih fun l hl => h l (mem_cons_of_mem _ hl)
    have hacked : l.Kept cfg → l.acked ≠ 0 := by
      rintro ⟨ha, -⟩
      rw [ha]
      decide
    by_cases hw : l.yiaddr ≠ 0 ∧ l.acked ≠ 0
    · have hrecord : l.fileRecord cfg now = some (l.record cfg now) := if_pos hw
      rw [filterMap_cons_some hrecord]
      by_cases hk : l.Kept cfg
      · have hr : (l.record cfg now).Restorable cfg := hl.restorable_iff.mpr hk
        rw [filter_cons_of_pos (by simpa using hr), hrest,
          filter_cons_of_pos (by simpa using ⟨hw.1, hk⟩), map_cons]
      · have hr : ¬ (l.record cfg now).Restorable cfg := fun hr => hk (hl.restorable_iff.mp hr)
        rw [filter_cons_of_neg (by simpa using hr), hrest,
          filter_cons_of_neg (by simpa using fun _ => hk)]
    · have hrecord : l.fileRecord cfg now = none := if_neg hw
      have hnot : ¬ (l.yiaddr ≠ 0 ∧ l.Kept cfg) := fun hk => hw ⟨hk.1, hacked hk.2⟩
      rw [filterMap_cons_none hrecord, hrest, filter_cons_of_neg (by simpa using hnot)]

theorem oldestFrom_zero (leases : List Lease) (i : ℕ) (oldest : Option ℕ) :
    oldestFrom leases i 0 oldest = oldest := by
  induction leases generalizing i with
  | nil => rfl
  | cons l leases ih =>
    rw [oldestFrom, if_neg (UInt32.not_lt.mpr (UInt32.le_iff_toNat_le.mpr (Nat.zero_le _))), ih]

/-- The first slot with the end zero is the oldest one. -/
theorem oldestFrom_at {front tail : List Lease} {o : Lease} (hfront : ∀ l ∈ front, l.expires ≠ 0)
    (ho : o.expires = 0) {i : ℕ} {best : UInt32} (hbest : best ≠ 0) {oldest : Option ℕ} :
    oldestFrom (front ++ o :: tail) i best oldest = some (i + front.length) := by
  induction front generalizing i best oldest with
  | nil =>
    have hold : best > o.expires := by
      rw [ho]
      exact UInt32.pos_iff_ne_zero.mpr hbest
    rw [nil_append, oldestFrom, if_pos hold, ho, oldestFrom_zero]
    rfl
  | cons l front ih =>
    have hrest := fun l hl => hfront l (mem_cons_of_mem _ hl)
    have hlen : i + (l :: front).length = i + 1 + front.length := by
      rw [length_cons]
      omega
    rw [cons_append, oldestFrom, hlen]
    split
    · exact ih hrest (hfront l mem_cons_self)
    · exact ih hrest hbest

theorem modify_append_cons {α : Type*} (front tail : List α) (o : α) (f : α → α) :
    (front ++ o :: tail).modify front.length f = front ++ f o :: tail := by
  induction front with
  | nil => rfl
  | cons a front ih =>
    rw [cons_append, length_cons, modify_succ_cons, ih, cons_append]

/-- A record of another client for another address is entered in the first slot with the end
zero. -/
theorem restore_at {front tail : List Lease} {o : Lease} {r : FileRecord}
    (hclock : time later ≠ 0) (hfront : ∀ l ∈ front, l.expires ≠ 0) (ho : o.expires = 0)
    (hno : ∀ l ∈ front ++ o :: tail, ¬ l.Matches r.chaddr r.yiaddr) :
    restore cfg later (front ++ o :: tail) r =
      (front ++ ⟨r.chaddr, r.yiaddr, time later + r.leaseTime cfg later, 1,
        hostnameField r.hostname⟩ :: tail, some front.length) := by
  have hclear : clearLease (front ++ o :: tail) r.chaddr r.yiaddr = front ++ o :: tail := by
    rw [clearLease]
    conv_rhs => rw [← map_id (front ++ o :: tail)]
    apply map_congr_left
    intro l hl
    exact if_neg (hno l hl)
  have hold : oldestExpiredLease (front ++ o :: tail) later = some front.length := by
    rw [oldestExpiredLease, oldestFrom_at hfront ho hclock, Nat.zero_add]
  have hstored : addLease (front ++ o :: tail) later r.chaddr r.yiaddr (r.leaseTime cfg later)
      (some r.hostname) = (front ++ o.assign r.chaddr r.yiaddr
        (time later + r.leaseTime cfg later) (some r.hostname) :: tail, some front.length) := by
    rw [addLease, storeLease, hclear, hold]
    simp only [modify_append_cons]
  rw [FileRecord.leaseTime] at hstored
  rw [restore, hstored]
  simp only [markAcked, modify_append_cons]
  rfl

theorem Lease.Formed.restored_eq (h : l.Formed) :
    ⟨(l.record cfg now).chaddr, (l.record cfg now).yiaddr,
      time later + (l.record cfg now).leaseTime cfg later, 1,
      hostnameField (l.record cfg now).hostname⟩ = l.restored cfg now later := by
  have htime : time later + (l.record cfg now).leaseTime cfg later =
      (l.restored cfg now later).expires := by
    rw [FileRecord.leaseTime, Lease.record, Lease.restored]
    cases cfg.remaining with
    | true => rfl
    | false => exact (UInt32.add_comm _ _).trans (UInt32.sub_add_cancel l.expires (time later))
  have hhost : hostnameField (l.record cfg now).hostname = l.hostname :=
    hostnameField_pad h.hostname
  rw [htime, hhost]
  rfl

def Fresh (m l : Lease) : Prop := m.yiaddr ≠ l.yiaddr ∧ (l.chaddr ≠ 0 → m.chaddr ≠ l.chaddr)

theorem Fresh.not_matches {m : Lease} (h : Fresh m l) :
    ¬ (m.restored cfg now later).Matches l.chaddr l.yiaddr := by
  rintro (⟨hc, hm⟩ | ⟨-, hm⟩)
  · exact h.2 hc hm
  · exact h.1 hm

theorem blank_not_matches (chaddr : Chaddr) (a : UInt32) : ¬ Lease.blank.Matches chaddr a := by
  rintro (⟨hc, hm⟩ | ⟨ha, hm⟩)
  · exact hc hm.symm
  · exact ha hm.symm

theorem UniqueKeys.fresh (h : UniqueKeys leases) {used : List Lease} (hsub : used.Sublist leases)
    (hn : ∀ l ∈ used, l.yiaddr ≠ 0) : used.Pairwise Fresh := by
  refine ((h.yiaddr.pairwise.and h.chaddr.pairwise).sublist hsub).imp_of_mem ?_
  rintro m l hm _ ⟨hy, hc⟩
  refine ⟨fun e => hn m hm (hy e), ?_⟩
  intro hl e
  exact hl (e ▸ hc e)

section Slots

variable {used : List Lease} {l m : Lease}

theorem slots_of_lt (hn : used.length < n) : slots cfg now later n used =
    used.map (·.restored cfg now later) ++
      .blank :: List.replicate (n - (used.length + 1)) .blank := by
  obtain ⟨k, hk⟩ : ∃ k, n - used.length = k + 1 := ⟨n - used.length - 1, by omega⟩
  rw [slots, hk, replicate_succ, show n - (used.length + 1) = k by omega]

theorem slots_append (l : Lease) : slots cfg now later n (used ++ [l]) =
    used.map (·.restored cfg now later) ++
      l.restored cfg now later :: List.replicate (n - (used.length + 1)) .blank := by
  rw [slots, map_append, length_append, append_assoc]
  rfl

theorem slots_not_matches (hfresh : ∀ m ∈ used, Fresh m l) :
    ∀ x ∈ slots cfg now later n used, ¬ x.Matches l.chaddr l.yiaddr := by
  intro x hx
  obtain hx | hx := mem_append.mp hx
  · obtain ⟨m, hm, rfl⟩ := mem_map.mp hx
    exact (hfresh m hm).not_matches
  · rw [eq_of_mem_replicate hx]
    exact blank_not_matches _ _

theorem restore_slots (hclock : time later ≠ 0) (hn : used.length < n)
    (hused : ∀ m ∈ used, (m.restored cfg now later).expires ≠ 0) (hl : l.Formed)
    (hfresh : ∀ m ∈ used, Fresh m l) :
    restore cfg later (slots cfg now later n used) (l.record cfg now) =
      (slots cfg now later n (used ++ [l]), some used.length) := by
  have hno : ∀ x ∈ slots cfg now later n used, ¬ x.Matches l.chaddr l.yiaddr :=
    slots_not_matches hfresh
  rw [slots_of_lt hn] at hno ⊢
  rw [restore_at hclock (forall_mem_map.mpr hused) rfl hno, hl.restored_eq, slots_append,
    length_map]

theorem restore_slots_zero (hclock : time later ≠ 0) (hn : used.length < n)
    (hused : ∀ m ∈ used, (m.restored cfg now later).expires ≠ 0)
    (hm : (m.restored cfg now later).expires = 0) (hl : l.Formed)
    (hfresh : ∀ x ∈ used ++ [m], Fresh x l) :
    restore cfg later (slots cfg now later n (used ++ [m])) (l.record cfg now) =
      restore cfg later (slots cfg now later n used) (l.record cfg now) := by
  have hno : ∀ x ∈ slots cfg now later n (used ++ [m]), ¬ x.Matches l.chaddr l.yiaddr :=
    slots_not_matches hfresh
  rw [slots_append] at hno ⊢
  rw [restore_at hclock (forall_mem_map.mpr hused) hm hno, hl.restored_eq,
    restore_slots hclock hn hused hl fun x hx => hfresh x (mem_append_left _ hx), slots_append,
    length_map]

end Slots

/-- Reading the records of entries with keys of their own enters them one after the other. -/
theorem readRecords_slots {rest pre : List Lease} {room : ℕ} (hclock : time later ≠ 0)
    (hpre : ∀ m ∈ pre, (m.restored cfg now later).expires ≠ 0)
    (hfresh : (pre ++ rest).Pairwise Fresh) (hrest : ∀ l ∈ rest, l.Formed ∧ l.Kept cfg)
    (hn : pre.length + rest.length ≤ n) (hroom : rest.length ≤ room) :
    readRecords cfg later room (rest.map (·.record cfg now)) (slots cfg now later n pre) =
      slots cfg now later n (pre ++ survivors cfg now later rest) := by
  induction rest generalizing pre room with
  | nil =>
    rw [survivors, append_nil]
    cases room <;> rfl
  | cons l rest ih =>
    rw [length_cons] at hn hroom
    obtain ⟨room, rfl⟩ : ∃ k, room = k + 1 := ⟨room - 1, by omega⟩
    have hr : ∀ x ∈ l :: rest, (x.record cfg now).Restorable cfg :=
      fun x hx => (hrest x hx).1.restorable_iff.mpr (hrest x hx).2
    have hfront : ∀ m ∈ pre, ∀ x ∈ l :: rest, Fresh m x := (pairwise_append.mp hfresh).2.2
    have hfresh' : (pre ++ [l] ++ rest).Pairwise Fresh := by rwa [append_assoc]
    have htail : ∀ x ∈ rest, x.Formed ∧ x.Kept cfg :=
      fun x hx => hrest x (mem_cons_of_mem _ hx)
    rw [map_cons, readRecords_cons, if_pos (hr l mem_cons_self),
      restore_slots hclock (by omega) hpre (hrest l mem_cons_self).1
        fun m hm => hfront m hm l mem_cons_self]
    change readRecords cfg later room (rest.map (·.record cfg now))
      (slots cfg now later n (pre ++ [l])) = _
    have hless : rest.length ≤ room := by omega
    -- what becomes of the entry just made is decided when the next record is read
    cases rest with
    | nil => cases room <;> rfl
    | cons m rest =>
      by_cases hz : (l.restored cfg now later).expires = 0
      · have hlast : ∀ x ∈ pre ++ [l], Fresh x m :=
          fun x hx => (pairwise_append.mp hfresh').2.2 x hx m mem_cons_self
        have hzero := restore_slots_zero hclock (n := n) (by omega) hpre hz
          (htail m mem_cons_self).1 hlast
        have hpair : (pre ++ m :: rest).Pairwise Fresh :=
          hfresh.sublist ((sublist_cons_self l _).append_left pre)
        rw [survivors, if_pos hz, ← ih hpre hpair htail (by omega) hless]
        obtain ⟨room, rfl⟩ : ∃ k, room = k + 1 :=
          ⟨room - 1, by rw [length_cons] at hless; omega⟩
        have hm := hr m (mem_cons_of_mem _ mem_cons_self)
        rw [map_cons, readRecords_cons, readRecords_cons, if_pos hm, if_pos hm, hzero]
      · have hpre' : ∀ x ∈ pre ++ [l], (x.restored cfg now later).expires ≠ 0 := by
          intro x hx
          obtain hx | hx := mem_append.mp hx
          · exact hpre x hx
          · rwa [mem_singleton.mp hx]
        have hlen : (pre ++ [l]).length + (m :: rest).length ≤ n := by
          rw [length_append, length_singleton]
          omega
        rw [survivors, if_neg hz, ih hpre' hfresh' htail hlen hless, append_assoc]
        rfl

theorem readRecords_zero {rs : List FileRecord} {room : ℕ} (hclock : time later = 0) :
    readRecords cfg later room rs (List.replicate n .blank) = List.replicate n .blank := by
  refine readRecords_keeps (P := fun leases => leases = replicate n .blank) ?_ rfl
  rintro r _ _ _ rfl
  have hclear : clearLease (replicate n .blank) r.chaddr r.yiaddr =
      replicate n .blank := by
    rw [clearLease, map_replicate, if_neg (blank_not_matches _ _)]
  have hfull : oldestExpiredLease (replicate n .blank) later = none := by
    rw [oldestExpiredLease, hclock, oldestFrom_zero]
  rw [bindLease, addLease, storeLease, hclear, hfull]
  rfl

/-- An entry that another one is restored to, as it should be. -/
structure Restores (cfg : ServerConfig) (now later : ℕ) (l x : Lease) : Prop where
  chaddr : x.chaddr = l.chaddr
  yiaddr : x.yiaddr = l.yiaddr
  hostname : x.hostname = l.hostname
  acked : x.acked = 1
  expires : if cfg.remaining then x.left later = l.left now else x.expires = l.expires

def kept (cfg : ServerConfig) (leases : List Lease) : List Lease := leases.filter (·.Kept cfg)

/-- The used slots of a new table are the entries of the old one that should be restored. -/
def RoundTrip (cfg : ServerConfig) (now later : ℕ) (leases table : List Lease) : Prop :=
  ∃ restored, (table.filter (· ≠ .blank)).Perm restored ∧
    List.Forall₂ (Restores cfg now later) (kept cfg leases) restored

/-- What makes the round trip. With the address zero an entry is not written; while the clock
shows zero nothing is restored; remaining time must not go past the end of the clock; and of the
absolute ends only the last one may be zero. -/
structure Preserved (cfg : ServerConfig) (now later : ℕ) (leases : List Lease) : Prop where
  address : ∀ l ∈ kept cfg leases, l.yiaddr ≠ 0
  clock : kept cfg leases ≠ [] → time later ≠ 0
  remaining : cfg.remaining = true →
    ∀ l ∈ kept cfg leases, (time later).toNat + (l.left now).toNat < 2 ^ 32
  ends : cfg.remaining = false → ∀ l ∈ (kept cfg leases).dropLast, l.expires ≠ 0

/-- The table that `read_leases` makes of the file that `write_leases` leaves. -/
def reloaded (env : Env) (cfg : ServerConfig) (maxLeases later : ℕ) (s : Server) : List Lease :=
  let bytes := (writeLeases env cfg s).2.leaseFile.flatMap FileRecord.fields
  (readLeases cfg (some (freadAll bytes.length bytes)) (.start maxLeases later)).2.leases

theorem survivors_sublist (used : List Lease) :
    (survivors cfg now later used).Sublist used := by
  fun_induction survivors cfg now later used with
  | case1 => exact .slnil
  | case2 l => exact .refl _
  | case3 l m ls hz ih => exact ih.cons l
  | case4 l m ls hz ih => exact ih.cons_cons l

theorem survivors_eq_self_iff {used : List Lease} : survivors cfg now later used = used ↔
    ∀ l ∈ used.dropLast, (l.restored cfg now later).expires ≠ 0 := by
  fun_induction survivors cfg now later used with
  | case1 => simp
  | case2 l => simp
  | case3 l m ls hz ih =>
    refine iff_of_false ?_ fun h => h l (by simp) hz
    intro e
    have hlen : (survivors cfg now later (m :: ls)).length = (m :: ls).length + 1 :=
      congrArg length e
    have hle : (survivors cfg now later (m :: ls)).length ≤ (m :: ls).length :=
      (survivors_sublist _).length_le
    omega
  | case4 l m ls hz ih =>
    rw [cons.injEq, eq_self, true_and, ih, dropLast_cons_cons, forall_mem_cons]
    exact ⟨fun h => ⟨hz, h⟩, fun h => h.2⟩

theorem used_blanks (k : ℕ) : (List.replicate k Lease.blank).filter (· ≠ .blank) = [] := by
  rw [filter_replicate, if_neg (by decide)]

theorem used_slots (used : List Lease) : (slots cfg now later n used).filter (· ≠ .blank) =
    used.map (·.restored cfg now later) := by
  have hused : ∀ x ∈ used.map (·.restored cfg now later), decide (x ≠ .blank) = true := by
    intro x hx
    obtain ⟨l, _, rfl⟩ := mem_map.mp hx
    refine decide_eq_true fun e => ?_
    exact absurd (congrArg Lease.acked e) (by decide : ¬ (1 : UInt32) = 0)
  rw [slots, filter_append, filter_eq_self.mpr hused, used_blanks, append_nil]

theorem filter_kept : (leases.filter fun l => l.yiaddr ≠ 0 ∧ l.Kept cfg) =
    (kept cfg leases).filter (·.yiaddr ≠ 0) := by
  rw [kept, filter_filter]
  apply filter_congr
  intro l _
  simp

theorem length_record (h : l.Formed) : (l.record cfg now).hostname.length = 64 := by
  have hlen : l.hostname.length ≤ 63 := by
    rw [← h.hostname]
    exact length_hostnameField _
  rw [Lease.record, length_append, length_replicate]
  omega

/-- What is read back is what was written. -/
theorem reloaded_eq {env : Env} {s : Server} (hopen : env.fopen s.calls = true)
    (hformed : ∀ l ∈ s.leases, l.Formed) : reloaded env cfg n later s =
      readRecords cfg later n (((kept cfg s.leases).filter (·.yiaddr ≠ 0)).map
        (·.record cfg s.now)) (List.replicate n .blank) := by
  have hfile : (writeLeases env cfg s).2.leaseFile =
      s.leases.filterMap (·.fileRecord cfg s.now) := by
    rw [writeLeases_eq]
    exact if_pos hopen
  have hhost : ∀ r ∈ s.leases.filterMap (·.fileRecord cfg s.now), r.hostname.length = 64 := by
    intro r hr
    obtain ⟨l, hl, e⟩ := mem_filterMap.mp hr
    rw [Lease.fileRecord] at e
    split at e
    · obtain rfl := Option.some.inj e
      exact length_record (hformed l hl)
    · cases e
  have hbytes : ∀ rs : List FileRecord, (∀ r ∈ rs, r.hostname.length = 64) →
      rs.length ≤ (rs.flatMap FileRecord.fields).length := by
    intro rs
    induction rs with
    | nil => exact fun _ => le_rfl
    | cons r rs ih =>
      intro h
      have hr := FileRecord.length_fields (h r mem_cons_self)
      have hrs := ih fun r hr => h r (mem_cons_of_mem _ hr)
      rw [structSize] at hr
      rw [flatMap_cons, length_append, length_cons]
      omega
  have hread : ∀ rs, (readLeases cfg (some rs) (.start n later)).2.leases =
      readRecords cfg later n rs (replicate n .blank) := by
    intro rs
    change readRecords cfg later (replicate n Lease.blank).length rs _ = _
    rw [length_replicate]
    rfl
  rw [reloaded, hfile, hread, freadAll_fields hhost (hbytes _ hhost), readRecords_filter,
    filter_records hformed, filter_kept]

/-- The entries of the new table. -/
theorem reloaded_entries {env : Env} {s : Server} (hopen : env.fopen s.calls = true)
    (hformed : Formed n s.leases) (hkeys : UniqueKeys s.leases) :
    (reloaded env cfg n later s).filter (· ≠ .blank) = if time later = 0 then [] else
      (survivors cfg s.now later ((kept cfg s.leases).filter (·.yiaddr ≠ 0))).map
        (·.restored cfg s.now later) := by
  rw [reloaded_eq hopen hformed.entries]
  split
  next hclock =>
    rw [readRecords_zero hclock, used_blanks]
  next hclock =>
    have hsub : ((kept cfg s.leases).filter (·.yiaddr ≠ 0)).Sublist s.leases :=
      filter_sublist.trans filter_sublist
    have hfresh : ((kept cfg s.leases).filter (·.yiaddr ≠ 0)).Pairwise Fresh := by
      refine hkeys.fresh hsub ?_
      intro l hl
      simpa using (mem_filter.mp hl).2
    have hlen : ((kept cfg s.leases).filter (·.yiaddr ≠ 0)).length ≤ n :=
      hformed.length ▸ hsub.length_le
    have hentries : ∀ l ∈ (kept cfg s.leases).filter (·.yiaddr ≠ 0), l.Formed ∧ l.Kept cfg := by
      intro l hl
      have hl' := mem_of_mem_filter hl
      exact ⟨hformed.entries l (hsub.subset hl), by simpa using (mem_filter.mp hl').2⟩
    have hread : readRecords cfg later n (((kept cfg s.leases).filter (·.yiaddr ≠ 0)).map
        (·.record cfg s.now)) (slots cfg s.now later n []) = slots cfg s.now later n ([] ++
          survivors cfg s.now later ((kept cfg s.leases).filter (·.yiaddr ≠ 0))) :=
      readRecords_slots hclock (fun m hm => nomatch hm) hfresh hentries
        ((Nat.zero_add _).trans_le hlen) hlen
    rw [nil_append] at hread
    rw [← used_slots, ← hread]
    rfl

theorem left_restored_iff (hr : cfg.remaining = true) :
    (l.restored cfg now later).left later = l.left now ↔
      (time later).toNat + (l.left now).toNat < 2 ^ 32 := by
  have hends : (l.restored cfg now later).expires = time later + l.left now := if_pos hr
  have hexpired : (l.restored cfg now later).Expired later ↔
      2 ^ 32 ≤ (time later).toNat + (l.left now).toNat := by
    have hclock := (time later).toNat_lt
    have hleft := (l.left now).toNat_lt
    rw [Lease.Expired, hends, UInt32.lt_iff_toNat_lt, UInt32.toNat_add]
    omega
  rw [Lease.left, hends, UInt32.add_comm, UInt32.add_sub_cancel]
  by_cases hwrap : 2 ^ 32 ≤ (time later).toNat + (l.left now).toNat
  · rw [if_pos (hexpired.mpr hwrap)]
    refine iff_of_false ?_ (Nat.not_lt.mpr hwrap)
    intro e
    have hclock := (time later).toNat_lt
    rw [← e] at hwrap
    change 2 ^ 32 ≤ (time later).toNat + 0 at hwrap
    omega
  · rw [if_neg fun h => hwrap (hexpired.mp h)]
    exact iff_of_true rfl (Nat.not_le.mp hwrap)

theorem restores_restored_iff : Restores cfg now later l (l.restored cfg now later) ↔
    (cfg.remaining = true → (time later).toNat + (l.left now).toNat < 2 ^ 32) := by
  constructor
  · intro h hr
    have hends := h.expires
    rw [if_pos hr] at hends
    exact (left_restored_iff hr).mp hends
  · intro h
    refine ⟨rfl, rfl, rfl, rfl, ?_⟩
    split
    next hr => exact (left_restored_iff hr).mpr (h hr)
    next hr => exact if_neg hr

section

variable {env : Env} {s : Server}

/-- The condition is enough. -/
theorem Preserved.roundTrip (h : Preserved cfg s.now later s.leases)
    (hopen : env.fopen s.calls = true) (hformed : Formed n s.leases)
    (hkeys : UniqueKeys s.leases) :
    RoundTrip cfg s.now later s.leases (reloaded env cfg n later s) := by
  have hwritten : (kept cfg s.leases).filter (·.yiaddr ≠ 0) = kept cfg s.leases :=
    filter_eq_self.mpr fun l hl => decide_eq_true (h.address l hl)
  have hall : List.Forall₂ (Restores cfg s.now later) (kept cfg s.leases)
      ((kept cfg s.leases).map (·.restored cfg s.now later)) :=
    forall₂_map_right_iff.mpr <| forall₂_same.mpr fun l hl =>
      restores_restored_iff.mpr fun hr => h.remaining hr l hl
  refine ⟨_, ?_, hall⟩
  rw [reloaded_entries hopen hformed hkeys, hwritten]
  by_cases hempty : kept cfg s.leases = []
  · rw [hempty, survivors, map_nil, ite_self]
  · have hclock := h.clock hempty
    have hsurvive : survivors cfg s.now later (kept cfg s.leases) = kept cfg s.leases := by
      refine survivors_eq_self_iff.mpr ?_
      intro l hl
      cases hr : cfg.remaining with
      | false =>
        rw [show (l.restored cfg s.now later).expires = l.expires by simp [Lease.restored, hr]]
        exact h.ends hr l hl
      | true =>
        -- time is added without a wrap, so the sum is at least the clock
        rw [show (l.restored cfg s.now later).expires = time later + l.left s.now by
          simp [Lease.restored, hr]]
        have hsum := h.remaining hr l (mem_of_mem_dropLast hl)
        intro e
        have hzero := congrArg UInt32.toNat e
        rw [UInt32.toNat_add, Nat.mod_eq_of_lt hsum] at hzero
        exact hclock (UInt32.toNat_inj.mp (by rw [UInt32.toNat_zero] at hzero ⊢; omega))
    rw [if_neg hclock, hsurvive]

/-- The condition is necessary. -/
theorem RoundTrip.preserved (h : RoundTrip cfg s.now later s.leases (reloaded env cfg n later s))
    (hopen : env.fopen s.calls = true) (hformed : Formed n s.leases)
    (hkeys : UniqueKeys s.leases) : Preserved cfg s.now later s.leases := by
  obtain ⟨restored, hperm, hall⟩ := h
  rw [reloaded_entries hopen hformed hkeys] at hperm
  have hlen := hperm.length_eq.trans hall.length_eq.symm
  by_cases hclock : time later = 0
  · rw [if_pos hclock] at hlen
    have hempty : kept cfg s.leases = [] := eq_nil_of_length_eq_zero hlen.symm
    constructor
    · rw [hempty]
      exact fun l hl => nomatch hl
    · exact fun hne => absurd hempty hne
    · rw [hempty]
      exact fun _ l hl => nomatch hl
    · rw [hempty]
      exact fun _ l hl => nomatch hl
  · rw [if_neg hclock] at hlen hperm
    rw [length_map] at hlen
    -- nothing is lost, neither on the way to the file nor on the way back
    have hsub : (survivors cfg s.now later ((kept cfg s.leases).filter (·.yiaddr ≠ 0))).Sublist
        ((kept cfg s.leases).filter (·.yiaddr ≠ 0)) := survivors_sublist _
    have hwritten : (kept cfg s.leases).filter (·.yiaddr ≠ 0) = kept cfg s.leases :=
      filter_sublist.eq_of_length_le (hlen ▸ hsub.length_le)
    rw [hwritten] at hlen hperm
    have hsurvive := (survivors_sublist (kept cfg s.leases)).eq_of_length hlen
    rw [hsurvive] at hperm
    have haddress : ∀ l ∈ kept cfg s.leases, l.yiaddr ≠ 0 := by
      intro l hl
      simpa using filter_eq_self.mp hwritten l hl
    constructor
    · exact haddress
    · exact fun _ => hclock
    · intro hr l hl
      obtain ⟨⟨i, hi⟩, rfl⟩ := mem_iff_get.mp hl
      have hi' : i < restored.length := hall.length_eq ▸ hi
      obtain ⟨m, hm, e⟩ := mem_map.mp (hperm.mem_iff.mpr (restored.get_mem ⟨i, hi'⟩))
      have hrestores := hall.get hi hi'
      rw [← e] at hrestores
      -- the address tells the entries apart
      have hsame : m = (kept cfg s.leases).get ⟨i, hi⟩ :=
        hkeys.yiaddr.eq_of_mem (mem_of_mem_filter hm) (mem_of_mem_filter hl)
          hrestores.yiaddr (haddress m hm)
      rw [hsame] at hrestores
      exact restores_restored_iff.mp hrestores hr
    · intro hr l hl
      have hne := survivors_eq_self_iff.mp hsurvive l hl
      rwa [show (l.restored cfg s.now later).expires = l.expires by
        simp [Lease.restored, hr]] at hne

end

end Reading

theorem main_keys (env : Env) (cfg : ServerConfig) (maxLeases start : ℕ)
    (file : Option (List FileRecord)) (events : List Event) :
    UniqueKeys (main env cfg file events (.start maxLeases start)).2.leases :=
  (main_keeps env cfg file events (fun _ _ _ _ h => readRecords_uniqueKeys h)
    fun _ _ hs h => hs.uniqueKeys h).always (UniqueKeys.replicate maxLeases)

/-- Whatever the server did before, what `read_leases` makes of the file that `write_leases`
writes is the round trip of the table just if nothing keeps it from being preserved. -/
theorem leaseFile_roundTrip_iff (env : Env) (cfg : ServerConfig) (maxLeases start later : ℕ)
    (file : Option (List FileRecord)) (events : List Event) {s : Server}
    (hs : s = (main env cfg file events (.start maxLeases start)).2)
    (hopen : env.fopen s.calls = true) :
    RoundTrip cfg s.now later s.leases (reloaded env cfg maxLeases later s) ↔
      Preserved cfg s.now later s.leases := by
  have hformed : Formed maxLeases s.leases := hs ▸ main_formed env cfg maxLeases start file events
  have hkeys : UniqueKeys s.leases := hs ▸ main_keys env cfg maxLeases start file events
  constructor
  · intro h
    exact h.preserved hopen hformed hkeys
  · intro h
    exact h.roundTrip hopen hformed hkeys

/-- The table of two clients. -/
theorem leaseFile_roundTrip_twoClients :
    RoundTrip lan 4004 5000 (main quietNet lan none twoClients (.start 2 1000)).2.leases
      (reloaded quietNet lan 2 5000 (main quietNet lan none twoClients (.start 2 1000)).2) := by
  have hnow : (main quietNet lan none twoClients (.start 2 1000)).2.now = 4004 := by
    decide +kernel
  rw [← hnow]
  refine (leaseFile_roundTrip_iff quietNet lan 2 1000 5000 none twoClients rfl rfl).mpr ?_
  rw [hnow]
  constructor
  · decide +kernel
  · decide +kernel
  · decide +kernel
  · decide +kernel

def longLan : ServerConfig := { lan with lease := 0xFFFFF000 }

/-- The lease that a client got at 1002 is saved at once with its whole time. Read at 5000, it
ends at 904: the entry counts as expired. -/
theorem restored_lease_expired :
    ⟨1, 0xC0A80064, 0xFFFFF3EA, 1, []⟩ ∈
        (main quietNet longLan none [discover 1, requestFirst 1 []] (.start 2 1000)).2.leases ∧
      reloaded quietNet longLan 2 5000
          (main quietNet longLan none [discover 1, requestFirst 1 []] (.start 2 1000)).2 =
        [⟨1, 0xC0A80064, 904, 1, []⟩, .blank] ∧
      ¬ RoundTrip longLan 1002 5000
        (main quietNet longLan none [discover 1, requestFirst 1 []] (.start 2 1000)).2.leases
        (reloaded quietNet longLan 2 5000
          (main quietNet longLan none [discover 1, requestFirst 1 []] (.start 2 1000)).2) := by
  refine ⟨by decide +kernel, by decide +kernel, ?_⟩
  have hnow : (main quietNet longLan none [discover 1, requestFirst 1 []]
      (.start 2 1000)).2.now = 1002 := by decide +kernel
  rw [← hnow]
  intro h
  have hpreserved := h.preserved rfl (main_formed quietNet longLan 2 1000 none _)
    (main_keys quietNet longLan 2 1000 none _)
  exact absurd (hpreserved.remaining rfl) (by decide +kernel)

end Wbr1310.Udhcpd
