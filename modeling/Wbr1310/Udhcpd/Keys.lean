import Wbr1310.Udhcpd.Steps

/-!
# The keys of the lease table

No client and no address has two entries. `add_lease` clears both keys before it
writes a slot; all other writes keep the address of a slot and keep or drop its client.
-/

namespace Wbr1310.Udhcpd

open Lib Program

/-- No two slots hold the same address or the same client; zero stands for none. -/
structure UniqueKeys (leases : List Lease) : Prop where
  yiaddr : DistinctKeys Lease.yiaddr 0 leases
  chaddr : DistinctKeys Lease.chaddr 0 leases

theorem bindLease_eq (leases : List Lease) (now : ℕ) (chaddr : Chaddr) (b t : UInt32)
    (host : Option (List UInt8)) : bindLease leases now chaddr b t host =
      (storeLease leases now chaddr b fun l =>
        { Lease.assign chaddr b (time now + t) host l with acked := 1 }).1 := by
  simp only [bindLease, addLease, markAcked_storeLease]

namespace UniqueKeys

variable {leases : List Lease}

theorem replicate (n : ℕ) : UniqueKeys (List.replicate n .blank) :=
  ⟨DistinctKeys.replicate rfl, DistinctKeys.replicate rfl⟩

theorem storeLease (h : UniqueKeys leases) (now : ℕ) {chaddr : Chaddr} {yiaddr : UInt32}
    {write : Lease → Lease} (hw : ∀ l, (write l).chaddr = chaddr ∧ (write l).yiaddr = yiaddr) :
    UniqueKeys (storeLease leases now chaddr yiaddr write).1 := by
  constructor
  · apply DistinctKeys.storeLease h.yiaddr rfl fun l => (hw l).2
    intro hn l _ hl
    exact .inr ⟨hn, hl⟩
  · apply DistinctKeys.storeLease h.chaddr rfl fun l => (hw l).1
    intro hn l _ hl
    exact .inl ⟨hn, hl⟩

theorem addLease (h : UniqueKeys leases) (now : ℕ) (chaddr : Chaddr) (yiaddr t : UInt32)
    (host : Option (List UInt8)) :
    UniqueKeys (addLease leases now chaddr yiaddr t host).1 :=
  h.storeLease now fun _ => ⟨rfl, rfl⟩

theorem bindLease (h : UniqueKeys leases) (now : ℕ) (chaddr : Chaddr) (yiaddr t : UInt32)
    (host : Option (List UInt8)) :
    UniqueKeys (bindLease leases now chaddr yiaddr t host) := by
  rw [bindLease_eq]
  exact h.storeLease now fun _ => ⟨rfl, rfl⟩

theorem modify (h : UniqueKeys leases) {write : Lease → Lease} (hw : Rewrites write) (k : ℕ) :
    UniqueKeys (leases.modify k write) :=
  ⟨h.yiaddr.modify fun l _ => .inl (hw.yiaddr l),
    h.chaddr.modify fun l _ => (hw.chaddr l).imp_right .inl⟩

end UniqueKeys

variable {cfg : ServerConfig} {P : List Lease → Prop}

/-- Every step keeps the keys unique. -/
theorem Step.uniqueKeys {s t : Server} (hs : Step cfg s t) (h : UniqueKeys s.leases) :
    UniqueKeys t.leases := by
  cases hs with
  | elapse | outside | receive | offer | refuse => exact h
  | conflict a => exact h.addLease s.now 0 a _ _
  | reserve p a host => exact h.addLease s.now p.chaddr a _ host
  | ack p a t host =>
    simp only [Server.acked]
    split
    · exact h
    · exact h.bindLease s.now p.chaddr a t host
  | rewrite p k l write _ _ _ hw => exact h.modify hw k

/-- A record of the lease file that is restored: its address is in the range, it was ACKed, and
neither its client nor its address is reserved. -/
def FileRecord.Restorable (cfg : ServerConfig) (r : FileRecord) : Prop :=
  cfg.startAddr ≤ r.yiaddr ∧ r.yiaddr ≤ cfg.endAddr ∧ r.acked ≠ 0 ∧ ¬ r.Excluded cfg

instance (cfg : ServerConfig) (r : FileRecord) : Decidable (r.Restorable cfg) :=
  inferInstanceAs (Decidable (_ ∧ _))

/-- The time that `read_leases` passes on for a record. -/
def FileRecord.leaseTime (cfg : ServerConfig) (now : ℕ) (r : FileRecord) : UInt32 :=
  if cfg.remaining then r.expires else r.expires - time now

/-- What every restored record keeps of the table, reading the lease file keeps. -/
theorem readRecords_keeps {now room : ℕ} {rs : List FileRecord} {leases : List Lease}
    (hstep : ∀ r ∈ rs, r.Restorable cfg → ∀ leases, P leases →
      P (bindLease leases now r.chaddr r.yiaddr (r.leaseTime cfg now) (some r.hostname)))
    (h : P leases) : P (readRecords cfg now room rs leases) := by
  induction rs generalizing room leases with
  | nil => cases room <;> exact h
  | cons r rs ih =>
    have htail := fun r hr => hstep r (List.mem_cons_of_mem _ hr)
    cases room with
    | zero => exact h
    | succ room =>
      simp only [readRecords]
      split
      · next hr =>
        have hstored : P (restore cfg now leases r).1 :=
          hstep r List.mem_cons_self hr leases h
        cases hs : restore cfg now leases r with
        | mk table slot =>
          rw [hs] at hstored
          cases slot with
          | none => exact hstored
          | some k => exact ih htail hstored
      · exact ih htail h

theorem readRecords_uniqueKeys {now room : ℕ} {rs : List FileRecord} {leases : List Lease}
    (h : UniqueKeys leases) :
    UniqueKeys (readRecords cfg now room rs leases) :=
  readRecords_keeps (fun r _ _ _ h => h.bindLease now r.chaddr r.yiaddr _ _) h

/-- From steps to runs. -/
theorem Follows.keeps (hstep : ∀ s t, Step cfg s t → P s.leases → P t.leases) {s t : Server}
    (h : Follows cfg s t) (hs : P s.leases) : P t.leases := by
  induction h with
  | refl => exact hs
  | tail _ h ih => exact hstep _ _ h ih

/-- What reading the lease file and every step keep of the table holds throughout a run. -/
theorem main_keeps (env : Env) (cfg : ServerConfig) (file : Option (List FileRecord))
    (events : List Event)
    (hread : ∀ now room rs leases, P leases → P (readRecords cfg now room rs leases))
    (hstep : ∀ s t, Step cfg s t → P s.leases → P t.leases) :
    Triple (fun s => P s.leases) (main env cfg file events) (fun _ s => P s.leases)
      fun s => P s.leases := by
  apply Triple.bind (R := fun _ s => P s.leases)
  · cases file with
    | none => exact Triple.pure fun _ h => h
    | some rs => exact Triple.modify fun s h => hread _ _ rs _ h
  · intro _
    apply Triple.bind (Triple.of_always fun s hs => (writeLeases_follows env cfg s).keeps hstep hs)
    intro _
    exact Triple.of_always fun s hs => (serve_follows env cfg events s).keeps hstep hs

/-- In every state the server reaches, after any lease file and any events, no two
entries hold the same nonzero address and no two the same nonzero client. -/
theorem main_uniqueKeys (env : Env) (cfg : ServerConfig) (maxLeases now : ℕ)
    (file : Option (List FileRecord)) (events : List Event) :
    UniqueKeys (main env cfg file events (.start maxLeases now)).2.leases := by
  have hmain := main_keeps env cfg file events (fun _ _ _ _ h => readRecords_uniqueKeys h)
    fun s t hs h => hs.uniqueKeys h
  exact hmain.always (UniqueKeys.replicate maxLeases)

end Wbr1310.Udhcpd
