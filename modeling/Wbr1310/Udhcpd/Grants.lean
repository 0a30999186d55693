import Wbr1310.Udhcpd.Keys

/-!
# Grants of the DHCP server

An ACK grants an address for a time. A grant to a client without a reservation is
kept by an entry of the table that no other client can take before its time is
over, as long as the time of the grant is one the table can hold.
-/

namespace Wbr1310.Udhcpd

open Lib Program Option

/-- The address and the end of the last ACK to a client that has sent nothing since. -/
def granted (x : Chaddr) : List Record → Option (UInt32 × ℕ)
  | [] => none
  | .received p _ _ :: log => if p.chaddr = x then none else granted x log
  | .sent m now :: log =>
    if m.kind = .ack ∧ m.chaddr = x then some (m.yiaddr, now + m.leaseTime.toNat)
    else granted x log

def Message.Gives (m : Message) (a : UInt32) : Prop :=
  (m.kind = .offer ∨ m.kind = .ack) ∧ m.yiaddr = a

/-- The newest entry of a record is in order: an ACK to a client without a reservation
is for at most the configured time, and an address that is given to a client is not
held by another client without a reservation any more. -/
def GrantOk (cfg : ServerConfig) : List Record → Prop
  | .sent m now :: log =>
    (m.kind = .ack → cfg.Unreserved m.chaddr → m.leaseTime ≤ cfg.lease) ∧
      ∀ x a e, cfg.Unreserved x → x ≠ m.chaddr → granted x log = some (a, e) → m.Gives a →
        e < now
  | _ => True

/-- A REQUEST of a client without a reservation whose grant the table can hold: it does not
ask for a lease without end, the end of a lease fits the clock, and a client with the
address zero is not taken for the owner of a reserved address. -/
def Record.Recordable (cfg : ServerConfig) : Record → Prop
  | .received p leases now =>
    p.messageType = some dhcpRequest → cfg.Unreserved p.chaddr →
      p.optionWord dhcpLeaseTime ≠ some infinite ∧ now + cfg.lease.toNat < 2 ^ 32 ∧
        (p.chaddr = 0 → ∀ l ∈ (findLeaseByChaddr leases p.chaddr).bind fun k => leases[k]?,
          cfg.Dynamic l.yiaddr)
  | .sent _ _ => True

instance (cfg : ServerConfig) (r : Record) : Decidable (r.Recordable cfg) := by
  cases r with
  | received p leases now => exact inferInstanceAs (Decidable (_ → _ → _ ∧ _ ∧ (_ → _)))
  | sent m now => exact inferInstanceAs (Decidable True)

/-- The table has an entry for the client and the address until the time `e`. -/
def Holds (leases : List Lease) (x : Chaddr) (a : UInt32) (e : ℕ) : Prop :=
  ∃ l ∈ leases, l.chaddr = x ∧ l.yiaddr = a ∧ l.expires.toNat = e

/-- The invariant of the lease table. -/
structure TableOk (cfg : ServerConfig) (now : ℕ) (leases : List Lease) : Prop where
  keys : UniqueKeys leases
  dynamic : ∀ l ∈ leases, l.chaddr ≠ 0 → cfg.Unreserved l.chaddr → cfg.Dynamic l.yiaddr
  nonzero : ∀ l ∈ leases, l.chaddr ≠ 0 → l.yiaddr ≠ 0
  started : ∀ l ∈ leases, l.yiaddr ≠ 0 → 0 < now

namespace TableOk

variable {cfg : ServerConfig} {now : ℕ} {leases : List Lease}

theorem replicate (cfg : ServerConfig) (now n : ℕ) :
    TableOk cfg now (List.replicate n .blank) := by
  refine ⟨UniqueKeys.replicate n, ?_, ?_, ?_⟩
  all_goals
    intro l hl hn
    obtain rfl := List.eq_of_mem_replicate hl
    exact absurd rfl hn

theorem elapse (h : TableOk cfg now leases) (d : ℕ) : TableOk cfg (now + d) leases :=
  ⟨h.keys, h.dynamic, h.nonzero, fun l hl hn => Nat.add_pos_left (h.started l hl hn) d⟩

/-- Writing an entry for a client and an address it may have. -/
theorem storeLease (h : TableOk cfg now leases) {chaddr : Chaddr} {a : UInt32}
    {write : Lease → Lease} (hw : ∀ l, (write l).chaddr = chaddr ∧ (write l).yiaddr = a)
    (ha : chaddr ≠ 0 → a ≠ 0) (hd : chaddr ≠ 0 → cfg.Unreserved chaddr → cfg.Dynamic a) :
    TableOk cfg now (storeLease leases now chaddr a write).1 := by
  refine ⟨h.keys.storeLease now hw, ?_, ?_, ?_⟩
  · refine forall_mem_storeLease (fun hn => absurd rfl hn) h.dynamic fun o _ => ?_
    rw [(hw o).1, (hw o).2]
    exact hd
  · refine forall_mem_storeLease (fun hn => absurd rfl hn) h.nonzero fun o _ => ?_
    rw [(hw o).1, (hw o).2]
    exact ha
  · refine forall_mem_storeLease (fun hn => absurd rfl hn) h.started fun o ho _ => ?_
    exact (recycled_spec write ho).2.1.pos

theorem modify (h : TableOk cfg now leases) {write : Lease → Lease} (hw : Rewrites write)
    (k : ℕ) : TableOk cfg now (leases.modify k write) := by
  refine ⟨h.keys.modify hw k, ?_, ?_, ?_⟩
  · refine forall_mem_modify h.dynamic (fun l hl hn => ?_) k
    have hc := (hw.chaddr l).resolve_right hn
    rw [hc, hw.yiaddr]
    exact hl (hc ▸ hn)
  · refine forall_mem_modify h.nonzero (fun l hl hn => ?_) k
    rw [hw.yiaddr]
    exact hl ((hw.chaddr l).resolve_right hn ▸ hn)
  · refine forall_mem_modify h.started (fun l hl => ?_) k
    rw [hw.yiaddr]
    exact hl

end TableOk

/-- What is known of the grant of an address to a client until the time `e`. -/
structure Backed (cfg : ServerConfig) (now : ℕ) (leases : List Lease) (x : Chaddr) (a : UInt32)
    (e : ℕ) : Prop where
  zero : a = 0 → x = 0
  dynamic : cfg.Dynamic a
  entry : a ≠ 0 → now ≤ e → Holds leases x a e

/-- The invariant: the table backs every promise that still runs. -/
structure Sound (cfg : ServerConfig) (s : Server) : Prop where
  table : TableOk cfg s.now s.leases
  grants : ∀ x a e, cfg.Unreserved x → granted x s.log = some (a, e) →
    Backed cfg s.now s.leases x a e
  ok : Always (GrantOk cfg) s.log

variable {cfg : ServerConfig} {s : Server} {x : Chaddr} {a : UInt32} {e : ℕ}

theorem Holds.not_expired {leases : List Lease} (h : Holds leases x a e) {n : ℕ} (hn : n ≤ e) :
    ∃ l ∈ leases, l.chaddr = x ∧ l.yiaddr = a ∧ l.expires.toNat = e ∧ ¬ l.Expired n := by
  obtain ⟨l, hl, hx, ha, he⟩ := h
  have hlt : n < 2 ^ 32 := lt_of_le_of_lt hn (he ▸ l.expires.toNat_lt)
  refine ⟨l, hl, hx, ha, he, ?_⟩
  rw [Lease.expired_iff hlt]
  omega

variable {since : ℕ} {b t : UInt32} {write : Lease → Lease} {p : Packet} {m : Message}
  {host : Option (List UInt8)}

section

variable (h : Backed cfg s.now s.leases x a e)

include h

theorem Backed.ne_of_assignable (hs : UniqueKeys s.leases) (hn : s.now ≤ e) (hb : b ≠ 0)
    (hass : s.Assignable cfg since b) : a ≠ b := by
  rintro rfl
  obtain ⟨l, hl, -, rfl, he⟩ := h.entry hb hn
  obtain ⟨k, hk⟩ := exists_findLeaseByYiaddr hl
  obtain ⟨m, hm, hy⟩ := findLeaseByYiaddr_slot hk
  obtain rfl : m = l := hs.yiaddr.eq_of_mem (List.mem_of_getElem? hm) hl hy (hy ▸ hb)
  obtain ⟨n, -, hle, hexp⟩ := hass.stale k m hk hm
  have hlt : n < 2 ^ 32 := lt_of_le_of_lt (hle.trans hn) (he ▸ m.expires.toNat_lt)
  rw [Lease.expired_iff hlt] at hexp
  omega

theorem Backed.ne_of_has (hs : UniqueKeys s.leases) (hn : s.now ≤ e) {y : Chaddr} (hb : b ≠ 0)
    (hy : s.Has y b) (hxy : x ≠ y) : a ≠ b := by
  rintro rfl
  obtain ⟨l, hl, rfl, rfl, -⟩ := h.entry hb hn
  obtain ⟨m, hm, rfl, hy⟩ := hy
  exact hxy (congrArg Lease.chaddr (hs.yiaddr.eq_of_mem hl hm hy.symm hb))

theorem Backed.ne_of_reserves {y : Chaddr} (hy : cfg.Reserves y b) : a ≠ b := by
  rintro rfl
  obtain ⟨l, hl, rfl⟩ := hy
  exact (ServerConfig.static_found hl).1 h.dynamic

theorem Backed.storeLease {chaddr : Chaddr} (hx : chaddr ≠ 0 → x ≠ chaddr)
    (hab : b ≠ 0 → s.now ≤ e → a ≠ b) :
    Backed cfg s.now (Udhcpd.storeLease s.leases s.now chaddr b write).1 x a e := by
  refine ⟨h.zero, h.dynamic, ?_⟩
  intro ha hn
  obtain ⟨l, hl, rfl, rfl, he, hexp⟩ := (h.entry ha hn).not_expired hn
  refine ⟨l, mem_storeLease_of_not_matches hl ?_ hexp, rfl, rfl, he⟩
  rintro (⟨hc, hl⟩ | ⟨hb, hl⟩)
  · exact hx hc hl
  · exact hab hb hn hl

end

theorem granted_handled (hp : s.Handles p) : granted p.chaddr s.log = none := by
  obtain ⟨leases, now, h⟩ := hp
  obtain ⟨log, hlog⟩ : ∃ log, s.log = .received p leases now :: log := by
    cases hs : s.log with
    | nil => simp [hs] at h
    | cons r log =>
      rw [hs] at h
      exact ⟨log, by rw [some.inj h]⟩
  simp [hlog, granted]

theorem ne_of_handled (hp : s.Handles p) (hg : granted x s.log = some (a, e)) :
    x ≠ p.chaddr := by
  rintro rfl
  rw [granted_handled hp] at hg
  exact absurd hg (by simp)

theorem granted_sent_of_ne {now : ℕ} {log : List Record} (h : m.kind = .ack → m.chaddr ≠ x) :
    granted x (.sent m now :: log) = granted x log := by
  simp only [granted]
  rw [if_neg]
  rintro ⟨hk, hc⟩
  exact h hk hc

theorem ackLeaseTime_le (h : p.optionWord dhcpLeaseTime ≠ some infinite) :
    ackLeaseTime cfg p ≤ cfg.lease := by
  unfold ackLeaseTime
  cases ht : p.optionWord dhcpLeaseTime with
  | none => exact UInt32.le_refl _
  | some t =>
    have hfin : t ≠ infinite := fun e => h (by rw [ht, e])
    simp only
    split
    · exact UInt32.le_refl _
    · next hc =>
      split
      · exact UInt32.le_refl _
      · exact UInt32.not_lt.mp fun hlt => hc ⟨hfin, hlt⟩

section

variable (h : Sound cfg s)

include h

theorem Sound.store {chaddr : Chaddr} (hw : ∀ l, (write l).chaddr = chaddr ∧ (write l).yiaddr = b)
    (hb : chaddr ≠ 0 → b ≠ 0) (hd : chaddr ≠ 0 → cfg.Unreserved chaddr → cfg.Dynamic b)
    (hx : ∀ x a e, granted x s.log = some (a, e) → chaddr ≠ 0 → x ≠ chaddr)
    (hab : ∀ x a e, granted x s.log = some (a, e) → Backed cfg s.now s.leases x a e →
      s.now ≤ e → a ≠ b) :
    Sound cfg { s with leases := (storeLease s.leases s.now chaddr b write).1 } := by
  refine ⟨h.table.storeLease hw hb hd, ?_, h.ok⟩
  intro x a e hu hg
  have hbk := h.grants x a e hu hg
  exact hbk.storeLease (hx x a e hg) fun _ hn => hab x a e hg hbk hn

theorem Sound.sent (hm : m.kind ≠ .ack)
    (hgive : ∀ x a e, cfg.Unreserved x → x ≠ m.chaddr → granted x s.log = some (a, e) →
      m.Gives a → e < s.now) : Sound cfg { s with log := .sent m s.now :: s.log } := by
  refine ⟨h.table, ?_, always_cons.mpr ⟨⟨fun hk => absurd hk hm, hgive⟩, h.ok⟩⟩
  intro x a e hu hg
  rw [granted_sent_of_ne fun hk => absurd hk hm] at hg
  exact h.grants x a e hu hg

theorem Sound.receive (p : Packet) :
    Sound cfg { s with log := .received p s.leases s.now :: s.log } := by
  refine ⟨h.table, ?_, always_cons.mpr ⟨trivial, h.ok⟩⟩
  intro x a e hu hg
  simp only [granted] at hg
  split at hg
  · exact absurd hg (by simp)
  · exact h.grants x a e hu hg

theorem Sound.conflict (hb : b ≠ 0) (hass : s.Assignable cfg since b) :
    Sound cfg { s with leases := (addLease s.leases s.now 0 b cfg.conflictTime none).1 } := by
  apply h.store
  · exact fun _ => ⟨rfl, rfl⟩
  · exact fun h0 => absurd rfl h0
  · exact fun h0 => absurd rfl h0
  · exact fun _ _ _ _ h0 => absurd rfl h0
  · exact fun x a e _ hbk hn => hbk.ne_of_assignable h.table.keys hn hb hass

theorem Sound.reserve (hp : s.Handles p) (hb : b ≠ 0)
    (hass : s.Assignable cfg since b ∨ s.Has p.chaddr b) :
    Sound cfg { s with leases := (addLease s.leases s.now p.chaddr b cfg.offerTime host).1 } := by
  apply h.store
  · exact fun _ => ⟨rfl, rfl⟩
  · exact fun _ => hb
  · intro hc hu
    obtain hass | ⟨l, hl, hlc, rfl⟩ := hass
    · exact hass.dynamic
    · exact h.table.dynamic l hl (hlc ▸ hc) (hlc ▸ hu)
  · exact fun x a e hg _ => ne_of_handled hp hg
  · intro x a e hg hbk hn
    obtain hass | hhas := hass
    · exact hbk.ne_of_assignable h.table.keys hn hb hass
    · exact hbk.ne_of_has h.table.keys hn hb hhas (ne_of_handled hp hg)

theorem Sound.rewrite {k : ℕ} {l : Lease} (hp : s.Handles p) (hl : s.leases[k]? = some l)
    (hc : l.chaddr = p.chaddr ∨ l.Expired s.now) (hw : Rewrites write) :
    Sound cfg { s with leases := s.leases.modify k write } := by
  refine ⟨h.table.modify hw k, ?_, h.ok⟩
  intro x a e hu hg
  have hbk := h.grants x a e hu hg
  refine ⟨hbk.zero, hbk.dynamic, ?_⟩
  intro ha hn
  obtain ⟨m, hm, hmx, hma, hme, hexp⟩ := (hbk.entry ha hn).not_expired hn
  refine ⟨m, mem_modify_of_ne hm ?_, hmx, hma, hme⟩
  -- the slot belongs to the client that sends or has expired, so it is not the one of the grant
  rw [hl]
  intro hlm
  obtain rfl := some.inj hlm
  obtain hc | hc := hc
  · exact ne_of_handled hp hg (hmx.symm.trans hc)
  · exact hexp hc

end

/-- What an ACK is sent for: a reservation, or an entry that the client has. -/
def AckFor (cfg : ServerConfig) (s : Server) (p : Packet) (a t : UInt32) : Prop :=
  cfg.Reserves p.chaddr a ∨ (∃ l, s.entry p = some l ∧ l.yiaddr = a) ∧ t = ackLeaseTime cfg p

theorem AckFor.zero (h : AckFor cfg s p a t) (hs : TableOk cfg s.now s.leases) (ha : a = 0) :
    p.chaddr = 0 := by
  obtain ⟨l, hl, rfl⟩ | ⟨⟨l, hl, rfl⟩, -⟩ := h
  · exact absurd ha (ServerConfig.static_found hl).2
  · obtain ⟨hmem, hc⟩ := Server.entry_has hl
    by_contra hn
    exact hs.nonzero l hmem (hc ▸ hn) ha

theorem AckFor.ne (h : AckFor cfg s p b t) (hs : Sound cfg s)
    (hbk : Backed cfg s.now s.leases x a e) (hx : x ≠ p.chaddr) (hn : s.now ≤ e) : a ≠ b := by
  intro hab
  by_cases hb : b = 0
  · exact hx ((hbk.zero (hab.trans hb)).trans (h.zero hs.table hb).symm)
  · obtain hres | ⟨⟨l, hl, hlb⟩, -⟩ := h
    · exact hbk.ne_of_reserves hres hab
    · obtain ⟨hmem, hc⟩ := Server.entry_has hl
      exact hbk.ne_of_has hs.table.keys hn hb ⟨l, hmem, hc, hlb⟩ hx hab

theorem AckFor.entry (h : AckFor cfg s p a t) (hu : cfg.Unreserved p.chaddr) :
    (∃ l, s.entry p = some l ∧ l.yiaddr = a) ∧ t = ackLeaseTime cfg p := by
  obtain ⟨l, hl, -⟩ | h := h
  · exact absurd (hl.symm.trans hu) (by simp)
  · exact h

/-- An ACK to a client without a reservation is backed by the entry it makes. -/
theorem AckFor.backed (h : AckFor cfg s p a t) (hs : Sound cfg s) (hu : cfg.Unreserved p.chaddr)
    (hopt : p.optionWord dhcpLeaseTime ≠ some infinite) (hfit : s.now + cfg.lease.toNat < 2 ^ 32)
    (hzero : p.chaddr = 0 → ∀ l ∈ s.entry p, cfg.Dynamic l.yiaddr) :
    Backed cfg s.now (s.acked p a t host) p.chaddr a (s.now + t.toNat) := by
  obtain ⟨⟨l, hl, rfl⟩, rfl⟩ := h.entry hu
  obtain ⟨hmem, hc⟩ := Server.entry_has hl
  have hle : (ackLeaseTime cfg p).toNat ≤ cfg.lease.toNat :=
    UInt32.le_iff_toNat_le.mp (ackLeaseTime_le hopt)
  refine ⟨h.zero hs.table, ?_, ?_⟩
  · by_cases h0 : p.chaddr = 0
    · exact hzero h0 l hl
    · exact hs.table.dynamic l hmem (hc ▸ h0) (hc ▸ hu)
  · intro ha _
    have hpos := hs.table.started l hmem ha
    have hfin : ackLeaseTime cfg p ≠ infinite := by
      intro hinf
      rw [hinf, show infinite.toNat = 2 ^ 32 - 1 from rfl] at hle
      omega
    have hnow : (time s.now).toNat = s.now := by
      rw [time, UInt32.toNat_ofNat', Nat.mod_eq_of_lt (by omega)]
    obtain ⟨o, ho⟩ := exists_recycled p.chaddr l.yiaddr hmem (.inl (.inr ⟨ha, rfl⟩)) (by
      rw [UInt32.lt_iff_toNat_lt, hnow]
      exact hpos)
    rw [Server.acked, if_neg hfin, bindLease_eq]
    refine ⟨_, (recycled_spec _ ho).2.2, rfl, rfl, ?_⟩
    change (time s.now + ackLeaseTime cfg p).toNat = _
    rw [UInt32.toNat_add, hnow, Nat.mod_eq_of_lt (by omega)]

theorem Sound.ack (h : Sound cfg s) (hp : s.log.head? = some (.received p s.leases s.now))
    (hr : p.messageType = some dhcpRequest) (hfor : AckFor cfg s p b t)
    (hrec : Record.Recordable cfg (.received p s.leases s.now)) :
    Sound cfg { s with
      leases := s.acked p b t host
      log := .sent ⟨.ack, p.chaddr, b, t⟩ s.now :: s.log } := by
  have hhandles : s.Handles p := ⟨s.leases, s.now, hp⟩
  have htable : Sound cfg { s with leases := s.acked p b t host } := by
    unfold Server.acked
    split
    · exact h
    · rw [bindLease_eq]
      apply h.store
      · exact fun _ => ⟨rfl, rfl⟩
      · exact fun hc hb => hc (hfor.zero h.table hb)
      · intro hc hu
        obtain ⟨⟨l, hl, rfl⟩, -⟩ := hfor.entry hu
        obtain ⟨hmem, hlc⟩ := Server.entry_has hl
        exact h.table.dynamic l hmem (hlc ▸ hc) (hlc ▸ hu)
      · exact fun x a e hg _ => ne_of_handled hhandles hg
      · exact fun x a e hg hbk hn => hfor.ne h hbk (ne_of_handled hhandles hg) hn
  refine ⟨htable.table, ?_, always_cons.mpr ⟨⟨?_, ?_⟩, h.ok⟩⟩
  · intro x a e hu hg
    simp only [granted] at hg
    split at hg
    · next hx =>
      obtain ⟨rfl, rfl⟩ := Prod.mk.inj (some.inj hg)
      obtain rfl := hx.2
      obtain ⟨hopt, hfit, hzero⟩ := hrec hr hu
      exact hfor.backed h hu hopt hfit hzero
    · exact htable.grants x a e hu hg
  · intro _ hu
    rw [(hfor.entry hu).2]
    exact ackLeaseTime_le (hrec hr hu).1
  · intro x a e hu hx hg hgive
    by_contra hn
    exact hfor.ne h (h.grants x a e hu hg) hx (Nat.le_of_not_lt hn) hgive.2.symm

/-- The step lemma: one case for every kind of step. -/
theorem Step.sound {t : Server} (hs : Step cfg s t) (hrec : ∀ r ∈ t.log, r.Recordable cfg)
    (h : Sound cfg s) : Sound cfg t := by
  cases hs with
  | elapse d =>
    refine ⟨h.table.elapse d, ?_, h.ok⟩
    intro x a e hu hg
    have hbk := h.grants x a e hu hg
    exact ⟨hbk.zero, hbk.dynamic, fun ha hn => hbk.entry ha (Nat.le_of_add_right_le hn)⟩
  | outside calls leaseFile => exact ⟨h.table, h.grants, h.ok⟩
  | receive p => exact h.receive p
  | conflict b hb hass => exact h.conflict hb hass
  | reserve p b host hp _ hb hass => exact h.reserve hp hb hass
  | offer p b t hb hfor =>
    apply h.sent (by simp)
    intro x a e hu hx hg hgive
    obtain rfl : b = a := hgive.2
    have hbk := h.grants x b e hu hg
    by_contra hn
    obtain hres | hhas := hfor
    · exact hbk.ne_of_reserves hres rfl
    · exact hbk.ne_of_has h.table.keys (Nat.le_of_not_lt hn) hb hhas hx rfl
  | ack p b t host hp hr hfor =>
    apply h.ack hp hr hfor (hrec _ (List.mem_cons_of_mem _ (List.mem_of_head? hp)))
  | refuse m hm =>
    have hkind : m.kind ≠ .ack ∧ m.kind ≠ .offer := by
      obtain hm | hm := hm <;> rw [hm] <;> simp
    apply h.sent hkind.1
    intro x a e _ _ _ hgive
    obtain hk | hk := hgive.1
    · exact absurd hk hkind.2
    · exact absurd hk hkind.1
  | rewrite p k l write hp hl hc hw => exact h.rewrite hp hl hc hw

theorem Step.log_suffix {t : Server} (hs : Step cfg s t) : s.log <:+ t.log := by
  cases hs with
  | elapse | outside | conflict | reserve | rewrite => exact List.suffix_rfl
  | receive | offer | ack | refuse => exact List.suffix_cons _ _

theorem Follows.sound {t : Server} (hf : Follows cfg s t) (h : Sound cfg s)
    (hrec : ∀ r ∈ t.log, r.Recordable cfg) : Sound cfg t := by
  induction hf with
  | refl => exact h
  | tail _ hs ih =>
    exact hs.sound hrec (ih fun r hr => hrec r (hs.log_suffix.subset hr))

theorem Sound.start (cfg : ServerConfig) (maxLeases now : ℕ) :
    Sound cfg (.start maxLeases now) := by
  refine ⟨TableOk.replicate cfg now maxLeases, ?_, always_nil.mpr trivial⟩
  intro x a e _ hg
  exact absurd hg (by simp [Server.start, granted])

/-- From an empty table, when the grant of every REQUEST can be held by the table: every
ACK to a client without a reservation is for at most the configured time, and until
that time is over or the client sends again, its address is given to no other client. -/
theorem serve_grants (env : Env) (cfg : ServerConfig) (maxLeases now : ℕ) (events : List Event)
    (hrec : ∀ r ∈ (serve env cfg events (.start maxLeases now)).2.log, r.Recordable cfg) :
    Always (GrantOk cfg) (serve env cfg events (.start maxLeases now)).2.log := by
  have hf := serve_follows env cfg events (.start maxLeases now)
  exact (hf.sound (.start cfg maxLeases now) hrec).ok

/-- A small network with a lease of one hour and no reservations. -/
def lan : ServerConfig where
  server := 0xC0A80001
  startAddr := 0xC0A80064
  endAddr := 0xC0A80065
  lease := 3600
  minLease := 60
  offerTime := 60
  conflictTime := 3600
  declineTime := 3600
  remaining := true
  staticLeases := []

def quietNet : Env where
  arpping _ := (false, 2)
  sendPacket _ := true
  fopen _ := true
  fuel := 300

def packetOf (chaddr : Chaddr) (bytes : List UInt8) : Packet where
  chaddr := chaddr
  ciaddr := 0
  field f i := match f with
    | .options => (bytes[i]?).getD 0
    | .file => 0
    | .sname => 0

def discover (chaddr : Chaddr) : Event := .packet (packetOf chaddr [0x35, 1, 1, 0xFF])

/-- A REQUEST for the first address of the range, with some more options. -/
def requestFirst (chaddr : Chaddr) (more : List UInt8) : Event :=
  .packet (packetOf chaddr ([0x35, 1, 3, 0x36, 4, 0xC0, 0xA8, 0, 1, 0x32, 4, 0xC0, 0xA8, 0, 0x64]
    ++ more ++ [0xFF]))

/-- A client gets a lease for an hour, another one is then offered another address. -/
def twoClients : List Event := [discover 1, requestFirst 1 [], .tick 3000, discover 2]

/-- Two clients that get an address each. -/
theorem serve_grants_twoClients :
    granted 1 (serve quietNet lan twoClients (.start 2 1000)).2.log = some (0xC0A80064, 4602) ∧
      Always (GrantOk lan) (serve quietNet lan twoClients (.start 2 1000)).2.log :=
  ⟨by decide +kernel, serve_grants quietNet lan 2 1000 twoClients (by decide +kernel)⟩

/-- A client asks for a lease without end and gets it; the table forgets its offer. -/
def endless : List Event := [discover 1, requestFirst 1 [0x33, 4, 0xFF, 0xFF, 0xFF, 0xFF]]

def Record.message : Record → Option Message
  | .received _ _ _ => none
  | .sent m _ => some m

theorem not_always_of_ack {cfg : ServerConfig} {log : List Record}
    (h : log.head?.bind Record.message = some m) (hk : m.kind = .ack)
    (hu : cfg.Unreserved m.chaddr) (ht : cfg.lease < m.leaseTime) :
    ¬ Always (GrantOk cfg) log := by
  intro hok
  obtain ⟨r, hr, hm⟩ := bind_eq_some_iff.mp h
  obtain ⟨rest, rfl⟩ := List.head?_eq_some_iff.mp hr
  cases r with
  | received p leases now => exact absurd hm (by simp [Record.message])
  | sent m' now =>
    obtain rfl := some.inj hm
    exact absurd ((always_cons.mp hok).1.1 hk hu) (UInt32.not_le.mpr ht)

/-- The promise is longer than the lease time. -/
theorem endless_exceeds_lease :
    ¬ Always (GrantOk lan) (serve quietNet lan endless (.start 2 1000)).2.log := by
  apply not_always_of_ack (m := ⟨.ack, 1, 0xC0A80064, infinite⟩)
  · decide +kernel
  · rfl
  · decide
  · decide

end Wbr1310.Udhcpd
