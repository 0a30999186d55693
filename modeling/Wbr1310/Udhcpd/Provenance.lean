import Wbr1310.Udhcpd.Apart

/-!
# Where the address of an ACK comes from

An ACK to a client without a reservation should be for an address of the range that was
offered to it before and that the table holds for it. The table is searched by the
address of the client, and a client that calls itself zero is found in every slot that is
free, declined or marked.
-/

namespace Wbr1310.Udhcpd

open Lib Program

/-- The server has sent an OFFER of the address to the client. -/
def OfferSent (log : List Record) (chaddr : Chaddr) (yiaddr : UInt32) : Prop :=
  ∃ t now, .sent ⟨.offer, chaddr, yiaddr, t⟩ now ∈ log

/-- The newest entry of a record is in order: an ACK to a client without a reservation is for a
nonzero address of the range that was offered to the client before, and the table in which the
request was received holds it for the client. -/
def AckFollows (cfg : ServerConfig) : List Record → Prop
  | .sent m now :: log => m.kind = .ack → cfg.Unreserved m.chaddr →
      m.yiaddr ≠ 0 ∧ cfg.InRange m.yiaddr ∧ OfferSent log m.chaddr m.yiaddr ∧
        ∃ p leases, log.head? = some (.received p leases now) ∧ p.chaddr = m.chaddr ∧
          ∃ l ∈ leases, l.chaddr = m.chaddr ∧ l.yiaddr = m.yiaddr
  | _ => True

def OfferGoes (env : Env) (cfg : ServerConfig) (p : Packet) (s : Server) : Prop :=
  match offered env cfg p (s.receiving p) with
  | (some a, t) => a ≠ 0 →
      (addLease t.leases t.now p.chaddr a cfg.offerTime p.hostName).2.isSome →
        env.sendPacket t.calls = true
  | (none, _) => True

/-- What an ACK depends on: every offer that is entered is sent, and a client without an address
does not ask for the address of the slot that is found for it. -/
def Traceable (env : Env) (cfg : ServerConfig) (s : Server) : Event → Prop
  | .packet p =>
    (p.messageType = some dhcpDiscover → cfg.Unreserved p.chaddr → OfferGoes env cfg p s) ∧
      (p.messageType = some dhcpRequest → cfg.Unreserved p.chaddr → p.chaddr = 0 →
        ∀ l ∈ s.entry p, ¬ Asks cfg p l.yiaddr)
  | .tick _ => True
  | .write => True

section Traced

variable {env : Env} {cfg : ServerConfig} {p : Packet} {s t : Server}

/-- The entries of clients without a reservation hold addresses that were offered to them. -/
def PairsOffered (cfg : ServerConfig) (log : List Record) (leases : List Lease) : Prop :=
  ∀ l ∈ leases, l.chaddr ≠ 0 → cfg.Unreserved l.chaddr →
    l.yiaddr ≠ 0 ∧ OfferSent log l.chaddr l.yiaddr

/-- The invariant: every entry goes back to an offer. -/
structure Traced (cfg : ServerConfig) (s : Server) : Prop where
  pairs : PairsOffered cfg s.log s.leases
  placed : Placed cfg s.leases
  follows : Always (AckFollows cfg) s.log

variable {log : List Record} {a : UInt32} {leases : List Lease}

theorem OfferSent.mono {log' : List Record} {chaddr : Chaddr} (h : OfferSent log chaddr a)
    (hlog : log ⊆ log') : OfferSent log' chaddr a := by
  obtain ⟨t, now, hm⟩ := h
  exact ⟨t, now, hlog hm⟩

theorem PairsOffered.mono {log' : List Record} (h : PairsOffered cfg log leases)
    (hlog : log ⊆ log') : PairsOffered cfg log' leases := by
  intro l hl hc hu
  obtain ⟨hy, hsent⟩ := h l hl hc hu
  exact ⟨hy, hsent.mono hlog⟩

theorem PairsOffered.storeLease (h : PairsOffered cfg log leases) {now : ℕ} {chaddr : Chaddr}
    {write : Lease → Lease} (hw : ∀ l, (write l).chaddr = chaddr ∧ (write l).yiaddr = a)
    (hnew : (∃ o, recycled leases now chaddr a = some o) → chaddr ≠ 0 → cfg.Unreserved chaddr →
      a ≠ 0 ∧ OfferSent log chaddr a) :
    PairsOffered cfg log (storeLease leases now chaddr a write).1 := by
  refine forall_mem_storeLease (fun hc => absurd rfl hc) h fun o ho => ?_
  rw [(hw o).1, (hw o).2]
  exact hnew ⟨o, ho⟩

theorem PairsOffered.modify (h : PairsOffered cfg log leases) {write : Lease → Lease}
    (hw : Rewrites write) (k : ℕ) :
    PairsOffered cfg log (leases.modify k write) := by
  refine forall_mem_modify h (fun l hl hc => ?_) k
  have hco := (hw.chaddr l).resolve_right hc
  rw [hco, hw.yiaddr]
  exact hl (hco ▸ hc)

/-- While an address is looked for, only entries without a client are new. -/
structure OnlyMarks (s₀ s : Server) : Prop where
  old : ∀ l ∈ s.leases, l.chaddr ≠ 0 → l ∈ s₀.leases
  later : s₀.now ≤ s.now
  log : s.log = s₀.log

theorem OnlyMarks.seeks (cfg : ServerConfig) (s₀ : Server) :
    Seeks cfg s₀.now (OnlyMarks s₀) where
  later _ h := h.later
  calls _ _ h := ⟨h.old, h.later, h.log⟩
  elapse s d h := ⟨h.old, h.later.trans (Nat.le_add_right s.now d), h.log⟩
  conflict _ _ h _ _ := ⟨forall_mem_storeLease (fun hc => absurd rfl hc) h.old
    fun _ _ hc => absurd rfl hc, h.later, h.log⟩

theorem offered_onlyMarks {o : Option UInt32} (ho : offered env cfg p s = (o, t)) :
    OnlyMarks s t :=
  (offered_ended (OnlyMarks.seeks cfg s) ⟨fun _ hl _ => hl, le_rfl, rfl⟩ ho).1

theorem PairsOffered.offered (h : PairsOffered cfg s.log s.leases) {o : Option UInt32}
    (ho : offered env cfg p s = (o, t)) : PairsOffered cfg t.log t.leases := by
  have hmarks := offered_onlyMarks ho
  rw [hmarks.log]
  intro l hl hc
  exact h l (hmarks.old l hl hc) hc

theorem PairsOffered.ackOf (h : PairsOffered cfg s.log s.leases) {q : Packet}
    (hfor : AckOf env cfg p s q a) (hc : p.chaddr ≠ 0) (hu : cfg.Unreserved p.chaddr) :
    a ≠ 0 ∧ OfferSent s.log p.chaddr a := by
  cases hfor with
  | static l _ hl => exact absurd (hl.symm.trans hu) (by simp)
  | entry l hl =>
    obtain ⟨hmem, hlc⟩ := Server.entry_has hl
    rw [← hlc] at hc hu ⊢
    exact h l hmem hc hu

theorem pairs_receive (hs : PairsOffered cfg s.log s.leases)
    (hoffer : p.messageType = some dhcpDiscover → cfg.Unreserved p.chaddr →
      OfferGoes env cfg p s) :
    PairsOffered cfg (receive env cfg p s).2.log (receive env cfg p s).2.leases := by
  have hrec : PairsOffered cfg (s.receiving p).log (s.receiving p).leases :=
    hs.mono (List.subset_cons_self _ _)
  have hpush : ∀ r, PairsOffered cfg (r :: (s.receiving p).log) (s.receiving p).leases :=
    fun r => hrec.mono (List.subset_cons_self _ _)
  have hout := receive_outcome env cfg p s
  generalize (receive env cfg p s).2 = t at hout ⊢
  cases hout with
  | silent => exact hrec
  | refused | reserved => exact hpush _
  | searched o t _ _ ho => exact hrec.offered ho
  | entered a t calls hd hu ho ha hsilent =>
    refine (hrec.offered ho).storeLease (fun _ => ⟨rfl, rfl⟩) ?_
    intro hroom
    -- there was a slot, so the offer was not sent
    have hslot : (addLease t.leases t.now p.chaddr a cfg.offerTime p.hostName).2.isSome :=
      storeLease_isSome_iff.mpr hroom
    have hgoes := hoffer hd hu
    rw [OfferGoes, ho] at hgoes
    obtain hnone | hfail := hsilent
    · rw [hnone] at hslot
      exact absurd hslot (by simp)
    · rw [hgoes ha hslot] at hfail
      cases hfail
  | offered a left t calls _ _ ho ha =>
    refine ((hrec.offered ho).mono (List.subset_cons_self _ _)).storeLease
      (fun _ => ⟨rfl, rfl⟩) ?_
    intro _ _ _
    exact ⟨ha, left, t.now, List.mem_cons_self⟩
  | acked q a calls f _ hfor =>
    simp only [Server.acked]
    split
    · exact hpush _
    · rw [bindLease_eq, hfor.chaddr]
      refine (hpush _).storeLease (fun _ => ⟨rfl, rfl⟩) ?_
      intro _ hc hu
      obtain ⟨ha, hsent⟩ := hrec.ackOf hfor hc hu
      exact ⟨ha, hsent.mono (List.subset_cons_self _ _)⟩
  | rewritten k l write _ _ hw => exact hrec.modify hw k

theorem ackFollows_of_ackOf (h : Traced cfg s) (hb : cfg.Bounded) {q : Packet} {t : UInt32}
    (hfor : AckOf env cfg p (s.receiving p) q a)
    (hzero : cfg.Unreserved p.chaddr → p.chaddr = 0 → ∀ l ∈ s.entry p, ¬ Asks cfg p l.yiaddr) :
    AckFollows cfg (.sent ⟨.ack, p.chaddr, a, t⟩ s.now :: (s.receiving p).log) := by
  intro _ hu
  cases hfor with
  | static l _ hl => exact absurd (hl.symm.trans hu) (by simp)
  | entry l hl hasks =>
    obtain ⟨hmem, hlc⟩ := Server.entry_has hl
    have hc : p.chaddr ≠ 0 := fun h0 => hzero hu h0 l hl hasks
    obtain ⟨hy, hsent⟩ := h.pairs l hmem (hlc ▸ hc) (hlc ▸ hu)
    have hrange := (h.placed l hmem (hlc ▸ hc) (hlc ▸ hu) hy).1 hb
    rw [hlc] at hsent
    exact ⟨hy, hrange, hsent.mono (List.subset_cons_self _ _), p, s.leases, rfl, rfl, l, hmem,
      hlc, rfl⟩

theorem follows_receive (h : Traced cfg s) (hb : cfg.Bounded)
    (hzero : p.messageType = some dhcpRequest → cfg.Unreserved p.chaddr → p.chaddr = 0 →
      ∀ l ∈ s.entry p, ¬ Asks cfg p l.yiaddr) :
    Always (AckFollows cfg) (receive env cfg p s).2.log := by
  have hrec : Always (AckFollows cfg) (s.receiving p).log :=
    always_cons.mpr ⟨trivial, h.follows⟩
  have hpush : ∀ (m : Message) (now : ℕ), m.kind ≠ .ack →
      Always (AckFollows cfg) (.sent m now :: (s.receiving p).log) :=
    fun m now hm => always_cons.mpr ⟨fun hk => absurd hk hm, hrec⟩
  have hout := receive_outcome env cfg p s
  generalize (receive env cfg p s).2 = t at hout ⊢
  cases hout with
  | silent | rewritten => exact hrec
  | refused calls m hm =>
    apply hpush
    obtain hm | hm := hm <;> rw [hm] <;> simp
  | reserved calls l => exact hpush _ _ (by simp)
  | searched o t _ _ ho | entered a t calls _ _ ho =>
    rw [(offered_onlyMarks ho).log]
    exact hrec
  | offered a left t calls _ _ ho =>
    rw [(offered_onlyMarks ho).log]
    exact hpush _ _ (by simp)
  | acked q a calls f hr hfor =>
    exact always_cons.mpr ⟨ackFollows_of_ackOf h hb hfor (hzero hr), hrec⟩

/-- The step lemma: an event leaves everything traced. -/
theorem Traced.handle (h : Traced cfg s) (hb : cfg.Bounded) {e : Event}
    (he : Traceable env cfg s e) : Traced cfg (handle env cfg e s).2 := by
  cases e with
  | packet p =>
    have hplaced := (receive_follows env cfg p s).keeps (fun _ _ hs => hs.placed) h.placed
    exact ⟨pairs_receive h.pairs he.1, hplaced, follows_receive h hb he.2⟩
  | tick seconds => exact ⟨h.pairs, h.placed, h.follows⟩
  | write =>
    rw [Udhcpd.handle, writeLeases_eq]
    exact ⟨h.pairs, h.placed, h.follows⟩

end Traced

/-- From an empty table, when the range ends before the last address of all, every offer that is
entered is sent, and no client without an address asks for that of the slot it is found in: every
ACK to a client without a reservation follows an offer to it. -/
theorem serve_ackFollows (env : Env) (cfg : ServerConfig) (maxLeases now : ℕ)
    (events : List Event) (hb : cfg.Bounded)
    (htrace : Machine.AlongEach (handle env cfg) (Traceable env cfg) (.start maxLeases now)
      events) :
    Always (AckFollows cfg) (serve env cfg events (.start maxLeases now)).2.log := by
  have hstart : Traced cfg (.start maxLeases now) := by
    refine ⟨?_, Placed.replicate cfg maxLeases, always_nil.mpr trivial⟩
    intro l hl hc
    obtain rfl := List.eq_of_mem_replicate hl
    exact absurd rfl hc
  have htraced : Traced cfg (serve env cfg events (.start maxLeases now)).2 :=
    Machine.forEach_keeps (fun s e hs he => hs.handle hb he) hstart htrace
  exact htraced.follows

instance (cfg : ServerConfig) (p : Packet) (a : UInt32) : Decidable (Asks cfg p a) :=
  decidable_of_iff ((p.optionWord dhcpServerId = some cfg.server ∧
      p.optionWord dhcpRequestedIp = some a) ∨
    (p.optionWord dhcpServerId = none ∧ p.optionWord dhcpRequestedIp = some a) ∨
    (p.optionWord dhcpServerId = none ∧ p.optionWord dhcpRequestedIp = none ∧ p.ciaddr = a)) (by
  constructor
  · rintro (⟨hid, hreq⟩ | ⟨hid, hreq⟩ | ⟨hid, hreq, hci⟩)
    · exact .selecting hid hreq
    · exact .reboot hid hreq
    · exact .renew hid hreq hci
  · rintro (⟨hid, hreq⟩ | ⟨hid, hreq⟩ | ⟨hid, hreq, hci⟩)
    · exact .inl ⟨hid, hreq⟩
    · exact .inr (.inl ⟨hid, hreq⟩)
    · exact .inr (.inr ⟨hid, hreq, hci⟩))

instance (env : Env) (cfg : ServerConfig) (p : Packet) (s : Server) :
    Decidable (OfferGoes env cfg p s) := by
  unfold OfferGoes
  rcases offered env cfg p (s.receiving p) with ⟨_ | a, t⟩ <;> infer_instance

instance (env : Env) (cfg : ServerConfig) (s : Server) (e : Event) :
    Decidable (Traceable env cfg s e) :=
  match e with
  | .packet _ => inferInstanceAs (Decidable ((_ → _) ∧ (_ → _)))
  | .tick _ | .write => .isTrue trivial

/-- Two clients that ask for what they were offered. -/
theorem serve_ackFollows_twoClients :
    noAck 1 (serve quietNet lan twoClients (.start 2 1000)).2.log = false ∧
      Always (AckFollows lan) (serve quietNet lan twoClients (.start 2 1000)).2.log :=
  ⟨by decide +kernel, serve_ackFollows quietNet lan 2 1000 twoClients
    (by rw [ServerConfig.Bounded]; decide) (by decide +kernel)⟩

def zeroRequest : Event := .packet (packetOf 0 [0x35, 1, 3, 0xFF])

/-- The client without an address is found in the first free slot and is granted the address zero,
which nobody has offered. -/
theorem zero_client_acked :
    (serve quietNet lan [zeroRequest] (.start 2 1000)).2.log.head?.bind Record.message =
        some ⟨.ack, 0, 0, 3600⟩ ∧
      ¬ Always (AckFollows lan) (serve quietNet lan [zeroRequest] (.start 2 1000)).2.log := by
  have hsent : (serve quietNet lan [zeroRequest] (.start 2 1000)).2.log.head?.bind Record.message =
      some ⟨.ack, 0, 0, 3600⟩ := by decide +kernel
  refine ⟨hsent, ?_⟩
  generalize (serve quietNet lan [zeroRequest] (.start 2 1000)).2.log = log at hsent
  intro hfollows
  obtain ⟨r, hr, hm⟩ := Option.bind_eq_some_iff.mp hsent
  obtain ⟨rest, rfl⟩ := List.head?_eq_some_iff.mp hr
  cases r with
  | received p leases now => cases hm
  | sent m now =>
    obtain rfl := Option.some.inj hm
    exact ((always_cons.mp hfollows).1 rfl (by decide)).1 rfl

end Wbr1310.Udhcpd
