import Wbr1310.Udhcpd.Bindings

/-!
# Static and dynamic addresses

The table should hold no address of `static_leases`. Offers, marks and the lease file
are checked against the reservations. An ACK for a reservation is kept out of the table
by its lease time alone: `sendACK` enters every lease that has an end, and the marker of
an endless lease is found only if the client has not sent a lease time before it.
-/

namespace Wbr1310.Udhcpd

open Lib Program

def Apart (cfg : ServerConfig) (leases : List Lease) : Prop := ∀ l ∈ leases, cfg.Dynamic l.yiaddr

instance (cfg : ServerConfig) (leases : List Lease) : Decidable (Apart cfg leases) :=
  inferInstanceAs (Decidable (∀ l ∈ leases, _))

/-- The REQUEST makes the server enter the reserved address: it names the server and asks for
the reservation of its client, the answer is sent, the lease time found behind the appended
marker has an end, and there is a slot. -/
structure EntersReserved (env : Env) (cfg : ServerConfig) (s : Server) (p : Packet)
    (l : StaticLease) : Prop where
  request : p.messageType = some dhcpRequest
  reserved : cfg.findStaticLeaseByChaddr p.chaddr = some l
  server : p.optionWord dhcpServerId = some cfg.server
  requested : p.optionWord dhcpRequestedIp = some l.yiaddr
  sent : env.sendPacket s.calls = true
  ends : ∃ options, addSimpleOption env.fuel (p.field .options) dhcpLeaseTime infinite =
    some options ∧ ¬ cfg.Endless ((p.withOptions options).optionWord dhcpLeaseTime)
  room : (recycled s.leases s.now p.chaddr l.yiaddr).isSome

def KeepsApart (env : Env) (cfg : ServerConfig) (s : Server) : Event → Prop
  | .packet p => ∀ l, ¬ EntersReserved env cfg s p l
  | .tick _ => True
  | .write => True

section Table

variable {env : Env} {cfg : ServerConfig} {p : Packet} {s t : Server} {leases : List Lease}

theorem dynamic_zero (cfg : ServerConfig) : cfg.Dynamic 0 := by
  rw [ServerConfig.Dynamic, ServerConfig.findStaticLeaseByYiaddr, List.find?_eq_none]
  intro l hl hy
  have hnonzero := List.mem_takeWhile_imp hl
  exact absurd (of_decide_eq_true hy) (of_decide_eq_true hnonzero)

theorem Apart.replicate (cfg : ServerConfig) (n : ℕ) : Apart cfg (List.replicate n .blank) := by
  intro l hl
  obtain rfl := List.eq_of_mem_replicate hl
  exact dynamic_zero cfg

theorem Apart.storeLease (h : Apart cfg leases) {now : ℕ} {chaddr : Chaddr} {a : UInt32}
    {write : Lease → Lease}
    (hw : ∀ o ∈ recycled leases now chaddr a, cfg.Dynamic (write o).yiaddr) :
    Apart cfg (storeLease leases now chaddr a write).1 :=
  forall_mem_storeLease (dynamic_zero cfg) h hw

theorem Apart.seeks (cfg : ServerConfig) (s₀ : Server) :
    Seeks cfg s₀.now fun s => Apart cfg s.leases ∧ s₀.now ≤ s.now where
  later _ h := h.2
  calls _ _ h := h
  elapse s d h := ⟨h.1, h.2.trans (Nat.le_add_right s.now d)⟩
  conflict _ _ h _ hass := ⟨h.1.storeLease fun _ _ => hass.dynamic, h.2⟩

theorem Apart.offered (h : Apart cfg s.leases) {o : Option UInt32}
    (ho : offered env cfg p s = (o, t)) :
    Apart cfg t.leases ∧ ∀ a, o = some a → a ≠ 0 → cfg.Dynamic a := by
  obtain ⟨ht, hfor⟩ := offered_ended (Apart.seeks cfg s) ⟨h, le_rfl⟩ ho
  refine ⟨ht.1, ?_⟩
  intro a e ha
  obtain hass | ⟨-, l, hl, rfl⟩ := hfor a e ha
  · exact hass.dynamic
  · exact h l (Server.entry_has hl).1

theorem Apart.acked (h : Apart cfg s.leases) {q : Packet} {a t : UInt32}
    {host : Option (List UInt8)}
    (ha : t ≠ infinite → (recycled s.leases s.now q.chaddr a).isSome → cfg.Dynamic a) :
    Apart cfg (s.acked q a t host) := by
  rw [Server.acked]
  split
  · exact h
  · next hfin =>
    rw [bindLease_eq]
    apply h.storeLease
    intro o ho
    exact ha hfin (Option.isSome_iff_exists.mpr ⟨o, ho⟩)

end Table

section Events

variable {env : Env} {cfg : ServerConfig} {p : Packet} {s : Server}

theorem EntersReserved.not_apart {l : StaticLease} (h : EntersReserved env cfg s p l) :
    ¬ Apart cfg (receive env cfg p s).2.leases := by
  obtain ⟨options, ho, hends⟩ := h.ends
  have hrun : (receive env cfg p s).2.leases =
      (s.receiving p).acked (p.withOptions options) l.yiaddr
        (ackLeaseTime cfg (p.withOptions options)) (p.withOptions options).hostName := by
    rw [receive_request h.request, request_selecting h.reserved h.server, staticRequest,
      if_pos h.requested, ho, ofOption_some_bind]
    exact (sendAck_sent (s := s.receiving p) h.sent).1
  have hfin : ackLeaseTime cfg (p.withOptions options) ≠ infinite :=
    fun e => hends (ackLeaseTime_eq_infinite_iff.mp e)
  rw [hrun, Server.acked, if_neg hfin, bindLease_eq]
  obtain ⟨o, ho⟩ := Option.isSome_iff_exists.mp h.room
  intro hapart
  refine (ServerConfig.static_found h.reserved).1 (hapart _ (recycled_spec _ ho).2.2)

theorem apart_receive (h : Apart cfg s.leases) (hp : ∀ l, ¬ EntersReserved env cfg s p l) :
    Apart cfg (receive env cfg p s).2.leases := by
  have hout := receive_outcome env cfg p s
  generalize (receive env cfg p s).2 = t at hout ⊢
  have hrec : Apart cfg (s.receiving p).leases := h
  cases hout with
  | silent | refused | reserved => exact h
  | searched o t _ _ ho => exact (hrec.offered ho).1
  | entered a t calls _ _ ho ha | offered a left t calls _ _ ho ha =>
    exact (hrec.offered ho).1.storeLease fun _ _ => (hrec.offered ho).2 a rfl ha
  | acked q a calls f hr hfor hsend =>
    apply hrec.acked
    intro hfin hroom
    cases hfor with
    | static l options hl hid hreq ho =>
      refine absurd ?_ (hp l)
      exact ⟨hr, hl, hid, hreq, hsend, ⟨options, ho,
        fun hinf => hfin (ackLeaseTime_eq_infinite_iff.mpr hinf)⟩, hroom⟩
    | entry l hl => exact h l (Server.entry_has hl).1
  | rewritten k l write _ _ hw =>
    exact forall_mem_modify h (fun l hl => (hw.yiaddr l).symm ▸ hl) k

theorem apart_handle_iff (s : Server) (e : Event) (h : Apart cfg s.leases) :
    Apart cfg (handle env cfg e s).2.leases ↔ KeepsApart env cfg s e := by
  cases e with
  | packet p =>
    constructor
    · intro hapart l hl
      exact hl.not_apart hapart
    · exact apart_receive h
  | tick seconds => exact iff_of_true h trivial
  | write =>
    refine iff_of_true ?_ trivial
    rw [handle, writeLeases_eq]
    exact h

end Events

theorem boot_apart (env : Env) (cfg : ServerConfig) (file : Option (List FileRecord))
    (maxLeases now : ℕ) : Apart cfg (boot env cfg file (.start maxLeases now)).2.leases := by
  rw [boot_eq, writeLeases_eq]
  cases file with
  | none => exact Apart.replicate cfg maxLeases
  | some rs =>
    refine readRecords_keeps ?_ (Apart.replicate cfg maxLeases)
    intro r _ hr leases h
    rw [bindLease_eq]
    exact h.storeLease fun _ _ => Excluded.dynamic hr.2.2.2

/-- After any lease file, and in every state the server reaches with the events: no entry holds a
reserved address if and only if no event that the server gets to enters one. -/
theorem main_apart_iff (env : Env) (cfg : ServerConfig) (maxLeases now : ℕ)
    (file : Option (List FileRecord)) (events : List Event) :
    (∀ k, Apart cfg (main env cfg file (events.take k) (.start maxLeases now)).2.leases) ↔
      Machine.AlongEach (handle env cfg) (KeepsApart env cfg)
        (boot env cfg file (.start maxLeases now)).2 events := by
  simp only [main_eq_serve]
  exact Machine.forEach_take_iff (I := fun s : Server => Apart cfg s.leases) apart_handle_iff
    (boot_apart env cfg file maxLeases now)

/-- The client with the reservation asks for its address and for a lease of two minutes: the
address is entered. -/
theorem reserved_address_entered :
    ¬ Apart reservedLan
      (main quietNet reservedLan none [.packet shortRequest] (.start 2 1000)).2.leases := by
  decide +kernel

end Wbr1310.Udhcpd
