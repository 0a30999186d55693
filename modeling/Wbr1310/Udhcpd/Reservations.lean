import Wbr1310.Udhcpd.Grants

/-!
# Static reservations

A client with a reservation should be given its address without an end whenever it
asks for it. The main loop does so only for a REQUEST that names the server, and it
passes the endless lease on to `sendACK` as an option that it appends to the received
packet, behind a lease time the client may have sent itself.
-/

namespace Wbr1310.Udhcpd

open Lib Program Option

/-- The only answer to the packet is an ACK for the address without an end. -/
def Honoured (env : Env) (cfg : ServerConfig) (p : Packet) (a : UInt32) (s : Server) : Prop :=
  (receive env cfg p s).2.log =
    .sent ⟨.ack, p.chaddr, a, infinite⟩ s.now :: .received p s.leases s.now :: s.log

/-- A lease time option with which `sendACK` grants a lease without an end: the marker, or, when
that is the configured time, none or one that is too short. -/
def ServerConfig.Endless (cfg : ServerConfig) (o : Option UInt32) : Prop :=
  o = some infinite ∨ cfg.lease = infinite ∧ ∀ t ∈ o, t < cfg.minLease

/-- What a reserved address depends on. If the REQUEST names the server, the lease time that is
found in the packet with the marker appended has to be endless. Otherwise the client needs an
entry of the table for the address, and has to ask for an endless lease itself. -/
def Honourable (env : Env) (cfg : ServerConfig) (p : Packet) (a : UInt32) (s : Server) : Prop :=
  match p.optionWord dhcpServerId with
  | some _ => ∃ options,
      addSimpleOption env.fuel (p.field .options) dhcpLeaseTime infinite = some options ∧
        cfg.Endless ((p.withOptions options).optionWord dhcpLeaseTime)
  | none => (∃ l, s.entry p = some l ∧ l.yiaddr = a) ∧
      cfg.Endless (p.optionWord dhcpLeaseTime)

/-- From a position on there are only options with other codes than the lease time and the one that
moves options to other fields, up to an end mark. -/
inductive Ordinary (optionptr : ℕ → UInt8) (last : ℕ) : ℕ → Prop where
  | finish (h : optionptr last = dhcpEnd) : Ordinary optionptr last last
  | padding {i : ℕ} (h : optionptr i = dhcpPadding) (rest : Ordinary optionptr last (i + 1)) :
      Ordinary optionptr last i
  | option {i : ℕ} (h : optionptr i ∉ [dhcpPadding, dhcpLeaseTime, dhcpOptionOver, dhcpEnd])
      (rest : Ordinary optionptr last (i + ((optionptr (i + 1)).toNat + 2))) :
      Ordinary optionptr last i

section Ordinary

variable {optionptr : ℕ → UInt8} {last i n : ℕ}

theorem Ordinary.le (h : Ordinary optionptr last i) : i ≤ last := by
  induction h with
  | finish _ => exact le_rfl
  | padding _ _ ih => omega
  | option _ _ ih => omega

theorem Ordinary.endOption (h : Ordinary optionptr last i) (hn : last < i + n) :
    endOption optionptr n i = some last := by
  induction h generalizing n with
  | finish h =>
    obtain ⟨n, rfl⟩ := Nat.exists_eq_add_one_of_ne_zero (n := n) (by omega)
    rw [Udhcpd.endOption, if_pos h]
  | padding h rest ih =>
    have hle := rest.le
    obtain ⟨n, rfl⟩ := Nat.exists_eq_add_one_of_ne_zero (n := n) (by omega)
    rw [Udhcpd.endOption, h, if_neg (by decide), if_pos rfl, ih (by omega)]
  | option h rest ih =>
    have hle := rest.le
    obtain ⟨n, rfl⟩ := Nat.exists_eq_add_one_of_ne_zero (n := n) (by omega)
    simp only [List.mem_cons, List.not_mem_nil, or_false, not_or] at h
    rw [Udhcpd.endOption, if_neg h.2.2.2, if_neg h.1, ih (by omega)]

/-- `get_option` passes over them and finds a lease time that stands in the place of the mark. -/
theorem Ordinary.getOption {p : Packet} (h : Ordinary optionptr last i)
    (hsame : ∀ k < last, p.field .options k = optionptr k)
    (hcode : p.field .options last = dhcpLeaseTime)
    (hlength : last + 1 + (p.field .options (last + 1)).toNat < 308) (hn : last < i + n) :
    p.getOptionFrom dhcpLeaseTime n ⟨.options, i, 0⟩ = some (.options, last + 2) := by
  induction h generalizing n with
  | finish _ =>
    obtain ⟨n, rfl⟩ := Nat.exists_eq_add_one_of_ne_zero (n := n) (by omega)
    have hscan : p.scan dhcpLeaseTime ⟨.options, last, 0⟩ = .found .options (last + 2) := by
      refine (if_neg ?_).trans ((if_pos hcode).trans (if_neg ?_))
      · exact not_le.mpr (show last < 308 by omega)
      · exact not_le.mpr hlength
    simp only [Packet.getOptionFrom, hscan]
  | @padding i h rest ih =>
    have hle := rest.le
    obtain ⟨n, rfl⟩ := Nat.exists_eq_add_one_of_ne_zero (n := n) (by omega)
    have hscan : p.scan dhcpLeaseTime ⟨.options, i, 0⟩ = .more ⟨.options, i + 1, 0⟩ := by
      rw [← hsame i (by omega)] at h
      refine (if_neg ?_).trans ((if_neg ?_).trans (if_pos h))
      · exact not_le.mpr (show i < 308 by omega)
      · rw [h]
        decide
    simp only [Packet.getOptionFrom, hscan]
    exact ih (by omega)
  | @option i h rest ih =>
    have hle := rest.le
    obtain ⟨n, rfl⟩ := Nat.exists_eq_add_one_of_ne_zero (n := n) (by omega)
    have hscan : p.scan dhcpLeaseTime ⟨.options, i, 0⟩ =
        .more ⟨.options, i + ((optionptr (i + 1)).toNat + 2), 0⟩ := by
      rw [← hsame (i + 1) (by omega)]
      rw [← hsame i (by omega)] at h
      simp only [List.mem_cons, List.not_mem_nil, or_false, not_or] at h
      refine (if_neg ?_).trans ((if_neg h.2.1).trans ((if_neg h.1).trans
        ((if_neg h.2.2.1).trans (if_neg h.2.2.2))))
      exact not_le.mpr (show i < 308 by omega)
    simp only [Packet.getOptionFrom, hscan]
    exact ih (by omega)

/-- A packet that names a server, with ordinary options and room for one more, meets the
condition. -/
theorem Ordinary.honourable {env : Env} {p : Packet} (h : Ordinary (p.field .options) last 0)
    (hserver : (p.optionWord dhcpServerId).isSome) (hroom : last + 7 < 308)
    (hfuel : last < env.fuel) (cfg : ServerConfig) (a : UInt32) (s : Server) :
    Honourable env cfg p a s := by
  obtain ⟨server, hserver⟩ := Option.isSome_iff_exists.mp hserver
  simp only [Honourable, hserver]
  have hadd : addSimpleOption env.fuel (p.field .options) dhcpLeaseTime infinite =
      some (writeBytes (p.field .options) last
        [dhcpLeaseTime, 4, 0xFF, 0xFF, 0xFF, 0xFF, dhcpEnd]) := by
    change addOptionString env.fuel (p.field .options) dhcpLeaseTime [0xFF, 0xFF, 0xFF, 0xFF] = _
    rw [addOptionString, h.endOption (by omega)]
    simp only [Option.bind_eq_bind, Option.bind_some]
    rw [if_neg (by simp; omega)]
    rfl
  refine ⟨_, hadd, .inl ?_⟩
  generalize hq : p.withOptions _ = q
  have hbyte : ∀ k, q.field .options k = writeBytes (p.field .options) last
      [dhcpLeaseTime, 4, 0xFF, 0xFF, 0xFF, 0xFF, dhcpEnd] k := fun _ => by rw [← hq]; rfl
  have hnew : ∀ k < 7, q.field .options (last + k) =
      [dhcpLeaseTime, 4, 0xFF, 0xFF, 0xFF, 0xFF, dhcpEnd].getD k 0 := by
    intro k hk
    rw [hbyte, writeBytes, if_neg (by omega), Nat.add_sub_cancel_left]
    interval_cases k <;> rfl
  have hfound : q.getOption dhcpLeaseTime = some (.options, last + 2) := by
    refine h.getOption (fun k hk => ?_) (hnew 0 (by decide)) ?_ (by omega)
    · rw [hbyte, writeBytes, if_pos hk]
    · rw [hnew 1 (by decide)]
      change last + 1 + 4 < 308
      omega
  rw [Packet.optionWord, hfound, Option.map_some, Packet.word]
  simp only [Nat.add_assoc, hnew, Nat.reduceAdd, Nat.reduceLT]
  rfl

end Ordinary

theorem infinite_max (t : UInt32) : t ≤ infinite := by
  rw [UInt32.le_iff_toNat_le]
  have := t.toNat_lt
  change t.toNat ≤ 2 ^ 32 - 1
  omega

theorem ackLeaseTime_eq_infinite_iff {cfg : ServerConfig} {p : Packet} :
    ackLeaseTime cfg p = infinite ↔ cfg.Endless (p.optionWord dhcpLeaseTime) := by
  unfold ackLeaseTime ServerConfig.Endless
  cases p.optionWord dhcpLeaseTime with
  | none => simp
  | some t =>
    have hmin : ¬ infinite < cfg.minLease := UInt32.not_lt.mpr (infinite_max _)
    have hmax : ∀ t, ¬ infinite < t := fun t => UInt32.not_lt.mpr (infinite_max t)
    simp only [some.injEq, mem_def, forall_eq']
    split
    · next h =>
      -- the time is cut to the configured one, which is then below the marker
      constructor
      · intro e
        rw [e] at h
        exact absurd h.2 (hmax t)
      · rintro (e | ⟨e, -⟩)
        · exact absurd e h.1
        · exact e
    · next h =>
      split
      · next hlow =>
        constructor
        · intro e
          exact .inr ⟨e, hlow⟩
        · rintro (e | ⟨e, -⟩)
          · exact absurd (e ▸ hlow) hmin
          · exact e
      · next hlow =>
        constructor
        · exact .inl
        · rintro (e | ⟨-, h⟩)
          · exact e
          · exact absurd h hlow

section Sending

variable {env : Env} {cfg : ServerConfig} {p : Packet}

theorem sendAck_endless_iff (cfg : ServerConfig) (p : Packet)
    (hsend : ∀ n, env.sendPacket n = true) (a b : UInt32) (s : Server) :
    (sendAck env cfg p a s).2.log = .sent ⟨.ack, p.chaddr, b, infinite⟩ s.now :: s.log ↔
      a = b ∧ cfg.Endless (p.optionWord dhcpLeaseTime) := by
  rw [(sendAck_sent (hsend s.calls)).2, ← ackLeaseTime_eq_infinite_iff]
  simp

theorem sendNak_not_ack (hsend : ∀ n, env.sendPacket n = true) (s : Server) (a : UInt32) :
    (sendNak env p s).2.log ≠ .sent ⟨.ack, p.chaddr, a, infinite⟩ s.now :: s.log := by
  rw [sendNak, bind_of_some (sendPacket_eq env _ s), hsend]
  simp

end Sending

section Forms

variable {env : Env} {cfg : ServerConfig} {p : Packet} {l : StaticLease} {a : UInt32}

theorem honoured_selecting_iff (hl : cfg.findStaticLeaseByChaddr p.chaddr = some l)
    (hr : p.messageType = some dhcpRequest) (hid : p.optionWord dhcpServerId = some cfg.server)
    (hreq : p.optionWord dhcpRequestedIp = some l.yiaddr)
    (hsend : ∀ n, env.sendPacket n = true) (s : Server) :
    Honoured env cfg p l.yiaddr s ↔ Honourable env cfg p l.yiaddr s := by
  unfold Honoured Honourable
  rw [receive_request hr, request_selecting hl hid, staticRequest, if_pos hreq, hid]
  cases hopt : addSimpleOption env.fuel (p.field .options) dhcpLeaseTime infinite with
  | none =>
    -- no end option is found, and nothing is sent
    constructor
    · intro h
      have hlog : (s.receiving p).log = _ := h
      exact absurd (congrArg List.length hlog) (by simp [Server.receiving])
    · rintro ⟨options, ho, -⟩
      exact absurd ho (by simp)
  | some options =>
    rw [ofOption_some_bind]
    have hiff := sendAck_endless_iff cfg (p.withOptions options) hsend l.yiaddr l.yiaddr
      (s.receiving p)
    constructor
    · intro h
      exact ⟨options, rfl, (hiff.mp h).2⟩
    · rintro ⟨options', ho, h⟩
      obtain rfl := some.inj ho
      exact hiff.mpr ⟨rfl, h⟩

/-- Without the name of a server, the answer depends on an entry of the table. -/
theorem honoured_unnamed_iff (hr : p.messageType = some dhcpRequest)
    (hid : p.optionWord dhcpServerId = none)
    (hknown : ∀ e, knownRequest env cfg p e = ackOrNak env cfg p e.yiaddr (e.yiaddr = a))
    (hunknown : ∀ s : Server, (unknownRequest env cfg p (s.receiving p)).2.log ≠
      .sent ⟨.ack, p.chaddr, a, infinite⟩ s.now :: .received p s.leases s.now :: s.log)
    (hsend : ∀ n, env.sendPacket n = true) (s : Server) :
    Honoured env cfg p a s ↔ Honourable env cfg p a s := by
  unfold Honoured Honourable
  rw [receive_request hr, request_entry (.inr (by simp [hid])), entry_receiving, hid]
  cases s.entry p with
  | none =>
    constructor
    · intro h
      exact absurd h (hunknown s)
    · rintro ⟨⟨l, hl, -⟩, -⟩
      exact absurd hl (by simp)
  | some e =>
    simp only [hknown, some.injEq, exists_eq_left']
    by_cases he : e.yiaddr = a
    · simp only [ackOrNak, he, decide_true, if_true, true_and]
      exact (sendAck_endless_iff cfg p hsend a a (s.receiving p)).trans (by simp)
    · simp only [ackOrNak, he, decide_false, false_and, iff_false]
      exact sendNak_not_ack hsend (s.receiving p) a

theorem honoured_reboot_iff (hl : cfg.findStaticLeaseByChaddr p.chaddr = some l)
    (hr : p.messageType = some dhcpRequest) (hid : p.optionWord dhcpServerId = none)
    (hreq : p.optionWord dhcpRequestedIp = some l.yiaddr)
    (hsend : ∀ n, env.sendPacket n = true) (s : Server) :
    Honoured env cfg p l.yiaddr s ↔ Honourable env cfg p l.yiaddr s := by
  refine honoured_unnamed_iff hr hid ?_ ?_ hsend s
  · intro e
    simp only [knownRequest, hid, hreq]
  · intro s
    -- a reserved address is refused to a client without an entry, even to its owner
    have hstatic : (cfg.findStaticLeaseByYiaddr l.yiaddr).isSome := by
      rw [isSome_iff_ne_none]
      exact (ServerConfig.static_found hl).1
    have hnak : unknownRequest env cfg p (s.receiving p) = sendNak env p (s.receiving p) := by
      simp only [unknownRequest, hid, hreq, rebootRequest, get_bind_apply, if_pos hstatic]
    rw [hnak]
    exact sendNak_not_ack hsend (s.receiving p) l.yiaddr

theorem honoured_renew_iff (hl : cfg.findStaticLeaseByChaddr p.chaddr = some l)
    (hr : p.messageType = some dhcpRequest) (hid : p.optionWord dhcpServerId = none)
    (hreq : p.optionWord dhcpRequestedIp = none) (hci : p.ciaddr = l.yiaddr)
    (hsend : ∀ n, env.sendPacket n = true) (s : Server) :
    Honoured env cfg p l.yiaddr s ↔ Honourable env cfg p l.yiaddr s := by
  refine honoured_unnamed_iff hr hid ?_ ?_ hsend s
  · intro e
    simp only [knownRequest, hid, hreq, hci]
  · intro s
    have hne : p.ciaddr ≠ 0 := hci ▸ (ServerConfig.static_found hl).2
    have hnak : unknownRequest env cfg p (s.receiving p) = sendNak env p (s.receiving p) := by
      simp only [unknownRequest, hid, hreq, if_pos hne]
    rw [hnak]
    exact sendNak_not_ack hsend (s.receiving p) l.yiaddr

end Forms

/-- Whatever the table holds: the server answers the REQUEST of a client for its reserved
address with an ACK without an end if and only if the packet and the table allow it. -/
theorem receive_honoured_iff (env : Env) (cfg : ServerConfig) (p : Packet) (l : StaticLease)
    (s : Server) (hl : cfg.findStaticLeaseByChaddr p.chaddr = some l)
    (hr : p.messageType = some dhcpRequest) (hasks : Asks cfg p l.yiaddr)
    (hsend : ∀ n, env.sendPacket n = true) :
    Honoured env cfg p l.yiaddr s ↔ Honourable env cfg p l.yiaddr s := by
  cases hasks with
  | selecting hid hreq => exact honoured_selecting_iff hl hr hid hreq hsend s
  | reboot hid hreq => exact honoured_reboot_iff hl hr hid hreq hsend s
  | renew hid hreq hci => exact honoured_renew_iff hl hr hid hreq hci hsend s

/-- The small network with a reservation of its first address. -/
def reservedLan : ServerConfig := { lan with staticLeases := [⟨1, 0xC0A80064⟩] }

/-- A REQUEST of the reserved client with some options after the message type. -/
def reservedRequest (ciaddr : UInt32) (more : List UInt8) : Packet :=
  { packetOf 1 ([0x35, 1, 3] ++ more ++ [0xFF]) with ciaddr := ciaddr }

/-- The client names the server and its reserved address, and no lease time. -/
def selectingRequest : Packet :=
  reservedRequest 0 [0x36, 4, 0xC0, 0xA8, 0, 1, 0x32, 4, 0xC0, 0xA8, 0, 0x64]

/-- A reserved client that accepts its offer. -/
theorem receive_honoured_iff_selecting :
    Asks reservedLan selectingRequest 0xC0A80064 ∧
      (Honoured quietNet reservedLan selectingRequest 0xC0A80064 (.start 2 1000) ↔
        Honourable quietNet reservedLan selectingRequest 0xC0A80064 (.start 2 1000)) := by
  have hasks : Asks reservedLan selectingRequest 0xC0A80064 :=
    .selecting (by decide +kernel) (by decide +kernel)
  exact ⟨hasks, receive_honoured_iff quietNet reservedLan selectingRequest ⟨1, 0xC0A80064⟩
    (.start 2 1000) (by decide) (by decide +kernel) hasks fun _ => rfl⟩

/-- The client adds that it would like a lease for two minutes. -/
def shortRequest : Packet :=
  reservedRequest 0 [0x33, 4, 0, 0, 0, 120, 0x36, 4, 0xC0, 0xA8, 0, 1, 0x32, 4, 0xC0, 0xA8, 0, 0x64]

/-- The client asks for its reserved address after a restart. -/
def rebootingRequest : Packet := reservedRequest 0 [0x32, 4, 0xC0, 0xA8, 0, 0x64]

/-- The client uses its reserved address and wants to go on. -/
def renewingRequest : Packet := reservedRequest 0xC0A80064 []

theorem not_honoured_of_sent {env : Env} {cfg : ServerConfig} {p : Packet} {a : UInt32}
    {s : Server} {m : Message}
    (h : (receive env cfg p s).2.log.head?.bind Record.message = some m)
    (hm : m ≠ ⟨.ack, p.chaddr, a, infinite⟩) : ¬ Honoured env cfg p a s := by
  intro hh
  rw [Honoured] at hh
  rw [hh] at h
  exact hm (some.inj h).symm

/-- With an empty table the first is granted two minutes, the other two are refused. -/
theorem reservation_not_honoured :
    (Asks reservedLan shortRequest 0xC0A80064 ∧
      ¬ Honoured quietNet reservedLan shortRequest 0xC0A80064 (.start 2 1000)) ∧
    (Asks reservedLan rebootingRequest 0xC0A80064 ∧
      ¬ Honoured quietNet reservedLan rebootingRequest 0xC0A80064 (.start 2 1000)) ∧
    (Asks reservedLan renewingRequest 0xC0A80064 ∧
      ¬ Honoured quietNet reservedLan renewingRequest 0xC0A80064 (.start 2 1000)) := by
  refine ⟨⟨?_, ?_⟩, ⟨?_, ?_⟩, ⟨?_, ?_⟩⟩
  · exact .selecting (by decide +kernel) (by decide +kernel)
  · apply not_honoured_of_sent (m := ⟨.ack, 1, 0xC0A80064, 120⟩)
    · decide +kernel
    · decide
  · exact .reboot (by decide +kernel) (by decide +kernel)
  · apply not_honoured_of_sent (m := ⟨.nak, 1, 0, 0⟩)
    · decide +kernel
    · decide
  · exact .renew (by decide +kernel) (by decide +kernel) rfl
  · apply not_honoured_of_sent (m := ⟨.nak, 1, 0, 0⟩)
    · decide +kernel
    · decide

end Wbr1310.Udhcpd
