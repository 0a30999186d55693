import Wbr1310.Udhcpd.Choice

/-!
# What becomes of a packet

`Outcome` lists the states in which the handling of one packet can end, with all that the
code has checked on the way there. `receive_outcome` shows that the list is complete, so a
statement about every packet is a case analysis over it.
-/

namespace Wbr1310.Udhcpd

open Lib Program Option

/-- The forms of a REQUEST for an address: in the state SELECTING with the name of this server,
in the state INIT-REBOOT, and in the states RENEWING and REBINDING. -/
inductive Asks (cfg : ServerConfig) (p : Packet) (a : UInt32) : Prop where
  | selecting (server : p.optionWord dhcpServerId = some cfg.server)
      (requested : p.optionWord dhcpRequestedIp = some a)
  | reboot (server : p.optionWord dhcpServerId = none)
      (requested : p.optionWord dhcpRequestedIp = some a)
  | renew (server : p.optionWord dhcpServerId = none)
      (requested : p.optionWord dhcpRequestedIp = none) (ciaddr : p.ciaddr = a)

/-- The packet with other bytes in the field `options`. -/
def Packet.withOptions (p : Packet) (options : ℕ → UInt8) : Packet :=
  { p with field := Function.update p.field .options options }

/-- The table after an ACK; a lease without end is not entered. -/
def Server.acked (s : Server) (p : Packet) (a t : UInt32) (host : Option (List UInt8)) :
    List Lease :=
  if t = infinite then s.leases else bindLease s.leases s.now p.chaddr a t host

/-- The packet that an ACK is made from and the address it is for: a reservation, with the marker
of an endless lease among the options, or the entry of the client, if the client asks for its
address. -/
inductive AckOf (env : Env) (cfg : ServerConfig) (p : Packet) (s : Server) :
    Packet → UInt32 → Prop where
  | static (l : StaticLease) (options : ℕ → UInt8)
      (hl : cfg.findStaticLeaseByChaddr p.chaddr = some l)
      (server : p.optionWord dhcpServerId = some cfg.server)
      (requested : p.optionWord dhcpRequestedIp = some l.yiaddr)
      (marked : addSimpleOption env.fuel (p.field .options) dhcpLeaseTime infinite = some options) :
      AckOf env cfg p s (p.withOptions options) l.yiaddr
  | entry (l : Lease) (hl : s.entry p = some l) (asks : Asks cfg p l.yiaddr) :
      AckOf env cfg p s p l.yiaddr

def Written (cfg : ServerConfig) (file : List FileRecord) (leases : List Lease) (now : ℕ)
    (file' : List FileRecord) : Prop :=
  file' = file ∨ file' = leases.filterMap (·.fileRecord cfg now)

/-- What is written to an entry in its place: its client may be dropped and its end is changed. -/
structure Rewrites (write : Lease → Lease) : Prop where
  chaddr : ∀ l, (write l).chaddr = l.chaddr ∨ (write l).chaddr = 0
  yiaddr : ∀ l, (write l).yiaddr = l.yiaddr
  acked : ∀ l, (write l).acked = l.acked
  hostname : ∀ l, (write l).hostname = l.hostname

/-- The states in which the handling of a packet can end, from that in which it is recorded. -/
inductive Outcome (env : Env) (cfg : ServerConfig) (p : Packet) (s : Server) : Server → Prop where
  | silent (calls : ℕ) : Outcome env cfg p s { s with calls := calls }
  | refused (calls : ℕ) (m : Message) (hm : m.kind = .nak ∨ m.kind = .inform)
      (hd : p.messageType ≠ some dhcpDiscover) :
      Outcome env cfg p s { s with calls := calls, log := .sent m s.now :: s.log }
  | reserved (calls : ℕ) (l : StaticLease) (hl : cfg.findStaticLeaseByChaddr p.chaddr = some l) :
      Outcome env cfg p s { s with
        calls := calls
        log := .sent ⟨.offer, p.chaddr, l.yiaddr, infinite⟩ s.now :: s.log }
  | searched (o : Option UInt32) (t : Server) (hd : p.messageType = some dhcpDiscover)
      (hu : cfg.Unreserved p.chaddr) (ho : offered env cfg p s = (o, t)) (h0 : o.getD 0 = 0) :
      Outcome env cfg p s t
  | entered (a : UInt32) (t : Server) (calls : ℕ) (hd : p.messageType = some dhcpDiscover)
      (hu : cfg.Unreserved p.chaddr) (ho : offered env cfg p s = (some a, t)) (ha : a ≠ 0)
      (hsilent : (addLease t.leases t.now p.chaddr a cfg.offerTime p.hostName).2 = none ∨
        env.sendPacket t.calls = false) :
      Outcome env cfg p s { t with
        calls := calls
        leases := (addLease t.leases t.now p.chaddr a cfg.offerTime p.hostName).1 }
  | offered (a left : UInt32) (t : Server) (calls : ℕ) (hd : p.messageType = some dhcpDiscover)
      (hu : cfg.Unreserved p.chaddr) (ho : offered env cfg p s = (some a, t)) (ha : a ≠ 0)
      (hslot : (addLease t.leases t.now p.chaddr a cfg.offerTime p.hostName).2.isSome) :
      Outcome env cfg p s { t with
        calls := calls
        leases := (addLease t.leases t.now p.chaddr a cfg.offerTime p.hostName).1
        log := .sent ⟨.offer, p.chaddr, a, left⟩ t.now :: t.log }
  | acked (q : Packet) (a : UInt32) (calls : ℕ) (file : List FileRecord)
      (hr : p.messageType = some dhcpRequest) (hfor : AckOf env cfg p s q a)
      (hsend : env.sendPacket s.calls = true)
      (hfile : Written cfg s.leaseFile (s.acked q a (ackLeaseTime cfg q) q.hostName) s.now file) :
      Outcome env cfg p s { s with
        calls := calls
        leases := s.acked q a (ackLeaseTime cfg q) q.hostName
        leaseFile := file
        log := .sent ⟨.ack, p.chaddr, a, ackLeaseTime cfg q⟩ s.now :: s.log }
  | rewritten (k : ℕ) (l : Lease) (write : Lease → Lease) (hl : s.leases[k]? = some l)
      (hc : l.chaddr = p.chaddr ∨ l.Expired s.now) (hw : Rewrites write) :
      Outcome env cfg p s { s with leases := s.leases.modify k write }

variable {env : Env} {cfg : ServerConfig} {p : Packet} {s : Server} {l : StaticLease}

/-- The state in which a packet is handled: its receipt is recorded. -/
def Server.receiving (s : Server) (p : Packet) : Server :=
  { s with log := .received p s.leases s.now :: s.log }

theorem receive_eq (env : Env) (cfg : ServerConfig) (p : Packet) (s : Server) :
    receive env cfg p s = (match p.messageType with
      | some type => dispatch env cfg p type
      | none => pure () : Run Unit) (s.receiving p) :=
  rfl

theorem receive_request (hr : p.messageType = some dhcpRequest) (s : Server) :
    receive env cfg p s = request env cfg p (s.receiving p) := by
  rw [receive_eq, hr]
  rfl

theorem request_selecting (hl : cfg.findStaticLeaseByChaddr p.chaddr = some l)
    (hid : p.optionWord dhcpServerId = some cfg.server) (s : Server) :
    request env cfg p s = staticRequest env cfg p l s := by
  have hunknown : unknownRequest env cfg p = pure () := by
    simp only [unknownRequest, hid]
  have hrun : request env cfg p s = (do
      staticRequest env cfg p l
      unknownRequest env cfg p : Run Unit) s := by
    simp only [request, get_bind_apply, hl, if_pos hid]
  rw [hrun, hunknown]
  exact congrFun (bind_pure_unit _) s

theorem request_entry (h : cfg.Unreserved p.chaddr ∨ p.optionWord dhcpServerId ≠ some cfg.server)
    (s : Server) : request env cfg p s = (match s.entry p with
      | some e => knownRequest env cfg p e
      | none => unknownRequest env cfg p : Run Unit) s := by
  simp only [request, get_bind_apply]
  cases hst : cfg.findStaticLeaseByChaddr p.chaddr with
  | none => rfl
  | some l =>
    have hid : p.optionWord dhcpServerId ≠ some cfg.server := by
      refine h.resolve_left ?_
      intro hu
      exact absurd (hst.symm.trans hu) (by simp)
    refine (congrFun (if_neg hid) s).trans ?_
    cases s.entry p with
    | none => rfl
    | some e => rfl

theorem entry_receiving (s : Server) : (s.receiving p).entry p = s.entry p := rfl

variable {q : Packet} {a : UInt32}

theorem AckOf.chaddr (h : AckOf env cfg p s q a) :
    q.chaddr = p.chaddr := by
  cases h with
  | static => rfl
  | entry => rfl

theorem sendPacket_eq (env : Env) (m : Message) (s : Server) :
    sendPacket env m s = (some (env.sendPacket s.calls), { s with
      calls := s.calls + 1
      log := if env.sendPacket s.calls then .sent m s.now :: s.log else s.log }) := by
  have hask : ask env.sendPacket s = (some (env.sendPacket s.calls), { s with
    calls := s.calls + 1 }) := rfl
  rw [sendPacket, bind_of_some hask]
  cases env.sendPacket s.calls with
  | false => rfl
  | true => rfl

theorem writeLeases_eq (env : Env) (cfg : ServerConfig) (s : Server) :
    writeLeases env cfg s = (some (), { s with
      calls := s.calls + 1
      leaseFile := if env.fopen s.calls then s.leases.filterMap (·.fileRecord cfg s.now)
        else s.leaseFile }) := by
  have hask : ask env.fopen s = (some (env.fopen s.calls), { s with calls := s.calls + 1 }) := rfl
  rw [writeLeases, bind_of_some hask]
  cases env.fopen s.calls with
  | false => rfl
  | true => rfl

theorem send_outcome (m : Message)
    (hm : ∀ calls, Outcome env cfg p s { s with calls := calls, log := .sent m s.now :: s.log }) :
    Outcome env cfg p s ((do
      let _ ← sendPacket env m
      pure () : Run Unit) s).2 := by
  rw [bind_of_some (sendPacket_eq env m s)]
  cases hsend : env.sendPacket s.calls with
  | false => exact .silent (s.calls + 1)
  | true => exact hm (s.calls + 1)

theorem sendNak_outcome (hr : p.messageType = some dhcpRequest) :
    Outcome env cfg p s (sendNak env p s).2 :=
  send_outcome _ fun calls => .refused calls _ (.inl rfl) (by rw [hr]; decide)

theorem sendAck_outcome (hr : p.messageType = some dhcpRequest) (hfor : AckOf env cfg p s q a) :
    Outcome env cfg p s (sendAck env cfg q a s).2 := by
  have hsent := sendPacket_eq env ⟨.ack, q.chaddr, a, ackLeaseTime cfg q⟩ s
  rw [sendAck, bind_of_some hsent]
  cases hsend : env.sendPacket s.calls with
  | false =>
    rw [if_neg (by simp)]
    exact .silent (s.calls + 1)
  | true =>
    have hacked := fun calls file => Outcome.acked (s := s) q a calls file hr hfor hsend
    rw [hfor.chaddr]
    by_cases hinf : ackLeaseTime cfg q = infinite
    · rw [if_neg (by simp [hinf])]
      have hsame := hacked (s.calls + 1) s.leaseFile (.inl rfl)
      rw [Server.acked, if_pos hinf] at hsame
      exact hsame
    · rw [if_pos (by simp [hinf]), modify_bind_apply, writeLeases_eq]
      have hwritten : Written cfg s.leaseFile (s.acked q a (ackLeaseTime cfg q) q.hostName) s.now
          (if env.fopen (s.calls + 1) then
            (s.acked q a (ackLeaseTime cfg q) q.hostName).filterMap (·.fileRecord cfg s.now)
          else s.leaseFile) := by
        split
        · exact .inr rfl
        · exact .inl rfl
      have hbound := hacked (s.calls + 2) _ hwritten
      rw [Server.acked, if_neg hinf, hfor.chaddr] at hbound
      exact hbound

/-- An ACK that is sent is recorded and entered. -/
theorem sendAck_sent (hsend : env.sendPacket s.calls = true) :
    (sendAck env cfg q a s).2.leases = s.acked q a (ackLeaseTime cfg q) q.hostName ∧
      (sendAck env cfg q a s).2.log =
        .sent ⟨.ack, q.chaddr, a, ackLeaseTime cfg q⟩ s.now :: s.log := by
  have hsent := sendPacket_eq env ⟨.ack, q.chaddr, a, ackLeaseTime cfg q⟩ s
  rw [sendAck, bind_of_some hsent, hsend, Server.acked]
  by_cases hinf : ackLeaseTime cfg q = infinite
  · rw [if_neg (by simp [hinf]), if_pos hinf]
    exact ⟨rfl, rfl⟩
  · rw [if_pos (by simp [hinf]), if_neg hinf, modify_bind_apply, writeLeases_eq]
    exact ⟨rfl, rfl⟩

section

variable (hr : p.messageType = some dhcpRequest)

include hr

theorem staticRequest_outcome {l : StaticLease} (hl : cfg.findStaticLeaseByChaddr p.chaddr = some l)
    (hid : p.optionWord dhcpServerId = some cfg.server) :
    Outcome env cfg p s (staticRequest env cfg p l s).2 := by
  rw [staticRequest]
  split
  · next hreq =>
    cases ho : addSimpleOption env.fuel (p.field .options) dhcpLeaseTime infinite with
    | none => exact .silent s.calls
    | some options =>
      rw [ofOption_some_bind]
      exact sendAck_outcome hr (.static l options hl hid hreq ho)
  · exact sendNak_outcome hr

theorem knownRequest_outcome {l : Lease} (hl : s.entry p = some l) :
    Outcome env cfg p s (knownRequest env cfg p l s).2 := by
  have hanswer : ∀ ok : Bool, (ok = true → Asks cfg p l.yiaddr) →
      Outcome env cfg p s (ackOrNak env cfg p l.yiaddr ok s).2 := by
    intro ok hasks
    cases ok with
    | false => exact sendNak_outcome hr
    | true => exact sendAck_outcome hr (.entry l hl (hasks rfl))
  cases hid : p.optionWord dhcpServerId with
  | some id =>
    simp only [knownRequest, hid]
    split
    · next h => exact sendAck_outcome hr (.entry l hl (.selecting (h.1 ▸ hid) h.2))
    · exact .silent s.calls
  | none =>
    cases hreq : p.optionWord dhcpRequestedIp with
    | some requested =>
      simp only [knownRequest, hid, hreq]
      apply hanswer
      intro he
      exact .reboot hid (hreq.trans (congrArg some (of_decide_eq_true he).symm))
    | none =>
      simp only [knownRequest, hid, hreq]
      apply hanswer
      intro he
      exact .renew hid hreq (of_decide_eq_true he).symm

theorem rebootRequest_outcome (a : UInt32) :
    Outcome env cfg p s (rebootRequest env cfg p a s).2 := by
  simp only [rebootRequest, get_bind_apply]
  split
  · exact sendNak_outcome hr
  · cases hk : findLeaseByYiaddr s.leases a with
    | none => exact sendNak_outcome hr
    | some k =>
      obtain ⟨l, hl, -⟩ := findLeaseByYiaddr_slot hk
      by_cases hexp : l.Expired s.now
      · simp only [hl, map_some, decide_eq_true hexp, getD_some, if_true]
        exact .rewritten k l _ hl (.inr hexp)
          ⟨fun _ => .inr rfl, fun _ => rfl, fun _ => rfl, fun _ => rfl⟩
      · simp only [hl, map_some, decide_eq_false hexp, getD_some]
        exact sendNak_outcome hr

theorem unknownRequest_outcome : Outcome env cfg p s (unknownRequest env cfg p s).2 := by
  cases hid : p.optionWord dhcpServerId with
  | some id =>
    simp only [unknownRequest, hid]
    exact .silent s.calls
  | none =>
    cases hreq : p.optionWord dhcpRequestedIp with
    | some requested =>
      simp only [unknownRequest, hid, hreq]
      exact rebootRequest_outcome hr requested
    | none =>
      simp only [unknownRequest, hid, hreq]
      split
      · exact sendNak_outcome hr
      · exact .silent s.calls

theorem request_outcome : Outcome env cfg p s (request env cfg p s).2 := by
  by_cases hentry : cfg.Unreserved p.chaddr ∨ p.optionWord dhcpServerId ≠ some cfg.server
  · rw [request_entry hentry]
    cases he : s.entry p with
    | some l => exact knownRequest_outcome hr he
    | none => exact unknownRequest_outcome hr
  · obtain ⟨hu, hid⟩ := not_or.mp hentry
    obtain ⟨l, hl⟩ := ne_none_iff_exists'.mp hu
    rw [request_selecting hl (not_not.mp hid)]
    exact staticRequest_outcome hr hl (not_not.mp hid)

end

theorem sendOffer_outcome (hd : p.messageType = some dhcpDiscover) :
    Outcome env cfg p s (sendOffer env cfg p s).2 := by
  cases hst : cfg.findStaticLeaseByChaddr p.chaddr with
  | some l =>
    simp only [sendOffer, hst]
    exact send_outcome _ fun calls => .reserved calls l hst
  | none =>
    simp only [sendOffer, hst, get_bind_apply]
    cases ho : offered env cfg p s with
    | mk o t =>
      cases o with
      | none =>
        rw [bind_of_none ho]
        exact .searched none t hd hst ho rfl
      | some a =>
        rw [bind_of_some ho]
        by_cases ha : a = 0
        · rw [if_pos ha]
          exact .searched (some a) t hd hst ho ha
        · have hstore : addLeaseNow p.chaddr a cfg.offerTime p.hostName t =
              (some (addLease t.leases t.now p.chaddr a cfg.offerTime p.hostName).2.isSome,
                { t with leases :=
                  (addLease t.leases t.now p.chaddr a cfg.offerTime p.hostName).1 }) := rfl
          rw [if_neg ha, bind_of_some hstore]
          cases hslot : (addLease t.leases t.now p.chaddr a cfg.offerTime p.hostName).2 with
          | none => exact .entered a t t.calls hd hst ho ha (.inl hslot)
          | some k =>
            simp only [isSome_some, if_true]
            rw [bind_of_some (sendPacket_eq env _ _)]
            cases hsend : env.sendPacket t.calls with
            | false => exact .entered a t (t.calls + 1) hd hst ho ha (.inr hsend)
            | true => exact .offered a _ t (t.calls + 1) hd hst ho ha (by simp [hslot])

theorem writeEntry_outcome {write : ℕ → Lease → Lease} (hw : Rewrites (write s.now)) :
    Outcome env cfg p s (writeEntry p write s).2 := by
  rw [writeEntry, modify_apply]
  cases hk : findLeaseByChaddr s.leases p.chaddr with
  | none => exact .silent s.calls
  | some k =>
    obtain ⟨l, hl, hc⟩ := findLeaseByChaddr_slot hk
    exact .rewritten k l _ hl (.inl hc) hw

theorem receive_outcome (env : Env) (cfg : ServerConfig) (p : Packet) (s : Server) :
    Outcome env cfg p (s.receiving p) (receive env cfg p s).2 := by
  rw [receive_eq]
  cases ht : p.messageType with
  | none => exact .silent s.calls
  | some type =>
    simp only [dispatch]
    split
    · next e => exact sendOffer_outcome (e ▸ ht)
    split
    · next e => exact request_outcome (e ▸ ht)
    split
    · exact writeEntry_outcome ⟨fun _ => .inr rfl, fun _ => rfl, fun _ => rfl, fun _ => rfl⟩
    split
    · exact writeEntry_outcome ⟨fun _ => .inl rfl, fun _ => rfl, fun _ => rfl, fun _ => rfl⟩
    split
    · next hd _ _ _ _ =>
      exact send_outcome _ fun calls => .refused calls _ (.inr rfl) (by simp [ht, hd])
    · exact .silent s.calls

end Wbr1310.Udhcpd
