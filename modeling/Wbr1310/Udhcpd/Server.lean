import Wbr1310.Lib.Program
import Wbr1310.Udhcpd.Leases

/-!
# The DHCP server

The model of `serverpacket.c`, of the main loop of `dhcpd.c`, of the two functions of
`files.c` on the lease file and of the two functions of `leases.c` that probe the
network. The answers of the outside, to ARP probes, to sending and to opening the
lease file, are those of an environment and are asked for one after the other. Time
passes between events and while a probe waits.

Of a packet that is sent, its kind, the client and the granted address and time
are kept; the record lists received and sent packets, the newest first.
-/

namespace Wbr1310.Udhcpd

open Lib Program

/-- The kinds of packets that are sent; the answer to an INFORM grants nothing. -/
inductive Kind where
  | offer
  | ack
  | nak
  | inform
  deriving DecidableEq, Repr

/-- A packet that is sent; a NAK and the answer to an INFORM carry no address and no time. -/
structure Message where
  kind : Kind
  chaddr : Chaddr
  yiaddr : UInt32
  leaseTime : UInt32
  deriving DecidableEq, Repr

/-- An entry of the record: a packet was received, with the table and the clock
at that moment, or a packet was sent at a time. -/
inductive Record where
  | received (p : Packet) (leases : List Lease) (now : ℕ)
  | sent (m : Message) (now : ℕ)

/-- A record of the lease file; the host name is a field of 64 bytes. -/
structure FileRecord where
  chaddr : Chaddr
  yiaddr : UInt32
  expires : UInt32
  acked : UInt32
  hostname : List UInt8
  deriving DecidableEq, Repr

/-- The state of the server: the lease table, the clock, the number of answers the
outside gave so far, the lease file and the record. -/
structure Server where
  leases : List Lease
  now : ℕ
  calls : ℕ
  leaseFile : List FileRecord
  log : List Record

/-- The answers of the outside to its `n`-th question, and a bound on the rounds of
loops that need not end. -/
structure Env where
  /-- Somebody answers the probe, and the seconds the probe takes. -/
  arpping : ℕ → Bool × ℕ
  /-- The packet is sent. -/
  sendPacket : ℕ → Bool
  /-- The lease file can be opened for writing. -/
  fopen : ℕ → Bool
  fuel : ℕ

abbrev Run (α : Type) := Program Server α

def ask {α : Type} (answer : ℕ → α) : Run α := do
  let s ← get
  modify fun s => { s with calls := s.calls + 1 }
  pure (answer s.calls)

def record (r : Record) : Run Unit := modify fun s => { s with log := r :: s.log }

/-- `add_lease`: whether a slot was found. -/
def addLeaseNow (chaddr : Chaddr) (yiaddr lease : UInt32) (hostname : Option (List UInt8)) :
    Run Bool := do
  let s ← get
  modify fun s => { s with leases := (addLease s.leases s.now chaddr yiaddr lease hostname).1 }
  pure (addLease s.leases s.now chaddr yiaddr lease hostname).2.isSome

section

variable (env : Env) (cfg : ServerConfig) (p : Packet) (yiaddr : UInt32)

/-- `check_ip`: whether the address is taken; an address that is taken is marked in the table. -/
def checkIp (addr : UInt32) : Run Bool := do
  let (taken, seconds) ← ask env.arpping
  modify fun s => { s with now := s.now + seconds }
  if taken then do
    let _ ← addLeaseNow 0 addr cfg.conflictTime none
    pure true
  else pure false

def Server.free (s : Server) (checkExpired : Bool) (addr : UInt32) : Bool :=
  match findLeaseByYiaddr s.leases addr with
  | none => true
  | some k => checkExpired && ((s.leases[k]?).map fun l => decide (l.Expired s.now)).getD false

/-- The body of the loop of `find_address`: whether the address is returned. -/
def tryAddress (checkExpired : Bool) (addr : UInt32) : Run Bool := do
  let s ← get
  if addr &&& 0xFF = 0 ∨ addr &&& 0xFF = 0xFF then pure false
  else if (cfg.findStaticLeaseByYiaddr addr).isSome then pure false
  else if s.free checkExpired addr then do
    let taken ← checkIp env cfg addr
    pure (!taken)
  else pure false

/-- The loop of `find_address`. With the last address of all as the end of the range the
loop wraps around and need not end. -/
def findAddressFrom (env : Env) (cfg : ServerConfig) (checkExpired : Bool) :
    ℕ → UInt32 → Run UInt32
  | 0, _ => fail
  | n + 1, addr =>
    if addr ≤ cfg.endAddr then do
      let ok ← tryAddress env cfg checkExpired addr
      if ok then pure addr else findAddressFrom env cfg checkExpired n (addr + 1)
    else pure 0

def findAddress (checkExpired : Bool) : Run UInt32 :=
  findAddressFrom env cfg checkExpired env.fuel cfg.startAddr

/-- What `write_leases` writes for a slot. -/
def Lease.fileRecord (now : ℕ) (l : Lease) : Option FileRecord :=
  if l.yiaddr ≠ 0 ∧ l.acked ≠ 0 then
    some
      { chaddr := l.chaddr
        yiaddr := l.yiaddr
        expires :=
          if cfg.remaining then (if l.Expired now then 0 else l.expires - time now) else l.expires
        acked := l.acked
        hostname := l.hostname ++ List.replicate (64 - l.hostname.length) 0 }
  else none

def writeLeases : Run Unit := do
  let opened ← ask env.fopen
  if opened then
    modify fun s => { s with leaseFile := s.leases.filterMap (·.fileRecord cfg s.now) }
  else pure ()

/-- The reservation that keeps a record of the lease file out of the table. -/
def FileRecord.Excluded (r : FileRecord) : Prop :=
  ∃ l ∈ cfg.statics, l.chaddr = r.chaddr ∨ l.yiaddr = r.yiaddr

instance (cfg : ServerConfig) (r : FileRecord) : Decidable (r.Excluded cfg) :=
  inferInstanceAs (Decidable (∃ l ∈ cfg.statics, _))

/-- The table that `read_leases` makes of a record, or nothing when the table is full. -/
def restore (now : ℕ) (leases : List Lease) (r : FileRecord) : List Lease × Option ℕ :=
  let expires := if cfg.remaining then r.expires else r.expires - time now
  let stored := addLease leases now r.chaddr r.yiaddr expires (some r.hostname)
  (markAcked stored.1 stored.2, stored.2)

/-- The loop of `read_leases` with `room` entries left to read. -/
def readRecords (cfg : ServerConfig) (now : ℕ) : ℕ → List FileRecord → List Lease → List Lease
  | 0, _, leases => leases
  | _ + 1, [], leases => leases
  | room + 1, r :: rs, leases =>
    if cfg.startAddr ≤ r.yiaddr ∧ r.yiaddr ≤ cfg.endAddr ∧ r.acked ≠ 0 ∧ ¬ r.Excluded cfg then
      match restore cfg now leases r with
      | (leases, none) => leases
      | (leases, some _) => readRecords cfg now room rs leases
    else readRecords cfg now (room + 1) rs leases

/-- `read_leases`, of a file that may be missing. -/
def readLeases (file : Option (List FileRecord)) : Run Unit :=
  match file with
  | none => pure ()
  | some rs => modify fun s =>
    { s with leases := readRecords cfg s.now s.leases.length rs s.leases }

def sendPacket (m : Message) : Run Bool := do
  let ok ← ask env.sendPacket
  let s ← get
  if ok then do
    record (.sent m s.now)
    pure true
  else pure false

def infinite : UInt32 := 0xFFFFFFFF

/-- The address that the table or the client proposes for an offer, zero for none. -/
def proposed (s : Server) : UInt32 :=
  match findLeaseByChaddr s.leases p.chaddr with
  | some k => ((s.leases[k]?).map Lease.yiaddr).getD 0
  | none => match p.optionWord dhcpRequestedIp with
    | some req =>
      if cfg.startAddr ≤ req ∧ req ≤ cfg.endAddr ∧ cfg.Dynamic req ∧ s.free true req then req
      else 0
    | none => 0

def offered : Run UInt32 := do
  let s ← get
  if proposed cfg p s ≠ 0 then pure (proposed cfg p s)
  else do
    let addr ← findAddress env cfg false
    if addr ≠ 0 then pure addr else findAddress env cfg true

/-- The rest of the lease of the client, if it has one, else the configured time. -/
def leaseLeft (s : Server) : UInt32 :=
  match (findLeaseByChaddr s.leases p.chaddr).bind fun k => s.leases[k]? with
  | some l => if l.Expired s.now then cfg.lease else l.expires - time s.now
  | none => cfg.lease

/-- The time of an offer: what the client asks for up to the configured time, else the rest
of its lease, and the configured time when that is too short. -/
def offerLeaseTime (left : UInt32) : UInt32 :=
  let t := match p.optionWord dhcpLeaseTime with
    | some t => if t > cfg.lease then cfg.lease else t
    | none => left
  if t < cfg.minLease then cfg.lease else t

def sendOffer : Run Unit :=
  match cfg.findStaticLeaseByChaddr p.chaddr with
  | some l => do
    let _ ← sendPacket env ⟨.offer, p.chaddr, l.yiaddr, infinite⟩
    pure ()
  | none => do
    let s ← get
    let addr ← offered env cfg p
    if addr = 0 then pure ()
    else do
      let stored ← addLeaseNow p.chaddr addr cfg.offerTime p.hostName
      if stored then do
        let _ ← sendPacket env
          ⟨.offer, p.chaddr, addr, offerLeaseTime cfg p (leaseLeft cfg p s)⟩
        pure ()
      else pure ()

def sendNak : Run Unit := do
  let _ ← sendPacket env ⟨.nak, p.chaddr, 0, 0⟩
  pure ()

/-- The time of an ACK. The marker of a lease without end is let through. -/
def ackLeaseTime : UInt32 :=
  match p.optionWord dhcpLeaseTime with
  | some t =>
    if t ≠ infinite ∧ t > cfg.lease then cfg.lease
    else if t < cfg.minLease then cfg.lease
    else t
  | none => cfg.lease

def bindLease (leases : List Lease) (now : ℕ) (chaddr : Chaddr) (yiaddr lease : UInt32)
    (hostname : Option (List UInt8)) : List Lease :=
  let stored := addLease leases now chaddr yiaddr lease hostname
  markAcked stored.1 stored.2

def sendAck : Run Unit := do
  let lease := ackLeaseTime cfg p
  let ok ← sendPacket env ⟨.ack, p.chaddr, yiaddr, lease⟩
  if ok ∧ lease ≠ infinite then do
    modify fun s => { s with leases := bindLease s.leases s.now p.chaddr yiaddr lease p.hostName }
    writeLeases env cfg
  else pure ()

def sendInform : Run Unit := do
  let _ ← sendPacket env ⟨.inform, p.chaddr, 0, 0⟩
  pure ()

def ackOrNak (ok : Bool) : Run Unit :=
  if ok then sendAck env cfg p yiaddr else sendNak env p

/-- A REQUEST of a client with a reservation that names this server. -/
def staticRequest (l : StaticLease) : Run Unit :=
  if p.optionWord dhcpRequestedIp = some l.yiaddr then do
    let options ← ofOption
      (addSimpleOption env.fuel (p.field .options) dhcpLeaseTime infinite)
    sendAck env cfg { p with field := Function.update p.field .options options } l.yiaddr
  else sendNak env p

/-- A REQUEST of a client that has the entry `l`. -/
def knownRequest (l : Lease) : Run Unit :=
  match p.optionWord dhcpServerId, p.optionWord dhcpRequestedIp with
  | some serverId, requested =>
    if serverId = cfg.server ∧ requested = some l.yiaddr then sendAck env cfg p l.yiaddr
    else pure ()
  | none, some requested => ackOrNak env cfg p l.yiaddr (l.yiaddr = requested)
  | none, none => ackOrNak env cfg p l.yiaddr (l.yiaddr = p.ciaddr)

def dropLease (k : ℕ) : Run Unit :=
  modify fun s => { s with leases := s.leases.modify k fun l => { l with chaddr := 0 } }

/-- A REQUEST for an address by a client that has no entry. -/
def rebootRequest (requested : UInt32) : Run Unit := do
  let s ← get
  if (cfg.findStaticLeaseByYiaddr requested).isSome then sendNak env p
  else match findLeaseByYiaddr s.leases requested with
    | some k =>
      if ((s.leases[k]?).map fun l => decide (l.Expired s.now)).getD false then dropLease k
      else sendNak env p
    -- both branches on the range of the address send a NAK
    | none => sendNak env p

def unknownRequest : Run Unit :=
  match p.optionWord dhcpServerId, p.optionWord dhcpRequestedIp with
  | some _, _ => pure ()
  | none, some requested => rebootRequest env cfg p requested
  | none, none => if p.ciaddr ≠ 0 then sendNak env p else pure ()

def Server.entry (s : Server) (p : Packet) : Option Lease :=
  (findLeaseByChaddr s.leases p.chaddr).bind fun k => s.leases[k]?

/-- The case DHCPREQUEST of the main loop. After the answer to a client with a
reservation its entry in the table counts as missing. -/
def request : Run Unit := do
  let s ← get
  match cfg.findStaticLeaseByChaddr p.chaddr with
  | some l =>
    if p.optionWord dhcpServerId = some cfg.server then do
      staticRequest env cfg p l
      unknownRequest env cfg p
    else match s.entry p with
      | some l => knownRequest env cfg p l
      | none => unknownRequest env cfg p
  | none => match s.entry p with
    | some l => knownRequest env cfg p l
    | none => unknownRequest env cfg p

def writeEntry (write : ℕ → Lease → Lease) : Run Unit := modify fun s =>
  match findLeaseByChaddr s.leases p.chaddr with
  | some k => { s with leases := s.leases.modify k (write s.now) }
  | none => s

def decline : Run Unit :=
  writeEntry p fun now l => { l with chaddr := 0, expires := time now + cfg.declineTime }

def release : Run Unit :=
  writeEntry p fun now l => { l with expires := time now }

def dhcpDiscover : ℕ := 1
def dhcpRequest : ℕ := 3
def dhcpDecline : ℕ := 4
def dhcpRelease : ℕ := 7
def dhcpInform : ℕ := 8

def dispatch (type : ℕ) : Run Unit :=
  if type = dhcpDiscover then sendOffer env cfg p
  else if type = dhcpRequest then request env cfg p
  else if type = dhcpDecline then decline cfg p
  else if type = dhcpRelease then release p
  else if type = dhcpInform then sendInform env p
  else pure ()

def Packet.messageType : Option ℕ :=
  (p.getOption dhcpMessageType).map fun (f, i) => (p.field f i).toNat

def receive : Run Unit := do
  let s ← get
  record (.received p s.leases s.now)
  match p.messageType with
  | some type => dispatch env cfg p type
  | none => pure ()

/-- What the main loop waits for: a packet, or a reason to write the lease file, which is a
timeout or a signal. Between events time passes. -/
inductive Event where
  | packet (p : Packet)
  | tick (seconds : ℕ)
  | write

def handle : Event → Run Unit
  | .packet p => receive env cfg p
  | .tick seconds => modify fun s => { s with now := s.now + seconds }
  | .write => writeLeases env cfg

def serve (events : List Event) : Run Unit :=
  forEach (handle env cfg) events

/-- `main`: the lease file is read and written, then the server serves. -/
def main (file : Option (List FileRecord)) (events : List Event) : Run Unit := do
  readLeases cfg file
  writeLeases env cfg
  serve env cfg events

end

/-- The state with `maxLeases` blank slots at some time. -/
def Server.start (maxLeases now : ℕ) : Server := ⟨List.replicate maxLeases .blank, now, 0, [], []⟩

end Wbr1310.Udhcpd
