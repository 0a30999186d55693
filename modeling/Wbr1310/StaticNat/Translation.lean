import Wbr1310.StaticNat.Proc

/-!
# Translating packets and replies

`do_static_nat` takes a packet for a range of ports to a host of the LAN, and gives the reply of the
host the address and the port the packet was sent to. The first rule decides in both directions.
The reply is translated back exactly if the new port is in the range of the rule, the first rule
that takes the reply does so for the same address and with the same difference of ports, and the
reply is routed over the device the packet came from.
-/

namespace Wbr1310.StaticNat

open Lib Option

variable {Dev : Type*} [DecidableEq Dev]

/-- The protocols that are told apart. -/
inductive Protocol where
  | tcp
  | udp
  | other
  deriving DecidableEq, Repr

/-- A packet, from its IP header on. `whole` says that the checksum of TCP or UDP lies inside. -/
structure Skb (Dev : Type*) where
  dev : Dev
  protocol : Protocol
  tos : UInt8
  ttl : UInt8
  check : UInt16
  saddr : UInt32
  daddr : UInt32
  source : UInt16
  dest : UInt16
  cksum : UInt16
  whole : Bool
  deriving DecidableEq, Repr

/-- The rest of the kernel: the address of a device, the device of the route to an address, and the
two functions for checksums. -/
structure NatEnv (Dev : Type*) where
  ifaLocal : Dev → Option UInt32
  route : UInt32 → UInt8 → Option Dev
  ipFastCsum : Skb Dev → UInt16
  ipNatCheatCheck : UInt32 → UInt32 → UInt16 → UInt16

namespace NatTbl

variable (tbl : NatTbl Dev) (skb : Skb Dev)

def TakesIn : Prop :=
  skb.dev = tbl.rxDev ∧ tbl.rxPortrangeBegin ≤ skb.dest ∧ skb.dest ≤ tbl.rxPortrangeEnd

def TakesBack : Prop :=
  skb.dev = tbl.txDev ∧ skb.saddr = tbl.txNewIp ∧ tbl.txPortrangeBegin ≤ skb.source ∧
    skb.source ≤ tbl.txPortrangeEnd

instance : Decidable (tbl.TakesIn skb) := inferInstanceAs (Decidable (_ ∧ _))

instance : Decidable (tbl.TakesBack skb) := inferInstanceAs (Decidable (_ ∧ _))

def Takes : Prop := tbl.TakesIn skb ∨ tbl.TakesBack skb

instance : Decidable (tbl.Takes skb) := inferInstanceAs (Decidable (_ ∨ _))

end NatTbl

/-- A loop of `find_matched_rule`: the rule and `replied`. -/
def scanRules (skb : Skb Dev) : List (NatTbl Dev) → Option (NatTbl Dev × Bool)
  | [] => none
  | tbl :: rest =>
    if tbl.TakesIn skb then some (tbl, false)
    else if tbl.TakesBack skb then some (tbl, true)
    else scanRules skb rest

/-- `find_matched_rule`. There is no `break` behind the loop for TCP. -/
def findMatchedRule (s : NatState Dev) (skb : Skb Dev) : Option (NatTbl Dev × Bool) :=
  if s.lock ≠ 0 then none
  else match skb.protocol with
    | .tcp => scanRules skb s.table <|> scanRules skb s.table
    | .udp => scanRules skb s.table
    | .other => none

/-- What becomes of a packet: it goes back to the system, it is dropped, it is sent, or a pointer
that is null or not set is followed. -/
inductive Outcome (Dev : Type*) where
  | back
  | dropped
  | sent (skb : Skb Dev)
  | fault
  deriving DecidableEq, Repr

section Translate

variable (env : NatEnv Dev) (tbl : NatTbl Dev) (replied : Bool)

/-- The new device and the new address, and the address before and after. -/
def newAddress (skb : Skb Dev) : Option (Skb Dev × UInt32 × UInt32) :=
  if replied then
    (env.ifaLocal tbl.rxDev).map fun ip =>
      ({ skb with dev := tbl.rxDev, saddr := ip }, skb.saddr, ip)
  else some ({ skb with dev := tbl.txDev, daddr := tbl.txNewIp }, skb.daddr, tbl.txNewIp)

/-- The new time to live and the new checksum of the header. -/
def newHeader (skb : Skb Dev) : Skb Dev :=
  let cleared := { skb with ttl := skb.ttl - 1, check := 0 }
  { cleared with check := env.ipFastCsum cleared }

def newPort (skb : Skb Dev) : Skb Dev × UInt16 × UInt16 :=
  if replied then
    let port := tbl.rxPortrangeBegin + (skb.source - tbl.txPortrangeBegin)
    ({ skb with source := port }, skb.source, port)
  else
    let port := tbl.txPortrangeBegin + (skb.dest - tbl.rxPortrangeBegin)
    ({ skb with dest := port }, skb.dest, port)

/-- The checksum of TCP or UDP for a new address and a new port; zero is kept for UDP. -/
def newCksum (protocol : Protocol) (oldIp newIp : UInt32) (oldPort newPort check : UInt16) :
    UInt16 :=
  let changed := env.ipNatCheatCheck (~~~oldPort.toUInt32) newPort.toUInt32
    (env.ipNatCheatCheck (~~~oldIp) newIp check)
  match protocol with
  | .tcp => changed
  | .udp => if check = 0 then 0 else if changed = 0 then 0xffff else changed
  | .other => check

/-- The part of `do_static_nat` behind the search, which only packets of TCP and UDP come to.
`ip_finish_output` sends the packet over the device of the route, whose pointer is not set if there
is none. -/
def translate (skb : Skb Dev) : Outcome Dev :=
  match newAddress env tbl replied skb with
  | none => .fault
  | some (addressed, oldIp, newIp) =>
    let addressed := newHeader env addressed
    if addressed.whole = false then .dropped
    else
      let (ported, oldPort, port) := newPort tbl replied addressed
      match env.route ported.daddr ported.tos with
      | none => .fault
      | some dev => .sent
          { ported with
            dev := dev
            cksum := newCksum env ported.protocol oldIp newIp oldPort port ported.cksum }

end Translate

def doStaticNat (env : NatEnv Dev) (s : NatState Dev) (skb : Skb Dev) : Outcome Dev :=
  match findMatchedRule s skb with
  | none => .back
  | some (tbl, replied) => translate env tbl replied skb

variable {env : NatEnv Dev} {s : NatState Dev} {tbl : NatTbl Dev} {skb skb' : Skb Dev}

theorem scanRules_eq (skb : Skb Dev) (table : List (NatTbl Dev)) :
    scanRules skb table =
      (table.find? fun tbl => tbl.Takes skb).map fun tbl => (tbl, decide ¬ tbl.TakesIn skb) := by
  induction table with
  | nil => rfl
  | cons tbl rest ih =>
    rw [scanRules, List.find?_cons]
    by_cases hin : tbl.TakesIn skb
    · have htakes : tbl.Takes skb := .inl hin
      simp [hin, htakes]
    · by_cases hback : tbl.TakesBack skb
      · have htakes : tbl.Takes skb := .inr hback
        simp [hin, hback, htakes]
      · have htakes : ¬ tbl.Takes skb := not_or.mpr ⟨hin, hback⟩
        simp [hin, hback, htakes, ih]

theorem findMatchedRule_eq (hlock : s.lock = 0) (hprotocol : skb.protocol ≠ .other) :
    findMatchedRule s skb = scanRules skb s.table := by
  rw [findMatchedRule, if_neg (not_not.mpr hlock)]
  cases hp : skb.protocol with
  | tcp => cases scanRules skb s.table <;> rfl
  | udp => rfl
  | other => exact absurd hp hprotocol

theorem findMatchedRule_some {r : NatTbl Dev × Bool} (h : findMatchedRule s skb = some r) :
    s.lock = 0 ∧ skb.protocol ≠ .other ∧ scanRules skb s.table = some r := by
  by_cases hlock : s.lock = 0
  · have hprotocol : skb.protocol ≠ .other := by
      intro hp
      rw [findMatchedRule, if_neg (not_not.mpr hlock), hp] at h
      cases h
    exact ⟨hlock, hprotocol, (findMatchedRule_eq hlock hprotocol).symm.trans h⟩
  · rw [findMatchedRule, if_pos hlock] at h
    cases h

variable {table : List (NatTbl Dev)}

theorem mem_of_scanRules {replied : Bool} (h : scanRules skb table = some (tbl, replied)) :
    tbl ∈ table := by
  rw [scanRules_eq] at h
  obtain ⟨r, hr, heq⟩ := map_eq_some_iff.mp h
  obtain rfl := (Prod.mk.inj heq).1
  exact List.mem_of_find?_eq_some hr

theorem takesIn_of_scanRules (h : scanRules skb table = some (tbl, false)) : tbl.TakesIn skb := by
  rw [scanRules_eq] at h
  obtain ⟨r, -, heq⟩ := map_eq_some_iff.mp h
  obtain ⟨rfl, hin⟩ := Prod.mk.inj heq
  exact not_not.mp (of_decide_eq_false hin)

omit [DecidableEq Dev] in
/-- What is sent for a packet from outside. -/
theorem translate_in_eq (h : translate env tbl false skb = .sent skb') :
    ∃ dev port, port = tbl.txPortrangeBegin + (skb.dest - tbl.rxPortrangeBegin) ∧ skb' =
      { newHeader env { skb with dev := tbl.txDev, daddr := tbl.txNewIp } with
        dev := dev
        dest := port
        cksum := newCksum env skb.protocol skb.daddr tbl.txNewIp skb.dest port skb.cksum } := by
  simp only [translate, newAddress, Bool.false_eq_true, if_false, newHeader, newPort] at h
  split at h
  · cases h
  · split at h
    · cases h
    · exact ⟨_, _, rfl, (Outcome.sent.inj h).symm⟩

omit [DecidableEq Dev] in
/-- When a reply is sent with an address and a port as its source over a device. -/
theorem translate_back_iff (hwhole : skb.whole = true) {ip : UInt32} {port : UInt16} {dev : Dev} :
    (∃ skb', translate env tbl true skb = .sent skb' ∧ skb'.saddr = ip ∧ skb'.source = port ∧
        skb'.dev = dev) ↔
      env.ifaLocal tbl.rxDev = some ip ∧
        tbl.rxPortrangeBegin + (skb.source - tbl.txPortrangeBegin) = port ∧
        env.route skb.daddr skb.tos = some dev := by
  simp only [translate, newAddress, if_true]
  cases env.ifaLocal tbl.rxDev with
  | none => simp
  | some own =>
    simp only [map_some, newHeader, newPort, if_true, hwhole, Bool.true_eq_false,
      if_false]
    cases env.route skb.daddr skb.tos with
    | none => simp
    | some out =>
      constructor
      · rintro ⟨sent, hsent, rfl, rfl, rfl⟩
        obtain rfl := Outcome.sent.inj hsent
        exact ⟨rfl, rfl, rfl⟩
      · rintro ⟨hip, rfl, hout⟩
        exact ⟨_, rfl, some.inj hip, rfl, some.inj hout⟩

/-- A reply to a packet that was taken in: it comes from the device of the rule, with addresses and
ports swapped. -/
structure IsReply (tbl : NatTbl Dev) (skb reply : Skb Dev) : Prop where
  dev : reply.dev = tbl.txDev
  protocol : reply.protocol = skb.protocol
  saddr : reply.saddr = skb.daddr
  daddr : reply.daddr = skb.saddr
  source : reply.source = skb.dest
  dest : reply.dest = skb.source
  whole : reply.whole = true

/-- The new port of a packet is in the range of the rule, and its reply is translated as one: its
source becomes what the packet was sent to, and it leaves on the device the packet came from. -/
def Inverted (env : NatEnv Dev) (s : NatState Dev) (tbl : NatTbl Dev) (skb skb' reply : Skb Dev) :
    Prop :=
  (tbl.txPortrangeBegin ≤ skb'.dest ∧ skb'.dest ≤ tbl.txPortrangeEnd) ∧
    (∃ r, findMatchedRule s reply = some (r, true)) ∧
    ∃ reply', doStaticNat env s reply = .sent reply' ∧ reply'.saddr = skb.daddr ∧
      reply'.source = skb.dest ∧ reply'.dev = skb.dev

/-- The offset of the port fits into the range of the rule. The first rule that takes the reply does
not take it for a packet from outside, its device has the address the packet was sent to, and its
ranges are as far apart. The route back is over the device of the packet. -/
structure Invertible (env : NatEnv Dev) (table : List (NatTbl Dev)) (tbl : NatTbl Dev)
    (skb reply : Skb Dev) : Prop where
  range : tbl.txPortrangeBegin.toNat + (skb.dest.toNat - tbl.rxPortrangeBegin.toNat) ≤
    tbl.txPortrangeEnd.toNat
  first : ∀ r ∈ table.find? fun r => r.Takes reply, ¬ r.TakesIn reply ∧
    env.ifaLocal r.rxDev = some skb.daddr ∧
    r.rxPortrangeBegin - r.txPortrangeBegin = tbl.rxPortrangeBegin - tbl.txPortrangeBegin
  route : env.route skb.saddr reply.tos = some skb.dev

theorem newPort_range_iff (tx txEnd : UInt16) {rx dest : UInt16} (h : rx ≤ dest) :
    tx ≤ tx + (dest - rx) ∧ tx + (dest - rx) ≤ txEnd ↔
      tx.toNat + (dest.toNat - rx.toNat) ≤ txEnd.toNat := by
  have hle := UInt16.le_iff_toNat_le.mp h
  have hdest := dest.toNat_lt
  have htx := tx.toNat_lt
  have htxEnd := txEnd.toNat_lt
  simp only [UInt16.le_iff_toNat_le, UInt16.toNat_add, UInt16.toNat_sub_of_le _ _ h]
  omega

theorem newPort_back_iff (rx tx rx' tx' dest : UInt16) :
    rx' + (tx + (dest - rx) - tx') = dest ↔ rx' - tx' = rx - tx := by
  constructor <;> intro h <;> grind

theorem doStaticNat_back_iff (env : NatEnv Dev) {reply : Skb Dev} (hlock : s.lock = 0)
    (hprotocol : reply.protocol ≠ .other) (hwhole : reply.whole = true) {r : NatTbl Dev}
    (hr : s.table.find? (fun r => r.Takes reply) = some r) (ip : UInt32) (port : UInt16)
    (dev : Dev) :
    ((∃ r, findMatchedRule s reply = some (r, true)) ∧
      ∃ reply', doStaticNat env s reply = .sent reply' ∧ reply'.saddr = ip ∧
        reply'.source = port ∧ reply'.dev = dev) ↔
      ¬ r.TakesIn reply ∧ env.ifaLocal r.rxDev = some ip ∧
        r.rxPortrangeBegin + (reply.source - r.txPortrangeBegin) = port ∧
        env.route reply.daddr reply.tos = some dev := by
  have hfound : findMatchedRule s reply = some (r, decide ¬ r.TakesIn reply) := by
    rw [findMatchedRule_eq hlock hprotocol, scanRules_eq, hr, map_some]
  rw [doStaticNat, hfound]
  by_cases hin : r.TakesIn reply
  · simp [hin]
  · simp only [hin, not_false_eq_true, decide_true, true_and, some.injEq, Prod.mk.injEq,
      and_true, exists_eq', translate_back_iff hwhole]

theorem exists_first {reply : Skb Dev} (hmem : tbl ∈ table) (hreply : IsReply tbl skb' reply)
    (hdaddr : skb'.daddr = tbl.txNewIp)
    (hrange : tbl.txPortrangeBegin ≤ skb'.dest ∧ skb'.dest ≤ tbl.txPortrangeEnd) :
    ∃ r, table.find? (fun r => r.Takes reply) = some r := by
  have htakes : tbl.Takes reply := by
    refine .inr ⟨hreply.dev, hreply.saddr.trans hdaddr, ?_⟩
    rwa [hreply.source]
  exact isSome_iff_exists.mp (List.find?_isSome.mpr ⟨tbl, hmem, decide_eq_true htakes⟩)

/-- For all rules that were written, and every packet that one of them takes in: the new port is in
the range and the reply is translated back exactly under the condition. -/
theorem staticNat_inverted_iff (env : NatEnv Dev) (devGetByName : List UInt8 → Option Dev)
    (writes : List ProcWrite) (tbl : NatTbl Dev) (skb skb' reply : Skb Dev)
    (hrule : findMatchedRule (natRules devGetByName writes) skb = some (tbl, false))
    (hsent : doStaticNat env (natRules devGetByName writes) skb = .sent skb')
    (hreply : IsReply tbl skb' reply) :
    Inverted env (natRules devGetByName writes) tbl skb skb' reply ↔
      Invertible env (natRules devGetByName writes).table tbl skb reply := by
  generalize natRules devGetByName writes = s at hrule hsent
  obtain ⟨hlock, hnet, hscan⟩ := findMatchedRule_some hrule
  have hin := takesIn_of_scanRules hscan
  rw [doStaticNat, hrule] at hsent
  obtain ⟨dev, port, hport, hskb'⟩ := translate_in_eq hsent
  have hsaddr : skb'.saddr = skb.saddr := by rw [hskb', newHeader]
  have hdaddr : skb'.daddr = tbl.txNewIp := by rw [hskb', newHeader]
  have hdest : skb'.dest = tbl.txPortrangeBegin + (skb.dest - tbl.rxPortrangeBegin) := by
    rw [hskb', hport]
  have hrangeIff := newPort_range_iff tbl.txPortrangeBegin tbl.txPortrangeEnd hin.2.1
  rw [← hdest] at hrangeIff
  have hreplyNet : reply.protocol ≠ .other := by rwa [hreply.protocol, hskb']
  have hback := fun (r : NatTbl Dev) (hr : s.table.find? (fun r => r.Takes reply) = some r) =>
    doStaticNat_back_iff env hlock hreplyNet hreply.whole hr skb.daddr skb.dest skb.dev
  have hports : ∀ r : NatTbl Dev,
      r.rxPortrangeBegin + (reply.source - r.txPortrangeBegin) = skb.dest ↔
        r.rxPortrangeBegin - r.txPortrangeBegin = tbl.rxPortrangeBegin - tbl.txPortrangeBegin := by
    intro r
    rw [hreply.source, hdest]
    exact newPort_back_iff _ _ _ _ _
  simp only [hports, hreply.daddr, hsaddr] at hback
  constructor
  · rintro ⟨hrange, hreturned⟩
    obtain ⟨r, hr⟩ := exists_first (mem_of_scanRules hscan) hreply hdaddr hrange
    obtain ⟨hnot, hlocal, hdiff, hroute⟩ := (hback r hr).mp hreturned
    refine ⟨hrangeIff.mp hrange, fun r' hr' => ?_, hroute⟩
    obtain rfl := some.inj (hr.symm.trans hr')
    exact ⟨hnot, hlocal, hdiff⟩
  · rintro ⟨hrange, hfirst, hroute⟩
    obtain ⟨r, hr⟩ := exists_first (mem_of_scanRules hscan) hreply hdaddr (hrangeIff.mpr hrange)
    obtain ⟨hnot, hlocal, hdiff⟩ := hfirst r hr
    exact ⟨hrangeIff.mpr hrange, (hback r hr).mpr ⟨hnot, hlocal, hdiff, hroute⟩⟩

/-- The two devices of the examples. -/
inductive Iface where
  | vlan2
  | br0
  deriving DecidableEq, Repr

def ifaceByName (name : List UInt8) : Option Iface :=
  if name = ascii "vlan2" then some .vlan2 else if name = ascii "br0" then some .br0 else none

/-- The device outside has the address 10.0.0.1, the network inside is 192.168.0.0/24. -/
def gateway : NatEnv Iface where
  ifaLocal
    | .vlan2 => some 0x0a000001
    | .br0 => some 0xc0a80001
  route ip _ := some (if ip / 256 = 0xc0a800 then .br0 else .vlan2)
  ipFastCsum _ := 0
  ipNatCheatCheck _ _ _ := 0

def written (line : String) : ProcWrite := ⟨ascii line, ⟨[], [], [], 0, []⟩, true⟩

/-- A packet from 8.8.8.8:40000 to a port of the device outside. -/
def fromOutside (port : UInt16) : Skb Iface :=
  ⟨.vlan2, .tcp, 0, 64, 0, 0x08080808, 0x0a000001, 40000, port, 0, true⟩

def fromInside (port : UInt16) : Skb Iface :=
  ⟨.br0, .tcp, 0, 64, 0, 0xc0a80064, 0x08080808, port, 40000, 0, true⟩

def exampleWrites : List ProcWrite :=
  [written "add vlan2 6881 6889 br0 192.168.0.100 7001 7009\n"]

/-- A packet to a port in the middle of the range, and its reply. -/
theorem staticNat_inverted_example :
    ∃ tbl skb', doStaticNat gateway (natRules ifaceByName exampleWrites) (fromOutside 6885) =
        .sent skb' ∧ IsReply tbl skb' (fromInside 7005) ∧
      Inverted gateway (natRules ifaceByName exampleWrites) tbl (fromOutside 6885) skb'
        (fromInside 7005) := by
  let tbl : NatTbl Iface := ⟨.vlan2, 6881, 6889, .br0, 0xc0a80064, 7001, 7009⟩
  let skb' : Skb Iface := ⟨.br0, .tcp, 0, 63, 0, 0x08080808, 0xc0a80064, 40000, 7005, 0, true⟩
  have hrule : findMatchedRule (natRules ifaceByName exampleWrites) (fromOutside 6885) =
      some (tbl, false) := by decide +kernel
  have hsent : doStaticNat gateway (natRules ifaceByName exampleWrites) (fromOutside 6885) =
      .sent skb' := by decide +kernel
  have hreply : IsReply tbl skb' (fromInside 7005) := ⟨rfl, rfl, rfl, rfl, rfl, rfl, rfl⟩
  have hinvertible : Invertible gateway (natRules ifaceByName exampleWrites).table tbl
      (fromOutside 6885) (fromInside 7005) := ⟨by decide, by decide +kernel, rfl⟩
  exact ⟨tbl, skb', hsent, hreply, (staticNat_inverted_iff gateway ifaceByName exampleWrites tbl
    (fromOutside 6885) skb' (fromInside 7005) hrule hsent hreply).mpr hinvertible⟩

def unevenWrites : List ProcWrite := [written "add vlan2 80 90 br0 192.168.0.100 8000 8000\n"]

/-- A packet is sent to a port outside of the range of the rule, and the reply from there is not
translated. -/
theorem staticNat_not_inverted :
    ∃ tbl skb', gateway.ifaLocal (fromOutside 85).dev = some (fromOutside 85).daddr ∧
      findMatchedRule (natRules ifaceByName unevenWrites) (fromOutside 85) = some (tbl, false) ∧
      doStaticNat gateway (natRules ifaceByName unevenWrites) (fromOutside 85) = .sent skb' ∧
      IsReply tbl skb' (fromInside 8005) ∧ ¬ skb'.dest ≤ tbl.txPortrangeEnd ∧
      doStaticNat gateway (natRules ifaceByName unevenWrites) (fromInside 8005) = .back := by
  refine ⟨⟨.vlan2, 80, 90, .br0, 0xc0a80064, 8000, 8000⟩,
    ⟨.br0, .tcp, 0, 63, 0, 0x08080808, 0xc0a80064, 40000, 8005, 0, true⟩, rfl, ?_, ?_,
    ⟨rfl, rfl, rfl, rfl, rfl, rfl, rfl⟩, by decide, ?_⟩
  all_goals decide +kernel

end Wbr1310.StaticNat
