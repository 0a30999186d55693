import Wbr1310.Lib.OnesComplement
import Wbr1310.StaticNat.Translation

/-!
# Checksums of translated packets

`do_static_nat` computes the checksum of the IP header anew and changes the one of TCP or UDP by the
difference that the new address and the new port make. Both are valid in what it sends if they were
in what it received. The time to live is counted down without a test: a packet that arrives with
zero is sent with 255.
-/

namespace Wbr1310.StaticNat

open Lib OnesComplement

variable {Dev : Type*}

def csumFold (sum : UInt32) : UInt16 := (foldWord sum ^^^ 0xffff).toUInt16

/-- `ip_fast_csum`, for the words of a header. -/
def ipFastCsum : List UInt32 → UInt16
  | [] => csumFold 0
  | word :: words => csumFold (words.foldl addWord word)

/-- `csum_partial`, for two words that are aligned. -/
def csumPartial (diffs : UInt32 × UInt32) (sum : UInt32) : UInt32 :=
  addWord (foldWord (addWord (addWord (addWord 0 diffs.1) diffs.2) 0)) sum

def ipNatCheatCheck (oldvalinv newval : UInt32) (oldcheck : UInt16) : UInt16 :=
  csumFold (csumPartial (oldvalinv, newval) (oldcheck ^^^ 0xffff).toUInt32)

theorem toNat_xor_ffff (a : UInt16) : (a ^^^ 0xffff).toNat = 0xffff - a.toNat := by
  rw [show a ^^^ 0xffff = ~~~a from UInt16.xor_neg_one, UInt16.toNat_not]
  rfl

theorem csumFold_add (sum : UInt32) : (csumFold sum).toNat + (foldWord sum).toNat = 0xffff := by
  have hlt := (foldWord_spec sum).1
  have hfold : csumFold sum = (foldWord sum).toUInt16 ^^^ 0xffff := UInt32.toUInt16_xor _ _
  rw [hfold, toNat_xor_ffff, UInt32.toNat_toUInt16]
  omega

theorem csumFold_mod (sum : UInt32) : ((csumFold sum).toNat + sum.toNat) % 0xffff = 0 := by
  have hadd := csumFold_add sum
  have hmod := (foldWord_spec sum).2.1
  rw [Nat.ModEq] at hmod
  omega

theorem csumPartial_modEq (a b sum : UInt32) :
    (csumPartial (a, b) sum).toNat ≡ a.toNat + b.toNat + sum.toNat [MOD 0xffff] := by
  have hwords : (addWord (addWord (addWord 0 a) b) 0).toNat ≡ a.toNat + b.toNat [MOD 0xffff] := by
    refine (addWord_modEq _ _).trans ?_
    refine (addWord_modEq _ _).trans ?_
    refine ((addWord_modEq 0 a).trans ?_).add_right _
    rw [UInt32.toNat_zero, Nat.zero_add]
  refine (addWord_modEq _ _).trans (Nat.ModEq.add_right _ ?_)
  exact (foldWord_spec _).2.1.trans hwords

theorem ipNatCheatCheck_modEq (old new : UInt32) (check : UInt16) :
    (ipNatCheatCheck (~~~old) new check).toNat + new.toNat ≡ check.toNat + old.toNat
      [MOD 0xffff] := by
  have hfold := csumFold_mod (csumPartial (~~~old, new) (check ^^^ 0xffff).toUInt32)
  have hpartial := csumPartial_modEq (~~~old) new (check ^^^ 0xffff).toUInt32
  have hcheck := check.toNat_lt
  have hold := old.toNat_lt
  rw [UInt16.toNat_toUInt32, toNat_xor_ffff, UInt32.toNat_not, UInt32.size] at hpartial
  rw [ipNatCheatCheck]
  simp only [Nat.ModEq] at hpartial ⊢
  omega

/-- The number of a protocol in the header. Packets of the others are not looked at. -/
def Protocol.number : Protocol → UInt8
  | tcp => 6
  | udp => 17
  | other => 255

def half (upper lower : UInt8) : UInt16 := upper.toUInt16 * 0x100 + lower.toUInt16

/-- Bytes as half words, with a zero behind a last odd one. -/
def dataHalves : List UInt8 → List UInt16
  | [] => []
  | [a] => [half a 0]
  | a :: b :: rest => half a b :: dataHalves rest

/-- A segment of TCP or a datagram of UDP, without ports and checksum. -/
inductive Segment where
  | tcp (seq ackSeq : UInt32) (flags window urgPtr : UInt16) (data : List UInt8)
  | udp (len : UInt16) (data : List UInt8)

def Segment.protocol : Segment → Protocol
  | tcp .. => .tcp
  | udp .. => .udp

/-- What a packet holds besides the fields of `Skb`; there are up to ten words of options. -/
structure Rest where
  totLen : UInt16
  id : UInt16
  fragOff : UInt16
  options : List UInt32
  options_le : options.length ≤ 10
  segment : Segment

namespace Rest

variable (rest : Rest) (skb : Skb Dev)

def header : List UInt32 :=
  [ofHalves (half (0x45 + UInt8.ofNat rest.options.length) skb.tos) rest.totLen,
    ofHalves rest.id rest.fragOff,
    ofHalves (half skb.ttl rest.segment.protocol.number) skb.check,
    skb.saddr, skb.daddr] ++ rest.options

def payload : List UInt16 :=
  match rest.segment with
  | .tcp seq ackSeq flags window urgPtr data =>
    [skb.source, skb.dest] ++ halves seq ++ halves ackSeq ++
      [flags, window, skb.cksum, urgPtr] ++ dataHalves data
  | .udp len data => [skb.source, skb.dest, len, skb.cksum] ++ dataHalves data

/-- The half words that the checksum of TCP or UDP is over: the addresses, the protocol and the
length come first. -/
def covered : List UInt16 :=
  halves skb.saddr ++ halves skb.daddr ++
    [rest.segment.protocol.number.toUInt16,
      rest.totLen - 4 * (5 + UInt16.ofNat rest.options.length)] ++ rest.payload skb

def HeaderValid : Prop := sum ((rest.header skb).flatMap halves) = 0xffff

/-- The checksum of TCP or UDP is right; the one of UDP may be missing. -/
def TransportValid : Prop :=
  skb.protocol = .udp ∧ skb.cksum = 0 ∨ sum (rest.covered skb) = 0xffff

instance : Decidable (rest.HeaderValid skb) := inferInstanceAs (Decidable (_ = _))

instance : Decidable (rest.TransportValid skb) := inferInstanceAs (Decidable (_ ∨ _))

def computed : UInt16 := ~~~sum (rest.covered { skb with cksum := 0 })

def env (ifaLocal : Dev → Option UInt32) (route : UInt32 → UInt8 → Option Dev) : NatEnv Dev where
  ifaLocal := ifaLocal
  route := route
  ipFastCsum skb := ipFastCsum (rest.header skb)
  ipNatCheatCheck := ipNatCheatCheck

/-- A packet that is not a fragment, with valid checksums. -/
structure Intact : Prop where
  protocol : skb.protocol = rest.segment.protocol
  fragOff : rest.fragOff &&& 0x3fff = 0
  header : rest.HeaderValid skb
  transport : rest.TransportValid skb

end Rest

/-- What is sent is valid again, and only what has to differ does. -/
structure Kept (rest : Rest) (replied : Bool) (skb skb' : Skb Dev) : Prop where
  header : rest.HeaderValid skb'
  transport : rest.TransportValid skb'
  udp : skb.protocol = .udp → skb'.cksum =
    if skb.cksum = 0 then 0 else if rest.computed skb' = 0 then 0xffff else rest.computed skb'
  ttl : skb'.ttl.toNat + 1 = skb.ttl.toNat
  others : skb' =
    { (if replied then { skb with saddr := skb'.saddr, source := skb'.source }
        else { skb with daddr := skb'.daddr, dest := skb'.dest }) with
      dev := skb'.dev, ttl := skb'.ttl, check := skb'.check, cksum := skb'.cksum }

theorem ipFastCsum_spec {words : List UInt32} (h : words ≠ []) :
    (value (words.flatMap halves) + (ipFastCsum words).toNat) % 0xffff = 0 ∧
      value (words.flatMap halves) + (ipFastCsum words).toNat ≠ 0 := by
  obtain ⟨word, words, rfl⟩ := List.exists_cons_of_ne_nil h
  obtain ⟨hmod, hzero⟩ := foldl_addWord words word
  have hadd := csumFold_add (words.foldl addWord word)
  have hfold := csumFold_mod (words.foldl addWord word)
  have hfoldZero := (foldWord_spec (words.foldl addWord word)).2.2
  rw [Nat.ModEq] at hmod
  rw [ipFastCsum]
  omega

variable {rest : Rest} {env : NatEnv Dev} {tbl : NatTbl Dev} {replied : Bool} {skb skb' : Skb Dev}

theorem value_header (rest : Rest) (skb : Skb Dev) :
    value ((rest.header skb).flatMap halves) =
      value ((rest.header { skb with check := 0 }).flatMap halves) + skb.check.toNat := by
  simp only [Rest.header, List.cons_append, List.nil_append, List.flatMap_cons, halves_ofHalves,
    value_append, value_cons, UInt16.toNat_zero]
  omega

theorem headerValid_newHeader (rest : Rest) (ifaLocal : Dev → Option UInt32)
    (route : UInt32 → UInt8 → Option Dev) (skb : Skb Dev) :
    rest.HeaderValid (newHeader (rest.env ifaLocal route) skb) := by
  rw [Rest.HeaderValid, sum_eq_max_iff, value_header]
  exact ipFastCsum_spec (List.cons_ne_nil _ _)

theorem headerValid_congr (h : rest.HeaderValid skb) (htos : skb'.tos = skb.tos)
    (httl : skb'.ttl = skb.ttl) (hcheck : skb'.check = skb.check) (hsaddr : skb'.saddr = skb.saddr)
    (hdaddr : skb'.daddr = skb.daddr) : rest.HeaderValid skb' := by
  rwa [Rest.HeaderValid, Rest.header, htos, httl, hcheck, hsaddr, hdaddr]

variable (Dev) in
theorem exists_value_payload (rest : Rest) : ∃ fixed, ∀ skb : Skb Dev,
    value (rest.payload skb) = fixed + skb.source.toNat + skb.dest.toNat + skb.cksum.toNat := by
  cases hs : rest.segment with
  | tcp seq ackSeq flags window urgPtr data =>
    refine ⟨value (halves seq) + value (halves ackSeq) + value [flags, window, urgPtr] +
      value (dataHalves data), fun skb => ?_⟩
    simp only [Rest.payload, hs, value_append, value_cons, value_nil]
    omega
  | udp len data =>
    refine ⟨value [len] + value (dataHalves data), fun skb => ?_⟩
    simp only [Rest.payload, hs, value_append, value_cons, value_nil]
    omega

variable (Dev) in
theorem exists_value_covered (rest : Rest) : ∃ fixed, 0 < fixed ∧ ∀ skb : Skb Dev,
    value (rest.covered skb) = fixed + value (halves skb.saddr) + value (halves skb.daddr) +
      skb.source.toNat + skb.dest.toNat + skb.cksum.toNat := by
  obtain ⟨fixed, hpayload⟩ := exists_value_payload Dev rest
  have hnumber : ∀ p : Protocol, 0 < p.number.toUInt16.toNat := by
    intro p
    cases p <;> decide
  have hpos := hnumber rest.segment.protocol
  refine ⟨value [rest.segment.protocol.number.toUInt16,
    rest.totLen - 4 * (5 + UInt16.ofNat rest.options.length)] + fixed, ?_, fun skb => ?_⟩
  · rw [value_cons]
    omega
  · rw [Rest.covered, value_append, value_append, value_append, hpayload]
    omega

theorem sum_covered_eq_max (hvalid : sum (rest.covered skb) = 0xffff)
    (hchange : skb'.saddr.toNat + skb'.daddr.toNat + skb'.source.toNat + skb'.dest.toNat +
        skb'.cksum.toNat ≡
      skb.saddr.toNat + skb.daddr.toNat + skb.source.toNat + skb.dest.toNat + skb.cksum.toNat
      [MOD 0xffff]) :
    sum (rest.covered skb') = 0xffff := by
  obtain ⟨fixed, hfixed, hvalue⟩ := exists_value_covered Dev rest
  rw [sum_eq_max_iff, hvalue] at hvalid ⊢
  have haddr := fun w : UInt32 => value_halves_modEq w
  have h₁ := haddr skb.saddr
  have h₂ := haddr skb.daddr
  have h₃ := haddr skb'.saddr
  have h₄ := haddr skb'.daddr
  simp only [Nat.ModEq] at *
  omega

theorem cksum_eq_computed (hvalid : sum (rest.covered skb) = 0xffff) (hne : skb.cksum ≠ 0) :
    skb.cksum = if rest.computed skb = 0 then 0xffff else rest.computed skb := by
  obtain ⟨fixed, hfixed, hvalue⟩ := exists_value_covered Dev rest
  have hcksum := skb.cksum.toNat_lt
  have hsum := (sum (rest.covered { skb with cksum := 0 })).toNat_lt
  obtain ⟨hmod, hzero⟩ := sum_spec (rest.covered { skb with cksum := 0 })
  have hcomputed : (rest.computed skb).toNat =
      0xffff - (sum (rest.covered { skb with cksum := 0 })).toNat := UInt16.toNat_not _
  rw [sum_eq_max_iff, hvalue] at hvalid
  rw [hvalue, UInt16.toNat_zero, Nat.ModEq] at hmod
  rw [hvalue, UInt16.toNat_zero] at hzero
  have hpos : skb.cksum.toNat ≠ 0 := fun h => hne (UInt16.toNat_inj.mp h)
  simp only at hmod hzero
  split
  case isTrue h =>
    rw [h, UInt16.toNat_zero] at hcomputed
    rw [← UInt16.toNat_inj, show (0xffff : UInt16).toNat = 0xffff from rfl]
    omega
  case isFalse h =>
    have hne' : (rest.computed skb).toNat ≠ 0 := fun h' => h (UInt16.toNat_inj.mp h')
    rw [← UInt16.toNat_inj]
    omega

section Cksum

variable (rest) (ifaLocal : Dev → Option UInt32) (route : UInt32 → UInt8 → Option Dev)
  (oldIp newIp : UInt32) (oldPort newPort : UInt16)

theorem newCksum_udp (check : UInt16) :
    newCksum (rest.env ifaLocal route) .udp oldIp newIp oldPort newPort check =
      let changed := ipNatCheatCheck (~~~oldPort.toUInt32) newPort.toUInt32
        (ipNatCheatCheck (~~~oldIp) newIp check)
      if check = 0 then 0 else if changed = 0 then 0xffff else changed := rfl

/-- The change of the checksum is the change of the address and the port. -/
theorem newCksum_modEq {protocol : Protocol} {check : UInt16} (hprotocol : protocol ≠ .other)
    (hcheck : ¬ (protocol = .udp ∧ check = 0)) :
    (newCksum (rest.env ifaLocal route) protocol oldIp newIp oldPort newPort check).toNat +
        newIp.toNat + newPort.toNat ≡
      check.toNat + oldIp.toNat + oldPort.toNat [MOD 0xffff] := by
  have haddr := ipNatCheatCheck_modEq oldIp newIp check
  have hport := ipNatCheatCheck_modEq oldPort.toUInt32 newPort.toUInt32
    (ipNatCheatCheck (~~~oldIp) newIp check)
  rw [UInt16.toNat_toUInt32, UInt16.toNat_toUInt32] at hport
  simp only [Nat.ModEq] at haddr hport ⊢
  cases protocol with
  | tcp =>
    simp only [newCksum, Rest.env]
    omega
  | udp =>
    have hne : check ≠ 0 := fun h => hcheck ⟨rfl, h⟩
    rw [newCksum_udp, if_neg hne]
    split
    case isTrue h =>
      rw [h, UInt16.toNat_zero] at hport
      rw [show (0xffff : UInt16).toNat = 0xffff from rfl]
      omega
    case isFalse h => omega
  | other => exact absurd rfl hprotocol

theorem newCksum_udp_ne_zero {check : UInt16} (hcheck : check ≠ 0) :
    newCksum (rest.env ifaLocal route) .udp oldIp newIp oldPort newPort check ≠ 0 := by
  rw [newCksum_udp, if_neg hcheck]
  split
  · decide
  · assumption

end Cksum

theorem translate_back_eq (h : translate env tbl true skb = .sent skb') :
    ∃ dev ip port, skb' =
      { newHeader env { skb with dev := tbl.rxDev, saddr := ip } with
        dev := dev
        source := port
        cksum := newCksum env skb.protocol skb.saddr ip skb.source port skb.cksum } := by
  simp only [translate, newAddress, if_true] at h
  cases hip : env.ifaLocal tbl.rxDev with
  | none =>
    rw [hip] at h
    cases h
  | some ip =>
    simp only [hip, Option.map_some, newHeader, newPort, if_true] at h
    split at h
    · cases h
    · split at h
      · cases h
      · exact ⟨_, ip, _, (Outcome.sent.inj h).symm⟩

theorem ttl_sub_one_iff (ttl : UInt8) : (ttl - 1).toNat + 1 = ttl.toNat ↔ ttl ≠ 0 := by
  have hlt := ttl.toNat_lt
  rw [Ne, ← UInt8.toNat_inj, UInt8.toNat_sub, UInt8.toNat_one, UInt8.toNat_zero]
  omega

/-- All but the time to live is kept if the change of the checksum makes up for the others. -/
theorem kept_iff (hintact : rest.Intact skb) (hheader : rest.HeaderValid skb')
    (hprotocol : skb'.protocol = skb.protocol) (httl : skb'.ttl = skb.ttl - 1)
    (hzero : skb.protocol = .udp → (skb'.cksum = 0 ↔ skb.cksum = 0))
    (hchange : ¬ (skb.protocol = .udp ∧ skb.cksum = 0) →
      skb'.saddr.toNat + skb'.daddr.toNat + skb'.source.toNat + skb'.dest.toNat +
          skb'.cksum.toNat ≡
        skb.saddr.toNat + skb.daddr.toNat + skb.source.toNat + skb.dest.toNat + skb.cksum.toNat
        [MOD 0xffff])
    (hothers : skb' =
      { (if replied then { skb with saddr := skb'.saddr, source := skb'.source }
          else { skb with daddr := skb'.daddr, dest := skb'.dest }) with
        dev := skb'.dev, ttl := skb'.ttl, check := skb'.check, cksum := skb'.cksum }) :
    Kept rest replied skb skb' ↔ skb.ttl ≠ 0 := by
  rw [← ttl_sub_one_iff, ← httl]
  refine ⟨fun h => h.ttl, fun h => ?_⟩
  by_cases hnone : skb.protocol = .udp ∧ skb.cksum = 0
  · have hkept : skb'.cksum = 0 := (hzero hnone.1).mpr hnone.2
    refine ⟨hheader, .inl ⟨hprotocol.trans hnone.1, hkept⟩, fun _ => ?_, h, hothers⟩
    rw [hkept, if_pos hnone.2]
  · have hvalid := sum_covered_eq_max (hintact.transport.resolve_left hnone) (hchange hnone)
    refine ⟨hheader, .inr hvalid, fun hudp => ?_, h, hothers⟩
    have hne : skb.cksum ≠ 0 := fun h => hnone ⟨hudp, h⟩
    rw [if_neg hne]
    exact cksum_eq_computed hvalid (mt (hzero hudp).mp hne)

variable [DecidableEq Dev]

/-- For every rule table and every packet that arrives whole with valid checksums and is translated,
in either direction: what is sent is valid again, and has the old time to live less one, exactly if
the time to live was not zero. -/
theorem staticNat_kept_iff (rest : Rest) (ifaLocal : Dev → Option UInt32)
    (route : UInt32 → UInt8 → Option Dev) (s : NatState Dev) (tbl : NatTbl Dev) (replied : Bool)
    (skb skb' : Skb Dev) (hintact : rest.Intact skb)
    (hrule : findMatchedRule s skb = some (tbl, replied))
    (hsent : doStaticNat (rest.env ifaLocal route) s skb = .sent skb') :
    Kept rest replied skb skb' ↔ skb.ttl ≠ 0 := by
  have hnet := (findMatchedRule_some hrule).2.1
  rw [doStaticNat, hrule] at hsent
  have hzero {oldIp newIp : UInt32} {oldPort newPort : UInt16} (hudp : skb.protocol = .udp) :
      newCksum (rest.env ifaLocal route) skb.protocol oldIp newIp oldPort newPort skb.cksum = 0 ↔
        skb.cksum = 0 := by
    rw [hudp]
    refine ⟨not_imp_not.mp (newCksum_udp_ne_zero rest ifaLocal route _ _ _ _), fun h => ?_⟩
    rw [newCksum_udp, if_pos h]
  cases replied with
  | false =>
    obtain ⟨dev, port, -, rfl⟩ := translate_in_eq hsent
    have hheader := headerValid_newHeader rest ifaLocal route
      { skb with dev := tbl.txDev, daddr := tbl.txNewIp }
    refine kept_iff hintact (headerValid_congr hheader rfl rfl rfl rfl rfl) rfl rfl hzero
      (fun hsome => ?_) rfl
    have hchange := newCksum_modEq rest ifaLocal route skb.daddr tbl.txNewIp skb.dest port hnet
      hsome
    simp only [newHeader, Nat.ModEq] at hchange ⊢
    omega
  | true =>
    obtain ⟨dev, ip, port, rfl⟩ := translate_back_eq hsent
    have hheader := headerValid_newHeader rest ifaLocal route
      { skb with dev := tbl.rxDev, saddr := ip }
    refine kept_iff hintact (headerValid_congr hheader rfl rfl rfl rfl rfl) rfl rfl hzero
      (fun hsome => ?_) rfl
    have hchange := newCksum_modEq rest ifaLocal route skb.saddr ip skb.source port hnet hsome
    simp only [newHeader, Nat.ModEq] at hchange ⊢
    omega

def synRest : Rest where
  totLen := 40
  id := 1
  fragOff := 0x4000
  options := []
  options_le := by decide
  segment := .tcp 1000 0 0x5002 1024 0 []

/-- A packet to port 6885 with a time to live and the checksums for it. -/
def synOutside (ttl : UInt8) : Skb Iface :=
  let bare := { fromOutside 6885 with ttl := ttl }
  { bare with check := ipFastCsum (synRest.header bare), cksum := synRest.computed bare }

theorem synOutside_intact : synRest.Intact (synOutside 64) ∧ synRest.Intact (synOutside 0) := by
  constructor
  all_goals exact ⟨rfl, by decide, by decide +kernel, .inr (by decide +kernel)⟩

/-- A packet with a time to live of 64. -/
theorem staticNat_kept_syn :
    ∃ skb', doStaticNat (synRest.env gateway.ifaLocal gateway.route)
        (natRules ifaceByName exampleWrites) (synOutside 64) = .sent skb' ∧
      Kept synRest false (synOutside 64) skb' := by
  have hrule : findMatchedRule (natRules ifaceByName exampleWrites) (synOutside 64) =
      some (⟨.vlan2, 6881, 6889, .br0, 0xc0a80064, 7001, 7009⟩, false) := by decide +kernel
  obtain ⟨skb', hsent⟩ : ∃ skb', doStaticNat (synRest.env gateway.ifaLocal gateway.route)
      (natRules ifaceByName exampleWrites) (synOutside 64) = .sent skb' := by
    rw [doStaticNat, hrule]
    exact ⟨_, rfl⟩
  exact ⟨skb', hsent, (staticNat_kept_iff synRest gateway.ifaLocal gateway.route _ _ _ _ _
    synOutside_intact.1 hrule hsent).mpr (by decide)⟩

/-- A packet that arrives with a time to live of zero is sent with 255. -/
theorem staticNat_ttl_wraps :
    synRest.Intact (synOutside 0) ∧
      ∃ skb', doStaticNat (synRest.env gateway.ifaLocal gateway.route)
          (natRules ifaceByName exampleWrites) (synOutside 0) = .sent skb' ∧
        skb'.ttl = 255 ∧ ¬ Kept synRest false (synOutside 0) skb' := by
  have hrule : findMatchedRule (natRules ifaceByName exampleWrites) (synOutside 0) =
      some (⟨.vlan2, 6881, 6889, .br0, 0xc0a80064, 7001, 7009⟩, false) := by decide +kernel
  refine ⟨synOutside_intact.2, ?_⟩
  rw [doStaticNat, hrule]
  refine ⟨_, rfl, rfl, fun h => ?_⟩
  exact absurd h.ttl (by decide +kernel)

end Wbr1310.StaticNat
