import Wbr1310.Html.Validators

/-!
# The LAN page

`check` of `bsc_lan.php` looks at the last parts of addresses only. Behind a netmask that ends in
zero that is enough for the range of the DHCP server. A reservation is compared with the others as
text. A number from `10 ^ 21` on is written with an exponent, and read back as its first digit.
-/

namespace Wbr1310.Html

open Lib Text List

/-- What is left to the browser: the number that digits stand for, none if it is infinite, the digit
before the exponent of a large number, and the bits of a text that is an operand. -/
structure Browser where
  number : ℕ → Option ℤ
  exponentDigit : ℤ → ℤ
  operand : Text → UInt32
  number_small : ∀ n ≤ 2 ^ 53, number n = some n
  number_large : ∀ n > 2 ^ 53, ∀ m ∈ number n, 2 ^ 53 ≤ m
  operand_digits : ∀ s, isDigit s = true → parseInt s ≤ 255 → operand s = .ofNat (parseInt s)

/-- The fields of the form, as they were typed in. -/
structure LanForm where
  (ipaddr netmask domain : Text)
  dhcpsvr : Bool
  (startip endip leasetime : Text)
  rEn : Bool
  (rName rIp1 rIp2 rIp3 rIp4 : Text)
  mac : Fin 6 → Text

/-- An entry of `s_list`. -/
structure StaticEntry where
  (hostname ip mac : Text)

/-- What the page was made with. -/
structure LanPage where
  cfgIpaddr : Text
  editId : Option ℕ
  sList : List StaticEntry

/-- The reservation that is submitted. -/
structure Reservation where
  rId : Option ℕ
  rEn : Bool
  (rName rIp rMac : Text)
  deriving DecidableEq

/-- The fields that `check` fills in. -/
structure Submitted where
  (startipaddr endipaddr : Text)
  reservation : Option Reservation
  onLanChange : Bool
  deriving DecidableEq

def isBlank (s : Text) : Bool := s.all fun c => c = ' ' || c = '\n' || c = '\t'

def isHexdigit (str : Text) : Bool :=
  if str.length = 0 then false
  else str.all fun c => c.isDigit || ('A' ≤ c && c ≤ 'F') || ('a' ≤ c && c ≤ 'f')

def strchkHostname (str : Text) : Bool :=
  str.all fun c => c.toNat = 0 || c.toNat = 8 || c.isAlphanum || c ∈ "._-".toList

section Check

variable (b : Browser) (page : LanPage) (f : LanForm)

/-- `is_in_range` of a number. It is written and read again, infinity not as a number, with which no
comparison holds. -/
def Browser.numberInRange (x : Option ℤ) (min max : ℤ) : Bool :=
  match x with
  | some n =>
    let d := if n < 10 ^ 21 then n else b.exponentDigit n
    if d > max ∨ d < min then false else true
  | none => true

/-- `is_in_range` with bounds that can be infinite. -/
def isBetween (strVal : Text) (min max : Option ℤ) : Bool :=
  let d := decstr2int strVal
  if max.any (· < d) || min.all (d < ·) then false else true

/-- The part of `check` for the DHCP server. -/
def checkDhcp : Bool :=
  let min := b.number (parseInt f.startip)
  let max := b.number (parseInt f.endip)
  if isDigit f.startip = false then false
  else if isDigit f.endip = false then false
  else if isDigit f.leasetime = false then false
  else if b.numberInRange min 1 254 = false ∨ b.numberInRange max 1 254 = false ∨
      max.any (fun m => min.all (m < ·)) = true ∨
      isBetween (getIp f.ipaddr 4) min max = true then false
  else if isBlank f.leasetime = true ∨ parseInt f.leasetime = 0 then false
  else true

/-- The entries of the list but the one that is edited; they count from one. -/
def LanPage.others : List StaticEntry :=
  ((page.sList.zipIdx 1).filter fun e => page.editId ≠ some e.2).map Prod.fst

/-- The six parts of the address, single digits with a zero before them, and colons between. -/
def LanForm.tmpMac : Text :=
  [':'].intercalate ((List.ofFn f.mac).map fun m => if m.length = 1 then '0' :: m else m)

/-- The part of `check` for the reservation. -/
def checkReservation : Option Reservation :=
  if isBlank f.rName = true ∨ strchkHostname f.rName = false then none
  else if isBlank f.rIp4 = true ∨ isDigit f.rIp4 = false then none
  else if f.rIp4 = getIp page.cfgIpaddr 4 then none
  else if ∃ i, isBlank (f.mac i) = true ∨ isHexdigit (f.mac i) = false then none
  else if ∃ e ∈ page.others, f.rName = e.hostname ∨ f.rIp4 = getIp e.ip 4 ∨ f.tmpMac = e.mac then
    none
  else some ⟨page.editId, f.rEn, f.rName, joinDots [f.rIp1, f.rIp2, f.rIp3, f.rIp4], f.tmpMac⟩

def Browser.operands (s : Text) : List UInt32 := [1, 2, 3, 4].map fun i => b.operand (getIp s i)

def getNetworkId (ip mask : Text) : List UInt32 :=
  List.zipWith (· &&& ·) (b.operands ip) (b.operands mask)

def getBroadcastIp (ip mask : Text) : List UInt32 :=
  List.zipWith (fun i m => i ||| (m ^^^ 255)) (b.operands ip) (b.operands mask)

def LanForm.Reserves (editId : Option ℕ) : Prop :=
  editId.isSome = true ∨ f.rEn = true ∨ isBlank f.rName = false ∨ isBlank f.rIp4 = false ∨
    ∃ i, isBlank (f.mac i) = false

instance (editId : Option ℕ) : Decidable (f.Reserves editId) :=
  inferInstanceAs (Decidable (_ ∨ _))

/-- The first three parts of the address with another one. -/
def LanForm.withLast (last : Text) : Text :=
  joinDots [getIp f.ipaddr 1, getIp f.ipaddr 2, getIp f.ipaddr 3, last]

def submitted (reservation : Option Reservation) : Submitted where
  startipaddr := f.withLast f.startip
  endipaddr := f.withLast f.endip
  reservation := reservation
  onLanChange := getNetworkId b f.ipaddr f.netmask ≠ getNetworkId b page.cfgIpaddr f.netmask

/-- `check`: nothing if it returns false. -/
def check : Option Submitted :=
  if isValidIp f.ipaddr 0 = false then none
  else if isValidMask f.netmask = false then none
  else if isBlank f.domain = false ∧ strchkHostname f.domain = false then none
  else if f.dhcpsvr = true ∧ checkDhcp b f = false then none
  else if f.Reserves page.editId then
    (checkReservation page f).map fun r => submitted b page f (some r)
  else some (submitted b page f none)

end Check

section Spec

variable (b : Browser) (page : LanPage) (f : LanForm)

/-- The browser writes the ends of the range without an exponent. -/
def LanForm.Plain : Prop :=
  ∀ s ∈ [f.startip, f.endip], ∃ n ∈ b.number (parseInt s), n < 10 ^ 21

/-- The last numbers from the start to the end of the range. -/
def LanForm.InRange (x : ℕ) : Prop := parseInt f.startip ≤ x ∧ x ≤ parseInt f.endip

/-- The address is in the subnet of the router, and is none of those with a meaning of their own. -/
structure HostOf (addr : Text) : Prop where
  network : getNetworkId b addr f.netmask = getNetworkId b f.ipaddr f.netmask
  ne_network : b.operands addr ≠ getNetworkId b f.ipaddr f.netmask
  ne_broadcast : b.operands addr ≠ getBroadcastIp b f.ipaddr f.netmask

/-- The reservation has a decimal last part and hexadecimal parts of the hardware address, and its
texts are those of no other one. -/
structure Apart (r : Reservation) : Prop where
  ip : isDigit f.rIp4 = true ∧ r.rIp = joinDots [f.rIp1, f.rIp2, f.rIp3, f.rIp4]
  mac : (∀ i, isHexdigit (f.mac i) = true) ∧ r.rMac = f.tmpMac
  others : ∀ e ∈ page.others, f.rIp4 ≠ getIp e.ip 4 ∧ r.rMac ≠ e.mac
  router : f.rIp4 ≠ getIp page.cfgIpaddr 4

/-- The reservation is entered in the form in which addresses are stored: in the net of the router,
with a last part as numbers are written, and the hardware address in small letters. -/
structure LanForm.Canonical : Prop where
  net : f.rIp1 = getIp f.ipaddr 1 ∧ f.rIp2 = getIp f.ipaddr 2 ∧ f.rIp3 = getIp f.ipaddr 3
  last : ∃ n, f.rIp4 = decimal n ∧ 1 ≤ n ∧ n ≤ 254
  mac : lower f.tmpMac = f.tmpMac
  others : ∀ e ∈ page.others, (∃ w x y z, e.ip = dotted w x y z ∧ z ≤ 255) ∧ lower e.mac = e.mac

/-- The reservation is for a host of the subnet, with an address and a device of its own. -/
structure Separate (r : Reservation) : Prop where
  host : IsHost r.rIp
  subnet : HostOf b f r.rIp
  others : ∀ e ∈ page.others, b.operands r.rIp ≠ b.operands e.ip ∧ ¬ EqIgnoreCase r.rMac e.mac

/-- What the router may rely on in what is submitted. -/
structure Consistent (out : Submitted) : Prop where
  host : IsHost f.ipaddr
  mask : isValidMask f.netmask = true
  start : isDigit f.startip = true ∧ out.startipaddr = f.withLast f.startip
  ending : isDigit f.endip = true ∧ out.endipaddr = f.withLast f.endip
  range : f.Plain b → 1 ≤ parseInt f.startip ∧ parseInt f.startip ≤ parseInt f.endip ∧
    parseInt f.endip ≤ 254
  router : f.Plain b → ∀ x, f.InRange x → f.withLast (decimal x) ≠ f.ipaddr
  subnet : f.Plain b → parseInt (getIp f.netmask 4) = 0 →
    HostOf b f out.startipaddr ∧ HostOf b f out.endipaddr ∧
      ∀ x, f.InRange x → HostOf b f (f.withLast (decimal x))
  reservation : ∀ r ∈ out.reservation, Apart page f r
  separate : parseInt (getIp f.netmask 4) = 0 → f.Canonical page →
    ∀ r ∈ out.reservation, Separate b page f r

end Spec

variable {b : Browser} {page : LanPage} {f : LanForm}

theorem Browser.numberInRange_iff {n : ℕ} {m : ℤ} (hm : m ∈ b.number n) (hplain : m < 10 ^ 21) :
    b.numberInRange (b.number n) 1 254 = true ↔ m = n ∧ 1 ≤ n ∧ n ≤ 254 := by
  have hvalue : m = n ∨ 2 ^ 53 ≤ m ∧ 2 ^ 53 < n := by
    by_cases hn : n ≤ 2 ^ 53
    · rw [b.number_small n hn] at hm
      exact .inl (Option.some.inj hm).symm
    · exact .inr ⟨b.number_large n (not_le.mp hn) m hm, not_le.mp hn⟩
  rw [Option.mem_def.mp hm, numberInRange]
  simp only [if_pos hplain]
  split
  · simp only [Bool.false_eq_true, false_iff]
    omega
  · simp only [true_iff]
    omega

theorem checkDhcp_range (h : checkDhcp b f = true) (hplain : f.Plain b) :
    1 ≤ parseInt f.startip ∧ parseInt f.startip ≤ parseInt f.endip ∧ parseInt f.endip ≤ 254 ∧
      ∀ d : ℕ, getIp f.ipaddr 4 = decimal d → ¬ f.InRange d := by
  obtain ⟨n, hn, hn'⟩ := hplain f.startip mem_cons_self
  obtain ⟨m, hm, hm'⟩ := hplain f.endip (mem_cons_of_mem _ mem_cons_self)
  simp only [checkDhcp] at h
  split_ifs at h with _ _ _ hrange
  simp only [not_or, Bool.not_eq_false, Bool.not_eq_true] at hrange
  obtain ⟨hstart, hend, hle, hrouter⟩ := hrange
  obtain ⟨rfl, hfirst, -⟩ := (Browser.numberInRange_iff hn hn').mp hstart
  obtain ⟨rfl, -, hlast⟩ := (Browser.numberInRange_iff hm hm').mp hend
  rw [Option.mem_def.mp hn, Option.mem_def.mp hm] at hle hrouter
  refine ⟨hfirst, by simpa using hle, hlast, ?_⟩
  intro d hd
  simp only [isBetween, hd, decstr2int_decimal, Option.any_some, Option.all_some] at hrouter
  rw [LanForm.InRange]
  split_ifs at hrouter with hout
  simp only [Bool.or_eq_true, decide_eq_true_eq] at hout
  omega

theorem checkDhcp_digits (h : checkDhcp b f = true) :
    isDigit f.startip = true ∧ isDigit f.endip = true := by
  simp only [checkDhcp] at h
  split_ifs at h with hstart hend
  exact ⟨by simpa using hstart, by simpa using hend⟩

theorem checkReservation_apart {r : Reservation} (h : checkReservation page f = some r) :
    Apart page f r := by
  rw [checkReservation] at h
  split_ifs at h with hname hip hrouter hmac hothers
  obtain rfl := Option.some.inj h
  simp only [not_or, not_exists, not_and, Bool.not_eq_false] at hip hmac hothers
  refine ⟨⟨hip.2, rfl⟩, ⟨fun i => (hmac i).2, rfl⟩, fun e he => (hothers e he).2, hrouter⟩

theorem isDigit_last {s : Text} (h : isValidMask s = true) : isDigit (getIp s 4) = true := by
  obtain ⟨k, -, part, hpart, hparts⟩ := (isValidMask_iff s).mp h
  have hmem : getIp s 4 ∈ replicate k "255".toList ++ part :: replicate (3 - k) "0".toList := by
    rw [← hparts]
    simp
  rw [mem_append, mem_cons] at hmem
  rcases hmem with hfull | rfl | hzero
  · rw [eq_of_mem_replicate hfull]
    decide
  · exact (isMask_iff.mp hpart).1
  · rw [eq_of_mem_replicate hzero]
    decide

theorem withLast_eq {w x y z : ℕ} (h : f.ipaddr = dotted w x y z) (s : Text) :
    f.withLast s = joinDots [decimal w, decimal x, decimal y, s] := by
  obtain ⟨h1, h2, h3, -⟩ := getIp_dotted w x y z
  rw [LanForm.withLast, h, h1, h2, h3]

theorem Browser.operands_joinDots (b : Browser) (w x y : ℕ) {s : Text} (hs : isDigit s = true)
    (hle : parseInt s ≤ 255) :
    b.operands (joinDots [decimal w, decimal x, decimal y, s]) = [b.operand (decimal w),
      b.operand (decimal x), b.operand (decimal y), .ofNat (parseInt s)] := by
  obtain ⟨h1, h2, h3, h4⟩ := getIp_joinDots w x y hs
  simp only [operands, map_cons, map_nil, h1, h2, h3, h4, b.operand_digits s hs hle]

theorem Browser.operands_dotted (b : Browser) (w x y : ℕ) {z : ℕ} (hz : z ≤ 255) :
    b.operands (dotted w x y z) =
      [b.operand (decimal w), b.operand (decimal x), b.operand (decimal y), .ofNat z] := by
  have h := b.operands_joinDots w x y (isDigit_decimal z) (by rwa [parseInt_decimal])
  rwa [parseInt_decimal] at h

theorem octet_or (n : ℕ) (h : n < 256) : UInt32.ofNat n ||| (0 ^^^ 255) = 255 := by
  revert n
  decide +kernel

theorem ofNat_ne {n : ℕ} {m : UInt32} (hn : n ≤ 255) (hm : m.toNat ≠ n) : UInt32.ofNat n ≠ m := by
  rintro rfl
  exact hm (UInt32.toNat_ofNat_of_lt' (lt_of_le_of_lt hn (by decide)))

theorem hostOf_withLast (hhost : IsHost f.ipaddr) (hmask : isValidMask f.netmask = true)
    (hzero : parseInt (getIp f.netmask 4) = 0) {s : Text} (hs : isDigit s = true)
    (hpos : 1 ≤ parseInt s) (hle : parseInt s ≤ 254) : HostOf b f (f.withLast s) := by
  obtain ⟨w, x, y, z, hip, -, -, -, -, hz⟩ := hhost
  have hlast : b.operand (getIp f.netmask 4) = 0 := by
    rw [b.operand_digits _ (isDigit_last hmask) (by omega), hzero]
    rfl
  have hmasks : b.operands f.netmask = [b.operand (getIp f.netmask 1),
      b.operand (getIp f.netmask 2), b.operand (getIp f.netmask 3), 0] := by
    simp only [Browser.operands, map_cons, map_nil, hlast]
  have hnew := b.operands_joinDots w x y hs (by omega)
  have hold := b.operands_dotted w x y (z := z) (by omega)
  rw [withLast_eq hip]
  constructor
  · simp [getNetworkId, hip, hmasks, hnew, hold]
  · simp only [getNetworkId, hip, hmasks, hnew, hold, zipWith_cons_cons, UInt32.and_zero]
    intro h
    simp only [cons.injEq] at h
    exact ofNat_ne (by omega) (by rw [UInt32.toNat_zero]; omega) h.2.2.2.1
  · simp only [getBroadcastIp, hip, hmasks, hnew, hold, zipWith_cons_cons, octet_or z (by omega)]
    intro h
    simp only [cons.injEq] at h
    have h255 : (255 : UInt32).toNat = 255 := rfl
    exact ofNat_ne (by omega) (by omega) h.2.2.2.1

theorem Apart.separate {r : Reservation} (h : Apart page f r) (hhost : IsHost f.ipaddr)
    (hmask : isValidMask f.netmask = true) (hzero : parseInt (getIp f.netmask 4) = 0)
    (hform : f.Canonical page) : Separate b page f r := by
  obtain ⟨n, hlast, hpos, hle⟩ := hform.last
  have hip : r.rIp = f.withLast (decimal n) := by
    rw [h.ip.2, hform.net.1, hform.net.2.1, hform.net.2.2, hlast, LanForm.withLast]
  obtain ⟨w, x, y, z, haddr, hw, hx, hy, -⟩ := id hhost
  have hdotted : r.rIp = dotted w x y n := hip.trans (withLast_eq haddr _)
  refine ⟨⟨w, x, y, n, hdotted, hw, hx, hy, hpos, hle⟩, ?_, fun e he => ?_⟩
  · rw [hip]
    exact hostOf_withLast hhost hmask hzero (isDigit_decimal n) (by rwa [parseInt_decimal])
      (by rwa [parseInt_decimal])
  · obtain ⟨⟨w', x', y', z', hentry, hz'⟩, hlower⟩ := hform.others e he
    obtain ⟨hip4, hmac⟩ := h.others e he
    refine ⟨fun hsame => ?_, fun hsame => ?_⟩
    · rw [hdotted, hentry, b.operands_dotted w x y (by omega),
        b.operands_dotted w' x' y' hz'] at hsame
      simp only [cons.injEq] at hsame
      have hvalue : n = z' := by
        by_contra hne
        have hz : (UInt32.ofNat z').toNat = z' :=
          UInt32.toNat_ofNat_of_lt' (lt_of_le_of_lt hz' (by decide))
        exact ofNat_ne (by omega) (by omega) hsame.2.2.2.1
      rw [hlast, hentry, (getIp_dotted w' x' y' z').2.2.2, hvalue] at hip4
      exact hip4 rfl
    · rw [EqIgnoreCase, h.mac.2, hform.mac, hlower, ← h.mac.2] at hsame
      exact hmac hsame

theorem check_parts {out : Submitted} (h : check b page f = some out) :
    isValidIp f.ipaddr 0 = true ∧ isValidMask f.netmask = true ∧
      (f.dhcpsvr = true → checkDhcp b f = true) ∧
      ∃ r, out = submitted b page f r ∧ ∀ x ∈ r, Apart page f x := by
  rw [check] at h
  split_ifs at h with hip hmask _ hserver hreserves
  all_goals
    refine ⟨by simpa using hip, by simpa using hmask, by simpa using hserver, ?_⟩
  · obtain ⟨r, hr, rfl⟩ := Option.map_eq_some_iff.mp h
    refine ⟨some r, rfl, ?_⟩
    rintro x ⟨⟩
    exact checkReservation_apart hr
  · exact ⟨none, (Option.some.inj h).symm, nofun⟩

def exactBrowser : Browser where
  number n := some n
  exponentDigit := fun _ => 1
  operand s := if isDigit s then .ofNat (parseInt s) else 0
  number_small := fun _ _ => rfl
  number_large := fun n hn m hm => by
    obtain rfl := Option.some.inj hm
    exact_mod_cast hn.le
  operand_digits := fun _ h _ => if_pos h

def reservingForm (netmask rIp4 mac : String) : LanForm :=
  ⟨"192.168.0.1".toList, netmask.toList, [], true, "100".toList, "200".toList, "60".toList,
    true, "b".toList, "192".toList, "168".toList, "0".toList, rIp4.toList, fun _ => mac.toList⟩

def reservingPage : LanPage :=
  ⟨"192.168.0.1".toList, none, [⟨"a".toList, "192.168.0.50".toList, "aa:aa:aa:aa:aa:aa".toList⟩]⟩

end Wbr1310.Html
