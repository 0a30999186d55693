import Wbr1310.StaticNat.WriteProc

/-!
# Writes that add a rule or change nothing

A line `ADD` with two devices, an address and four ports is meant to add its rule, and every other
write but `FLUSH` to change nothing, whatever the stack holds. This is so only if the words fit
their arrays and nothing goes wrong behind the first device: a line is never given up without a
fault or a reference that stays behind.
-/

namespace Wbr1310.StaticNat

open Lib Buffer List Nat

/-- Words with blanks before each of them, and the end of the line behind the last one. -/
def Spells : List (List UInt8) → List UInt8 → Prop
  | [], rest => ∃ n, rest = List.replicate n blank ∨ rest = List.replicate n blank ++ [newline]
  | word :: words, buf =>
    ∃ n rest, buf = List.replicate (n + 1) blank ++ (word ++ rest) ∧ Spells words rest

/-- A word as the parser reads it. -/
structure IsWord (word : List UInt8) : Prop where
  begins : ∃ c cs, word = c :: cs ∧ BeginsWord c
  inside : ∀ c ∈ word, ¬ EndsWord c

def decimalValue (digits : List UInt8) : ℕ :=
  digits.foldl (fun n c => n * 10 + (c - 0x30).toNat) 0

def IsNumber (digits : List UInt8) : Prop := digits ≠ [] ∧ ∀ c ∈ digits, IsDigit c

instance : DecidablePred IsNumber := fun digits =>
  have := List.decidableBAll IsDigit digits
  inferInstanceAs (Decidable (_ ∧ _))

/-- A number that fits a port. -/
structure IsPort (digits : List UInt8) (port : UInt16) : Prop where
  number : IsNumber digits
  le : decimalValue digits ≤ 65535
  port_eq : port = UInt16.ofNat (decimalValue digits)

def decimal (n : ℕ) : List UInt8 := (Nat.toDigits 10 n).map Char.toUInt8

def IsAddress (text : List UInt8) (ip : UInt32) : Prop :=
  ∃ a b c d, a ≤ 255 ∧ b ≤ 255 ∧ c ≤ 255 ∧ d ≤ 255 ∧
    text = decimal a ++ dot :: (decimal b ++ dot :: (decimal c ++ dot :: decimal d)) ∧
      ip = UInt32.ofNat (((a * 256 + b) * 256 + c) * 256 + d)

/-- The eight words of a line that adds a rule. -/
structure AddWords where
  command : List UInt8
  ifin : List UInt8
  rxBegin : List UInt8
  rxEnd : List UInt8
  ifout : List UInt8
  address : List UInt8
  txBegin : List UInt8
  txEnd : List UInt8

def AddWords.list (w : AddWords) : List (List UInt8) :=
  [w.command, w.ifin, w.rxBegin, w.rxEnd, w.ifout, w.address, w.txBegin, w.txEnd]

section Lines

variable {Dev : Type} (net : Devices Dev)

/-- The words spell the rule. -/
structure AddWords.Means (w : AddWords) (tbl : NatTbl Dev) : Prop where
  command : w.command = ascii "ADD" ∨ w.command = ascii "add"
  ifin : IsWord w.ifin
  rxDev : net.named w.ifin = some tbl.rxDev
  rxBegin : IsPort w.rxBegin tbl.rxPortrangeBegin
  rxEnd : IsPort w.rxEnd tbl.rxPortrangeEnd
  ifout : IsWord w.ifout
  txDev : net.named w.ifout = some tbl.txDev
  address : IsAddress w.address tbl.txNewIp
  txBegin : IsPort w.txBegin tbl.txPortrangeBegin
  txEnd : IsPort w.txEnd tbl.txPortrangeEnd

def AddLine (buf : List UInt8) (tbl : NatTbl Dev) : Prop :=
  ∃ w : AddWords, w.Means net tbl ∧ Spells w.list (blank :: buf)

def IsFlush (buf : List UInt8) : Prop := wordOf buf = ascii "FLUSH" ∨ wordOf buf = ascii "flush"

instance : DecidablePred IsFlush := fun _ => inferInstanceAs (Decidable (_ ∨ _))

/-- Whatever the stack holds, the write stays in the buffer and the arrays and follows no null
pointer. A line that stands for a rule adds it, and anything else but `FLUSH` changes neither the
rules nor the reference counts. -/
def AllOrNothing [DecidableEq Dev] (kmalloc : Bool) (buf : List UInt8) : Prop :=
  ∀ (arrays : Arrays) (s : ProcState Dev), ∃ s', writeProc net kmalloc arrays buf s = .ok s' ∧
    (∀ tbl, AddLine net buf tbl → s'.table = s.table ++ [tbl]) ∧
    ((¬ ∃ tbl, AddLine net buf tbl) → ¬ IsFlush buf → s' = s)

/-- The first word fits `cmd`, and it is no command, or it is `FLUSH`, or it is `ADD` with a first
device that fits `ifname` and is not known, or the line stands for a rule, both devices fit, and
there is memory for the rule. -/
def Plain (kmalloc : Bool) (buf : List UInt8) : Prop :=
  (wordOf buf).length < 8 ∧
    (cut (wordOf buf) ∉ [ascii "ADD", ascii "add", ascii "FLUSH", ascii "flush"] ∨ IsFlush buf ∨
      (cut (wordOf buf) ∈ [ascii "ADD", ascii "add"] ∧ (wordOf (behindWord buf)).length < 8 ∧
        net.named (cut (wordOf (behindWord buf))) = none) ∨
      (kmalloc = true ∧ ∃ (w : AddWords) (tbl : NatTbl Dev), w.Means net tbl ∧
        Spells w.list (blank :: buf) ∧ w.ifin.length < 8 ∧ w.ifout.length < 8))

end Lines

theorem beginsWord_of_isDigit {c : UInt8} (h : IsDigit c) : BeginsWord c := .inr (.inr (.inl h))

theorem isWord_of_begins {word : List UInt8} (hne : word ≠ []) (h : ∀ c ∈ word, BeginsWord c) :
    IsWord word := by
  refine ⟨?_, fun c hc => not_endsWord (h c hc)⟩
  cases word with
  | nil => exact absurd rfl hne
  | cons c word => exact ⟨c, word, rfl, h c mem_cons_self⟩

section Reading

variable {digits buf : List UInt8} {words : List (List UInt8)} {n : ℕ}

theorem IsNumber.isWord (h : IsNumber digits) : IsWord digits :=
  isWord_of_begins h.1 fun c hc => beginsWord_of_isDigit (h.2 c hc)

theorem Spells.cases (h : Spells words buf) :
    buf = [] ∨ (buf = [newline] ∧ words = []) ∨ ∃ cs, buf = blank :: cs := by
  cases words with
  | nil =>
    obtain ⟨_ | n, rfl | rfl⟩ := h
    · exact .inl rfl
    · exact .inr (.inl ⟨rfl, rfl⟩)
    · exact .inr (.inr ⟨_, rfl⟩)
    · exact .inr (.inr ⟨_, rfl⟩)
  | cons word words =>
    obtain ⟨n, rest, rfl, -⟩ := h
    exact .inr (.inr ⟨_, rfl⟩)

theorem endsWord_of_spells (h : Spells words buf) : ∀ c ∈ buf.head?, EndsWord c := by
  intro c hc
  obtain rfl | ⟨rfl, -⟩ | ⟨cs, rfl⟩ := h.cases
  · cases hc
  · exact .inr (Option.some.inj hc).symm
  · exact .inl (Option.some.inj hc).symm

theorem wordOf_of_spells {word : List UInt8} (hword : IsWord word)
    (h : Spells (word :: words) buf) :
    wordOf buf = word ∧ Spells words (behindWord buf) := by
  obtain ⟨n, rest, rfl, hrest⟩ := h
  have hblanks : ∀ c ∈ replicate (n + 1) blank, decide (¬ BeginsWord c) = true := by
    intro c hc
    rw [eq_of_mem_replicate hc]
    decide
  have hskipped : skipped (replicate (n + 1) blank ++ (word ++ rest)) =
      replicate (n + 1) blank := by
    obtain ⟨c, cs, rfl, hc⟩ := hword.begins
    rw [skipped, takeWhile_append_of_pos hblanks, cons_append,
      takeWhile_cons_of_neg (by simpa using hc), append_nil]
  have hon : wordOn (replicate (n + 1) blank ++ (word ++ rest)) = word ++ rest := by
    obtain ⟨c, cs, rfl, hc⟩ := hword.begins
    rw [wordOn, dropWhile_append_of_pos hblanks, cons_append,
      dropWhile_cons_of_neg (by simpa using hc)]
  have hinside : ∀ c ∈ word, decide (¬ EndsWord c) = true := fun c hc =>
    decide_eq_true (hword.inside c hc)
  have hends := endsWord_of_spells hrest
  constructor
  · have htake : rest.takeWhile (¬ EndsWord ·) = [] := by
      cases rest with
      | nil => rfl
      | cons c rest => exact takeWhile_cons_of_neg (by simpa using hends c rfl)
    rw [wordOf, hskipped, hon, count_replicate_self, drop_replicate, Nat.sub_self,
      takeWhile_append_of_pos hinside, htake, append_nil]
    rfl
  · have hdrop : rest.dropWhile (¬ EndsWord ·) = rest := by
      cases rest with
      | nil => rfl
      | cons c rest => exact dropWhile_cons_of_neg (by simpa using hends c rfl)
    rw [behindWord, hon, dropWhile_append_of_pos hinside, hdrop]
    exact hrest

theorem wordOf_blank (buf : List UInt8) :
    wordOf (blank :: buf) = wordOf buf ∧ behindWord (blank :: buf) = behindWord buf := by
  have hskipped : skipped (blank :: buf) = blank :: skipped buf :=
    takeWhile_cons_of_pos (by decide)
  have hon : wordOn (blank :: buf) = wordOn buf := dropWhile_cons_of_pos (by decide)
  constructor
  · rw [wordOf, hskipped, hon, count_cons_self, drop_succ_cons, wordOf]
  · rw [behindWord, hon, behindWord]

theorem scanValue_blanks (n : ℕ) (cs : List UInt8) (i : ℕ) (num : UInt32) :
    scanValue (List.replicate n blank ++ cs) i num false = scanValue cs (i + n) num false := by
  induction n generalizing i with
  | zero => rfl
  | succ n ih =>
    have hblank : ¬ IsDigit blank := by decide
    have hstate : ¬ (false = true ∧ blank = blank) := fun h => nomatch h.1
    rw [replicate_succ, cons_append, scanValue, if_neg hblank, if_neg hstate, ih,
      Nat.add_assoc, Nat.add_comm 1]

theorem scanValue_digits (h : ∀ c ∈ digits, IsDigit c) (rest : List UInt8) (i n : ℕ) :
    scanValue (digits ++ rest) i (UInt32.ofNat n) true =
      scanValue rest (i + digits.length)
        (UInt32.ofNat (digits.foldl (fun n c => n * 10 + (c - 0x30).toNat) n)) true := by
  induction digits generalizing i n with
  | nil => rfl
  | cons c digits ih =>
    rw [forall_mem_cons] at h
    have hnext : UInt32.ofNat n * 10 + (c - 0x30).toUInt32 =
        UInt32.ofNat (n * 10 + (c - 0x30).toNat) := by
      rw [UInt32.ofNat_add, UInt32.ofNat_mul, UInt32.ofNat_uInt8ToNat]
      rfl
    rw [cons_append, scanValue, if_pos h.1, hnext, ih h.2, foldl_cons,
      length_cons, Nat.add_assoc, Nat.add_comm 1]

theorem scanValue_spells {rest : List UInt8} (h : Spells words rest) (i : ℕ) (num : UInt32) :
    ∃ k, scanValue rest i num true = (i + k, num) ∧ Spells words (rest.drop k) := by
  obtain rfl | ⟨rfl, rfl⟩ | ⟨cs, rfl⟩ := h.cases
  · exact ⟨0, rfl, h⟩
  · exact ⟨1, rfl, 0, .inl rfl⟩
  · have hdigit : ¬ IsDigit blank := by decide
    refine ⟨0, ?_, h⟩
    rw [scanValue, if_neg hdigit, if_pos ⟨rfl, rfl⟩]
    rfl

theorem getValue_of_spells (hdigits : IsNumber digits) (h : Spells (digits :: words) buf) :
    ∃ i, getValue buf = (i, UInt32.ofNat (decimalValue digits)) ∧ Spells words (buf.drop i) := by
  obtain ⟨n, rest, rfl, hrest⟩ := h
  obtain ⟨hne, hall⟩ := hdigits
  cases digits with
  | nil => exact absurd rfl hne
  | cons c digits =>
    obtain ⟨k, hend, hwords⟩ := scanValue_spells hrest (0 + (n + 1) + (c :: digits).length)
      (UInt32.ofNat (decimalValue (c :: digits)))
    have hfirst (i : ℕ) : scanValue (c :: digits ++ rest) i 0 false =
        scanValue (c :: digits ++ rest) i (UInt32.ofNat 0) true := by
      have hc : IsDigit c := hall c mem_cons_self
      rw [cons_append, scanValue, scanValue, if_pos hc, if_pos hc]
      rfl
    refine ⟨0 + (n + 1) + (c :: digits).length + k, ?_, ?_⟩
    · rw [getValue, scanValue_blanks, hfirst, scanValue_digits hall]
      exact hend
    · have hlength : 0 + (n + 1) + (c :: digits).length + k =
          (replicate (n + 1) blank ++ (c :: digits)).length + k := by
        rw [length_append, length_replicate]
        omega
      rw [hlength, ← append_assoc, ← drop_drop, drop_left]
      exact hwords

theorem IsPort.toUInt16_eq {port : UInt16} (h : IsPort digits port) :
    (UInt32.ofNat (decimalValue digits)).toUInt16 = port := by
  rw [h.port_eq]
  exact UInt32.toUInt16_ofNat' _

theorem decimal_spec : ∀ n < 256, IsNumber (decimal n) ∧ (decimal n).length ≤ 3 ∧
    simpleStrtol (decimal n) = (UInt32.ofNat n, []) ∧ UInt32.ofNat n ≤ 255 := by
  decide +kernel

theorem digit_ne {c : UInt8} (h : IsDigit c) : c ≠ dot ∧ c ≠ 0 := by
  constructor
  · rintro rfl
    exact absurd h (by decide)
  · rintro rfl
    exact absurd h (by decide)

theorem stringToNumber_decimal (h : n ≤ 255) (before : UInt32) :
    stringToNumber (decimal n) before = UInt32.ofNat n := by
  obtain ⟨hnumber, -, hvalue, hle⟩ := decimal_spec n (by omega)
  rw [stringToNumber, hvalue]
  exact if_pos ⟨rfl, hnumber.1, hle⟩

theorem strchrDot_digits (h : ∀ c ∈ digits, IsDigit c) (rest : List UInt8) :
    strchrDot (digits ++ dot :: rest) = .ok (some (digits, rest)) := by
  induction digits with
  | nil => simp [strchrDot]
  | cons c digits ih =>
    rw [forall_mem_cons] at h
    obtain ⟨hdot, hzero⟩ := digit_ne h.1
    simp [strchrDot, hdot, hzero, ih h.2]

theorem strncpyFrom_eq {s : List UInt8} (hs : 0 ∉ s) (hlength : s.length < n) (rest : List UInt8) :
    strncpyFrom n (s ++ 0 :: rest) = .ok (s ++ List.replicate (n - s.length) 0) := by
  have hcut : cut (s ++ 0 :: rest) = s := by
    rw [cut_append_zero]
    exact cut_of_ne_zero fun c hc hc' => hs (hc' ▸ hc)
  obtain ⟨copied, hcopied⟩ := strncpyFrom_returns (mem_append_right s mem_cons_self) n
  rw [hcopied, strncpyFrom_ok hcopied, hcut, take_of_length_le hlength.le]

theorem octetsAt_decimal (hn : n ≤ 255) (k : ℕ) (rest : List UInt8) (onebyte : UInt32) :
    octetsAt (k + 1) (decimal n ++ dot :: rest) onebyte =
      octetsAt k rest (UInt32.ofNat n) >>= fun bs =>
        .ok (bs.map ((UInt32.ofNat n).toUInt8 :: ·)) := by
  obtain ⟨⟨-, hdigits⟩, -⟩ := decimal_spec n (by omega)
  rw [octetsAt, strchrDot_digits hdigits, procFault_ok_bind]
  simp only [stringToNumber_decimal hn]

theorem octetsAt_last (hn : n ≤ 255) (rest : List UInt8) (onebyte : UInt32) :
    octetsAt 0 (decimal n ++ 0 :: rest) onebyte = .ok (some [(UInt32.ofNat n).toUInt8]) := by
  obtain ⟨⟨-, hdigits⟩, -⟩ := decimal_spec n (by omega)
  have hcut : cut (decimal n ++ 0 :: rest) = decimal n := by
    rw [cut_append_zero]
    exact cut_of_ne_zero fun c hc => (digit_ne (hdigits c hc)).2
  have hzero : 0 ∈ decimal n ++ 0 :: rest := mem_append_right _ mem_cons_self
  rw [octetsAt, lastNumber, if_pos hzero, hcut, stringToNumber_decimal hn]
  rfl

theorem toUInt8_toUInt32_ofNat (h : n ≤ 255) :
    (UInt32.ofNat n).toUInt8.toUInt32 = UInt32.ofNat n := by
  apply UInt32.toNat.inj
  rw [UInt8.toNat_toUInt32, UInt32.toNat_toUInt8, UInt32.toNat_ofNat']
  omega

theorem foldl_octets {a b c d : ℕ} (ha : a ≤ 255) (hb : b ≤ 255) (hc : c ≤ 255) (hd : d ≤ 255) :
    [(UInt32.ofNat a).toUInt8, (UInt32.ofNat b).toUInt8, (UInt32.ofNat c).toUInt8,
      (UInt32.ofNat d).toUInt8].foldl (fun x y => x * 256 + y.toUInt32) 0 =
        UInt32.ofNat (((a * 256 + b) * 256 + c) * 256 + d) := by
  simp only [foldl_cons, foldl_nil, toUInt8_toUInt32_ofNat, ha, hb, hc, hd,
    UInt32.ofNat_add, UInt32.ofNat_mul]
  simp

theorem IsAddress.spec {text : List UInt8} {ip : UInt32} (h : IsAddress text ip) :
    text.length < 19 ∧ 0 ∉ text ∧ IsWord text := by
  obtain ⟨a, b, c, d, ha, hb, hc, hd, rfl, -⟩ := h
  obtain ⟨hanum, halen, -⟩ := decimal_spec a (by omega)
  obtain ⟨hbnum, hblen, -⟩ := decimal_spec b (by omega)
  obtain ⟨hcnum, hclen, -⟩ := decimal_spec c (by omega)
  obtain ⟨hdnum, hdlen, -⟩ := decimal_spec d (by omega)
  have hchars : ∀ x ∈ decimal a ++ dot :: (decimal b ++ dot :: (decimal c ++ dot :: decimal d)),
      IsDigit x ∨ x = dot := by
    intro x hx
    simp only [mem_append, mem_cons] at hx
    rcases hx with hx | hx | hx | hx | hx | hx | hx
    · exact .inl (hanum.2 x hx)
    · exact .inr hx
    · exact .inl (hbnum.2 x hx)
    · exact .inr hx
    · exact .inl (hcnum.2 x hx)
    · exact .inr hx
    · exact .inl (hdnum.2 x hx)
  have hbegins : ∀ x ∈ decimal a ++ dot :: (decimal b ++ dot :: (decimal c ++ dot :: decimal d)),
      BeginsWord x := by
    intro x hx
    rcases hchars x hx with hdigit | hdot
    · exact beginsWord_of_isDigit hdigit
    · exact .inr (.inr (.inr hdot))
  refine ⟨?_, fun hzero => ?_, isWord_of_begins ?_ hbegins⟩
  · simp only [length_append, length_cons]
    omega
  · exact absurd (hbegins 0 hzero) (by decide)
  · exact append_ne_nil_of_left_ne_nil hanum.1 _

theorem dottedToAddrAt_eq {text : List UInt8} {ip : UInt32} (h : IsAddress text ip)
    (arrays : Arrays) (rest : List UInt8) :
    dottedToAddrAt arrays (text ++ 0 :: rest) = .ok (some ip) := by
  obtain ⟨hlength, hzero, -⟩ := h.spec
  obtain ⟨k, hk⟩ : ∃ k, 19 - text.length = k + 1 := ⟨18 - text.length, by omega⟩
  rw [dottedToAddrAt, strncpyFrom_eq hzero hlength, procFault_ok_bind, hk]
  obtain ⟨a, b, c, d, ha, hb, hc, hd, rfl, rfl⟩ := h
  simp only [replicate_succ, append_assoc, cons_append]
  rw [octetsAt_decimal ha, octetsAt_decimal hb, octetsAt_decimal hc, octetsAt_last hd]
  simp only [procFault_ok_bind, Option.map_some, foldl_octets ha hb hc hd]

end Reading

section Adding

variable {Dev : Type} {net : Devices Dev} {kmalloc : Bool} {arrays : Arrays} {buf : List UInt8}
  {idx : ℕ} {s s' : ProcState Dev}

theorem getValueAt_of_spells {digits : List UInt8} {words : List (List UInt8)}
    (hdigits : IsNumber digits) (hidx : idx ≤ buf.length)
    (h : Spells (digits :: words) (buf.drop idx)) :
    ∃ i, getValueAt buf idx = .ok (i, UInt32.ofNat (decimalValue digits)) ∧
      idx + i ≤ buf.length ∧ Spells words (buf.drop (idx + i)) := by
  obtain ⟨i, hvalue, hwords⟩ := getValue_of_spells hdigits h
  refine ⟨i, ?_, ?_, ?_⟩
  · rw [getValueAt_eq, hvalue]
  · have hle := getValue_le hidx
    rwa [hvalue] at hle
  · rw [← drop_drop]
    exact hwords

/-- The rest of a line behind the second device is read as it is written. -/
theorem addTo_eq {address txBegin txEnd : List UInt8} {ip : UInt32} {b e : UInt16}
    (haddress : IsAddress address ip) (hbegin : IsPort txBegin b) (hend : IsPort txEnd e)
    (hidx : idx ≤ buf.length) (h : Spells [address, txBegin, txEnd] (buf.drop idx)) (rxDev : Dev)
    (rxBegin rxEnd : UInt32) (txDev : Dev) :
    addTo true arrays buf idx rxDev rxBegin rxEnd txDev s = .ok { s with table := s.table ++
      [⟨rxDev, rxBegin.toUInt16, rxEnd.toUInt16, txDev, ip, b, e⟩] } := by
  obtain ⟨hlength, -, hword⟩ := haddress.spec
  obtain ⟨hwordOf, hrest⟩ := wordOf_of_spells hword h
  obtain ⟨i, hstr, hidx', hdrop, -⟩ := getStrAt_eq hidx arrays.txIpStr
  have hput : putWord address arrays.txIpStr =
      address ++ 0 :: arrays.txIpStr.drop (address.length + 1) := by
    refine if_pos ?_
    rw [arrays.length_txIpStr]
    omega
  rw [← hdrop] at hrest
  obtain ⟨i', hvalue, hidx'', hrest'⟩ := getValueAt_of_spells hbegin.number hidx' hrest
  obtain ⟨i'', hvalue', -⟩ := getValueAt_of_spells hend.number hidx'' hrest'
  rw [addTo, hstr, hwordOf, hput, procFault_ok_bind]
  simp only
  rw [dottedToAddrAt_eq haddress, procFault_ok_bind]
  simp only [hvalue, hvalue', procFault_ok_bind, if_true, hbegin.toUInt16_eq, hend.toUInt16_eq]

variable {rxDev : Dev} {ifname : List UInt8}

/-- What happens behind the second device leaves its reference, and adds a rule if at all. -/
theorem addTo_ok {txDev : Dev} {rxBegin rxEnd : UInt32}
    (h : addTo kmalloc arrays buf idx rxDev rxBegin rxEnd txDev s = .ok s') :
    s'.refcnt = s.refcnt ∧ (s'.table = s.table ∨ kmalloc = true ∧
      ∃ tbl, s'.table = s.table ++ [tbl] ∧ tbl.rxDev = rxDev ∧ tbl.txDev = txDev) := by
  obtain ⟨⟨i, txIpStr⟩, -, h⟩ := exists_of_bind_eq_ok h
  obtain ⟨ip, -, h⟩ := exists_of_bind_eq_ok h
  cases ip with
  | none => cases h
  | some ip =>
    obtain ⟨⟨i, txBegin⟩, -, h⟩ := exists_of_bind_eq_ok h
    obtain ⟨⟨i, txEnd⟩, -, h⟩ := exists_of_bind_eq_ok h
    simp only at h
    split at h
    · next hkmalloc =>
      obtain rfl := Except.ok.inj h
      exact ⟨rfl, .inr ⟨hkmalloc, _, rfl, rfl, rfl⟩⟩
    · obtain rfl := Except.ok.inj h
      exact ⟨rfl, .inl rfl⟩

theorem rule_of_added {table table' : List (NatTbl Dev)} {tbl : NatTbl Dev}
    {P : NatTbl Dev → Prop} (hadded : table' = table ++ [tbl])
    (h : table' = table ∨ kmalloc = true ∧ ∃ tbl', table' = table ++ [tbl'] ∧ P tbl') :
    kmalloc = true ∧ P tbl := by
  rcases h with htable | ⟨hkmalloc, tbl', htable, hrule⟩
  · have hlength := congrArg length (hadded.symm.trans htable)
    simp at hlength
  · obtain rfl : tbl' = tbl := singleton_inj.mp (append_cancel_left (htable.symm.trans hadded))
    exact ⟨hkmalloc, hrule⟩

variable [DecidableEq Dev]

theorem addFrom_eq {rxBegin rxEnd ifout : List UInt8} {words : List (List UInt8)}
    (hbegin : IsNumber rxBegin) (hend : IsNumber rxEnd) (hifout : IsWord ifout)
    (hidx : idx ≤ buf.length) (h : Spells (rxBegin :: rxEnd :: ifout :: words) (buf.drop idx))
    {txDev : Dev} (hdev : net.getByName (putWord ifout ifname) = .ok (some txDev)) (rxDev : Dev) :
    ∃ idx' ≤ buf.length, Spells words (buf.drop idx') ∧
      addFrom net kmalloc arrays buf idx ifname rxDev s =
        addTo kmalloc arrays buf idx' rxDev (UInt32.ofNat (decimalValue rxBegin))
          (UInt32.ofNat (decimalValue rxEnd)) txDev (s.hold txDev) := by
  obtain ⟨i, hvalue, hidx, h⟩ := getValueAt_of_spells hbegin hidx h
  obtain ⟨i', hvalue', hidx, h⟩ := getValueAt_of_spells hend hidx h
  obtain ⟨hword, hrest⟩ := wordOf_of_spells hifout h
  obtain ⟨i'', hstr, hidx, hdrop, -⟩ := getStrAt_eq hidx ifname
  refine ⟨idx + i + i' + i'', hidx, hdrop ▸ hrest, ?_⟩
  simp only [addFrom, hvalue, hvalue', hstr, hword, hdev, procFault_ok_bind]

theorem refcnt_le_hold (s : ProcState Dev) (dev dev' : Dev) :
    s.refcnt dev' ≤ (s.hold dev).refcnt dev' := by
  rw [ProcState.hold]
  by_cases hdev : dev' = dev
  · subst hdev
    simp
  · simp [Function.update_of_ne hdev]

theorem addFrom_ok (h : addFrom net kmalloc arrays buf idx ifname rxDev s = .ok s') :
    s.refcnt rxDev ≤ s'.refcnt rxDev ∧ (s'.table = s.table ∨ kmalloc = true ∧
      ∃ tbl, s'.table = s.table ++ [tbl] ∧ tbl.rxDev = rxDev) := by
  obtain ⟨⟨i, rxBegin⟩, -, h⟩ := exists_of_bind_eq_ok h
  obtain ⟨⟨i, rxEnd⟩, -, h⟩ := exists_of_bind_eq_ok h
  obtain ⟨⟨i, ifname⟩, -, h⟩ := exists_of_bind_eq_ok h
  obtain ⟨dev, -, h⟩ := exists_of_bind_eq_ok h
  cases dev with
  | none =>
    obtain rfl := Except.ok.inj h
    exact ⟨le_refl _, .inl rfl⟩
  | some txDev =>
    obtain ⟨hrefcnt, htable⟩ := addTo_ok h
    refine ⟨hrefcnt ▸ refcnt_le_hold s txDev rxDev, ?_⟩
    rcases htable with htable | ⟨hkmalloc, tbl, htable, hrx, -⟩
    · exact .inl htable
    · exact .inr ⟨hkmalloc, tbl, htable, hrx⟩

theorem addFrom_hold_ok
    (h : addFrom net kmalloc arrays buf idx ifname rxDev (s.hold rxDev) = .ok s') :
    s' ≠ s ∧ (s'.table = s.table ∨ kmalloc = true ∧
      ∃ tbl, s'.table = s.table ++ [tbl] ∧ tbl.rxDev = rxDev) := by
  obtain ⟨hle, htable⟩ := addFrom_ok h
  refine ⟨?_, htable⟩
  rintro rfl
  have hheld : (s'.hold rxDev).refcnt rxDev = s'.refcnt rxDev + 1 := Function.update_self ..
  omega

theorem cmdIs_eq {cmd : List UInt8} {upper lower : String} (hcmd : 0 ∈ cmd)
    (hupper : 0 ∉ ascii upper ∧ (ascii upper).length < 8)
    (hlower : 0 ∉ ascii lower ∧ (ascii lower).length < 8) :
    cmdIs cmd upper lower = .ok (decide (cut cmd ∈ [ascii upper, ascii lower])) := by
  rw [cmdIs, strncmpEq_eq hupper.1 hupper.2 hcmd, strncmpEq_eq hlower.1 hlower.2 hcmd,
    procFault_ok_bind]
  by_cases h : ascii upper = cut cmd
  · simp [h]
  · simp [h, eq_comm]

variable (net kmalloc arrays s)

/-- What is done with the command in `cmd`. -/
theorem writeProc_eq (hne : buf ≠ []) {cmd : List UInt8}
    (hput : putWord (wordOf buf) arrays.cmd = cmd) (hcmd : 0 ∈ cmd) :
    ∃ i ≤ buf.length, buf.drop i = behindWord buf ∧ writeProc net kmalloc arrays buf s =
      if cut cmd ∈ [ascii "ADD", ascii "add"] then addArgs net kmalloc arrays buf i s
      else if cut cmd ∈ [ascii "FLUSH", ascii "flush"] then .ok { s with table := [] }
      else .ok s := by
  obtain ⟨i, hstr, hi, hdrop, -⟩ := getStrAt_eq (zero_le buf.length) arrays.cmd
  rw [Nat.zero_add] at hi hdrop
  rw [drop_zero] at hstr hdrop
  refine ⟨i, hi, hdrop, ?_⟩
  rw [writeProc, if_neg hne, hstr, hput, procFault_ok_bind]
  simp only
  rw [cmdIs_eq hcmd (by decide) (by decide), cmdIs_eq hcmd (by decide) (by decide),
    procFault_ok_bind]
  by_cases hadd : cut cmd ∈ [ascii "ADD", ascii "add"]
  · simp only [hadd, decide_true, if_true]
  · by_cases hflush : cut cmd ∈ [ascii "FLUSH", ascii "flush"]
    · simp only [hadd, hflush, decide_true, decide_false, if_true, Bool.false_eq_true, if_false,
        procFault_ok_bind]
    · simp only [hadd, hflush, decide_false, Bool.false_eq_true, if_false, procFault_ok_bind]

theorem writeProc_of_fits (hfits : (wordOf buf).length < 8) :
    ∃ i ≤ buf.length, buf.drop i = behindWord buf ∧ writeProc net kmalloc arrays buf s =
      if cut (wordOf buf) ∈ [ascii "ADD", ascii "add"] then addArgs net kmalloc arrays buf i s
      else if cut (wordOf buf) ∈ [ascii "FLUSH", ascii "flush"] then .ok { s with table := [] }
      else .ok s := by
  by_cases hne : buf = []
  · subst hne
    exact ⟨0, le_refl 0, rfl, rfl⟩
  · obtain ⟨hzero, hcut⟩ := putWord_of_fits (arrays.length_cmd.symm ▸ hfits)
    rw [← hcut]
    exact writeProc_eq net kmalloc arrays s hne rfl hzero

theorem addArgs_of_fits (hidx : idx ≤ buf.length) (hdrop : buf.drop idx = behindWord buf)
    (hfits : (wordOf (behindWord buf)).length < 8) :
    ∃ i ≤ buf.length, buf.drop i = behindWord (behindWord buf) ∧
      addArgs net kmalloc arrays buf idx s = match net.named (cut (wordOf (behindWord buf))) with
        | none => .ok s
        | some rxDev => addFrom net kmalloc arrays buf i
            (putWord (wordOf (behindWord buf)) arrays.ifname) rxDev (s.hold rxDev) := by
  obtain ⟨i, hstr, hi, hbehind, -⟩ := getStrAt_eq hidx arrays.ifname
  obtain ⟨hzero, hcut⟩ := putWord_of_fits (arrays.length_ifname.symm ▸ hfits)
  rw [hdrop] at hstr hbehind
  refine ⟨idx + i, hi, hbehind, ?_⟩
  rw [addArgs, hstr, procFault_ok_bind]
  simp only
  rw [net.getByName_eq hzero, procFault_ok_bind]
  cases hnamed : net.named (cut (wordOf (behindWord buf))) with
  | none => rw [hcut, hnamed]
  | some rxDev => rw [hcut, hnamed]

end Adding

section AddLine

variable {Dev : Type} {net : Devices Dev} {buf : List UInt8} {w : AddWords} {tbl : NatTbl Dev}

theorem command_spec : ∀ word ∈ [ascii "ADD", ascii "add", ascii "FLUSH", ascii "flush"],
    word ≠ [] ∧ (∀ c ∈ word, BeginsWord c) ∧ word.length < 8 ∧ cut word = word := by
  decide +kernel

theorem AddWords.Means.command_spec (h : w.Means net tbl) :
    IsWord w.command ∧ w.command.length < 8 ∧ cut w.command ∈ [ascii "ADD", ascii "add"] := by
  have hmem : w.command ∈ [ascii "ADD", ascii "add"] := by
    simpa using h.command
  obtain ⟨hne, hbegins, hlength, hcut⟩ :=
    StaticNat.command_spec w.command (mem_append_left [ascii "FLUSH", ascii "flush"] hmem)
  exact ⟨isWord_of_begins hne hbegins, hlength, hcut.symm ▸ hmem⟩

theorem AddWords.Means.words (h : w.Means net tbl) (hbuf : Spells w.list (blank :: buf)) :
    wordOf buf = w.command ∧ wordOf (behindWord buf) = w.ifin ∧
      Spells [w.rxBegin, w.rxEnd, w.ifout, w.address, w.txBegin, w.txEnd]
        (behindWord (behindWord buf)) := by
  obtain ⟨hblank, hblank'⟩ := wordOf_blank buf
  obtain ⟨hcommand, hrest⟩ := wordOf_of_spells h.command_spec.1 hbuf
  rw [hblank] at hcommand
  rw [hblank'] at hrest
  obtain ⟨hifin, hrest⟩ := wordOf_of_spells h.ifin hrest
  exact ⟨hcommand, hifin, hrest⟩

theorem Devices.cut_of_named {word : List UInt8} {dev : Dev} (h : net.named word = some dev) :
    cut word = word := by
  obtain ⟨hname, hmem⟩ := Devices.name_of_named h
  have hzero := net.zero_notMem_name dev hmem
  rw [hname] at hzero
  exact cut_of_ne_zero fun c hc hc' => hzero (hc' ▸ hc)

/-- Words that fit their arrays add the rule they stand for. -/
theorem writeProc_addLine [DecidableEq Dev] (h : w.Means net tbl)
    (hbuf : Spells w.list (blank :: buf)) (hifin : w.ifin.length < 8) (hifout : w.ifout.length < 8)
    (arrays : Arrays) (s : ProcState Dev) :
    writeProc net true arrays buf s =
      .ok { (s.hold tbl.rxDev).hold tbl.txDev with table := s.table ++ [tbl] } := by
  obtain ⟨hcommand, hword, hrest⟩ := h.words hbuf
  have hfits : (wordOf buf).length < 8 := hcommand.symm ▸ h.command_spec.2.1
  obtain ⟨i, hi, hdrop, hwrite⟩ := writeProc_of_fits net true arrays s hfits
  obtain ⟨i', hi', hdrop', hargs⟩ :=
    addArgs_of_fits net true arrays s hi hdrop (hword.symm ▸ hifin)
  rw [← hdrop'] at hrest
  have hlength : (putWord w.ifin arrays.ifname).length = 8 :=
    (length_putWord _ _).trans arrays.length_ifname
  obtain ⟨hzero, hcut⟩ := putWord_of_fits (hlength.symm ▸ hifout)
  have hdev : net.getByName (putWord w.ifout (putWord w.ifin arrays.ifname)) =
      .ok (some tbl.txDev) := by
    rw [net.getByName_eq hzero, hcut, Devices.cut_of_named h.txDev, h.txDev]
  obtain ⟨i'', hi'', hrest', hfrom⟩ :=
    addFrom_eq h.rxBegin.number h.rxEnd.number h.ifout hi' hrest hdev tbl.rxDev
  rw [hwrite, hcommand, if_pos h.command_spec.2.2, hargs, hword, Devices.cut_of_named h.rxDev,
    h.rxDev]
  simp only
  rw [hfrom, addTo_eq h.address h.txBegin h.txEnd hi'' hrest', h.rxBegin.toUInt16_eq,
    h.rxEnd.toUInt16_eq]
  rfl

theorem AddWords.Means.ifout_eq (h : w.Means net tbl) (hbuf : Spells w.list (blank :: buf)) :
    wordOf (behindWord (behindWord (behindWord (behindWord buf)))) = w.ifout := by
  obtain ⟨-, -, hrest⟩ := h.words hbuf
  obtain ⟨-, hrest⟩ := wordOf_of_spells h.rxBegin.number.isWord hrest
  obtain ⟨-, hrest⟩ := wordOf_of_spells h.rxEnd.number.isWord hrest
  exact (wordOf_of_spells h.ifout hrest).1

theorem AddLine.command_mem (h : AddLine net buf tbl) :
    cut (wordOf buf) ∈ [ascii "ADD", ascii "add"] := by
  obtain ⟨w, hmeans, hbuf⟩ := h
  rw [(hmeans.words hbuf).1]
  exact hmeans.command_spec.2.2

theorem AddLine.named_ifin (h : AddLine net buf tbl) :
    net.named (wordOf (behindWord buf)) = some tbl.rxDev := by
  obtain ⟨w, hmeans, hbuf⟩ := h
  rw [(hmeans.words hbuf).2.1]
  exact hmeans.rxDev

theorem IsFlush.command_spec (h : IsFlush buf) :
    (wordOf buf).length < 8 ∧ cut (wordOf buf) ∈ [ascii "FLUSH", ascii "flush"] := by
  have hmem : wordOf buf ∈ [ascii "FLUSH", ascii "flush"] := by
    simpa [IsFlush] using h
  obtain ⟨-, -, hlength, hcut⟩ :=
    StaticNat.command_spec (wordOf buf) (mem_append_right [ascii "ADD", ascii "add"] hmem)
  exact ⟨hlength, hcut.symm ▸ hmem⟩

theorem not_add_of_flush {word : List UInt8} (h : word ∈ [ascii "FLUSH", ascii "flush"]) :
    word ∉ [ascii "ADD", ascii "add"] := by
  revert word
  decide

theorem exists_stale_ifname (net : Devices Dev) :
    ∃ ifname : List UInt8, ifname.length = 8 ∧ (net.getByName ifname = .error .outside ∨
      ∃ dev, net.getByName ifname = .ok (some dev) ∧ (net.name dev).length < 8) := by
  obtain ⟨dev, devs, hdevs⟩ := exists_cons_of_ne_nil net.ne_nil
  have hmem : dev ∈ net.devBase := hdevs ▸ mem_cons_self
  have hzero := net.zero_notMem_name dev hmem
  rcases lt_or_ge (net.name dev).length 8 with hshort | hlong
  · -- the name with zeros behind it
    refine ⟨net.name dev ++ 0 :: replicate (7 - (net.name dev).length) 0, ?_,
      .inr ⟨dev, ?_, hshort⟩⟩
    · rw [length_append, length_cons, length_replicate]
      omega
    · have hcut : cut (net.name dev ++ 0 :: replicate (7 - (net.name dev).length) 0) =
          net.name dev := by
        rw [cut_append_zero]
        exact cut_of_ne_zero fun c hc hc' => hzero (hc' ▸ hc)
      rw [net.getByName_eq (mem_append_right _ mem_cons_self), hcut, Devices.named, hdevs]
      simp
  · -- the first eight bytes of the name
    refine ⟨(net.name dev).take 8, ?_, .inl ?_⟩
    · rw [length_take]
      omega
    · have hzero' : 0 ∉ (net.name dev).take 8 := fun hc => hzero (mem_of_mem_take hc)
      have houtside := strncmpEq_outside ((net.name dev).drop 8) hzero'
        (show ((net.name dev).take 8).length < 16 by rw [length_take]; omega)
      rw [take_append_drop] at houtside
      rw [Devices.getByName, hdevs, searchDev, houtside]
      rfl

end AddLine

section Main

variable {Dev : Type} [DecidableEq Dev] {net : Devices Dev} {kmalloc : Bool} {buf : List UInt8}

theorem allOrNothing_of_plain (h : Plain net kmalloc buf) : AllOrNothing net kmalloc buf := by
  intro arrays s
  obtain ⟨hfits, hcases⟩ := h
  obtain ⟨i, hi, hdrop, hwrite⟩ := writeProc_of_fits net kmalloc arrays s hfits
  rcases hcases with hnone | hflush | ⟨hadd, hfits', hunknown⟩ |
    ⟨rfl, w, tbl, hmeans, hbuf, hifin, hifout⟩
  · -- no command
    have hadd : cut (wordOf buf) ∉ [ascii "ADD", ascii "add"] := fun hmem =>
      hnone (mem_append_left [ascii "FLUSH", ascii "flush"] hmem)
    have hflush : cut (wordOf buf) ∉ [ascii "FLUSH", ascii "flush"] := fun hmem =>
      hnone (mem_append_right [ascii "ADD", ascii "add"] hmem)
    rw [if_neg hadd, if_neg hflush] at hwrite
    exact ⟨s, hwrite, fun tbl htbl => absurd htbl.command_mem hadd, fun _ _ => rfl⟩
  · -- all rules are removed
    have hadd := not_add_of_flush hflush.command_spec.2
    rw [if_neg hadd, if_pos hflush.command_spec.2] at hwrite
    exact ⟨_, hwrite, fun tbl htbl => absurd htbl.command_mem hadd, fun _ hno => absurd hflush hno⟩
  · -- the first device is not known
    obtain ⟨i', -, -, hargs⟩ := addArgs_of_fits net kmalloc arrays s hi hdrop hfits'
    rw [if_pos hadd, hargs, hunknown] at hwrite
    refine ⟨s, hwrite, fun tbl htbl => ?_, fun _ _ => rfl⟩
    have hnamed := htbl.named_ifin
    rw [Devices.cut_of_named hnamed, hnamed] at hunknown
    cases hunknown
  · refine ⟨_, writeProc_addLine hmeans hbuf hifin hifout arrays s, ?_, ?_⟩
    · -- a buffer stands for one rule only, as the words are the same
      rintro tbl' ⟨w', hmeans', hbuf'⟩
      have hifin' : w'.ifin.length < 8 := by
        rwa [← (hmeans'.words hbuf').2.1, (hmeans.words hbuf).2.1]
      have hifout' : w'.ifout.length < 8 := by
        rwa [← hmeans'.ifout_eq hbuf', hmeans.ifout_eq hbuf]
      have hsame := (writeProc_addLine hmeans hbuf hifin hifout arrays s).symm.trans
        (writeProc_addLine hmeans' hbuf' hifin' hifout' arrays s)
      exact congrArg ProcState.table (Except.ok.inj hsame)
    · exact fun hno => absurd ⟨tbl, w, hmeans, hbuf⟩ hno

variable {arrays : Arrays} {s : ProcState Dev}

theorem AllOrNothing.addLine_of_ne {s' : ProcState Dev} (h : AllOrNothing net kmalloc buf)
    (hflush : ¬ IsFlush buf) (hwrite : writeProc net kmalloc arrays buf s = .ok s') (hne : s' ≠ s) :
    ∃ tbl, AddLine net buf tbl ∧ s'.table = s.table ++ [tbl] := by
  obtain ⟨_, hok, hadd, hkeep⟩ := h arrays s
  obtain rfl := Except.ok.inj (hok.symm.trans hwrite)
  by_contra hno
  refine hne (hkeep (fun hline => hno ?_) hflush)
  obtain ⟨tbl, htbl⟩ := hline
  exact ⟨tbl, htbl, hadd tbl htbl⟩

theorem AllOrNothing.isFlush (h : AllOrNothing net kmalloc buf)
    (hwrite : ∀ s, writeProc net kmalloc arrays buf s = .ok { s with table := [] }) :
    IsFlush buf := by
  obtain ⟨dev, devs, -⟩ := exists_cons_of_ne_nil net.ne_nil
  let s : ProcState Dev := ⟨[⟨dev, 0, 0, dev, 0, 0, 0⟩], fun _ => 0⟩
  by_contra hflush
  have hne : { s with table := [] } ≠ s := fun heq => nomatch congrArg ProcState.table heq
  obtain ⟨tbl, -, htable⟩ := h.addLine_of_ne hflush (hwrite s) hne
  cases htable

/-- The array `cmd` still holds a command. -/
def staleFlush : Arrays where
  cmd := ascii "FLUSH" ++ List.replicate 3 0
  ifname := List.replicate 8 0
  txIpStr := List.replicate 32 0
  onebyte := 0
  last := 0
  length_cmd := by decide
  length_ifname := by decide
  length_txIpStr := by decide

theorem AllOrNothing.fits (h : AllOrNothing net kmalloc buf) : (wordOf buf).length < 8 := by
  by_contra hlong
  have hne : buf ≠ [] := by
    rintro rfl
    exact hlong (by decide)
  have hput : putWord (wordOf buf) staleFlush.cmd = staleFlush.cmd :=
    putWord_of_not_fits (staleFlush.length_cmd.symm ▸ hlong)
  have hwrite : ∀ s, writeProc net kmalloc staleFlush buf s = .ok { s with table := [] } := by
    intro s
    obtain ⟨i, -, -, hwrite⟩ := writeProc_eq net kmalloc staleFlush s hne hput (by decide)
    rw [hwrite, if_neg (by decide), if_pos (by decide)]
  exact hlong (h.isFlush hwrite).command_spec.1

/-- Once a first device is found, the line has to add a rule for this device. -/
theorem AllOrNothing.addLine_of_addFrom {idx : ℕ} {ifname : List UInt8} {rxDev : Dev}
    (h : AllOrNothing net kmalloc buf) (hadd : cut (wordOf buf) ∈ [ascii "ADD", ascii "add"])
    (hwrite : writeProc net kmalloc arrays buf s =
      addFrom net kmalloc arrays buf idx ifname rxDev (s.hold rxDev)) :
    kmalloc = true ∧ ∃ tbl s', AddLine net buf tbl ∧ tbl.rxDev = rxDev ∧
      addFrom net kmalloc arrays buf idx ifname rxDev (s.hold rxDev) = .ok s' ∧
        s'.table = s.table ++ [tbl] := by
  obtain ⟨s', hok, -⟩ := h arrays s
  have hfrom := hwrite.symm.trans hok
  obtain ⟨hne, htable⟩ := addFrom_hold_ok hfrom
  have hflush : ¬ IsFlush buf := fun hflush => not_add_of_flush hflush.command_spec.2 hadd
  obtain ⟨tbl, hline, hadded⟩ := h.addLine_of_ne hflush hok hne
  obtain ⟨hkmalloc, hrx⟩ := rule_of_added hadded htable
  exact ⟨hkmalloc, tbl, s', hline, hrx, hfrom, hadded⟩

theorem AllOrNothing.fits_ifname (h : AllOrNothing net kmalloc buf)
    (hadd : cut (wordOf buf) ∈ [ascii "ADD", ascii "add"]) :
    (wordOf (behindWord buf)).length < 8 := by
  by_contra hlong
  obtain ⟨ifname, hlength, hstale⟩ := exists_stale_ifname net
  let arrays : Arrays := { staleFlush with ifname := ifname, length_ifname := hlength }
  let s : ProcState Dev := ⟨[], fun _ => 0⟩
  obtain ⟨i, hi, hdrop, hwrite⟩ := writeProc_of_fits net kmalloc arrays s h.fits
  obtain ⟨i', hstr, -⟩ := getStrAt_eq hi arrays.ifname
  have hput : putWord (wordOf (behindWord buf)) arrays.ifname = ifname :=
    putWord_of_not_fits (hlength.symm ▸ hlong)
  rw [if_pos hadd, addArgs, hstr, hdrop, hput, procFault_ok_bind] at hwrite
  simp only at hwrite
  rcases hstale with houtside | ⟨dev, hfound, hshort⟩
  · obtain ⟨s', hok, -⟩ := h arrays s
    rw [houtside] at hwrite
    cases hwrite.symm.trans hok
  · rw [hfound, procFault_ok_bind] at hwrite
    obtain ⟨-, tbl, -, hline, hrx, -⟩ := h.addLine_of_addFrom hadd hwrite
    -- the name of the device that was found is too short to be the word
    have hname := (Devices.name_of_named hline.named_ifin).1
    rw [hrx] at hname
    exact hlong (hname ▸ hshort)

/-- A second device that does not fit leaves the first one in the array. -/
theorem txDev_of_not_fits {w : AddWords} {tbl : NatTbl Dev} {idx : ℕ} {s' : ProcState Dev}
    {rxDev : Dev} (hmeans : w.Means net tbl) (hidx : idx ≤ buf.length)
    (h : Spells [w.rxBegin, w.rxEnd, w.ifout, w.address, w.txBegin, w.txEnd] (buf.drop idx))
    (hifin : w.ifin.length < 8) (hlong : ¬ w.ifout.length < 8)
    (hfrom : addFrom net kmalloc arrays buf idx (putWord w.ifin arrays.ifname) rxDev s = .ok s')
    (hadded : s'.table = s.table ++ [tbl]) : tbl.txDev = tbl.rxDev := by
  have hlength : (putWord w.ifin arrays.ifname).length = 8 :=
    (length_putWord _ _).trans arrays.length_ifname
  obtain ⟨hzero, hcut⟩ := putWord_of_fits (arrays.length_ifname.symm ▸ hifin)
  have hdev : net.getByName (putWord w.ifout (putWord w.ifin arrays.ifname)) =
      .ok (some tbl.rxDev) := by
    rw [putWord_of_not_fits (hlength.symm ▸ hlong), net.getByName_eq hzero, hcut,
      Devices.cut_of_named hmeans.rxDev, hmeans.rxDev]
  obtain ⟨idx', -, -, heq⟩ :=
    addFrom_eq hmeans.rxBegin.number hmeans.rxEnd.number hmeans.ifout hidx h hdev rxDev
  rw [heq] at hfrom
  exact (rule_of_added hadded (addTo_ok hfrom).2).2.2

theorem plain_of_allOrNothing (h : AllOrNothing net kmalloc buf) : Plain net kmalloc buf := by
  refine ⟨h.fits, ?_⟩
  let s : ProcState Dev := ⟨[], fun _ => 0⟩
  by_cases hadd : cut (wordOf buf) ∈ [ascii "ADD", ascii "add"]
  · have hfits := h.fits_ifname hadd
    obtain ⟨i, hi, hdrop, hwrite⟩ := writeProc_of_fits net kmalloc staleFlush s h.fits
    obtain ⟨i', hi', hdrop', hargs⟩ := addArgs_of_fits net kmalloc staleFlush s hi hdrop hfits
    rw [if_pos hadd, hargs] at hwrite
    cases hnamed : net.named (cut (wordOf (behindWord buf))) with
    | none => exact .inr (.inr (.inl ⟨hadd, hfits, rfl⟩))
    | some rxDev =>
      rw [hnamed] at hwrite
      obtain ⟨hkmalloc, tbl, s', ⟨w, hmeans, hbuf⟩, hrx, hfrom, hadded⟩ :=
        h.addLine_of_addFrom hadd hwrite
      obtain ⟨-, hifin, hrest⟩ := hmeans.words hbuf
      refine .inr (.inr (.inr ⟨hkmalloc, w, tbl, hmeans, hbuf, hifin ▸ hfits, ?_⟩))
      by_contra hlong
      have hadded' : s'.table = (s.hold rxDev).table ++ [tbl] := hadded
      rw [← hdrop'] at hrest
      rw [hifin] at hfrom hfits
      have htx := txDev_of_not_fits hmeans hi' hrest hfits hlong hfrom hadded'
      -- one device would have a short and a long name
      have hname := (Devices.name_of_named hmeans.txDev).1
      rw [htx, (Devices.name_of_named hmeans.rxDev).1] at hname
      exact hlong (hname ▸ hfits)
  · by_cases hflush : cut (wordOf buf) ∈ [ascii "FLUSH", ascii "flush"]
    · have hremove : ∀ s, writeProc net kmalloc staleFlush buf s = .ok { s with table := [] } := by
        intro s
        obtain ⟨i, -, -, hwrite⟩ := writeProc_of_fits net kmalloc staleFlush s h.fits
        rw [hwrite, if_neg hadd, if_pos hflush]
      exact .inr (.inl (h.isFlush hremove))
    · refine .inl fun hmem => ?_
      have hsplit : cut (wordOf buf) ∈
          [ascii "ADD", ascii "add"] ++ [ascii "FLUSH", ascii "flush"] := hmem
      rcases mem_append.mp hsplit with hmem | hmem
      · exact hadd hmem
      · exact hflush hmem

/-- A write adds the rule of a line or changes nothing exactly if its words fit their arrays and it
is not given up behind the first device. -/
theorem allOrNothing_iff (net : Devices Dev) (kmalloc : Bool) (buf : List UInt8) :
    AllOrNothing net kmalloc buf ↔ Plain net kmalloc buf :=
  ⟨plain_of_allOrNothing, allOrNothing_of_plain⟩

def loopback : Devices Unit where
  devBase := [()]
  name _ := ascii "lo"
  ne_nil := by decide
  length_name := by decide
  zero_notMem_name := by decide

/-- An address without dots is a null pointer, and a second device that is not known leaves the
reference to the first one behind. -/
theorem not_allOrNothing :
    ¬ AllOrNothing loopback true (ascii "ADD lo 6881 6889 lo server 7001 7009\n") ∧
      ¬ AllOrNothing loopback true (ascii "ADD lo 6881 6889 br0 192.168.0.100 7001 7009\n") := by
  constructor
  · intro h
    obtain ⟨s', hok, -⟩ := h staleFlush ⟨[], fun _ => 0⟩
    have hnull : (writeProc loopback true staleFlush
        (ascii "ADD lo 6881 6889 lo server 7001 7009\n") ⟨[], fun _ => 0⟩).toBool = false := by
      decide +kernel
    rw [hok] at hnull
    cases hnull
  · intro h
    obtain ⟨s', hok, -⟩ := h staleFlush ⟨[], fun _ => 0⟩
    have hleft : (writeProc loopback true staleFlush
        (ascii "ADD lo 6881 6889 br0 192.168.0.100 7001 7009\n") ⟨[], fun _ => 0⟩).map
          (fun s => (s.table.length, s.refcnt ())) = .ok (0, 1) := by
      decide +kernel
    rw [hok] at hleft
    obtain ⟨htable, hrefcnt⟩ := Prod.mk.inj (Except.ok.inj hleft)
    have hne : s' ≠ ⟨[], fun _ => 0⟩ := by
      rintro rfl
      cases hrefcnt
    obtain ⟨tbl, -, hadded⟩ := h.addLine_of_ne (by decide +kernel) hok hne
    rw [hadded] at htable
    cases htable

/-- A write with the arrays as they are on the stack. -/
structure ArrayWrite where
  buf : List UInt8
  arrays : Arrays
  kmalloc : Bool

def ArrayWrite.plain (w : ArrayWrite) : ProcWrite := ⟨w.buf, w.arrays.stack, w.kmalloc⟩

def writeProcs (net : Devices Dev) : List ArrayWrite → ProcState Dev →
    Except ProcFault (ProcState Dev)
  | [], s => .ok s
  | w :: ws, s => do
    let s ← writeProc net w.kmalloc w.arrays w.buf s
    writeProcs net ws s

/-- Writes that all return build the rules that they build without the arrays. -/
theorem writeProcs_table (net : Devices Dev) (ws : List ArrayWrite) (refcnt : Dev → ℕ)
    (s' : ProcState Dev) (h : writeProcs net ws ⟨[], refcnt⟩ = .ok s') :
    s'.table = (natRules net.named (ws.map ArrayWrite.plain)).table := by
  suffices hrun : ∀ (s : ProcState Dev) (lock : ℕ), writeProcs net ws s = .ok s' → s'.table =
      (Machine.run (staticNatWriteProc net.named) ⟨s.table, lock⟩
        (ws.map ArrayWrite.plain)).table from hrun _ 0 h
  clear h
  induction ws with
  | nil =>
    intro s lock h
    rw [← Except.ok.inj h]
    rfl
  | cons w ws ih =>
    intro s lock h
    obtain ⟨t, ht, h⟩ := exists_of_bind_eq_ok h
    have hstep := writeProc_table lock ht
    have hrest := ih t (staticNatWriteProc net.named ⟨s.table, lock⟩ w.plain).lock h
    rw [hstep] at hrest
    exact hrest

def addLine : ArrayWrite :=
  ⟨ascii "ADD lo 6881 6889 lo 192.168.0.100 7001 7009\n", staleFlush, true⟩

/-- One line that adds a rule. -/
theorem writeProcs_table_addLine : ∃ s' : ProcState Unit,
    writeProcs loopback [addLine] ⟨[], fun _ => 0⟩ = .ok s' ∧
      s'.table = (natRules loopback.named [addLine.plain]).table := by
  have hok : (writeProcs loopback [addLine] ⟨[], fun _ => 0⟩).toBool := by decide +kernel
  cases h : writeProcs loopback [addLine] ⟨[], fun _ => 0⟩ with
  | error fault => simp [h, Except.toBool] at hok
  | ok s' => exact ⟨s', rfl, writeProcs_table loopback _ _ s' h⟩

end Main

end Wbr1310.StaticNat
