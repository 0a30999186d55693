import Wbr1310.Lib.Text

/-!
# Addresses and netmasks on the web pages

The validators of `__js_ip.php` and `__js_comm.php`. `is_valid_ip` writes the numbers of the four
parts down again and compares, `is_valid_mask` does not: it takes one part of a netmask as a number
and the others as text, and looks at four parts even if there are more.
-/

namespace Wbr1310.Html

open Lib Text List

def isDigit (str : Text) : Bool :=
  if str.length = 0 then false else str.all Char.isDigit

/-- `parseInt` of decimal digits. The browser rounds large numbers, which stay above all bounds. -/
def parseInt (str : Text) : ℕ := leadingDigits str

def decstr2int (str : Text) : ℤ := if isDigit str then parseInt str else -1

def isInRange (strVal : Text) (min max : ℤ) : Bool :=
  let d := decstr2int strVal
  if d > max ∨ d < min then false else true

/-- `get_ip`: the string at index 0, its parts from index 1 on, empty if there are no more. -/
def getIp (strIp : Text) : ℕ → Text
  | 0 => strIp
  | i + 1 => (strIp.splitOn '.').getD i []

def joinDots (parts : List Text) : Text := ['.'].intercalate parts

def isValidIp (ipaddr : Text) (optional : ℤ) : Bool :=
  let ip := getIp ipaddr
  if optional ≠ 0 ∧ ip 1 = [] ∧ ip 2 = [] ∧ ip 3 = [] ∧ ip 4 = [] then true
  else if isInRange (ip 1) 1 223 = false then false
  else if decstr2int (ip 1) = 127 then false
  else if isInRange (ip 2) 0 255 = false then false
  else if isInRange (ip 3) 0 255 = false then false
  else if isInRange (ip 4) 1 254 = false then false
  else if joinDots [decimal (parseInt (ip 1)), decimal (parseInt (ip 2)),
      decimal (parseInt (ip 3)), decimal (parseInt (ip 4))] ≠ ipaddr then false
  else true

/-- `__is_mask`. -/
def isMask (str : Text) : Bool :=
  let d := decstr2int str
  d = 0 || d = 128 || d = 192 || d = 224 || d = 240 || d = 248 || d = 252 || d = 254 || d = 255

def isValidMask (mask : Text) : Bool :=
  let ip := getIp mask
  if isMask (ip 1) = false then false
  else if ip 1 ≠ "255".toList then ip 2 = "0".toList && ip 3 = "0".toList && ip 4 = "0".toList
  else if isMask (ip 2) = false then false
  else if ip 2 ≠ "255".toList then ip 3 = "0".toList && ip 4 = "0".toList
  else if isMask (ip 3) = false then false
  else if ip 3 ≠ "255".toList then ip 4 = "0".toList
  else isMask (ip 4)

def dotted (a b c d : ℕ) : Text := joinDots [decimal a, decimal b, decimal c, decimal d]

def IsHost (s : Text) : Prop :=
  ∃ a b c d, s = dotted a b c d ∧ (1 ≤ a ∧ a ≤ 223 ∧ a ≠ 127) ∧ b ≤ 255 ∧ c ≤ 255 ∧ 1 ≤ d ∧ d ≤ 254

/-- `n` ones and then zeros. -/
def IsNetmask (s : Text) : Prop :=
  ∃ a b c d, s = dotted a b c d ∧ (a ≤ 255 ∧ b ≤ 255 ∧ c ≤ 255 ∧ d ≤ 255) ∧
    ∃ n ≤ 32, ((a * 256 + b) * 256 + c) * 256 + d = 2 ^ 32 - 2 ^ (32 - n)

/-- Both validators accept just what they should. -/
structure Exact (s : Text) : Prop where
  ip : isValidIp s 0 = true ↔ IsHost s
  mask : isValidMask s = true ↔ IsNetmask s

/-- The first four parts are `k` times `255`, the given one, which is the number of a mask, and
zeros. -/
def MaskAt (s : Text) (k : ℕ) (part : Text) : Prop :=
  isMask part = true ∧ [getIp s 1, getIp s 2, getIp s 3, getIp s 4] =
    List.replicate k "255".toList ++ part :: List.replicate (3 - k) "0".toList

instance (s : Text) (k : ℕ) (part : Text) : Decidable (MaskAt s k part) :=
  inferInstanceAs (Decidable (_ ∧ _))

/-- If the first four parts are a mask, there are no more of them, and the one that is taken as a
number has no leading zeros. -/
def Tight (s : Text) : Prop :=
  ∀ k ≤ 3, ∀ part, MaskAt s k part →
    (s.splitOn '.').length = 4 ∧ part = decimal (parseInt part)

theorem parseInt_decimal (n : ℕ) : parseInt (decimal n) = n := leadingDigits_decimal n

theorem isDigit_decimal (n : ℕ) : isDigit (decimal n) = true := by
  have hne : (decimal n).length ≠ 0 := fun h => decimal_ne_nil n (length_eq_zero_iff.mp h)
  rw [isDigit, if_neg hne]
  exact all_eq_true.mpr fun c hc => isDigit_of_mem_decimal hc

theorem decstr2int_decimal (n : ℕ) : decstr2int (decimal n) = n := by
  rw [decstr2int, if_pos (isDigit_decimal n), parseInt_decimal]

theorem isInRange_iff {str : Text} {min max : ℕ} :
    isInRange str min max = true ↔ isDigit str = true ∧ min ≤ parseInt str ∧
      parseInt str ≤ max := by
  rw [isInRange, decstr2int]
  by_cases hdigit : isDigit str = true
  · simp [hdigit]
    omega
  · simp [hdigit]
    omega

theorem isInRange_decimal {min max n : ℕ} :
    isInRange (decimal n) min max = true ↔ min ≤ n ∧ n ≤ max := by
  rw [isInRange_iff, parseInt_decimal, and_iff_right (isDigit_decimal n)]

variable {s : Text}

theorem dot_notMem (h : isDigit s = true) : '.' ∉ s := by
  intro hmem
  rw [isDigit] at h
  split_ifs at h
  exact absurd (all_eq_true.mp h '.' hmem) (by decide)

theorem joinDots_splitOn (s : Text) : joinDots (s.splitOn '.') = s := List.intercalate_splitOn '.'

theorem splitOn_joinDots (a b c : ℕ) (hs : isDigit s = true) :
    (joinDots [decimal a, decimal b, decimal c, s]).splitOn '.' =
      [decimal a, decimal b, decimal c, s] := by
  apply splitOn_intercalate
  · simp [dot_notMem, isDigit_decimal, hs]
  · exact cons_ne_nil _ _

theorem getIp_joinDots (a b c : ℕ) (hs : isDigit s = true) :
    let ip := getIp (joinDots [decimal a, decimal b, decimal c, s])
    ip 1 = decimal a ∧ ip 2 = decimal b ∧ ip 3 = decimal c ∧ ip 4 = s := by
  simp only [getIp, splitOn_joinDots a b c hs]
  exact ⟨rfl, rfl, rfl, rfl⟩

theorem getIp_dotted (a b c d : ℕ) :
    getIp (dotted a b c d) 1 = decimal a ∧ getIp (dotted a b c d) 2 = decimal b ∧
      getIp (dotted a b c d) 3 = decimal c ∧ getIp (dotted a b c d) 4 = decimal d :=
  getIp_joinDots a b c (isDigit_decimal d)

theorem isValidIp_iff (s : Text) : isValidIp s 0 = true ↔ IsHost s := by
  constructor
  · intro h
    simp only [isValidIp, ne_eq, not_true_eq_false, false_and, if_false, ite_not] at h
    split_ifs at h with h1 h127 h2 h3 h4 hsame
    rw [Bool.not_eq_false] at h1 h2 h3 h4
    obtain ⟨hdigit, h1⟩ := isInRange_iff.mp h1
    rw [decstr2int, if_pos hdigit] at h127
    refine ⟨_, _, _, _, hsame.symm, ⟨h1.1, h1.2, by omega⟩, (isInRange_iff.mp h2).2.2,
      (isInRange_iff.mp h3).2.2, (isInRange_iff.mp h4).2⟩
  · rintro ⟨a, b, c, d, rfl, ⟨ha, ha', h127⟩, hb, hc, hd, hd'⟩
    obtain ⟨h1, h2, h3, h4⟩ := getIp_dotted a b c d
    have h1' := isInRange_decimal.mpr ⟨ha, ha'⟩
    have h2' := isInRange_decimal.mpr ⟨Nat.zero_le b, hb⟩
    have h3' := isInRange_decimal.mpr ⟨Nat.zero_le c, hc⟩
    have h4' := isInRange_decimal.mpr ⟨hd, hd'⟩
    have hne : ¬ ((a : ℤ) = 127) := by omega
    simp only [isValidIp, h1, h2, h3, h4, parseInt_decimal, decstr2int_decimal]
    simp_all [dotted]

theorem isMask_iff {str : Text} :
    isMask str = true ↔ isDigit str = true ∧ ∃ m ≤ 8, parseInt str = 256 - 2 ^ (8 - m) := by
  have hpowers : ∀ n : ℕ, (n = 0 ∨ n = 128 ∨ n = 192 ∨ n = 224 ∨ n = 240 ∨ n = 248 ∨ n = 252 ∨
      n = 254 ∨ n = 255) ↔ ∃ m ≤ 8, n = 256 - 2 ^ (8 - m) := by
    intro n
    constructor
    · rintro (rfl | rfl | rfl | rfl | rfl | rfl | rfl | rfl | rfl) <;> decide
    · rintro ⟨m, hm, rfl⟩
      interval_cases m <;> decide
  rw [← hpowers, isMask, decstr2int]
  by_cases hdigit : isDigit str = true
  · simp [hdigit, or_assoc]
    omega
  · simp [hdigit]

theorem isValidMask_iff (s : Text) : isValidMask s = true ↔ ∃ k ≤ 3, ∃ part, MaskAt s k part := by
  have hfull : isMask "255".toList = true := by decide
  have hzero : isMask "0".toList = true := by decide
  constructor
  · intro h
    simp only [isValidMask, ite_not] at h
    split_ifs at h with h1 h1' h2 h2' h3 h3'
    · exact ⟨3, by omega, getIp s 4, h, by simp [h1', h2', h3']⟩
    · exact ⟨2, by omega, getIp s 3, by simpa using h3, by simpa [h1', h2'] using h⟩
    · exact ⟨1, by omega, getIp s 2, by simpa using h2, by simpa [h1'] using h⟩
    · exact ⟨0, by omega, getIp s 1, by simpa using h1, by simpa [and_assoc] using h⟩
  · rintro ⟨k, hk, part, hpart, hparts⟩
    simp only [isValidMask]
    interval_cases k <;> simp only [Nat.sub_self, replicate, cons_append, nil_append,
      cons.injEq, and_true] at hparts <;> obtain ⟨h1, h2, h3, h4⟩ := hparts <;>
      rw [h1, h2, h3, h4] <;> simp_all

theorem octets_iff {a b c d : ℕ} :
    ((a ≤ 255 ∧ b ≤ 255 ∧ c ≤ 255 ∧ d ≤ 255) ∧
      ∃ n ≤ 32, ((a * 256 + b) * 256 + c) * 256 + d = 2 ^ 32 - 2 ^ (32 - n)) ↔
    ∃ k ≤ 3, ∃ m ≤ 8, [a, b, c, d] =
      List.replicate k 255 ++ (256 - 2 ^ (8 - m)) :: List.replicate (3 - k) 0 := by
  constructor
  · rintro ⟨hle, n, hn, hvalue⟩
    refine ⟨min (n / 8) 3, by omega, n - 8 * min (n / 8) 3, by omega, ?_⟩
    interval_cases n <;> simp at hvalue ⊢ <;> omega
  · rintro ⟨k, hk, m, hm, hoctets⟩
    have hsmall : 256 - 2 ^ (8 - m) ≤ 255 := by
      have := Nat.two_pow_pos (8 - m)
      omega
    refine ⟨?_, 8 * k + m, by omega, ?_⟩
    · interval_cases k <;> simp at hoctets <;> omega
    · interval_cases k <;> simp at hoctets <;> obtain ⟨rfl, rfl, rfl, rfl⟩ := hoctets <;>
        interval_cases m <;> decide

theorem maskAt_of_isNetmask (h : IsNetmask s) : ∃ k ≤ 3, ∃ part, MaskAt s k part := by
  obtain ⟨a, b, c, d, rfl, hoctets⟩ := h
  obtain ⟨k, hk, m, hm, hlist⟩ := octets_iff.mp hoctets
  obtain ⟨h1, h2, h3, h4⟩ := getIp_dotted a b c d
  refine ⟨k, hk, decimal (256 - 2 ^ (8 - m)), ?_, ?_⟩
  · exact isMask_iff.mpr ⟨isDigit_decimal _, m, hm, parseInt_decimal _⟩
  · rw [h1, h2, h3, h4]
    have hmap := congrArg (map decimal) hlist
    simp only [map_append, map_cons, map_nil, map_replicate] at hmap
    exact hmap

theorem MaskAt.isNetmask {part : Text} {k : ℕ} (h : MaskAt s k part) (hk : k ≤ 3)
    (hlength : (s.splitOn '.').length = 4) (hpart : part = decimal (parseInt part)) :
    IsNetmask s := by
  obtain ⟨m, hm, hvalue⟩ := (isMask_iff.mp h.1).2
  have hsplit : s.splitOn '.' = [getIp s 1, getIp s 2, getIp s 3, getIp s 4] := by
    obtain ⟨a, b, c, d, hlist⟩ := length_eq_four.mp hlength
    simp [getIp, hlist]
  have hparts : s.splitOn '.' =
      (replicate k 255 ++ parseInt part :: replicate (3 - k) 0).map decimal := by
    rw [map_append, map_cons, map_replicate, map_replicate, ← hpart]
    exact hsplit.trans h.2
  obtain ⟨a, b, c, d, hlist⟩ := length_eq_four.mp
    ((length_map _).symm.trans ((congrArg length hparts).symm.trans hlength))
  refine ⟨a, b, c, d, ?_, octets_iff.mpr ⟨k, hk, m, hm, ?_⟩⟩
  · rw [← joinDots_splitOn s, hparts, hlist]
    rfl
  · rw [← hlist, hvalue]

theorem tight_of_isNetmask (h : IsNetmask s) : Tight s := by
  obtain ⟨a, b, c, d, rfl, -⟩ := h
  have hsplit : (dotted a b c d).splitOn '.' = [a, b, c, d].map decimal :=
    splitOn_joinDots a b c (isDigit_decimal d)
  obtain ⟨h1, h2, h3, h4⟩ := getIp_dotted a b c d
  rintro k - part ⟨-, hparts⟩
  have hmem : part ∈ [a, b, c, d].map decimal := by
    rw [h1, h2, h3, h4] at hparts
    rw [map_cons, map_cons, map_cons, map_cons, map_nil, hparts]
    exact mem_append_right _ mem_cons_self
  obtain ⟨n, -, rfl⟩ := mem_map.mp hmem
  exact ⟨by rw [hsplit]; rfl, by rw [parseInt_decimal]⟩

/-- The validators are exact for the strings that do not write a mask in another way. -/
theorem exact_iff (s : Text) : Exact s ↔ Tight s := by
  constructor
  · intro h k hk part hpart
    have hmask := h.mask.mp ((isValidMask_iff s).mpr ⟨k, hk, part, hpart⟩)
    exact tight_of_isNetmask hmask k hk part hpart
  · intro h
    refine ⟨isValidIp_iff s, ?_⟩
    rw [isValidMask_iff]
    constructor
    · rintro ⟨k, hk, part, hpart⟩
      obtain ⟨hlength, hdecimal⟩ := h k hk part hpart
      exact hpart.isNetmask hk hlength hdecimal
    · exact maskAt_of_isNetmask

/-- A leading zero and a fifth part are accepted. -/
theorem not_exact_masks :
    (¬ Exact "255.255.255.00".toList ∧ isValidMask "255.255.255.00".toList = true) ∧
      ¬ Exact "255.255.255.0.5".toList ∧ isValidMask "255.255.255.0.5".toList = true := by
  have hzeros : isValidMask "255.255.255.00".toList = true := by decide +kernel
  have hparts : isValidMask "255.255.255.0.5".toList = true := by decide +kernel
  refine ⟨⟨fun h => ?_, hzeros⟩, fun h => ?_, hparts⟩
  · have htight := tight_of_isNetmask (h.mask.mp hzeros) 3 le_rfl "00".toList (by decide +kernel)
    exact absurd htight.2 (by decide +kernel)
  · have htight := tight_of_isNetmask (h.mask.mp hparts) 3 le_rfl "0".toList (by decide +kernel)
    exact absurd htight.1 (by decide +kernel)

end Wbr1310.Html
