import Mathlib

/-!
# Text

Strings of the C library as lists of characters: comparisons that ignore the case, endings, the
search for the last occurrence of a character, and decimal numbers.
-/

namespace Wbr1310.Lib

/-- A string without its end mark. -/
abbrev Text := List Char

namespace Text

/-- `tolower` on every character. -/
def lower (s : Text) : Text := s.map Char.toLower

/-- `strcasecmp` finds no difference. -/
def EqIgnoreCase (s t : Text) : Prop := lower s = lower t

instance (s t : Text) : Decidable (EqIgnoreCase s t) := inferInstanceAs (Decidable (_ = _))

/-- The string ends in another one, up to case. -/
def EndsIn (s e : Text) : Prop := lower e <:+ lower s

instance (s e : Text) : Decidable (EndsIn s e) := inferInstanceAs (Decidable (_ <:+ _))

/-- What follows the last occurrence of a character: `strrchr`, one further. -/
def afterLast (c : Char) : Text → Option Text
  | [] => none
  | d :: s => match afterLast c s with
    | some t => some t
    | none => if d = c then some s else none

@[simp] theorem length_lower (s : Text) : (lower s).length = s.length := List.length_map _

theorem lower_append (s t : Text) : lower (s ++ t) = lower s ++ lower t := List.map_append

theorem endsIn_iff_drop {s e : Text} :
    EndsIn s e ↔ EqIgnoreCase (s.drop (s.length - e.length)) e := by
  have hdrop : lower (s.drop (s.length - e.length)) = (lower s).drop (s.length - e.length) :=
    List.map_drop
  rw [EndsIn, EqIgnoreCase, List.suffix_iff_eq_drop, length_lower, length_lower, hdrop]
  exact eq_comm

theorem EndsIn.length_le {s e : Text} (h : EndsIn s e) : e.length ≤ s.length := by
  simpa using List.IsSuffix.length_le h

theorem endsIn_append {s t e : Text} (h : e.length ≤ t.length) :
    EndsIn (s ++ t) e ↔ EndsIn t e := by
  constructor
  · intro hst
    rw [EndsIn, lower_append] at hst
    exact List.suffix_of_suffix_length_le hst (List.suffix_append _ _) (by simpa using h)
  · intro ht
    rw [EndsIn, lower_append]
    exact List.IsSuffix.trans ht (List.suffix_append _ _)

theorem EndsIn.of_length_le {s e f : Text} (he : EndsIn s e) (hf : EndsIn s f)
    (h : e.length ≤ f.length) : EndsIn f e :=
  List.suffix_of_suffix_length_le he hf (by simpa using h)

theorem EndsIn.getLast? {s e : Text} (h : EndsIn s e) (hne : e ≠ []) :
    s.getLast?.map Char.toLower = e.getLast?.map Char.toLower := by
  obtain ⟨t, ht⟩ := h
  have hlast : (lower s).getLast? = (lower e).getLast? := by
    rw [← ht]
    exact List.getLast?_append_of_ne_nil t (by simpa [lower] using hne)
  simpa only [lower, List.getLast?_map] using hlast

/-- `%d`, for a number that is not negative. -/
def decimal (n : ℕ) : Text := Nat.toDigits 10 n

def isSpace (c : Char) : Bool := c = ' ' || ('\t' ≤ c && c ≤ '\r')

/-- The digits at the beginning, as a number. -/
def leadingDigits (s : Text) : ℕ := Nat.ofDigitChars 10 (s.takeWhile Char.isDigit) 0

def atoi (s : Text) : ℤ :=
  match s.dropWhile isSpace with
  | '-' :: t => -leadingDigits t
  | '+' :: t => leadingDigits t
  | t => leadingDigits t

theorem isDigit_of_mem_decimal {n : ℕ} {c : Char} (h : c ∈ decimal n) : c.isDigit = true :=
  Nat.isDigit_of_mem_toDigits (by decide) le_rfl h

theorem decimal_ne_nil (n : ℕ) : decimal n ≠ [] := Nat.toDigits_ne_nil

theorem leadingDigits_decimal (n : ℕ) : leadingDigits (decimal n) = n := by
  have hall : (decimal n).takeWhile Char.isDigit = decimal n :=
    List.takeWhile_eq_self_iff.mpr fun c hc => isDigit_of_mem_decimal hc
  rw [leadingDigits, hall]
  exact Nat.ofDigitChars_ten_toDigits

theorem length_decimal_le_iff {n k : ℕ} (hk : 0 < k) : (decimal n).length ≤ k ↔ n < 10 ^ k :=
  Nat.length_toDigits_le_iff (by decide) hk

theorem length_decimal_mono {m n : ℕ} (h : m ≤ n) : (decimal m).length ≤ (decimal n).length := by
  have hpos : 0 < (decimal n).length := List.length_pos_iff.mpr (decimal_ne_nil n)
  exact (length_decimal_le_iff hpos).mpr (h.trans_lt ((length_decimal_le_iff hpos).mp le_rfl))

end Text

end Wbr1310.Lib
