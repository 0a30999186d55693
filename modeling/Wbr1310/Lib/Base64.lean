import Mathlib

/-!
# Base64

The encoding of bytes in the 64 digits `A` to `Z`, `a` to `z`, `0` to `9`, `+` and `/`, filled
up with `=`, and the arithmetic of its decoders: digits that are shifted into a word, and
bytes that are shifted out of it.
-/

namespace Wbr1310.Lib.Base64

open Nat

/-- The digit of a number below 64. -/
def digit (n : ℕ) : UInt8 :=
  if n < 26 then UInt8.ofNat (65 + n)
  else if n < 52 then UInt8.ofNat (97 + (n - 26))
  else if n < 62 then UInt8.ofNat (48 + (n - 52))
  else if n = 62 then 43
  else 47

/-- `=`. -/
def pad : UInt8 := 61

def sextet0 (a : UInt8) : ℕ := a.toNat / 4

def sextet1 (a b : UInt8) : ℕ := a.toNat % 4 * 16 + b.toNat / 16

def sextet2 (b c : UInt8) : ℕ := b.toNat % 16 * 4 + c.toNat / 64

def sextet3 (c : UInt8) : ℕ := c.toNat % 64

/-- The encoding, by groups of three bytes. -/
def encode : List UInt8 → List UInt8
  | [] => []
  | [a] => [digit (sextet0 a), digit (sextet1 a 0), pad, pad]
  | [a, b] => [digit (sextet0 a), digit (sextet1 a b), digit (sextet2 b 0), pad]
  | a :: b :: c :: bs =>
    digit (sextet0 a) :: digit (sextet1 a b) :: digit (sextet2 b c) :: digit (sextet3 c) ::
      encode bs

variable (a b c : UInt8)

theorem sextet0_lt : sextet0 a < 64 := by
  have := a.toNat_lt
  rw [sextet0]
  omega

theorem sextet1_lt : sextet1 a b < 64 := by
  have := b.toNat_lt
  rw [sextet1]
  omega

theorem sextet2_lt : sextet2 b c < 64 := by
  have := c.toNat_lt
  rw [sextet2]
  omega

theorem sextet3_lt : sextet3 c < 64 := by
  rw [sextet3]
  omega

theorem length_encode (bs : List UInt8) : (encode bs).length = 4 * ((bs.length + 2) / 3) := by
  induction bs using encode.induct with
  | case1 => rfl
  | case2 a => simp [encode]
  | case3 a b => simp [encode]
  | case4 a b c bs ih =>
    simp only [encode, List.length_cons, ih]
    omega

theorem digit_ne_pad {n : ℕ} (h : n < 64) : digit n ≠ pad := by
  have hall : ∀ n : Fin 64, digit n ≠ pad := by decide
  exact hall ⟨n, h⟩

theorem exists_digit_encode {bs : List UInt8} (h : bs ≠ []) :
    ∃ n < 64, ∃ rest, encode bs = digit n :: rest := by
  cases bs using encode.fun_cases with
  | case1 => exact absurd rfl h
  | case2 a => exact ⟨_, sextet0_lt a, _, encode.eq_2 a⟩
  | case3 a b => exact ⟨_, sextet0_lt a, _, encode.eq_3 a b⟩
  | case4 a b c bs => exact ⟨_, sextet0_lt a, _, encode.eq_4 a b c bs⟩

theorem lt_of_digit_ne {n : ℕ} (h : n < 64) (hplus : digit n ≠ 43) (hslash : digit n ≠ 47) :
    n < 62 := by
  by_contra hlast
  obtain rfl | rfl : n = 62 ∨ n = 63 := by omega
  · exact hplus rfl
  · exact hslash rfl

theorem byte0_eq : sextet0 a <<< 2 ||| sextet1 a b >>> 4 = a.toNat := by
  have hb := b.toNat_lt
  have hsmall : sextet1 a b >>> 4 < 2 ^ 2 := by
    rw [shiftRight_eq_div_pow, sextet1]
    omega
  rw [← shiftLeft_add_eq_or_of_lt hsmall, shiftLeft_eq, shiftRight_eq_div_pow, sextet0,
    sextet1]
  omega

theorem byte1_eq :
    (sextet1 a b &&& 15) <<< 4 ||| sextet2 b c >>> 2 = b.toNat := by
  have hb := b.toNat_lt
  have hc := c.toNat_lt
  have hsmall : sextet2 b c >>> 2 < 2 ^ 4 := by
    rw [shiftRight_eq_div_pow, sextet2]
    omega
  rw [← shiftLeft_add_eq_or_of_lt hsmall, shiftLeft_eq, shiftRight_eq_div_pow,
    show (15 : ℕ) = 2 ^ 4 - 1 from rfl, and_two_pow_sub_one_eq_mod, sextet1, sextet2]
  omega

theorem byte2_eq : (sextet2 b c &&& 3) <<< 6 ||| sextet3 c = c.toNat := by
  have hc := c.toNat_lt
  rw [← shiftLeft_add_eq_or_of_lt (sextet3_lt c), shiftLeft_eq,
    show (3 : ℕ) = 2 ^ 2 - 1 from rfl, and_two_pow_sub_one_eq_mod, sextet2, sextet3]
  omega

/-- The number of digits behind a number. -/
def value (x : ℕ) (ds : List ℕ) : ℕ := ds.foldl (fun x d => x * 64 + d) x

theorem shift_or_digit (x n : ℕ) {d : ℕ} (hd : d < 64) :
    x <<< (6 * (n + 1)) ||| d <<< (6 * n) = (x * 64 + d) <<< (6 * n) := by
  have hsplit : x <<< (6 * (n + 1)) = (x <<< 6) <<< (6 * n) := by
    rw [← shiftLeft_add]
    congr 1
    omega
  rw [hsplit, ← shiftLeft_or_distrib, ← shiftLeft_add_eq_or_of_lt hd, shiftLeft_eq x]

/-- The word of three bytes. -/
def word (a b c : UInt8) : ℕ := a.toNat * 65536 + b.toNat * 256 + c.toNat

theorem value_three :
    value 0 [sextet0 a, sextet1 a b, sextet2 b c, sextet3 c] <<< (6 * 0) = word a b c := by
  have hb := b.toNat_lt
  have hc := c.toNat_lt
  simp only [value, List.foldl_cons, List.foldl_nil, shiftLeft_eq, sextet0, sextet1, sextet2,
    sextet3, word]
  omega

theorem value_two :
    value 0 [sextet0 a, sextet1 a b, sextet2 b 0] <<< (6 * 1) = word a b 0 := by
  have hb := b.toNat_lt
  simp only [value, List.foldl_cons, List.foldl_nil, shiftLeft_eq, sextet0, sextet1, sextet2,
    word, UInt8.toNat_zero]
  omega

theorem value_one : value 0 [sextet0 a, sextet1 a 0] <<< (6 * 2) = word a 0 0 := by
  simp only [value, List.foldl_cons, List.foldl_nil, shiftLeft_eq, sextet0, sextet1, word,
    UInt8.toNat_zero]
  omega

theorem word_bytes :
    word a b c >>> 16 &&& 255 = a.toNat ∧ word a b c >>> 8 &&& 255 = b.toNat ∧
      word a b c >>> 0 &&& 255 = c.toNat := by
  have ha := a.toNat_lt
  have hb := b.toNat_lt
  have hc := c.toNat_lt
  simp only [show (255 : ℕ) = 2 ^ 8 - 1 from rfl, and_two_pow_sub_one_eq_mod,
    shiftRight_eq_div_pow, word]
  omega

end Wbr1310.Lib.Base64
