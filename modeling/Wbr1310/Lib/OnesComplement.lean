import Mathlib

/-!
# Arithmetic with the end-around carry

A sum of half words in which the carry out of 16 bits is added again is the sum modulo `0xffff`.
Zero has two representations, and which of them a sum gives depends on one thing only: it is the one
of all bits clear if every summand is that one. The same holds for 32 bits, since the two halves of
a word can be added first.
-/

namespace Wbr1310.Lib.OnesComplement

open List

/-- Add, and add the carry again. -/
def addHalf (a b : UInt16) : UInt16 :=
  let s := a + b
  s + if s < b then 1 else 0

/-- The sum of half words. -/
def sum (halves : List UInt16) : UInt16 := halves.foldl addHalf 0

/-- The summands as numbers. -/
def value (halves : List UInt16) : ℕ := (halves.map UInt16.toNat).sum

@[simp]
theorem value_nil : value [] = 0 := rfl

@[simp]
theorem value_cons (a : UInt16) (halves : List UInt16) :
    value (a :: halves) = a.toNat + value halves := List.sum_cons

@[simp]
theorem value_append (l r : List UInt16) : value (l ++ r) = value l + value r := by
  simp only [value, map_append, sum_append]

theorem addHalf_modEq (a b : UInt16) : (addHalf a b).toNat ≡ a.toNat + b.toNat [MOD 0xffff] := by
  have ha := a.toNat_lt
  have hb := b.toNat_lt
  simp only [addHalf, Nat.ModEq]
  split <;> simp_all only [UInt16.lt_iff_toNat_lt, UInt16.toNat_add, UInt16.toNat_ofNat] <;> omega

theorem addHalf_eq_zero_iff (a b : UInt16) :
    (addHalf a b).toNat = 0 ↔ a.toNat + b.toNat = 0 := by
  have ha := a.toNat_lt
  have hb := b.toNat_lt
  simp only [addHalf]
  split <;> simp_all only [UInt16.lt_iff_toNat_lt, UInt16.toNat_add, UInt16.toNat_ofNat] <;> omega

theorem foldl_addHalf (halves : List UInt16) (a : UInt16) :
    (halves.foldl addHalf a).toNat ≡ a.toNat + value halves [MOD 0xffff] ∧
      ((halves.foldl addHalf a).toNat = 0 ↔ a.toNat + value halves = 0) := by
  induction halves generalizing a with
  | nil => exact ⟨Nat.ModEq.refl _, Iff.rfl⟩
  | cons b halves ih =>
    obtain ⟨hmod, hzero⟩ := ih (addHalf a b)
    rw [foldl_cons, value_cons, ← Nat.add_assoc]
    constructor
    · exact hmod.trans ((addHalf_modEq a b).add_right _)
    · rw [hzero]
      have := addHalf_eq_zero_iff a b
      omega

theorem sum_spec (halves : List UInt16) :
    (sum halves).toNat ≡ value halves [MOD 0xffff] ∧
      ((sum halves).toNat = 0 ↔ value halves = 0) := by
  have h := foldl_addHalf halves 0
  rwa [UInt16.toNat_zero, Nat.zero_add] at h

theorem sum_eq_max_iff (halves : List UInt16) :
    sum halves = 0xffff ↔ value halves % 0xffff = 0 ∧ value halves ≠ 0 := by
  obtain ⟨hmod, hzero⟩ := sum_spec halves
  have hlt := (sum halves).toNat_lt
  rw [Nat.ModEq] at hmod
  rw [← UInt16.toNat_inj, show (0xffff : UInt16).toNat = 0xffff from rfl]
  omega

/-- The halves of a word, the upper one first. -/
def halves (w : UInt32) : List UInt16 := [(w >>> 16).toUInt16, w.toUInt16]

/-- The word of two halves. -/
def ofHalves (upper lower : UInt16) : UInt32 := upper.toUInt32 * 0x10000 + lower.toUInt32

@[simp]
theorem toNat_upper (w : UInt32) : (w >>> 16).toNat = w.toNat / 0x10000 :=
  Nat.shiftRight_eq_div_pow _ _

theorem toNat_lifted (w : UInt32) : (w <<< 16).toNat = w.toNat % 0x10000 * 0x10000 := by
  have hlift : (w <<< 16).toNat = (w.toNat * 0x10000) % 0x100000000 := by
    rw [UInt32.toNat_shiftLeft]
    exact congrArg (· % 2 ^ 32) (Nat.shiftLeft_eq _ _)
  omega

theorem value_halves (w : UInt32) :
    value (halves w) = w.toNat / 0x10000 + w.toNat % 0x10000 := by
  have := w.toNat_lt
  simp only [halves, value_cons, value_nil, UInt32.toNat_toUInt16, toNat_upper]
  omega

theorem value_halves_modEq (w : UInt32) : value (halves w) ≡ w.toNat [MOD 0xffff] := by
  rw [value_halves, Nat.ModEq]
  omega

@[simp]
theorem halves_ofHalves (upper lower : UInt16) :
    halves (ofHalves upper lower) = [upper, lower] := by
  have hupper := upper.toNat_lt
  have hlower := lower.toNat_lt
  have htoNat : (ofHalves upper lower).toNat = upper.toNat * 0x10000 + lower.toNat := by
    simp only [ofHalves, UInt32.toNat_add, UInt32.toNat_mul, UInt16.toNat_toUInt32,
      UInt32.reduceToNat]
    omega
  rw [halves, cons.injEq, cons.injEq, ← UInt16.toNat_inj, ← UInt16.toNat_inj]
  simp only [UInt32.toNat_toUInt16, toNat_upper, htoNat, and_true]
  omega

/-- Add, and add the carry again. -/
def addWord (a b : UInt32) : UInt32 :=
  let s := a + b
  s + if s < b then 1 else 0

theorem addWord_modEq (a b : UInt32) : (addWord a b).toNat ≡ a.toNat + b.toNat [MOD 0xffff] := by
  have ha := a.toNat_lt
  have hb := b.toNat_lt
  simp only [addWord, Nat.ModEq]
  split <;> simp_all only [UInt32.lt_iff_toNat_lt, UInt32.toNat_add, UInt32.toNat_ofNat] <;> omega

theorem addWord_eq_zero_iff (a b : UInt32) :
    (addWord a b).toNat = 0 ↔ a.toNat + b.toNat = 0 := by
  have ha := a.toNat_lt
  have hb := b.toNat_lt
  simp only [addWord]
  split <;> simp_all only [UInt32.lt_iff_toNat_lt, UInt32.toNat_add, UInt32.toNat_ofNat] <;> omega

theorem foldl_addWord (words : List UInt32) (a : UInt32) :
    (words.foldl addWord a).toNat ≡ value ((a :: words).flatMap halves) [MOD 0xffff] ∧
      ((words.foldl addWord a).toNat = 0 ↔ value ((a :: words).flatMap halves) = 0) := by
  induction words generalizing a with
  | nil =>
    rw [flatMap_cons, flatMap_nil, append_nil]
    refine ⟨(value_halves_modEq a).symm, ?_⟩
    rw [foldl_nil, value_halves]
    omega
  | cons b words ih =>
    obtain ⟨hmod, hzero⟩ := ih (addWord a b)
    simp only [flatMap_cons, value_append] at hmod hzero ⊢
    have hadd : value (halves (addWord a b)) ≡ value (halves a) + value (halves b)
        [MOD 0xffff] :=
      ((value_halves_modEq _).trans (addWord_modEq a b)).trans
        ((value_halves_modEq a).add (value_halves_modEq b)).symm
    constructor
    · rw [foldl_cons, ← Nat.add_assoc]
      exact hmod.trans (hadd.add_right _)
    · rw [foldl_cons, hzero]
      have := addWord_eq_zero_iff a b
      simp only [value_halves] at this ⊢
      omega

/-- Add the upper half to the lower half, and the carry again. -/
def foldWord (w : UInt32) : UInt32 :=
  let upper := w <<< 16
  let s := w + upper
  (s >>> 16) + if s < upper then 1 else 0

theorem foldWord_spec (w : UInt32) :
    (foldWord w).toNat < 0x10000 ∧ (foldWord w).toNat ≡ w.toNat [MOD 0xffff] ∧
      ((foldWord w).toNat = 0 ↔ w.toNat = 0) := by
  have hw := w.toNat_lt
  have hlifted := toNat_lifted w
  -- with `a` for the upper and `b` for the lower half
  obtain ⟨a, b, hab, ha, hb⟩ : ∃ a b, w.toNat = a * 0x10000 + b ∧ a < 0x10000 ∧ b < 0x10000 :=
    ⟨w.toNat / 0x10000, w.toNat % 0x10000, by omega, by omega, by omega⟩
  have hs : (w + w <<< 16).toNat = (a + b) % 0x10000 * 0x10000 + b := by
    rw [UInt32.toNat_add]
    omega
  have hcarry : (w + w <<< 16 < w <<< 16) ↔ 0x10000 ≤ a + b := by
    rw [UInt32.lt_iff_toNat_lt]
    omega
  have hupper : ((w + w <<< 16) >>> 16).toNat = (a + b) % 0x10000 := by
    rw [toNat_upper, hs]
    omega
  have hvalue : (foldWord w).toNat = a + b - if 0x10000 ≤ a + b then 0xffff else 0 := by
    simp only [foldWord, hcarry]
    clear hlifted hs hcarry hw hab
    split
    · rw [UInt32.toNat_add, hupper, UInt32.toNat_one]
      omega
    · rw [UInt32.add_zero, hupper]
      omega
  rw [hvalue, hab, Nat.ModEq]
  split <;> omega

end Wbr1310.Lib.OnesComplement
