import Mathlib

/-!
# Numbers as bytes

A number in big-endian order, as a list of a fixed number of bytes, and the way back.
-/

namespace Wbr1310.Lib

/-- The last bytes of a number, the most significant one first. -/
def bigEndian : ℕ → ℕ → List UInt8
  | 0, _ => []
  | n + 1, x => bigEndian n (x / 256) ++ [UInt8.ofNat x]

/-- The number of some bytes, the most significant one first. -/
def fromBigEndian (bytes : List UInt8) : ℕ := bytes.foldl (fun x b => x * 256 + b.toNat) 0

@[simp]
theorem length_bigEndian (n x : ℕ) : (bigEndian n x).length = n := by
  induction n generalizing x with
  | zero => rfl
  | succ n ih => rw [bigEndian, List.length_append, ih, List.length_singleton]

theorem fromBigEndian_bigEndian {n x : ℕ} (h : x < 256 ^ n) :
    fromBigEndian (bigEndian n x) = x := by
  induction n generalizing x with
  | zero =>
    rw [Nat.pow_zero] at h
    exact (Nat.lt_one_iff.mp h).symm
  | succ n ih =>
    have hdiv : x / 256 < 256 ^ n := by
      apply Nat.div_lt_of_lt_mul
      rw [Nat.mul_comm, ← Nat.pow_succ]
      exact h
    have hhigh : (bigEndian n (x / 256)).foldl (fun x b => x * 256 + b.toNat) 0 = x / 256 :=
      ih hdiv
    rw [fromBigEndian, bigEndian, List.foldl_append, hhigh, List.foldl_cons, List.foldl_nil,
      UInt8.toNat_ofNat']
    omega

end Wbr1310.Lib
