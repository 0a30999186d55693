import Mathlib

/-!
# Bytes in memory

Memory around an object is a function from positions to bytes, relative to the
first byte of the object. A `Span` is a range of bytes that is read or written.
-/

namespace Wbr1310.Lib

open Option Nat

/-- A range of bytes. -/
structure Span where
  start : ℤ
  length : ℕ
  deriving DecidableEq, Repr

/-- The range lies in the first `size` bytes of the object. -/
def Span.Inside (size : ℕ) (s : Span) : Prop := 0 ≤ s.start ∧ s.start + s.length ≤ size

instance (size : ℕ) (s : Span) : Decidable (s.Inside size) := inferInstanceAs (Decidable (_ ∧ _))

/-- The order of the bytes of a word. -/
inductive ByteOrder where
  | little
  | big
  deriving DecidableEq, Repr

variable {mem : ℤ → UInt8}

/-- The `n` bytes from a position on. -/
def bytes (mem : ℤ → UInt8) : ℤ → ℕ → List UInt8
  | _, 0 => []
  | i, n + 1 => mem i :: bytes mem (i + 1) n

/-- The word of four bytes at a position. -/
def word (order : ByteOrder) (mem : ℤ → UInt8) (i : ℤ) : UInt32 :=
  let byte k := (mem (i + k)).toUInt32
  match order with
  | .big => byte 0 <<< 24 ||| byte 1 <<< 16 ||| byte 2 <<< 8 ||| byte 3
  | .little => byte 3 <<< 24 ||| byte 2 <<< 16 ||| byte 1 <<< 8 ||| byte 0

/-- The length of the string at a position, if it ends within `bound` bytes. -/
def strlen (mem : ℤ → UInt8) : ℕ → ℤ → Option ℕ
  | 0, _ => none
  | bound + 1, i => if mem i = 0 then some 0 else (strlen mem bound (i + 1)).map (· + 1)

theorem length_bytes (mem : ℤ → UInt8) (i : ℤ) (n : ℕ) : (bytes mem i n).length = n := by
  induction n generalizing i with
  | zero => rfl
  | succ n ih => rw [bytes, List.length_cons, ih]

theorem bytes_add (mem : ℤ → UInt8) (i : ℤ) (m n : ℕ) :
    bytes mem i (m + n) = bytes mem i m ++ bytes mem (i + m) n := by
  induction m generalizing i with
  | zero => simp [bytes]
  | succ m ih =>
    rw [succ_add, bytes, bytes, ih, List.cons_append, cast_succ, Int.add_assoc i 1,
      Int.add_comm 1]

theorem drop_bytes (mem : ℤ → UInt8) (i : ℤ) (m n : ℕ) :
    (bytes mem i (m + n)).drop m = bytes mem (i + m) n := by
  rw [bytes_add, List.drop_left' (length_bytes mem i m)]

variable {n bound : ℕ} {i : ℤ}

theorem getElem?_bytes (mem : ℤ → UInt8) (i : ℤ) {k : ℕ} (hk : k < n) :
    (bytes mem i n)[k]? = some (mem (i + k)) := by
  induction n generalizing i k with
  | zero => omega
  | succ n ih =>
    cases k with
    | zero => simp [bytes]
    | succ k =>
      rw [bytes, List.getElem?_cons_succ, ih (i + 1) (by omega), cast_succ,
        Int.add_assoc i 1, Int.add_comm 1]

theorem bytes_of_append {xs ys : List UInt8} (h : bytes mem i (xs.length + n) = xs ++ ys) :
    bytes mem i xs.length = xs ∧ bytes mem (i + xs.length) n = ys := by
  rw [bytes_add] at h
  exact List.append_inj h (length_bytes mem i xs.length)

theorem bytes_congr {mem' : ℤ → UInt8} (h : ∀ k, i ≤ k → k < i + n → mem' k = mem k) :
    bytes mem' i n = bytes mem i n := by
  induction n generalizing i with
  | zero => rfl
  | succ n ih =>
    rw [bytes, bytes, h i (Int.le_refl i) (by omega),
      ih fun k hk hkn => h k (by omega) (by omega)]

theorem bytes_eq_of_getElem? {bs : List UInt8}
    (h : ∀ k : ℕ, k < bs.length → bs[k]? = some (mem (i + k))) : bytes mem i bs.length = bs := by
  induction bs generalizing i with
  | nil => rfl
  | cons b bs ih =>
    have hfirst : b = mem i := by simpa using h 0 (by simp)
    have hrest : bytes mem (i + 1) bs.length = bs := by
      refine ih fun k hk => ?_
      have hk' := h (k + 1) (by simpa using hk)
      rw [List.getElem?_cons_succ] at hk'
      rw [hk', cast_succ, Int.add_assoc i 1, Int.add_comm 1]
    rw [List.length_cons, bytes, hrest, hfirst]

theorem strlen_end (h : strlen mem bound i = some n) : mem (i + n) = 0 := by
  induction bound generalizing i n with
  | zero => exact absurd h (by simp [strlen])
  | succ bound ih =>
    simp only [strlen] at h
    split at h
    · next hi =>
      obtain rfl := some.inj h
      simpa using hi
    · obtain ⟨m, hm, rfl⟩ := map_eq_some_iff.mp h
      have := ih hm
      rwa [cast_add, cast_one, add_comm (m : ℤ), ← add_assoc]

theorem strlen_of_zero (hz : mem (i + n) = 0) (hn : n < bound) :
    ∃ m ≤ n, strlen mem bound i = some m := by
  induction bound generalizing i n with
  | zero => omega
  | succ bound ih =>
    simp only [strlen]
    split
    · exact ⟨0, zero_le n, rfl⟩
    · next hi =>
      cases n with
      | zero => exact absurd (by simpa using hz) hi
      | succ n =>
        have hz' : mem (i + 1 + n) = 0 := by
          rwa [cast_add, cast_one, add_comm (n : ℤ), ← add_assoc] at hz
        obtain ⟨m, hm, hs⟩ := ih hz' (by omega)
        exact ⟨m + 1, by omega, by rw [hs]; rfl⟩

theorem strlen_le {k : ℕ} (h : strlen mem bound i = some n) (hz : mem (i + k) = 0) : n ≤ k := by
  induction bound generalizing i n k with
  | zero => exact absurd h (by simp [strlen])
  | succ bound ih =>
    simp only [strlen] at h
    split at h
    · obtain rfl := some.inj h
      exact zero_le k
    · next hi =>
      obtain ⟨m, hm, rfl⟩ := map_eq_some_iff.mp h
      cases k with
      | zero => exact absurd (by simpa using hz) hi
      | succ k =>
        have hz' : mem (i + 1 + k) = 0 := by
          rwa [cast_add, cast_one, add_comm (k : ℤ), ← add_assoc] at hz
        exact succ_le_succ (ih hm hz')

theorem bytes_strlen {m : ℕ} (h : strlen mem bound i = some n) (hn : n ≤ m) :
    bytes mem i n = (bytes mem i m).takeWhile fun b => b ≠ 0 := by
  induction bound generalizing i n m with
  | zero => exact absurd h (by simp [strlen])
  | succ bound ih =>
    simp only [strlen] at h
    split at h
    · next hi =>
      obtain rfl := some.inj h
      cases m with
      | zero => rfl
      | succ m => simp [bytes, hi]
    · next hi =>
      obtain ⟨k, hk, rfl⟩ := map_eq_some_iff.mp h
      obtain ⟨m, rfl⟩ : ∃ j, m = j + 1 := ⟨m - 1, by omega⟩
      have hkm : k ≤ m := by omega
      rw [bytes, bytes, ih hk hkm]
      simp [hi]

theorem byte_of_word_little (mem : ℤ → UInt8) (i : ℤ) : (word .little mem i).toUInt8 = mem i := by
  apply UInt8.eq_of_toBitVec_eq
  simp [word]

theorem byte_of_word_big (mem : ℤ → UInt8) (i : ℤ) :
    (word .big mem i >>> 24).toUInt8 = mem i := by
  apply UInt8.eq_of_toBitVec_eq
  apply BitVec.eq_of_getLsbD_eq
  intro j hj
  -- the bits of the other bytes are shifted out
  have hout : ∀ (b : BitVec 8) (k : ℕ), 8 ≤ k → b.getLsbD k = false :=
    fun b k hk => BitVec.getLsbD_of_ge b k hk
  have hj' : 24 + j < 32 := by omega
  have hj'' : j < 32 := by omega
  simp [word, hout _ (24 + j - 16) (by omega), hout _ (24 + j - 8) (by omega),
    hout _ (24 + j) (by omega), hj, hj', hj'']
end Wbr1310.Lib
