import Mathlib

/-!
# NOR flash arrays

An array is a cell for each address. Programming can only clear bits, so it is the
conjunction of the cell with the data; a program operation wraps around inside its page.
Erasing sets every bit of a whole sector. `overlay` is the plain conjunction of a range
of cells, to which a program operation that stays in its page comes down.
-/

namespace Wbr1310.Lib.Nor

open Nat

variable {w : ℕ} {c : ℕ → BitVec w} {data : ℕ → BitVec w} {base n m a : ℕ}

/-- Data from a later position on. -/
def shifted {α : Type*} (k : ℕ) (data : ℕ → α) : ℕ → α := fun i => data (k + i)

/-- The first `n` items of the data. -/
def taken {α : Type*} (data : ℕ → α) (n : ℕ) : List α := (List.range n).map data

@[simp]
theorem shifted_apply {α : Type*} (k : ℕ) (data : ℕ → α) (i : ℕ) :
    shifted k data i = data (k + i) := rfl

@[simp]
theorem shifted_shifted {α : Type*} (k l : ℕ) (data : ℕ → α) :
    shifted l (shifted k data) = shifted (k + l) data := by
  funext i
  simp only [shifted_apply, Nat.add_assoc]

@[simp]
theorem shifted_zero {α : Type*} (data : ℕ → α) : shifted 0 data = data := by
  funext i
  rw [shifted_apply, Nat.zero_add]

@[simp]
theorem taken_zero {α : Type*} (data : ℕ → α) : taken data 0 = [] := rfl

theorem taken_add {α : Type*} (data : ℕ → α) (n m : ℕ) :
    taken data (n + m) = taken data n ++ taken (shifted n data) m := by
  simp only [taken, List.range_add, List.map_append, List.map_map]
  rfl

theorem taken_succ {α : Type*} (data : ℕ → α) (n : ℕ) :
    taken data (n + 1) = data 0 :: taken (shifted 1 data) n := by
  rw [Nat.add_comm, taken_add]
  rfl

/-- The cells of `[base, base + n)` in conjunction with the data. -/
def overlay (c : ℕ → BitVec w) (base n : ℕ) (data : ℕ → BitVec w) : ℕ → BitVec w := fun a =>
  if base ≤ a ∧ a < base + n then c a &&& data (a - base) else c a

theorem overlay_of_mem (h : base ≤ a ∧ a < base + n) :
    overlay c base n data a = c a &&& data (a - base) :=
  if_pos h

theorem overlay_of_not_mem (h : ¬ (base ≤ a ∧ a < base + n)) : overlay c base n data a = c a :=
  if_neg h

@[simp]
theorem overlay_zero (c : ℕ → BitVec w) (base : ℕ) (data : ℕ → BitVec w) :
    overlay c base 0 data = c := by
  funext a
  exact overlay_of_not_mem (by omega)

theorem overlay_overlay (c : ℕ → BitVec w) (base n m : ℕ) (data : ℕ → BitVec w) :
    overlay (overlay c base n data) (base + n) m (shifted n data) =
      overlay c base (n + m) data := by
  funext a
  by_cases hn : base ≤ a ∧ a < base + n
  · rw [overlay_of_not_mem (by omega), overlay_of_mem hn, overlay_of_mem (by omega)]
  by_cases hm : base + n ≤ a ∧ a < base + n + m
  · rw [overlay_of_mem hm, overlay_of_not_mem hn, overlay_of_mem (by omega), shifted_apply]
    congr 2
    omega
  · rw [overlay_of_not_mem hm, overlay_of_not_mem hn, overlay_of_not_mem (by omega)]

/-- The address after `a` inside its page. -/
def next (page a : ℕ) : ℕ := a / page * page + (a + 1) % page

/-- Program a list of data from an address on. -/
def program (page : ℕ) (c : ℕ → BitVec w) : ℕ → List (BitVec w) → ℕ → BitVec w
  | _, [] => c
  | base, b :: bs => program page (fun a => if a = base then c a &&& b else c a) (next page base) bs

theorem next_of_inside {page : ℕ} (h : a % page + 1 < page) : next page a = a + 1 := by
  have hone : 1 % page = 1 := mod_eq_of_lt (by omega)
  have hmod : (a + 1) % page = a % page + 1 := by
    rw [add_mod, hone, mod_eq_of_lt h]
  have hdiv := div_add_mod' a page
  rw [next, hmod]
  omega

theorem program_taken {page : ℕ} (h : base % page + n ≤ page) :
    program page c base (taken data n) = overlay c base n data := by
  induction n generalizing c base data with
  | zero => rw [taken_zero, overlay_zero, program]
  | succ n ih =>
    have hfirst : (fun a => if a = base then c a &&& data 0 else c a) =
        overlay c base 1 data := by
      funext a
      by_cases ha : a = base
      · rw [if_pos ha, overlay_of_mem (by omega), ha, Nat.sub_self]
      · rw [if_neg ha, overlay_of_not_mem (by omega)]
    rw [taken_succ, program, hfirst, Nat.add_comm n 1, ← overlay_overlay]
    cases n with
    | zero => rw [taken_zero, overlay_zero, program]
    | succ n =>
      have hnext : next page base = base + 1 := next_of_inside (by omega)
      have hmod : (base + 1) % page = base % page + 1 := by
        rw [add_mod, mod_eq_of_lt (show 1 < page by omega),
          mod_eq_of_lt (show base % page + 1 < page by omega)]
      rw [hnext]
      exact ih (by omega)

/-- Every bit of the sector of an address set. -/
def erase (sector : ℕ) (c : ℕ → BitVec w) (base : ℕ) : ℕ → BitVec w := fun a =>
  if a / sector = base / sector then BitVec.allOnes w else c a

theorem erase_of_mem {sector : ℕ} (h : a / sector = base / sector) :
    erase sector c base a = BitVec.allOnes w :=
  if_pos h

theorem erase_of_not_mem {sector : ℕ} (h : a / sector ≠ base / sector) :
    erase sector c base a = c a :=
  if_neg h

theorem erase_overlay {sector : ℕ} (h : ∀ a, base ≤ a → a < base + n → a / sector = m / sector) :
    erase sector (overlay c base n data) m = erase sector c m := by
  funext a
  by_cases ha : a / sector = m / sector
  · rw [erase_of_mem ha, erase_of_mem ha]
  · rw [erase_of_not_mem ha, erase_of_not_mem ha]
    exact overlay_of_not_mem fun hr => ha (h a hr.1 hr.2)

end Wbr1310.Lib.Nor
