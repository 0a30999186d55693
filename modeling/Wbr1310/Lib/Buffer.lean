import Mathlib

/-!
# Checked buffers and strings in them

An array of fixed size is a function on positions together with the size that every access
is checked against. A string is what stands in a buffer before the first zero. `held` is the
buffer that holds a list and nothing else, which is what copying into a cleared buffer makes,
and `indexOf` is the search of one list in another.
-/

namespace Wbr1310.Lib.Buffer

open List Option Nat

universe u

variable {α β : Type u}

/-- Why a computation on buffers has no result: an access outside an array, or a loop that did
not end in the rounds it was given. -/
inductive Fault where
  | bounds
  | rounds
  deriving DecidableEq, Repr

/-- A result, or the fault that stopped the computation. -/
abbrev Checked (α : Type u) := Except Fault α

@[simp]
theorem ok_bind (a : α) (f : α → Checked β) : (Except.ok a >>= f) = f a := rfl

@[simp]
theorem error_bind (e : Fault) (f : α → Checked β) :
    ((Except.error e : Checked α) >>= f) = .error e := rfl

@[simp]
theorem pure_eq_ok (a : α) : (pure a : Checked α) = .ok a := rfl

/-- Read a position of an array. -/
def read (size : ℕ) (b : ℕ → α) (i : ℕ) : Checked α :=
  if i < size then .ok (b i) else .error .bounds

/-- Write a position of an array. -/
def write (size : ℕ) (b : ℕ → α) (i : ℕ) (v : α) : Checked (ℕ → α) :=
  if i < size then .ok (Function.update b i v) else .error .bounds

/-- Read a position of a list. -/
def readList (xs : List α) (i : ℕ) : Checked α :=
  match xs[i]? with
  | some x => .ok x
  | none => .error .bounds

variable {size i : ℕ}

theorem read_of_lt (b : ℕ → α) (h : i < size) : read size b i = .ok (b i) := if_pos h

theorem read_of_le (b : ℕ → α) (h : size ≤ i) : read size b i = .error .bounds :=
  if_neg (not_lt.mpr h)

theorem write_of_lt (b : ℕ → α) (v : α) (h : i < size) :
    write size b i v = .ok (Function.update b i v) := if_pos h

theorem write_of_le (b : ℕ → α) (v : α) (h : size ≤ i) :
    write size b i v = .error .bounds := if_neg (not_lt.mpr h)

theorem readList_append (xs : List α) (x : α) (ys : List α) :
    readList (xs ++ x :: ys) xs.length = .ok x := by
  simp [readList]

section Held

variable [Zero α]

/-- The list, and zeros after it. -/
def held (xs : List α) : ℕ → α := fun i => xs.getD i 0

theorem held_nil : held ([] : List α) = fun _ => 0 := rfl

variable {xs : List α} {i : ℕ}

theorem held_of_ge (h : xs.length ≤ i) : held xs i = 0 :=
  getD_eq_default _ _ h

@[simp]
theorem held_append_length (xs : List α) (x : α) (ys : List α) :
    held (xs ++ x :: ys) xs.length = x := by
  simp [held]

theorem held_append_left (ys : List α) (h : i < xs.length) :
    held (xs ++ ys) i = held xs i :=
  getD_append _ _ _ _ h

theorem held_append_right (ys : List α) (h : xs.length ≤ i) :
    held (xs ++ ys) i = held ys (i - xs.length) :=
  getD_append_right _ _ _ _ h

theorem held_mem (h : i < xs.length) : held xs i ∈ xs := by
  rw [held, getD_eq_getElem _ _ h]
  exact getElem_mem h

theorem update_held (xs : List α) (v : α) :
    Function.update (held xs) xs.length v = held (xs ++ [v]) := by
  funext i
  by_cases h : i = xs.length
  · subst h
    rw [Function.update_self, held_append_length]
  · rw [Function.update_of_ne h]
    by_cases hlt : i < xs.length
    · exact (held_append_left [v] hlt).symm
    · rw [held_of_ge (not_lt.mp hlt), held_append_right [v] (not_lt.mp hlt),
        held_of_ge (by simp only [length_singleton]; omega)]

theorem update_held_zero (xs : List α) : Function.update (held xs) xs.length 0 = held xs := by
  rw [Function.update_eq_self_iff, held_of_ge le_rfl]

theorem held_map [Zero β] (f : α → β) (hf : f 0 = 0) (xs : List α) :
    (fun i => f (held xs i)) = held (xs.map f) := by
  funext i
  simp only [held, getD_eq_getElem?_getD, getElem?_map]
  cases xs[i]? with
  | none => exact hf
  | some x => rfl

theorem held_drop (xs : List α) (k i : ℕ) : held (xs.drop k) i = held xs (k + i) := by
  simp [held, getD_eq_getElem?_getD]

end Held

section Strings

variable [Zero α] [DecidableEq α]

/-- The string from position `i` on that ends within `n` positions. -/
def stringFrom (b : ℕ → α) : ℕ → ℕ → Checked (List α)
  | 0, _ => .error .bounds
  | n + 1, i =>
    if b i = 0 then .ok []
    else do
      let xs ← stringFrom b n (i + 1)
      pure (b i :: xs)

/-- The string in an array. -/
def string (size : ℕ) (b : ℕ → α) : Checked (List α) := stringFrom b size 0

/-- The string at the beginning of a list. -/
def cut (xs : List α) : List α := xs.takeWhile fun x => decide (x ≠ 0)

theorem cut_length_le (xs : List α) : (cut xs).length ≤ xs.length :=
  (takeWhile_sublist _).length_le

theorem cut_cons (x : α) (xs : List α) : cut (x :: xs) = if x = 0 then [] else x :: cut xs := by
  rw [cut, takeWhile_cons, cut]
  by_cases hx : x = 0
  · simp [hx]
  · simp [hx]

variable {xs : List α}

theorem cut_append (h : 0 ∉ xs) (rest : List α) :
    cut (xs ++ rest) = xs ++ cut rest := by
  refine takeWhile_append_of_pos fun x hx => decide_eq_true ?_
  rintro rfl
  exact h hx

theorem cut_append_zero (xs rest : List α) : cut (xs ++ 0 :: rest) = cut xs := by
  induction xs with
  | nil => simp [cut]
  | cons x xs ih => rw [cons_append, cut_cons, cut_cons, ih]

theorem cut_of_ne_zero (h : ∀ x ∈ xs, x ≠ 0) : cut xs = xs := by
  rw [cut, takeWhile_eq_self_iff]
  exact fun x hx => decide_eq_true (h x hx)

theorem stringFrom_held (front : List α) {n : ℕ} (h : (cut xs).length < n) :
    stringFrom (held (front ++ xs)) n front.length = .ok (cut xs) := by
  induction n generalizing front xs with
  | zero => exact absurd h (not_lt_zero _)
  | succ n ih =>
    cases xs with
    | nil =>
      rw [stringFrom, if_pos]
      · rfl
      · rw [append_nil, held_of_ge le_rfl]
    | cons x xs =>
      rw [stringFrom, held_append_length]
      by_cases hx : x = 0
      · rw [if_pos hx, cut, takeWhile_cons_of_neg (by simpa using hx)]
      · have hcut : cut (x :: xs) = x :: cut xs := by
          rw [cut, takeWhile_cons_of_pos (by simpa using hx), cut]
        have hlen : (cut xs).length < n := by
          rw [hcut, length_cons] at h
          omega
        have hrest := ih (front ++ [x]) hlen
        rw [append_assoc, length_append] at hrest
        rw [if_neg hx, hcut]
        simp only [singleton_append, length_singleton] at hrest
        rw [hrest]
        rfl

theorem string_held {size : ℕ} (h : (cut xs).length < size) :
    string size (held xs) = .ok (cut xs) :=
  stringFrom_held [] h

theorem stringFrom_full {b : ℕ → α} {n i : ℕ} (h : ∀ j < n, b (i + j) ≠ 0) :
    stringFrom b n i = .error .bounds := by
  induction n generalizing i with
  | zero => rfl
  | succ n ih =>
    have hfirst : b i ≠ 0 := h 0 (succ_pos n)
    have hrest : stringFrom b n (i + 1) = .error .bounds := ih fun j hj => by
      rw [Nat.add_assoc, Nat.add_comm 1 j]
      exact h (j + 1) (succ_lt_succ hj)
    rw [stringFrom, if_neg hfirst, hrest]
    rfl

theorem string_full {size : ℕ} (h : ∀ x ∈ xs, x ≠ 0) (hsize : size ≤ xs.length) :
    string size (held xs) = .error .bounds := by
  apply stringFrom_full
  intro j hj
  rw [Nat.zero_add]
  exact h _ (held_mem (hj.trans_le hsize))

end Strings

section Search

variable [DecidableEq α]

/-- Where a list first occurs in another one. -/
def indexOf (pat : List α) : List α → Option ℕ
  | [] => if pat = [] then some 0 else none
  | x :: xs => if pat <+: x :: xs then some 0 else (indexOf pat xs).map (· + 1)

variable {pat xs : List α} {k : ℕ}

theorem indexOf_isSome_iff : (indexOf pat xs).isSome ↔ pat <:+: xs := by
  induction xs with
  | nil => simp [indexOf, infix_nil]
  | cons x xs ih =>
    rw [indexOf]
    by_cases h : pat <+: x :: xs
    · simp only [if_pos h, isSome_some, true_iff]
      exact h.isInfix
    · rw [if_neg h, isSome_map, ih, infix_cons_iff]
      exact ⟨.inr, fun hor => hor.resolve_left h⟩

theorem indexOf_some (h : indexOf pat xs = some k) :
    pat <+: xs.drop k := by
  induction xs generalizing k with
  | nil =>
    simp only [indexOf] at h
    split at h
    · next hpat =>
      rw [hpat]
      exact nil_prefix
    · exact absurd h (by simp)
  | cons x xs ih =>
    rw [indexOf] at h
    split at h
    · next hpre =>
      obtain rfl := some.inj h
      exact hpre
    · obtain ⟨j, hj, rfl⟩ := map_eq_some_iff.mp h
      exact ih hj

theorem indexOf_append {p : α} (h : p ∉ xs) (ys : List α) :
    indexOf (p :: pat) (xs ++ ys) = (indexOf (p :: pat) ys).map (xs.length + ·) := by
  induction xs with
  | nil => simp
  | cons x xs ih =>
    have hx : ¬ p :: pat <+: x :: (xs ++ ys) := by
      rw [cons_prefix_cons]
      exact fun hpre => h (hpre.1 ▸ mem_cons_self)
    rw [cons_append, indexOf, if_neg hx, ih fun hmem => h (mem_cons_of_mem x hmem),
      Option.map_map, length_cons]
    congr 1
    funext k
    simp only [Function.comp_apply]
    omega

theorem indexOf_of_prefix (h : pat <+: xs) : indexOf pat xs = some 0 := by
  cases xs with
  | nil => rw [indexOf, if_pos (prefix_nil.mp h)]
  | cons x xs => rw [indexOf, if_pos h]

theorem indexOf_cons_of_not_prefix {x : α} (h : ¬ pat <+: x :: xs) :
    indexOf pat (x :: xs) = (indexOf pat xs).map (· + 1) := by
  rw [indexOf, if_neg h]

theorem indexOf_lt (h : indexOf pat xs = some k) (hpat : pat ≠ []) :
    k + pat.length ≤ xs.length := by
  have hlen := (indexOf_some h).length_le
  have hpos := length_pos_iff.mpr hpat
  rw [length_drop] at hlen
  omega

theorem indexOf_le (h : pat <+: xs.drop k) :
    ∃ j ≤ k, indexOf pat xs = some j := by
  induction xs generalizing k with
  | nil =>
    rw [drop_nil] at h
    exact ⟨0, zero_le k, indexOf_of_prefix h⟩
  | cons x xs ih =>
    by_cases hpre : pat <+: x :: xs
    · exact ⟨0, zero_le k, indexOf_of_prefix hpre⟩
    · cases k with
      | zero => exact absurd h hpre
      | succ k =>
        obtain ⟨j, hj, hfound⟩ := ih h
        refine ⟨j + 1, succ_le_succ hj, ?_⟩
        rw [indexOf, if_neg hpre, hfound, map_some]

end Search

end Wbr1310.Lib.Buffer
