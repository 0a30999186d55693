import Mathlib

/-!
# Arrays of numbered entries

The entries of an array are numbered from one, and 0 stands for no entry. An entry that is
deleted leaves no gap. The search loops keep the number of the first or of the last entry
that matches; each has a lemma that splits the array where the loop stopped.
-/

namespace Wbr1310.Lib.Numbered

open Nat

variable {α : Type*}

/-- Delete an entry; the following ones move up. -/
def del (t : List α) (k : ℕ) : List α := t.eraseIdx (k - 1)

/-- Write an entry, or the one behind the last. -/
def put (t : List α) (k : ℕ) (a : α) : List α := if k ≤ t.length then t.set (k - 1) a else t ++ [a]

/-- The loop that counts the entries and gives up at the first that matches. -/
def countUnless (p : α → Bool) (count : ℕ) : List α → Option ℕ
  | [] => some count
  | a :: t => if p a then none else countUnless p (count + 1) t

/-- The loop that keeps the last entry that matches; `n` entries are behind it. -/
def lastFrom (p : α → Bool) (n found : ℕ) : List α → ℕ
  | [] => found
  | a :: t => lastFrom p (n + 1) (if p a then n + 1 else found) t

/-- The loop that keeps the first entry that matches. -/
def firstFrom (p : α → Bool) (n found : ℕ) : List α → ℕ
  | [] => found
  | a :: t => firstFrom p (n + 1) (if found = 0 ∧ p a then n + 1 else found) t

/-- The number of the last entry that matches. -/
def last (p : α → Bool) (t : List α) : ℕ := lastFrom p 0 0 t

/-- The number of the first entry that matches. -/
def first (p : α → Bool) (t : List α) : ℕ := firstFrom p 0 0 t

variable (pre : List α) (a : α) (post : List α)

@[simp] theorem del_split : del (pre ++ a :: post) (pre.length + 1) = pre ++ post := by
  rw [del, Nat.add_sub_cancel, List.eraseIdx_append_of_length_le (Nat.le_refl _), Nat.sub_self]
  rfl

@[simp] theorem put_split (b : α) :
    put (pre ++ a :: post) (pre.length + 1) b = pre ++ b :: post := by
  rw [put, if_pos (by simp), Nat.add_sub_cancel, List.set_append_right _ _ (Nat.le_refl _),
    Nat.sub_self]
  rfl

@[simp] theorem put_new (t : List α) : put t (t.length + 1) a = t ++ [a] := by
  rw [put, if_neg (by omega)]

variable (p : α → Bool) (t : List α)

theorem countUnless_spec (count : ℕ) :
    countUnless p count t = if ∃ a ∈ t, p a then none else some (count + t.length) := by
  induction t generalizing count with
  | nil => simp [countUnless]
  | cons a t ih =>
    rw [countUnless]
    cases ha : p a with
    | true => simp [ha]
    | false =>
      rw [if_neg Bool.false_ne_true, ih, List.length_cons, Nat.add_right_comm]
      simp [ha, Nat.add_assoc]

theorem lastFrom_of_none {n found : ℕ} (h : ∀ a ∈ t, p a = false) :
    lastFrom p n found t = found := by
  induction t generalizing n with
  | nil => rfl
  | cons a t ih =>
    rw [lastFrom, h a List.mem_cons_self, if_neg Bool.false_ne_true]
    exact ih fun b hb => h b (List.mem_cons_of_mem a hb)

theorem lastFrom_cases (n found : ℕ) :
    (lastFrom p n found t = found ∧ ∀ a ∈ t, p a = false) ∨
      ∃ pre a post, t = pre ++ a :: post ∧ lastFrom p n found t = n + pre.length + 1 ∧ p a ∧
        ∀ b ∈ post, p b = false := by
  induction t generalizing n found with
  | nil => exact .inl ⟨rfl, by simp⟩
  | cons a t ih =>
    rw [lastFrom]
    obtain ⟨hkeep, hnone⟩ | ⟨pre, b, post, rfl, hfound, hb, hpost⟩ :=
      ih (n + 1) (if p a then n + 1 else found)
    · cases ha : p a with
      | true => exact .inr ⟨[], a, t, rfl, lastFrom_of_none p t hnone, ha, hnone⟩
      | false =>
        refine .inl ⟨lastFrom_of_none p t hnone, fun b hb => ?_⟩
        obtain rfl | hb := List.mem_cons.mp hb
        · exact ha
        · exact hnone b hb
    · refine .inr ⟨a :: pre, b, post, rfl, hfound.trans ?_, hb, hpost⟩
      rw [List.length_cons]
      omega

theorem last_cases :
    (last p t = 0 ∧ ∀ a ∈ t, p a = false) ∨
      ∃ pre a post, t = pre ++ a :: post ∧ last p t = pre.length + 1 ∧ p a ∧
        ∀ b ∈ post, p b = false := by
  have h := lastFrom_cases p t 0 0
  simpa only [last, Nat.zero_add] using h

theorem firstFrom_of_found {n found : ℕ} (h : found ≠ 0) : firstFrom p n found t = found := by
  induction t generalizing n with
  | nil => rfl
  | cons a t ih => rw [firstFrom, if_neg fun hc => h hc.1, ih]

theorem firstFrom_cases (n : ℕ) :
    (firstFrom p n 0 t = 0 ∧ ∀ a ∈ t, p a = false) ∨
      ∃ pre a post, t = pre ++ a :: post ∧ firstFrom p n 0 t = n + pre.length + 1 ∧ p a ∧
        ∀ b ∈ pre, p b = false := by
  induction t generalizing n with
  | nil => exact .inl ⟨rfl, by simp⟩
  | cons a t ih =>
    rw [firstFrom]
    cases ha : p a with
    | true =>
      refine .inr ⟨[], a, t, rfl, ?_, ha, by simp⟩
      rw [if_pos ⟨rfl, rfl⟩]
      exact firstFrom_of_found p t (succ_ne_zero n)
    | false =>
      rw [if_neg (by simp)]
      obtain ⟨hzero, hnone⟩ | ⟨pre, b, post, rfl, hfound, hb, hpre⟩ := ih (n + 1)
      · exact .inl ⟨hzero, List.forall_mem_cons.mpr ⟨ha, hnone⟩⟩
      · refine .inr ⟨a :: pre, b, post, rfl, hfound.trans ?_, hb,
          List.forall_mem_cons.mpr ⟨ha, hpre⟩⟩
        rw [List.length_cons]
        omega

theorem first_cases :
    (first p t = 0 ∧ ∀ a ∈ t, p a = false) ∨
      ∃ pre a post, t = pre ++ a :: post ∧ first p t = pre.length + 1 ∧ p a ∧
        ∀ b ∈ pre, p b = false := by
  have h := firstFrom_cases p t 0
  simpa only [first, Nat.zero_add] using h

end Wbr1310.Lib.Numbered
