import Mathlib

/-!
# Loops that generate text

A script goes over the entries of a table; for each one it writes lines, and its
variables keep their values until the next one. What is written for an entry can therefore depend
on all entries before it.
-/

namespace Wbr1310.Lib.Generator

variable {α σ β : Type*} (body : ℕ → α → σ → σ × List β)

/-- The loop from the `k`-th entry on: the variables after it and what was written for
each entry. -/
def loop : ℕ → List α → σ → σ × List (List β)
  | _, [], s => (s, [])
  | k, x :: xs, s =>
    let one := body k x s
    let rest := loop (k + 1) xs one.1
    (rest.1, one.2 :: rest.2)

theorem loop_getElem? (k : ℕ) (before : List α) (x : α) (after : List α) (s : σ) :
    (loop body k (before ++ x :: after) s).2[before.length]? =
      some (body (k + before.length) x (loop body k before s).1).2 := by
  induction before generalizing k s with
  | nil => rfl
  | cons y before ih =>
    simp only [List.cons_append, loop, List.length_cons, List.getElem?_cons_succ]
    rw [ih, Nat.add_assoc, Nat.add_comm 1]

/-- The invariant rule of the loop. -/
theorem loop_keeps {I : σ → Prop} {xs : List α}
    (h : ∀ k, ∀ x ∈ xs, ∀ s, I s → I (body k x s).1) (k : ℕ) {s : σ} (hs : I s) :
    I (loop body k xs s).1 := by
  induction xs generalizing k s with
  | nil => exact hs
  | cons x xs ih =>
    have hone : I (body k x s).1 := h k x List.mem_cons_self s hs
    exact ih (fun k y hy => h k y (List.mem_cons_of_mem _ hy)) (k + 1) hone

theorem loop_lines (lines : α → List β) (h : ∀ k x s, (body k x s).2 = lines x) (k : ℕ)
    (xs : List α) (s : σ) : (loop body k xs s).2.flatten = xs.flatMap lines := by
  induction xs generalizing k s with
  | nil => rfl
  | cons x xs ih => simp only [loop, List.flatten_cons, List.flatMap_cons, ih, h]

theorem loop_count (count : σ → ℕ) (p : α → Prop) [DecidablePred p]
    (h : ∀ k x s, count (body k x s).1 = count s + if p x then 1 else 0) (k : ℕ) (xs : List α)
    (s : σ) : count (loop body k xs s).1 = count s + xs.countP (p ·) := by
  induction xs generalizing k s with
  | nil => rfl
  | cons x xs ih =>
    simp only [loop, ih, h, List.countP_cons, decide_eq_true_eq]
    omega

theorem loop_count_lines (count : σ → ℕ) (p : β → Bool)
    (h : ∀ k x s, count (body k x s).1 = count s + (body k x s).2.countP p) (k : ℕ) (xs : List α)
    (s : σ) : count (loop body k xs s).1 = count s + (loop body k xs s).2.flatten.countP p := by
  induction xs generalizing k s with
  | nil => rfl
  | cons x xs ih =>
    simp only [loop, ih, h, List.flatten_cons, List.countP_append]
    omega

/-- The live variables after a block of assignments depend on the live variables before it. -/
def KeepsLive (live f : σ → σ) : Prop := ∀ s, live (f s) = live (f (live s))

theorem KeepsLive.comp {live f g : σ → σ} (hg : KeepsLive live g) (hf : KeepsLive live f) :
    KeepsLive live (g ∘ f) := by
  intro s
  calc live (g (f s)) = live (g (live (f s))) := hg _
    _ = live (g (live (f (live s)))) := by rw [hf s]
    _ = live (g (f (live s))) := (hg _).symm

/-- What is dead has no effect. -/
theorem KeepsLive.eq {live f : σ → σ} (hf : KeepsLive live f) {s t : σ} (h : live t = live s) :
    live (f t) = live (f s) := by
  rw [hf t, hf s, h]

end Wbr1310.Lib.Generator
