import Mathlib

/-!
# Loops

A loop is given by its round, which goes on with a new state, ends with a result, or
does not end itself. `run` makes a number of rounds. The rules are the usual ones: an
invariant with a measure, an invariant of a run that has ended, the states a loop
passes through, and two loops that run in step.
-/

namespace Wbr1310.Lib.Loop

variable {σ σ' ρ ρ' : Type*} {round : σ → Option (σ ⊕ ρ)} {round' : σ' → Option (σ' ⊕ ρ')}

/-- The result of a loop if it ends within `n` rounds. -/
def run (round : σ → Option (σ ⊕ ρ)) : ℕ → σ → Option ρ
  | 0, _ => none
  | n + 1, s => match round s with
    | none => none
    | some (.inl s') => run round n s'
    | some (.inr r) => some r

variable {s : σ} {r : ρ} {n : ℕ}

theorem run_next {s' : σ} (h : round s = some (.inl s')) (n : ℕ) :
    run round (n + 1) s = run round n s' := by
  simp only [run, h]

theorem run_done (h : round s = some (.inr r)) (n : ℕ) :
    run round (n + 1) s = some r := by
  simp only [run, h]

/-- Total correctness, with a measure that goes down. -/
theorem run_total {I : σ → Prop} {Q : ρ → Prop} (m : σ → ℕ)
    (h : ∀ s, I s → (∃ s', round s = some (.inl s') ∧ I s' ∧ m s' < m s) ∨
      ∃ r, round s = some (.inr r) ∧ Q r) (hs : I s) :
    ∃ n r, run round n s = some r ∧ Q r := by
  induction hm : m s using Nat.strong_induction_on generalizing s with
  | _ k ih =>
    obtain ⟨s', hround, hI, hlt⟩ | ⟨r, hround, hQ⟩ := h s hs
    · obtain ⟨n, r, hrun, hQ⟩ := ih (m s') (hm ▸ hlt) hI rfl
      exact ⟨n + 1, r, (run_next hround n).trans hrun, hQ⟩
    · exact ⟨1, r, run_done hround 0, hQ⟩

/-- Partial correctness. -/
theorem run_partial {I : σ → Prop} {Q : ρ → Prop}
    (hnext : ∀ s s', I s → round s = some (.inl s') → I s')
    (hdone : ∀ s r, I s → round s = some (.inr r) → Q r) (h : run round n s = some r) (hs : I s) :
    Q r := by
  induction n generalizing s with
  | zero => exact absurd h (by simp [run])
  | succ n ih =>
    cases hround : round s with
    | none => simp [run, hround] at h
    | some o =>
      cases o with
      | inl s' => exact ih ((run_next hround n).symm.trans h) (hnext s s' hs hround)
      | inr r' =>
        obtain rfl := Option.some.inj ((run_done hround n).symm.trans h)
        exact hdone s r' hs hround

/-- What every round lets grow has grown at the end. -/
theorem run_grows {β : Type*} {R : β → β → Prop} {f : σ → β} {g : ρ → β} (hrefl : ∀ b, R b b)
    (htrans : ∀ a b c, R a b → R b c → R a c)
    (hround : ∀ s o, round s = some o → R (f s) (o.elim f g)) (h : run round n s = some r) :
    R (f s) (g r) :=
  run_partial (I := fun t => R (f s) (f t)) (Q := fun r => R (f s) (g r))
    (fun t t' ht hnext => htrans _ _ _ ht (hround t (.inl t') hnext))
    (fun t r ht hdone => htrans _ _ _ ht (hround t (.inr r) hdone)) h (hrefl (f s))

/-- The states a loop passes through. -/
def Reaches (round : σ → Option (σ ⊕ ρ)) : σ → σ → Prop :=
  Relation.ReflTransGen fun s s' => round s = some (.inl s')

/-- From a state that it reaches, a run ends the same way. -/
theorem Reaches.run {s' : σ} (h : Reaches round s s') (hrun : run round n s = some r) :
    ∃ m, run round (m + 1) s' = some r := by
  induction h with
  | refl =>
    cases n with
    | zero => exact absurd hrun (by simp [Loop.run])
    | succ n => exact ⟨n, hrun⟩
  | tail _ hround ih =>
    obtain ⟨m, hm⟩ := ih
    rw [run_next hround] at hm
    cases m with
    | zero => exact absurd hm (by simp [Loop.run])
    | succ m => exact ⟨m, hm⟩

theorem run_succ_cases (h : run round (n + 1) s = some r) :
    (∃ s', round s = some (.inl s') ∧ run round n s' = some r) ∨ round s = some (.inr r) := by
  cases hround : round s with
  | none => simp [run, hround] at h
  | some o =>
    cases o with
    | inl s' => exact .inl ⟨s', rfl, (run_next hround n).symm.trans h⟩
    | inr r' => exact .inr (by rw [Option.some.inj ((run_done hround n).symm.trans h)])

/-- One loop follows the other round by round. -/
theorem run_simulated {R : σ → σ' → Prop} {Q : ρ → ρ' → Prop} {t : σ'}
    (hnext : ∀ s s' t, R s t → round s = some (.inl s') →
      ∃ t', round' t = some (.inl t') ∧ R s' t')
    (hdone : ∀ s t, R s t → round s = some (.inr r) → ∃ r', round' t = some (.inr r') ∧ Q r r')
    (h : run round n s = some r) (hR : R s t) : ∃ r', run round' n t = some r' ∧ Q r r' := by
  induction n generalizing s t with
  | zero => exact absurd h (by simp [run])
  | succ n ih =>
    obtain ⟨s', hround, hrun⟩ | hround := run_succ_cases h
    · obtain ⟨t', ht, hR'⟩ := hnext s s' t hR hround
      rw [run_next ht]
      exact ih hrun hR'
    · obtain ⟨r', ht, hQ⟩ := hdone s t hR hround
      exact ⟨r', run_done ht n, hQ⟩

end Wbr1310.Lib.Loop
