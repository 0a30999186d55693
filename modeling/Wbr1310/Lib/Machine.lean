import Wbr1310.Lib.Program

/-!
# Machines driven by events

A machine takes a step for each event. `Along` says that every step of a run meets a
condition on the state before the step and the event; what such steps keep holds in
every state the run reaches.
-/

namespace Wbr1310.Lib.Machine

universe u

variable {σ ε : Type*} {step : σ → ε → σ} {cond : σ → ε → Prop}

/-- The state after a list of events. -/
def run (step : σ → ε → σ) (s : σ) (events : List ε) : σ := events.foldl step s

/-- Every step of the run meets the condition. -/
def Along (step : σ → ε → σ) (cond : σ → ε → Prop) : σ → List ε → Prop
  | _, [] => True
  | s, e :: events => cond s e ∧ Along step cond (step s e) events

instance decidableAlong (step : σ → ε → σ) (cond : σ → ε → Prop) [∀ s e, Decidable (cond s e)] :
    (s : σ) → (events : List ε) → Decidable (Along step cond s events)
  | _, [] => inferInstanceAs (Decidable True)
  | s, e :: events =>
    have := decidableAlong step cond (step s e) events
    inferInstanceAs (Decidable (cond s e ∧ _))

variable {s : σ} {events : List ε} {I : σ → Prop}

variable {p : σ → ε → Prop}

theorem Along.imp (h : Along step cond s events) (himp : ∀ s e, cond s e → p s e) :
    Along step p s events := by
  induction events generalizing s with
  | nil => trivial
  | cons e events ih => exact ⟨himp s e h.1, ih h.2⟩

theorem along_and {cond' : σ → ε → Prop} :
    Along step (fun s e => cond s e ∧ cond' s e) s events ↔
      Along step cond s events ∧ Along step cond' s events := by
  induction events generalizing s with
  | nil => exact (and_self_iff).symm
  | cons e events ih =>
    simp only [Along, ih]
    exact and_and_and_comm

/-- The invariant rule, where events meet a condition. -/
theorem run_invariant (hstep : ∀ s e, I s → cond s e → I (step s e)) (hs : I s)
    (h : Along step cond s events) : I (run step s events) := by
  induction events generalizing s with
  | nil => exact hs
  | cons e events ih => exact ih (hstep s e hs h.1) h.2

theorem along_of_invariant (hstep : ∀ s e, I s → cond s e → I (step s e) ∧ p s e) (hs : I s)
    (h : Along step cond s events) : Along step p s events := by
  induction events generalizing s with
  | nil => trivial
  | cons e events ih =>
    obtain ⟨hnext, hp⟩ := hstep s e hs h.1
    exact ⟨hp, ih hnext h.2⟩

theorem along_iff_of_invariant (hiff : ∀ s e, I s → (p s e ↔ cond s e))
    (hstep : ∀ s e, I s → p s e → I (step s e)) (hs : I s) :
    Along step p s events ↔ Along step cond s events := by
  induction events generalizing s with
  | nil => exact Iff.rfl
  | cons e events ih =>
    constructor
    · rintro ⟨hp, hrest⟩
      exact ⟨(hiff s e hs).mp hp, (ih (hstep s e hs hp)).mp hrest⟩
    · rintro ⟨hcond, hrest⟩
      have hp := (hiff s e hs).mpr hcond
      exact ⟨hp, (ih (hstep s e hs hp)).mpr hrest⟩

/-- The invariant rule, for any events. -/
theorem run_keeps (hstep : ∀ s e, I s → I (step s e)) (hs : I s) (events : List ε) :
    I (run step s events) := by
  induction events generalizing s with
  | nil => exact hs
  | cons e events ih => exact ih (hstep s e hs)

/-- The property holds in every state the run passes, the first and the last included. -/
def Throughout (step : σ → ε → σ) (I : σ → Prop) : σ → List ε → Prop
  | s, [] => I s
  | s, e :: events => I s ∧ Throughout step I (step s e) events

theorem Throughout.last (h : Throughout step I s events) : I (run step s events) := by
  induction events generalizing s with
  | nil => exact h
  | cons e events ih => exact ih h.2

theorem throughout_iff_of_invariant {A : σ → Prop} (hkeep : ∀ s e, A s → A (step s e))
    (hstep : ∀ s e, A s → I s → (I (step s e) ↔ cond s e)) (ha : A s) (hs : I s) :
    Throughout step I s events ↔ Along step cond s events := by
  induction events generalizing s with
  | nil => exact iff_of_true hs trivial
  | cons e events ih =>
    have hfirst : Throughout step I (step s e) events → I (step s e) := by
      cases events with
      | nil => exact id
      | cons _ _ => exact And.left
    constructor
    · rintro ⟨-, hrest⟩
      exact ⟨(hstep s e ha hs).mp (hfirst hrest), (ih (hkeep s e ha) (hfirst hrest)).mp hrest⟩
    · rintro ⟨hcond, hrest⟩
      exact ⟨hs, (ih (hkeep s e ha) ((hstep s e ha hs).mpr hcond)).mpr hrest⟩

theorem throughout_iff (hstep : ∀ s e, I s → (I (step s e) ↔ cond s e)) (hs : I s) :
    Throughout step I s events ↔ Along step cond s events :=
  throughout_iff_of_invariant (A := fun _ => True) (fun _ _ _ => trivial)
    (fun s e _ => hstep s e) trivial hs

/-- Every event that a run of a program for each event gets to meets the condition. -/
def AlongEach {σ ε : Type u} (f : ε → Program σ PUnit) (cond : σ → ε → Prop) : σ → List ε → Prop
  | _, [] => True
  | s, e :: events => cond s e ∧ match f e s with
    | (some _, t) => AlongEach f cond t events
    | (none, _) => True

instance decidableAlongEach {σ ε : Type u} (f : ε → Program σ PUnit) (cond : σ → ε → Prop)
    [∀ s e, Decidable (cond s e)] :
    (s : σ) → (events : List ε) → Decidable (AlongEach f cond s events)
  | _, [] => inferInstanceAs (Decidable True)
  | s, e :: events =>
    have : Decidable (match f e s with
        | (some _, t) => AlongEach f cond t events
        | (none, _) => True) :=
      match f e s with
      | (some _, t) => decidableAlongEach f cond t events
      | (none, _) => inferInstanceAs (Decidable True)
    inferInstanceAs (Decidable (cond s e ∧ _))

/-- A program that is run for each event, and stops when one run fails, keeps what each run under
the condition keeps. -/
theorem forEach_keeps {σ ε : Type u} {f : ε → Program σ PUnit} {cond : σ → ε → Prop}
    {I : σ → Prop} (hstep : ∀ s e, I s → cond s e → I (f e s).2) {s : σ} {events : List ε}
    (hs : I s) (h : AlongEach f cond s events) : I (Program.forEach f events s).2 := by
  induction events generalizing s with
  | nil => exact hs
  | cons e events ih =>
    have hnext : I (f e s).2 := hstep s e hs h.1
    cases hr : f e s with
    | mk o t =>
      rw [hr] at hnext
      cases o with
      | none =>
        rw [Program.forEach, Program.bind_of_none hr]
        exact hnext
      | some u =>
        have htail := h.2
        rw [hr] at htail
        rw [Program.forEach, Program.bind_of_some hr]
        exact ih hnext htail

theorem AlongEach.of_along {σ ε : Type u} {f : ε → Program σ PUnit} {cond : σ → ε → Prop} {s : σ}
    {events : List ε} (h : Along (fun s e => (f e s).2) cond s events) :
    AlongEach f cond s events := by
  induction events generalizing s with
  | nil => trivial
  | cons e events ih =>
    refine ⟨h.1, ?_⟩
    have htail : AlongEach f cond (f e s).2 events := ih h.2
    cases hr : f e s with
    | mk o t =>
      rw [hr] at htail
      cases o with
      | none => trivial
      | some u => exact htail

/-- Where an event keeps the property exactly under the condition, the property holds after every
part of a run exactly when all events that the run gets to meet the condition. -/
theorem forEach_take_iff {σ ε : Type u} {f : ε → Program σ PUnit} {cond : σ → ε → Prop}
    {I : σ → Prop} (hstep : ∀ s e, I s → (I (f e s).2 ↔ cond s e)) {s : σ} {events : List ε}
    (hs : I s) :
    (∀ k, I (Program.forEach f (events.take k) s).2) ↔ AlongEach f cond s events := by
  induction events generalizing s with
  | nil =>
    refine iff_of_true ?_ trivial
    intro k
    rw [List.take_nil]
    exact hs
  | cons e events ih =>
    -- the run after its first event
    have hrun : ∀ k, I (Program.forEach f ((e :: events).take (k + 1)) s).2 ↔
        match f e s with
        | (some _, t) => I (Program.forEach f (events.take k) t).2
        | (none, t) => I t := by
      intro k
      rw [List.take_succ_cons, Program.forEach]
      cases hr : f e s with
      | mk o t =>
        cases o with
        | none => rw [Program.bind_of_none hr]
        | some u => rw [Program.bind_of_some hr]
    have hall : (∀ k, I (Program.forEach f ((e :: events).take k) s).2) ↔
        ∀ k, I (Program.forEach f ((e :: events).take (k + 1)) s).2 := by
      constructor
      · intro h k
        exact h (k + 1)
      · rintro h (_ | k)
        · exact hs
        · exact h k
    rw [hall, AlongEach, ← hstep s e hs]
    simp only [hrun]
    cases hr : f e s with
    | mk o t =>
      cases o with
      | none => simp
      | some u =>
        constructor
        · intro h
          exact ⟨h 0, (ih (h 0)).mp h⟩
        · rintro ⟨ht, hrest⟩
          exact (ih ht).mpr hrest

end Wbr1310.Lib.Machine
