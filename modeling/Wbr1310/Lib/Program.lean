import Mathlib

/-!
# Programs on a state that may fail

A program maps a state to a result and a new state. A program that fails keeps
the state it failed in, so a property of every state a run passes through can be
stated of failing runs too. `Triple` is the usual triple with one postcondition
for each way a program can end, and `Always` says that a property held at every
moment of a recorded history.
-/

namespace Wbr1310.Lib

universe u

/-- A computation on the state `σ` with a result, or a failure, and the state it ends in. -/
def Program (σ α : Type u) : Type u := σ → Option α × σ

namespace Program

variable {σ α β : Type u}

instance : Monad (Program σ) where
  pure a := fun s => (some a, s)
  bind m f := fun s => match m s with
    | (some a, s') => f a s'
    | (none, s') => (none, s')

/-- Read the state. -/
def get : Program σ σ := fun s => (some s, s)

/-- Change the state. -/
def modify (f : σ → σ) : Program σ PUnit := fun s => (some ⟨⟩, f s)

/-- Stop with a failure. -/
def fail : Program σ α := fun s => (none, s)

/-- Use a value that may be missing. -/
def ofOption (o : Option α) : Program σ α := fun s => (o, s)

/-- Change the state by a function that may fail. -/
def update (f : σ → Option σ) : Program σ PUnit := fun s =>
  match f s with
  | some s' => (some ⟨⟩, s')
  | none => (none, s)

/-- Run a program for each element of a list. -/
def forEach (f : β → Program σ PUnit) : List β → Program σ PUnit
  | [] => pure ⟨⟩
  | b :: bs => do
    f b
    forEach f bs

@[simp]
theorem pure_apply (a : α) (s : σ) : (pure a : Program σ α) s = (some a, s) := rfl

@[simp]
theorem get_apply (s : σ) : (get : Program σ σ) s = (some s, s) := rfl

@[simp]
theorem modify_apply (f : σ → σ) (s : σ) : modify f s = (some ⟨⟩, f s) := rfl

theorem bind_of_some {m : Program σ α} {f : α → Program σ β} {s s' : σ} {a : α}
    (h : m s = (some a, s')) : (m >>= f) s = f a s' := by
  change (match m s with
    | (some a, s') => f a s'
    | (none, s') => (none, s')) = f a s'
  rw [h]

@[simp]
theorem get_bind_apply (f : σ → Program σ β) (s : σ) : (get >>= f) s = f s s := rfl

@[simp]
theorem modify_bind_apply (g : σ → σ) (f : PUnit → Program σ β) (s : σ) :
    (modify g >>= f) s = f ⟨⟩ (g s) := rfl

theorem bind_of_none {m : Program σ α} {f : α → Program σ β} {s s' : σ}
    (h : m s = (none, s')) : (m >>= f) s = (none, s') := by
  change (match m s with
    | (some a, s') => f a s'
    | (none, s') => (none, s')) = (none, s')
  rw [h]

theorem bind_assoc_program {γ : Type u} (m : Program σ α) (f : α → Program σ β)
    (g : β → Program σ γ) : ((m >>= f) >>= g) = (m >>= fun a => f a >>= g) := by
  funext s
  cases h : m s with
  | mk o s' =>
    cases o with
    | none => rw [bind_of_none (bind_of_none h), bind_of_none h]
    | some a =>
      rw [bind_of_some h]
      change (match (m >>= f) s with
        | (some b, s'') => g b s''
        | (none, s'') => (none, s'')) = _
      rw [bind_of_some h]
      rfl

theorem bind_pure_unit (m : Program σ PUnit) :
    (m >>= fun _ => pure ⟨⟩ : Program σ PUnit) = m := by
  funext s
  cases h : m s with
  | mk o s' =>
    cases o with
    | none => exact bind_of_none h
    | some a => exact bind_of_some h

@[simp]
theorem ofOption_some_bind (a : α) (f : α → Program σ β) :
    (ofOption (some a) >>= f : Program σ β) = f a := rfl

/-- The program returned with `Q` or failed with `E`. -/
def Ended (Q : α → σ → Prop) (E : σ → Prop) : Option α × σ → Prop
  | (some a, s) => Q a s
  | (none, s) => E s

theorem Ended.mono {Q Q' : α → σ → Prop} {E E' : σ → Prop} {r : Option α × σ} (h : Ended Q E r)
    (hQ : ∀ a s, Q a s → Q' a s) (hE : ∀ s, E s → E' s) : Ended Q' E' r := by
  obtain ⟨o, s⟩ := r
  cases o with
  | none => exact hE s h
  | some a => exact hQ a s h

/-- From a state with `P` the program returns with `Q` or fails with `E`. -/
structure Triple (P : σ → Prop) (m : Program σ α) (Q : α → σ → Prop) (E : σ → Prop) : Prop where
  ended : ∀ s, P s → Ended Q E (m s)

section Rules

variable {P : σ → Prop} {E : σ → Prop}

variable {Q : α → σ → Prop} {m : Program σ α} {I : σ → Prop}

theorem Triple.pure {a : α} (h : ∀ s, P s → Q a s) :
    Triple P (pure a : Program σ α) Q E :=
  ⟨h⟩

theorem Triple.skip {a : α} : Triple P (Pure.pure a) (fun _ => P) E := ⟨fun _ hs => hs⟩

theorem Triple.bind {f : α → Program σ β} {R : α → σ → Prop} {Q : β → σ → Prop}
    (hm : Triple P m R E) (hf : ∀ a, Triple (R a) (f a) Q E) :
    Triple P (m >>= f) Q E := by
  constructor
  intro s hs
  have h := hm.ended s hs
  change Ended Q E (match m s with
    | (some a, s') => f a s'
    | (none, s') => (none, s'))
  cases hms : m s with
  | mk o s' =>
    rw [hms] at h
    cases o with
    | none => exact h
    | some a => exact (hf a).ended s' h

theorem Triple.bind_assoc {γ : Type u} {f : α → Program σ β} {g : β → Program σ γ}
    {R : β → σ → Prop} {Q : γ → σ → Prop} (hm : Triple P (m >>= f) R E)
    (hg : ∀ b, Triple (R b) (g b) Q E) : Triple P (m >>= fun a => f a >>= g) Q E := by
  rw [← bind_assoc_program]
  exact Triple.bind hm hg

theorem Triple.get_bind {f : σ → Program σ β} {Q : β → σ → Prop}
    (h : ∀ s, P s → Triple (fun t => t = s) (f s) Q E) : Triple P (get >>= f) Q E := by
  constructor
  intro s hs
  exact (h s hs).ended s rfl

theorem Triple.get_bind_keep {f : σ → Program σ β} {Q : β → σ → Prop}
    (h : ∀ s, P s → Triple P (f s) Q E) : Triple P (get >>= f) Q E := by
  constructor
  intro s hs
  exact (h s hs).ended s hs

theorem Triple.modify {f : σ → σ} {Q : PUnit → σ → Prop} (h : ∀ s, P s → Q ⟨⟩ (f s)) :
    Triple P (modify f) Q E :=
  ⟨h⟩

theorem Triple.fail (h : ∀ s, P s → E s) :
    Triple P (fail : Program σ α) Q E :=
  ⟨h⟩

theorem Triple.ofOption {o : Option α} (h : ∀ s, P s → E s) :
    Triple P (ofOption o) (fun _ => P) E := by
  constructor
  intro s hs
  cases o with
  | none => exact h s hs
  | some a => exact hs

theorem Triple.of_some (h : ∀ s, P s → ∃ a s', m s = (some a, s') ∧ Q a s') : Triple P m Q E := by
  constructor
  intro s hs
  obtain ⟨a, s', ha, hq⟩ := h s hs
  rw [ha]
  exact hq

theorem Triple.of_reads (h : ∀ s, P s → ∃ a, m s = (some a, s)) :
    Triple P m (fun _ => P) E := by
  apply Triple.of_some
  intro s hs
  obtain ⟨a, ha⟩ := h s hs
  exact ⟨a, s, ha, hs⟩

theorem Triple.run (h : Triple P m Q E) {s : σ} (hs : P s) :
    (∃ a s', m s = (some a, s') ∧ Q a s') ∨ ∃ s', m s = (none, s') ∧ E s' := by
  have hm := h.ended s hs
  cases hms : m s with
  | mk o s' =>
    rw [hms] at hm
    cases o with
    | none => exact .inr ⟨s', rfl, hm⟩
    | some a => exact .inl ⟨a, s', rfl, hm⟩

/-- What holds of every end holds at the end. -/
theorem Triple.always (h : Triple P m (fun _ => I) I) {s : σ} (hs : P s) : I (m s).2 := by
  obtain ⟨a, s', hr, hi⟩ | ⟨s', hr, hi⟩ := h.run hs
  · rw [hr]
    exact hi
  · rw [hr]
    exact hi

theorem Triple.of_always (h : ∀ s, P s → I (m s).2) :
    Triple P m (fun _ => I) I := by
  constructor
  intro s hs
  have hm := h s hs
  cases hms : m s with
  | mk o s' =>
    rw [hms] at hm
    cases o with
    | none => exact hm
    | some a => exact hm

variable {P' : σ → Prop}

theorem Triple.mono {Q' : α → σ → Prop} {E' : σ → Prop} (h : Triple P m Q E)
    (hP : ∀ s, P' s → P s) (hQ : ∀ a s, Q a s → Q' a s) (hE : ∀ s, E s → E' s) :
    Triple P' m Q' E' := by
  constructor
  intro s hs
  exact (h.ended s (hP s hs)).mono hQ hE

theorem Triple.pre (h : Triple P m Q E) (hP : ∀ s, P' s → P s) : Triple P' m Q E :=
  h.mono hP (fun _ _ hs => hs) fun _ hs => hs

theorem Triple.cases (h : Triple P m Q E) (h' : Triple P' m Q E) :
    Triple (fun s => P s ∨ P' s) m Q E :=
  ⟨fun s hs => hs.elim (h.ended s) (h'.ended s)⟩

theorem Triple.or {Q' : α → σ → Prop} (h : Triple P m Q E) (h' : Triple P' m Q' E) :
    Triple (fun s => P s ∨ P' s) m (fun a s => Q a s ∨ Q' a s) E :=
  Triple.cases (h.mono (fun _ hs => hs) (fun _ _ => .inl) fun _ hs => hs)
    (h'.mono (fun _ hs => hs) (fun _ _ => .inr) fun _ hs => hs)

theorem Triple.ite {c : Prop} [Decidable c] {m' : Program σ α} (ht : c → Triple P m Q E)
    (hf : ¬ c → Triple P m' Q E) :
    Triple P (if c then m else m') Q E := by
  by_cases h : c
  · rw [if_pos h]
    exact ht h
  · rw [if_neg h]
    exact hf h

/-- The invariant rule of a loop over a list. -/
theorem Triple.forEach {f : β → Program σ PUnit} {bs : List β}
    (h : ∀ b ∈ bs, Triple I (f b) (fun _ => I) E) :
    Triple I (forEach f bs) (fun _ => I) E := by
  induction bs with
  | nil => exact Triple.skip
  | cons b bs ih =>
    apply Triple.bind (h b List.mem_cons_self)
    intro _
    exact ih fun c hc => h c (List.mem_cons_of_mem b hc)

end Rules

end Program

/-- The property holds of the history and of each of its earlier states; the
newest entry of a history comes first. -/
def Always {α : Type*} (P : List α → Prop) (h : List α) : Prop := ∀ t, t <:+ h → P t

instance {α : Type*} (P : List α → Prop) [DecidablePred P] (h : List α) :
    Decidable (Always P h) :=
  decidable_of_iff (∀ t ∈ h.tails, P t) (by simp [Always])

theorem always_nil {α : Type*} {P : List α → Prop} : Always P [] ↔ P [] := by
  simp [Always]

theorem always_cons {α : Type*} {P : List α → Prop} {a : α} {h : List α} :
    Always P (a :: h) ↔ P (a :: h) ∧ Always P h := by
  constructor
  · intro H
    exact ⟨H _ List.suffix_rfl, fun t ht => H t (ht.trans (List.suffix_cons a h))⟩
  · intro ⟨hP, H⟩ t ht
    obtain e | ht := List.suffix_cons_iff.mp ht
    · exact e ▸ hP
    · exact H t ht

end Wbr1310.Lib
