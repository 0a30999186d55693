import Wbr1310.Comlib.SloopDispatch

/-!
# The timers of the select loop

A timer is pending from its registration until it is cancelled or its handler is
called, and a pending timer has to be on the list of the timers. `sloop_run`
returns the entry of a fired timer to the pool after the handler has returned.
If the handler has cancelled its own timer and registered a new one meanwhile,
the pool may have handed out the very same entry, and the new timer is lost.
-/

namespace Wbr1310.Comlib.Sloop

open Lib Links Program

/-- The timer registered last in the entry was neither cancelled nor called since. -/
def pending (i : Fin maxSloopTimeout) : List Moment → Prop
  | [] => False
  | m :: rest => match m.event with
    | .registered j => j = i ∨ pending i rest
    | .cancelled j => j ≠ i ∧ pending i rest
    | .cancelledAll => False
    | .fired j _ => j ≠ i ∧ pending i rest
    | _ => pending i rest

instance decidablePending (i : Fin maxSloopTimeout) : (log : List Moment) →
    Decidable (pending i log)
  | [] => .isFalse id
  | ⟨e, _, _⟩ :: rest =>
    have := decidablePending i rest
    match e with
    | .registered j => inferInstanceAs (Decidable (j = i ∨ pending i rest))
    | .cancelled j => inferInstanceAs (Decidable (j ≠ i ∧ pending i rest))
    | .cancelledAll => .isFalse id
    | .fired j _ => inferInstanceAs (Decidable (j ≠ i ∧ pending i rest))
    | .registering _ | .released _ | .pass _ | .called _ _ | .signalled _ | .other => this

/-- At the last moment of the record every pending timer was on the list. -/
def Kept : List Moment → Prop
  | [] => True
  | m :: rest => ∀ i, pending i (m :: rest) → OnList m.links .timeout (.timeout i)

/-- The last moment of the record is not one in which the handler of a timer asks
for a new timer while its own entry is the first free one. -/
def NotRecycled : List Moment → Prop
  | [] => True
  | m :: _ => ∀ i, m.event = .registering (.timeout i) →
      m.links.next (.head .freeTimeout) ≠ some (.timeout i)

instance : DecidablePred NotRecycled := fun t =>
  match t with
  | [] => .isTrue trivial
  | m :: _ => inferInstanceAs (Decidable (∀ i, m.event = .registering (.timeout i) →
      m.links.next (.head .freeTimeout) ≠ some (.timeout i)))

/-- What holds of the timers as long as no entry was recycled under its handler. -/
def Timely (s : SloopData) (ls : ListId → List Node) : Prop :=
  Always NotRecycled s.log →
    (∀ i, pending i s.log → .timeout i ∈ ls .timeout) ∧ Always Kept s.log

def Timers (s : SloopData) : Prop := ∃ ls, Lists s.links ls ∧ Timely s ls

/-- The invariant while the handler of the timer in entry `i` runs. -/
def Firing (i : Fin maxSloopTimeout) (s : SloopData) : Prop :=
  ∃ ls, Lists s.links ls ∧ Timely s ls ∧ (Always NotRecycled s.log → ¬ pending i s.log)

section Step

variable {s s' : SloopData} {ls ls' : ListId → List Node}

theorem Timely.note {e : Event} (h : Timely s ls) (hl : Lists s'.links ls')
    (hlog : s'.log = ⟨e, s'.links, s'.timeouts⟩ :: s.log)
    (hp : Always NotRecycled s'.log → (∀ i, pending i s.log → .timeout i ∈ ls .timeout) →
      ∀ i, pending i s'.log → .timeout i ∈ ls' .timeout) : Timely s' ls' := by
  intro hnr
  have hnr' : Always NotRecycled s.log := by
    rw [hlog] at hnr
    exact (always_cons.mp hnr).2
  obtain ⟨hmem, hkept⟩ := h hnr'
  have hmem' := hp hnr hmem
  refine ⟨hmem', ?_⟩
  rw [hlog] at hmem' ⊢
  refine always_cons.mpr ⟨?_, hkept⟩
  intro i hi
  exact hl.onList (hmem' i hi)

theorem Moves.timeout_mono (hm : Moves (fun _ l l' => l = .freeTimeout ∧ l' = .timeout) ls ls')
    {n : Node} (hn : n ∈ ls .timeout) : n ∈ ls' .timeout := by
  apply hm.induct (I := fun ks => n ∈ ks .timeout) ?_ hn
  intro e l l' ks ks' ⟨_, hl'⟩ t hk
  subst hl'
  by_cases hne : n = e
  · exact hne ▸ t.mem_target
  · exact (t.mem_iff hne _).mpr hk

theorem Moves.timeout_other {i j : Fin maxSloopTimeout}
    (hm : Moves (fun e _ l' => e = .timeout i ∧ l' = .freeTimeout) ls ls') (hij : i ≠ j)
    (hn : .timeout j ∈ ls .timeout) : .timeout j ∈ ls' .timeout := by
  apply hm.induct (I := fun ks => .timeout j ∈ ks .timeout) ?_ hn
  intro e l l' ks ks' ⟨he, _⟩ t hk
  subst he
  exact (t.mem_iff (fun e => hij (Node.timeout.inj e).symm) _).mpr hk

/-- Each call keeps the invariant, and keeps the fired timer ended when its own
handler makes the call. -/
theorem Recorded.timely {caller : Caller} {a : Action} (hr : Recorded caller s ls s' ls' a)
    (hm : Moves a.Permits ls ls') (h : Lists s.links ls) (h' : Lists s'.links ls')
    (ht : Timely s ls) :
    Timely s' ls' ∧ ∀ f, caller = .timeout f → Always NotRecycled s'.log →
      ¬ pending f s.log → ¬ pending f s'.log := by
  cases hr with
  | plain _ ha hl _ =>
    have heq : ls' .timeout = ls .timeout := hm.eq_of_kind ha
    refine ⟨ht.note h' hl ?_, ?_⟩
    · intro _ hmem i hi
      rw [hl] at hi
      exact heq ▸ hmem i hi
    · intro f _ _ hf
      rw [hl]
      exact hf
  | refused secs usecs callback hl _ _ =>
    have hreg : Timely { s with log := ⟨.registering caller, s.links, s.timeouts⟩ :: s.log } ls :=
      ht.note h rfl fun _ hmem i hi => hmem i hi
    refine ⟨hreg.note h' hl ?_, ?_⟩
    · intro _ hmem i hi
      rw [hl] at hi
      exact hm.timeout_mono (hmem i hi)
    · intro f _ _ hf
      rw [hl]
      exact hf
  | registered secs usecs callback i rest hfree hi hl _ =>
    have hreg : Timely { s with log := ⟨.registering caller, s.links, s.timeouts⟩ :: s.log } ls :=
      ht.note h rfl fun _ hmem i hi => hmem i hi
    refine ⟨hreg.note h' hl ?_, ?_⟩
    · intro _ hmem j hj
      rw [hl] at hj
      cases hj with
      | inl e => exact e ▸ hi
      | inr hj => exact hm.timeout_mono (hmem j hj)
    · intro f hcaller hnr hf
      rw [hl] at hnr ⊢
      have hfirst : s.links.next (.head .freeTimeout) = some (.timeout i) := by
        rw [(h.family.ring .freeTimeout).next_head, hfree]
        rfl
      have hne : i ≠ f := by
        intro e
        subst e
        have hm := (always_cons.mp (always_cons.mp hnr).2).1
        exact hm i (congrArg Event.registering hcaller) hfirst
      intro hp
      cases hp with
      | inl e => exact hne e
      | inr hp => exact hf hp
  | cancelled i hl _ =>
    refine ⟨ht.note h' hl ?_, ?_⟩
    · intro _ hmem j hj
      rw [hl] at hj
      exact hm.timeout_other hj.1 (hmem j hj.2)
    · intro f _ _ hf
      rw [hl]
      exact fun hp => hf hp.2
  | cancelledAll hl _ =>
    refine ⟨ht.note h' hl ?_, ?_⟩
    · intro _ _ j hj
      rw [hl] at hj
      exact hj.elim
    · intro f _ _ _
      rw [hl]
      exact fun hp => hp.elim

theorem Recorded.older {caller : Caller} {a : Action} (hr : Recorded caller s ls s' ls' a)
    (h : Always NotRecycled s'.log) : Always NotRecycled s.log := by
  cases hr with
  | plain _ _ hl _ | cancelled _ hl _ | cancelledAll hl _ =>
    rw [hl] at h
    exact (always_cons.mp h).2
  | refused _ _ _ hl _ _ | registered _ _ _ _ _ _ _ hl _ =>
    rw [hl] at h
    exact (always_cons.mp (always_cons.mp h).2).2

end Step

section Runs

variable {env : Env}

theorem Timers.note {s : SloopData} {e : Event} (h : Timers s)
    (he : ∀ i L T log, pending i (⟨e, L, T⟩ :: log) → pending i log) :
    Timers { s with log := ⟨e, s.links, s.timeouts⟩ :: s.log } := by
  obtain ⟨ls, hl, ht⟩ := h
  exact ⟨ls, hl, ht.note hl rfl fun _ hmem i hi => hmem i (he i _ _ _ hi)⟩

theorem doAction_timers (hfuel : 128 < env.fuel) (caller : Caller) (a : Action) :
    Triple Timers (doAction env caller a) (fun _ => Timers) Timers :=
  doAction_rule hfuel fun _ ⟨ls, hl, ht⟩ => ⟨ls, hl, fun _ ls' hl' hm hr _ =>
    ⟨ls', hl', (hr.timely hm hl hl' ht).1⟩⟩

theorem doAction_firing (hfuel : 128 < env.fuel) (i : Fin maxSloopTimeout) (a : Action) :
    Triple (Firing i) (doAction env (.timeout i) a) (fun _ => Firing i) Timers := by
  apply doAction_rule hfuel
  intro s ⟨ls, hl, ht, hi⟩
  refine ⟨ls, hl, fun s' ls' hl' hm hr _ => ?_⟩
  obtain ⟨ht', hend⟩ := hr.timely hm hl hl' ht
  exact ⟨ls', hl', ht', fun hnr => hend i rfl hnr (hi (hr.older hnr))⟩

theorem timeoutPass_timers (hfuel : 128 < env.fuel) (i : Fin maxSloopTimeout) :
    Triple Timers (timeoutPass env i) (fun _ => Timers) Timers := by
  refine timeoutPass_rule (J := Firing i) (fun _ _ h => h) ?_ ?_ ?_
  · rintro s now ⟨ls, hl, ht⟩ - -
    refine ⟨ls, hl, ht.note hl rfl fun _ hmem j hj => hmem j hj.2, ?_⟩
    intro _ hp
    exact hp.1 rfl
  · intro s callback h
    exact runHandler_at h fun a _ => doAction_firing hfuel i a
  · intro s ⟨ls, hl, ht, hi⟩
    refine ⟨ls, hl, fun l L ls' hl' t => ⟨ls', hl', ht.note hl' rfl fun hnr hmem j hj => ?_⟩⟩
    have hne : Node.timeout j ≠ .timeout i := by
      intro e
      cases e
      exact hi (always_cons.mp hnr).2 hj
    exact (t.mem_iff hne .timeout).mpr (hmem j hj)

/-- The step lemma of the timers. -/
theorem timers_roaming (hfuel : 128 < env.fuel) : Roaming env Timers where
  lists := fun _ ⟨ls, hl, _⟩ => ⟨ls, hl⟩
  clock _ _ h := h
  calls _ h := h
  signalled _ _ h := h.note fun _ _ _ _ hi => hi
  passing e he _ h := h.note fun i L T log hi => by
    cases e with
    | pass | called => exact hi
    | registering | registered | cancelled | cancelledAll | fired | released | signalled | other =>
      exact he.elim
  action caller a _ := doAction_timers hfuel caller a
  free := by
    intro s ls L ls' e l l' ⟨ks, hk, ht⟩ hl hl' t hkind
    have hks : ks .timeout = ls .timeout :=
      (hk.family.ring .timeout).unique (hl.family.ring .timeout)
    have heq : ls' .timeout = ls .timeout :=
      t.eq_of_ne (fun e => hkind (t.same_kind ▸ e ▸ rfl)) fun e => hkind (e ▸ rfl)
    refine ⟨ls', hl', ?_⟩
    intro hnr
    rw [heq, ← hks]
    exact ht hnr
  timeout i := timeoutPass_timers hfuel i

/-- The run lemma of the timers. -/
theorem program_timers (startup : List Action) (n : Nat) (hfuel : 128 < env.fuel) :
    Timers (program env startup n .bss).2 :=
  (timers_roaming hfuel).program hfuel
    (fun _ hl => ⟨_, hl, fun _ => ⟨fun _ h => h.elim, always_nil.mpr trivial⟩⟩) startup n

theorem Timers.kept {s : SloopData} (h : Timers s) (hnr : Always NotRecycled s.log) :
    Always Kept s.log ∧ ∀ i, pending i s.log → OnList s.links .timeout (.timeout i) := by
  obtain ⟨ls, hl, ht⟩ := h
  obtain ⟨hmem, hkept⟩ := ht hnr
  exact ⟨hkept, fun i hi => hl.onList (hmem i hi)⟩

/-- In every run in which no handler of a timer registers a timer while its own
entry is the first free one, every pending timer is on the list at every moment. -/
theorem program_keeps_timers (env : Env) (startup : List Action) (n : Nat)
    (hfuel : 128 < env.fuel) (hnr : Always NotRecycled (program env startup n .bss).2.log) :
    Always Kept (program env startup n .bss).2.log ∧
      ∀ i, pending i (program env startup n .bss).2.log →
        OnList (program env startup n .bss).2.links .timeout (.timeout i) :=
  (program_timers startup n hfuel).kept hnr

/-- Whatever the handlers do, also where they cancel their own entries and a walk is led to another
list, no pool entry is lost or linked twice. -/
theorem program_oneList (env : Env) (startup : List Action) (n : Nat) (hfuel : 128 < env.fuel) :
    OneList (program env startup n .bss).2.links := by
  obtain ⟨ls, hl, -⟩ := program_timers startup n hfuel
  exact hl.oneList

/-- A handler that registers its socket again. -/
theorem program_oneList_renewing :
    OneList (program renewing [.register .read 3 ⟨0, 0⟩] 2 .bss).2.links :=
  program_oneList renewing _ 2 (by decide)

def periodic : Env where
  fuel := 129
  signalPipe := 5
  handler := fun _ caller callback => match caller with
    | .timeout _ => ⟨[.registerTimeout 60 0 callback], 0⟩
    | _ => ⟨[], 0⟩
  uptime := fun k => k
  select := fun _ => ⟨0, false, fun _ => false, fun _ => false, none⟩

/-- A handler that registers its timer again. -/
theorem program_keeps_timers_periodic :
    128 < periodic.fuel ∧
      Always NotRecycled (program periodic [.registerTimeout 0 0 ⟨0, 0⟩] 2 .bss).2.log ∧
      Always Kept (program periodic [.registerTimeout 0 0 ⟨0, 0⟩] 2 .bss).2.log := by
  have hnr : Always NotRecycled (program periodic [.registerTimeout 0 0 ⟨0, 0⟩] 2 .bss).2.log := by
    decide +kernel
  exact ⟨by decide, hnr, (program_keeps_timers periodic _ 2 (by decide) hnr).1⟩

/-- The handler of a timer cancels its own handle and registers a new timer. -/
def restarting : Env where
  fuel := 129
  signalPipe := 5
  handler := fun _ caller callback => match caller with
    | .timeout i => ⟨[.cancelTimeout (some i), .registerTimeout 60 0 callback], 0⟩
    | _ => ⟨[], 0⟩
  uptime := fun _ => 0
  select := fun _ => ⟨0, false, fun _ => false, fun _ => false, none⟩

theorem not_kept_of_empty {log : List Moment}
    (hn : log.head?.map (fun m => m.links.next (.head .timeout)) =
      some (some (.head .timeout))) {i : Fin maxSloopTimeout} (hi : pending i log) :
    ¬ Always Kept log := by
  intro h
  have hk := h log List.suffix_rfl
  cases log with
  | nil => cases hn
  | cons m rest =>
    obtain ⟨xs, hr, hm⟩ := hk i hi
    have hnext : m.links.next (.head .timeout) = some (.head .timeout) := Option.some.inj hn
    rw [hr.next_head_eq_iff.mp hnext] at hm
    cases hm

/-- The new timer takes the entry of the fired one, and `sloop_run` then unlinks
it: the timer is pending and on no list of timers. -/
theorem restarting_loses_timer :
    128 < restarting.fuel ∧
      ¬ Always Kept (program restarting [.registerTimeout 0 0 ⟨0, 0⟩] 1 .bss).2.log := by
  refine ⟨by decide, not_kept_of_empty (i := 127) ?_ ?_⟩
  · decide +kernel
  · decide +kernel

end Runs

end Wbr1310.Comlib.Sloop
