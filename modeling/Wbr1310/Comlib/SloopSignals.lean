import Wbr1310.Comlib.SloopDispatch
import Wbr1310.Lib.Machine

/-!
# Signal dispositions and the list of signals

`sloop_register_signal` puts an entry on the list and makes `sloop_signals_handler` the
disposition of the signal. Two places undo it. `sloop_cancel_signal` takes one entry off the
list and restores `SIG_DFL`, whether or not another entry for the signal is left.
`sloop_run` takes an entry off the list when its handler fails, and leaves the disposition
as it is, whether or not another entry is left.

## Implementation notes

A run is the sequence of the calls into the module, by the program and by its handlers,
and of what `sloop_run` does before and after a handler of a signal. The calls that a
handler makes stand between its call and its return. `signal` succeeds.
-/

namespace Wbr1310.Comlib.Sloop

open Lib Links Program Function

/-- A step that the dispositions or the list of the signals depend on. -/
inductive SignalEvent
  /-- A call into the module. -/
  | call (caller : Caller) (a : Action)
  /-- `sloop_run` calls the handler of the entry. -/
  | entered (i : Fin maxSloopSignal)
  /-- The handler of the entry returned the value to `sloop_run`. -/
  | returned (i : Fin maxSloopSignal) (res : Int)

/-- What `sloop_run` does when the handler of an entry has returned. -/
def handlerReturned (i : Fin maxSloopSignal) (res : Int) : Run Unit :=
  if res < 0 then do
    onLinks fun L => dlistDel L (.signal i)
    freeSignal i
  else pure ()

section

variable (env : Env) (s : SloopData) (sig : Int)

def SignalEvent.code : SignalEvent → Run Unit
  | .call caller a => doAction env caller a
  | .entered i => do
    note (.signalled i)
    modify fun s => { s with calls := s.calls + 1 }
  | .returned i res => handlerReturned i res

def signalStep (e : SignalEvent) : SloopData := (e.code env s).2

/-- The state after `sloop_init`. -/
def initialised : SloopData := (sloopInit .bss).2

def Watched : Prop :=
  ∃ i, OnList s.links .signals (.signal i) ∧ (s.signals i).sig = sig

/-- The signals that `sloop_signals_handler` is set for are those with an entry on the list. -/
def Matched : Prop := ∀ sig, s.disposition sig = true ↔ Watched s sig

/-- Another entry for the signal of the entry is on the list. -/
def HasTwin (i : Fin maxSloopSignal) : Prop :=
  ∃ j, j ≠ i ∧ OnList s.links .signals (.signal j) ∧ (s.signals j).sig = (s.signals i).sig

/-- An entry is cancelled only as the last one for its signal, and its handler fails only
when it is not the last one. -/
def Respects : SignalEvent → Prop
  | .call _ (.cancelSignal (some i)) => ¬ HasTwin s i
  | .returned i res => res < 0 → OnList s.links .signals (.signal i) → HasTwin s i
  | _ => True

/-- The steps of `sloop_run` for a signal that it read from the pipe: the handler of the first
entry for it is called, makes its calls and returns. -/
def deliveryEvents : List SignalEvent :=
  if sig = 0 ∨ dlistEmpty s.links (.head .signals) then []
  else
    match (s.links.next (.head .signals)).bind
      (s.links.search (hasSig s sig) (.head .signals) env.fuel) with
    | some (.signal i) =>
      let b := env.handler s.calls (.signal i) (s.signals i).callback
      .entered i :: b.actions.map (.call (.signal i)) ++ [.returned i b.result]
    | _ => []

end

section Step

variable {env : Env} {s s' : SloopData} {ls ls' : ListId → List Node}

theorem Lists.watched_iff (h : Lists s.links ls) {sig : Int} :
    Watched s sig ↔ ∃ i, .signal i ∈ ls .signals ∧ (s.signals i).sig = sig := by
  simp only [Watched, h.onList_iff]

variable {i : Fin maxSloopSignal} {l : ListId}

theorem Lists.hasTwin_iff (h : Lists s.links ls) :
    HasTwin s i ↔
      ∃ j, j ≠ i ∧ .signal j ∈ ls .signals ∧ (s.signals j).sig = (s.signals i).sig := by
  simp only [HasTwin, h.onList_iff]

theorem Lists.matched_iff (h : Lists s.links ls) :
    Matched s ↔ ∀ sig, s.disposition sig = true ↔
      ∃ i, .signal i ∈ ls .signals ∧ (s.signals i).sig = sig := by
  simp only [Matched, h.watched_iff]

theorem matched_congr (h : Lists s.links ls) (h' : Lists s'.links ls')
    (hd : s'.disposition = s.disposition) (hg : s'.signals = s.signals)
    (hl : ∀ i, Node.signal i ∈ ls' .signals ↔ .signal i ∈ ls .signals) :
    Matched s' ↔ Matched s := by
  rw [h.matched_iff, h'.matched_iff, hd, hg]
  simp only [hl]

/-- Behind an entry that went back to the pool, the list of the signals is as before. -/
theorem Transfer.signal_removed (t : Transfer (.signal i) l .freeSignals ls ls')
    (h' : Lists s'.links ls') (j : Fin maxSloopSignal) :
    Node.signal j ∈ ls' .signals ↔ j ≠ i ∧ .signal j ∈ ls .signals := by
  by_cases hj : j = i
  · subst hj
    exact iff_of_false (fun hi => nomatch h'.unique hi t.mem_target) fun h => h.1 rfl
  · rw [t.mem_iff fun e => hj (Node.signal.inj e)]
    exact ⟨fun h => ⟨hj, h⟩, And.right⟩

section

variable (hm : Matched s) (h : Lists s.links ls) (h' : Lists s'.links ls')

include hm h h'

/-- A registered entry is new on the list, so the others keep their signals. -/
theorem Matched.register {sig : Int} {callback : Callback}
    (t : Transfer (.signal i) .freeSignals .signals ls ls')
    (hd : s'.disposition = Function.update s.disposition sig true)
    (hg : s'.signals = Function.update s.signals i ⟨sig, callback⟩) : Matched s' := by
  rw [h.matched_iff] at hm
  rw [h'.matched_iff]
  have hfree : Node.signal i ∉ ls .signals := fun hi => nomatch h.unique hi t.mem
  have hother : ∀ j, j ≠ i → (Node.signal j ∈ ls' .signals ↔ .signal j ∈ ls .signals) :=
    fun j hj => t.mem_iff (fun e => hj (Node.signal.inj e)) _
  intro sig'
  rw [hd, hg]
  constructor
  · intro hset
    by_cases hsig : sig' = sig
    · exact ⟨i, t.mem_target, by rw [update_self, hsig]⟩
    · rw [update_of_ne hsig] at hset
      obtain ⟨j, hj, hjsig⟩ := (hm sig').mp hset
      have hji : j ≠ i := fun e => hfree (e ▸ hj)
      exact ⟨j, (hother j hji).mpr hj, by rw [update_of_ne hji, hjsig]⟩
  · rintro ⟨j, hj, hjsig⟩
    by_cases hji : j = i
    · subst hji
      rw [update_self] at hjsig
      rw [← hjsig, update_self]
    · rw [update_of_ne hji] at hjsig
      have hset := (hm sig').mpr ⟨j, (hother j hji).mp hj, hjsig⟩
      by_cases hsig : sig' = sig
      · rw [hsig, update_self]
      · rw [update_of_ne hsig, hset]

/-- A cancelled entry gives its signal the default disposition, which matches the list exactly
when no other entry for the signal is on it. -/
theorem Matched.cancel_iff (t : Transfer (.signal i) l .freeSignals ls ls')
    (hd : s'.disposition = Function.update s.disposition (s.signals i).sig false)
    (hg : s'.signals = s.signals) : Matched s' ↔ ¬ HasTwin s i := by
  rw [h.matched_iff] at hm
  rw [h'.matched_iff, h.hasTwin_iff, hd, hg]
  simp only [t.signal_removed h']
  constructor
  · rintro hm' ⟨j, hji, hj, hjsig⟩
    have hset := (hm' (s.signals i).sig).mpr ⟨j, ⟨hji, hj⟩, hjsig⟩
    rw [update_self] at hset
    cases hset
  · intro hlast sig
    by_cases hsig : sig = (s.signals i).sig
    · subst hsig
      rw [update_self]
      refine iff_of_false (by decide) ?_
      rintro ⟨j, ⟨hji, hj⟩, hjsig⟩
      exact hlast ⟨j, hji, hj, hjsig⟩
    · rw [update_of_ne hsig, hm sig]
      constructor
      · rintro ⟨j, hj, rfl⟩
        exact ⟨j, ⟨fun e => hsig (e ▸ rfl), hj⟩, rfl⟩
      · rintro ⟨j, ⟨_, hj⟩, hjsig⟩
        exact ⟨j, hj, hjsig⟩

/-- An entry that is removed without a change of the disposition leaves it matched exactly when
it was not on the list or another entry for the signal is. -/
theorem Matched.remove_iff (t : Transfer (.signal i) l .freeSignals ls ls')
    (hd : s'.disposition = s.disposition) (hg : s'.signals = s.signals) :
    Matched s' ↔ (OnList s.links .signals (.signal i) → HasTwin s i) := by
  rw [h.matched_iff] at hm
  rw [h'.matched_iff, h.hasTwin_iff, h.onList_iff, hd, hg]
  simp only [t.signal_removed h', hm]
  constructor
  · intro hm' hi
    obtain ⟨j, ⟨hji, hj⟩, hjsig⟩ := (hm' _).mp ⟨i, hi, rfl⟩
    exact ⟨j, hji, hj, hjsig⟩
  · intro htwin sig
    constructor
    · rintro ⟨j, hj, rfl⟩
      by_cases hji : j = i
      · subst hji
        obtain ⟨k, hkj, hk, hksig⟩ := htwin hj
        exact ⟨k, ⟨hkj, hk⟩, hksig⟩
      · exact ⟨j, ⟨hji, hj⟩, rfl⟩
    · rintro ⟨j, ⟨_, hj⟩, hjsig⟩
      exact ⟨j, hj, hjsig⟩

end

/-- While `sloop_cancel_signal` empties the list, every signal with a handler is on it. -/
def Covered (s : SloopData) : Prop := ∀ sig, s.disposition sig = true → Watched s sig

theorem Covered.cancel (hc : Covered s) (h : Lists s.links ls) (h' : Lists s'.links ls')
    (t : Transfer (.signal i) l .freeSignals ls ls')
    (hd : s'.disposition = Function.update s.disposition (s.signals i).sig false)
    (hg : s'.signals = s.signals) : Covered s' := by
  intro sig hsig
  rw [hd] at hsig
  have hne : sig ≠ (s.signals i).sig := by
    rintro rfl
    rw [update_self] at hsig
    cases hsig
  rw [update_of_ne hne] at hsig
  obtain ⟨j, hj, rfl⟩ := h.watched_iff.mp (hc sig hsig)
  have hji : j ≠ i := fun e => hne (e ▸ rfl)
  exact h'.watched_iff.mpr ⟨j, (t.signal_removed h' j).mpr ⟨hji, hj⟩, by rw [hg]⟩

theorem Matched.cancelAll {fuel : Nat} (hm : Matched s) (h : Lists s.links ls)
    (hfuel : 128 < fuel) :
    ∃ s', drain .signals cancelSignalEntry fuel s = (some (), s') ∧ Matched s' := by
  obtain ⟨s', ls', he, hl', _, hcovered, hnil⟩ := drain_spec cancelSignalEntry
    (show ListId.signals ≠ .freeSignals by decide) (R := fun s s' => Covered s → Covered s')
    (fun _ h => h) (fun _ _ _ h h' hs => h' (h hs)) (by
      intro s ls e hl he
      obtain ⟨i, rfl⟩ := kind_signal (hl.kind _ e he)
      obtain ⟨l, L, ls', hr, hl', t⟩ := cancelSignalEntry_spec hl i
      exact ⟨l, _, ls', hr, hl', t, fun hc => hc.cancel hl hl' t rfl rfl⟩)
    h fuel (Nat.lt_of_le_of_lt (h.length_le .signals) hfuel)
  have hunwatched : ∀ sig, ¬ Watched s' sig := by
    intro sig hsig
    obtain ⟨_, hi, _⟩ := hl'.watched_iff.mp hsig
    rw [hnil] at hi
    cases hi
  refine ⟨s', he, fun sig => iff_of_false (fun hset => ?_) (hunwatched sig)⟩
  exact hunwatched sig (hcovered (fun sig => (hm sig).mp) sig hset)

end Step

section Runs

variable {env : Env} {s s' : SloopData}

theorem doAction_matched_iff (hfuel : 128 < env.fuel) (hlists : ∃ ls, Lists s.links ls)
    (hm : Matched s) (caller : Caller) (a : Action) :
    Matched (doAction env caller a s).2 ↔ Respects s (.call caller a) := by
  obtain ⟨ls, hl⟩ := hlists
  obtain ⟨t, ls', he, hl', hmoves, _, hframed⟩ := doAction_spec hl hfuel caller a
  by_cases ha : a.kind ≠ some .signal
  · rw [he]
    have hsame := hframed.signals ha
    have hresp : Respects s (.call caller a) := by
      cases a with
      | cancelSignal | registerSignal => exact absurd rfl ha
      | register | cancel | registerTimeout | cancelTimeout | terminate => trivial
    refine iff_of_true ((matched_congr hl hl' hsame.1 hsame.2 ?_).mpr hm) hresp
    have heq : ls' .signals = ls .signals := hmoves.eq_of_kind ha
    exact fun i => by rw [heq]
  · cases a with
    | registerSignal sig callback =>
      refine iff_of_true ?_ trivial
      obtain hreg | ⟨i, L, ls₁, hreg, hl₁, htr⟩ := sloopRegisterSignal_spec hl sig callback
      · rw [doAction, bind_of_some hreg]
        exact hm
      · rw [doAction, bind_of_some hreg]
        have hm₁ : Matched { s with
          links := L
          signals := update s.signals i ⟨sig, callback⟩
          disposition := update s.disposition sig true } := hm.register hl hl₁ htr rfl rfl
        exact hm₁
    | cancelSignal handle =>
      cases handle with
      | some i =>
        obtain ⟨l, L, ls₁, hc, hl₁, htr⟩ := cancelSignalEntry_spec hl i
        have hcancel : sloopCancelSignal env.fuel (some i) s = _ := hc
        rw [doAction, bind_of_some hcancel]
        have hiff : Matched { s with
          links := L
          disposition := update s.disposition (s.signals i).sig false } ↔ ¬ HasTwin s i :=
          hm.cancel_iff hl hl₁ htr rfl rfl
        exact hiff
      | none =>
        refine iff_of_true ?_ trivial
        obtain ⟨s₁, hc, hm₁⟩ := hm.cancelAll hl hfuel
        have hcancel : sloopCancelSignal env.fuel none s = _ := hc
        rw [doAction, bind_of_some hcancel]
        exact hm₁
    | register | cancel | registerTimeout | cancelTimeout | terminate =>
      exact absurd (by simp [Action.kind]) ha

theorem handlerReturned_spec {ls : ListId → List Node} (h : Lists s.links ls)
    (i : Fin maxSloopSignal) {res : Int} (hres : res < 0) :
    ∃ l L ls', handlerReturned i res s = (some (), { s with links := L }) ∧ Lists L ls' ∧
      Transfer (.signal i) l .freeSignals ls ls' := by
  rw [handlerReturned, if_pos hres]
  exact relink_spec h rfl

theorem handlerReturned_returns {ls : ListId → List Node} (h : Lists s.links ls)
    (i : Fin maxSloopSignal) (res : Int) : ∃ s', handlerReturned i res s = (some (), s') := by
  by_cases hres : res < 0
  · obtain ⟨_, L, _, he, _⟩ := handlerReturned_spec h i hres
    exact ⟨_, he⟩
  · exact ⟨s, by rw [handlerReturned, if_neg hres]; rfl⟩

/-- Every step keeps the lists well formed. -/
theorem signalStep_lists (hfuel : 128 < env.fuel) (s : SloopData) (e : SignalEvent)
    (hlists : ∃ ls, Lists s.links ls) : ∃ ls, Lists (signalStep env s e).links ls := by
  obtain ⟨ls, hl⟩ := hlists
  cases e with
  | call caller a =>
    obtain ⟨t, ls', he, hl', _⟩ := doAction_spec hl hfuel caller a
    simp only [signalStep, SignalEvent.code, he]
    exact ⟨ls', hl'⟩
  | entered i => exact ⟨ls, hl⟩
  | returned i res =>
    simp only [signalStep, SignalEvent.code]
    by_cases hres : res < 0
    · obtain ⟨_, L, ls', he, hl', _⟩ := handlerReturned_spec hl i hres
      rw [he]
      exact ⟨ls', hl'⟩
    · rw [handlerReturned, if_neg hres]
      exact ⟨ls, hl⟩

/-- A step keeps dispositions and entries matched just if it respects the other entries. -/
theorem signalStep_matched_iff (hfuel : 128 < env.fuel) (s : SloopData) (e : SignalEvent)
    (hlists : ∃ ls, Lists s.links ls) (hm : Matched s) :
    Matched (signalStep env s e) ↔ Respects s e := by
  cases e with
  | call caller a => exact doAction_matched_iff hfuel hlists hm caller a
  | entered i => exact iff_of_true hm trivial
  | returned i res =>
    simp only [signalStep, SignalEvent.code, Respects]
    by_cases hres : res < 0
    · obtain ⟨ls, hl⟩ := hlists
      obtain ⟨l, L, ls', he, hl', t⟩ := handlerReturned_spec hl i hres
      have hiff : Matched { s with links := L } ↔ _ := hm.remove_iff hl hl' t rfl rfl
      rw [he, hiff]
      exact ⟨fun h _ => h, fun h => h hres⟩
    · rw [handlerReturned, if_neg hres]
      exact iff_of_true hm fun h => absurd h hres

theorem initialised_spec : (∃ ls, Lists initialised.links ls) ∧ Matched initialised := by
  obtain ⟨L, he, hl⟩ := sloopInit_spec
  rw [initialised, he]
  refine ⟨⟨_, hl⟩, ?_⟩
  rw [Lists.matched_iff (s := { SloopData.bss with links := L }) hl]
  intro sig
  refine iff_of_false (by simp [SloopData.bss]) ?_
  rintro ⟨_, hi, _⟩
  cases hi

/-- The actions of a handler are a run of steps. -/
theorem forEach_doAction (hfuel : 128 < env.fuel) (caller : Caller) (as : List Action)
    (hlists : ∃ ls, Lists s.links ls) :
    forEach (doAction env caller) as s =
      (some (), Machine.run (signalStep env) s (as.map (.call caller))) := by
  induction as generalizing s with
  | nil => rfl
  | cons a as ih =>
    obtain ⟨ls, hl⟩ := hlists
    obtain ⟨t, ls', he, hl', _⟩ := doAction_spec hl hfuel caller a
    have hstep : signalStep env s (.call caller a) = t := by
      simp only [signalStep, SignalEvent.code, he]
    rw [forEach, bind_of_some he, ih ⟨ls', hl'⟩, ← hstep]
    rfl

/-- The dispatch to the entry that the search finds. -/
theorem signalPass_run (hfuel : 128 < env.fuel) (hlists : ∃ ls, Lists s.links ls) {sig : Int}
    {i : Fin maxSloopSignal} {b : Behaviour}
    (hfirst : (s.links.next (.head .signals)).bind
      (s.links.search (hasSig s sig) (.head .signals) env.fuel) = some (.signal i))
    (hb : env.handler s.calls (.signal i) (s.signals i).callback = b) :
    signalPass env sig s = (some (), Machine.run (signalStep env) s
      (.entered i :: b.actions.map (.call (.signal i)) ++ [.returned i b.result])) := by
  obtain ⟨first, hnext, hsearch⟩ := Option.bind_eq_some_iff.mp hfirst
  let s₁ : SloopData := signalStep env s (.entered i)
  have hcalls := forEach_doAction hfuel (.signal i) b.actions (s := s₁) hlists
  let s₂ : SloopData := Machine.run (signalStep env) s₁ (b.actions.map (.call (.signal i)))
  have hlists₂ : ∃ ls, Lists s₂.links ls :=
    Machine.run_keeps (I := fun t => ∃ ls, Lists t.links ls)
      (fun t e ht => signalStep_lists hfuel t e ht) (s := s₁) hlists _
  have hrun : signalPass env sig s = handlerReturned i b.result s₂ := by
    simp only [signalPass, get_bind_apply]
    rw [hnext, ofOption_some_bind, hsearch, ofOption_some_bind]
    have hhandler : runHandler env (.signal i) (s.signals i).callback
        { s with log := ⟨.signalled i, s.links, s.timeouts⟩ :: s.log } = (some b.result, s₂) := by
      simp only [runHandler, get_bind_apply, modify_bind_apply]
      rw [hb]
      exact bind_of_some hcalls
    exact bind_of_some hhandler
  have hend : handlerReturned i b.result s₂ =
      (some (), signalStep env s₂ (.returned i b.result)) := by
    obtain ⟨ls, hl⟩ := hlists₂
    obtain ⟨t, ht⟩ := handlerReturned_returns hl i b.result
    simp only [signalStep, SignalEvent.code, ht]
  rw [hrun, hend, Machine.run, List.foldl_append]
  rfl

/-- A delivery is a run of steps. -/
theorem readSignal_run (hfuel : 128 < env.fuel) (hlists : ∃ ls, Lists s.links ls) (sig : Int) :
    (readSignal env (some sig) s).2 =
      Machine.run (signalStep env) s (deliveryEvents env s sig) := by
  simp only [readSignal, deliveryEvents]
  by_cases hzero : sig = 0
  · rw [if_pos hzero, if_pos (Or.inl hzero)]
    rfl
  · rw [if_neg hzero]
    by_cases hempty : dlistEmpty s.links (.head .signals) = true
    · simp only [get_bind_apply]
      rw [if_pos hempty, if_pos (Or.inr hempty)]
      rfl
    · simp only [get_bind_apply]
      rw [if_neg hempty, if_neg (not_or.mpr ⟨hzero, hempty⟩)]
      obtain ⟨ls, hl⟩ := hlists
      obtain ⟨n, hn⟩ := search_signals hl hfuel sig
      have hfirst : (s.links.next (.head .signals)).bind
          (s.links.search (hasSig s sig) (.head .signals) env.fuel) = some n := by
        rw [(hl.family.ring .signals).next_head]
        exact hn
      rw [hfirst]
      cases n with
      | signal i =>
        rw [bind_of_some (signalPass_run hfuel ⟨ls, hl⟩ hfirst rfl)]
        rfl
      | head | sock | timeout =>
        -- the search ended at the head of the list: no entry is for this signal
        have hpass : signalPass env sig s = (some (), s) := by
          obtain ⟨first, hnext, hsearch⟩ := Option.bind_eq_some_iff.mp hfirst
          simp only [signalPass, get_bind_apply]
          rw [hnext, ofOption_some_bind, hsearch]
          rfl
        rw [bind_of_some hpass]
        rfl

/-- Along every sequence of calls and deliveries the dispositions match the list after each
step exactly when each step respects the list, and what `sloop_run` does with a signal is
such a sequence. -/
theorem dispositions_matched_iff (env : Env) (hfuel : 128 < env.fuel) (events : List SignalEvent) :
    (Machine.Throughout (signalStep env) Matched initialised events ↔
      Machine.Along (signalStep env) Respects initialised events) ∧
    ∀ sig, (readSignal env (some sig) (Machine.run (signalStep env) initialised events)).2 =
      Machine.run (signalStep env) initialised
        (events ++ deliveryEvents env (Machine.run (signalStep env) initialised events) sig) := by
  obtain ⟨hlists, hmatched⟩ := initialised_spec
  have hkeep := signalStep_lists hfuel
  constructor
  · exact Machine.throughout_iff_of_invariant (A := fun s => ∃ ls, Lists s.links ls) hkeep
      (signalStep_matched_iff hfuel) hlists hmatched
  · intro sig
    rw [readSignal_run hfuel (Machine.run_keeps hkeep hlists events)]
    simp only [Machine.run, List.foldl_append]

def callsNothing : Env where
  fuel := 129
  signalPipe := 5
  handler := fun _ _ _ => ⟨[], 0⟩
  uptime := fun _ => 0
  select := fun _ => ⟨0, false, fun _ => false, fun _ => false, none⟩

/-- The hangup signal is registered, and its handler is called and succeeds. -/
theorem dispositions_matched_success :
    128 < callsNothing.fuel ∧ Machine.Throughout (signalStep callsNothing) Matched initialised
      [.call .main (.registerSignal 1 ⟨0, 0⟩), .entered 15, .returned 15 0] := by
  refine ⟨by decide, ?_⟩
  refine (dispositions_matched_iff callsNothing (by decide) _).1.mpr ⟨trivial, trivial, ?_, trivial⟩
  intro hfails
  exact absurd hfails (by decide)

theorem Matched.unwatched (h : Matched s) (sig : Int) (i : Fin maxSloopSignal)
    (hlists : ∃ ls, Lists s.links ls) (hfirst : s.links.next (.head .signals) = some (.signal i))
    (hi : (s.signals i).sig = sig) : s.disposition sig ≠ false := by
  obtain ⟨ls, hl⟩ := hlists
  rw [(h sig).mpr ⟨i, hl.onList (hl.mem_of_next hfirst (by simp)), hi⟩]
  decide

theorem Matched.unset (h : Matched s) (hempty : s.links.next (.head .signals) =
    some (.head .signals)) (sig : Int) : s.disposition sig ≠ true := by
  intro hset
  obtain ⟨i, ⟨xs, hring, hi⟩, _⟩ := (h sig).mp hset
  rw [hring.next_head_eq_iff.mp hempty] at hi
  cases hi

/-- Two ways to lose the match: one of two entries for the hangup signal is cancelled, and the
handler of the only entry for it fails. -/
theorem dispositions_mismatched :
    ¬ Machine.Throughout (signalStep callsNothing) Matched initialised
        [.call .main (.registerSignal 1 ⟨0, 0⟩), .call .main (.registerSignal 1 ⟨1, 0⟩),
          .call .main (.cancelSignal (some 15))] ∧
      ¬ Machine.Throughout (signalStep callsNothing) Matched initialised
        [.call .main (.registerSignal 1 ⟨0, 0⟩), .entered 15, .returned 15 (-1)] := by
  constructor
  · intro h
    have hlists := Machine.run_keeps (signalStep_lists (by decide : 128 < callsNothing.fuel))
      initialised_spec.1 [.call .main (.registerSignal 1 ⟨0, 0⟩),
        .call .main (.registerSignal 1 ⟨1, 0⟩), .call .main (.cancelSignal (some 15))]
    refine (Machine.Throughout.last h).unwatched 1 14 hlists ?_ ?_ ?_
    · decide +kernel
    · decide +kernel
    · decide +kernel
  · intro h
    refine (Machine.Throughout.last h).unset ?_ 1 ?_
    · decide +kernel
    · decide +kernel

end Runs

end Wbr1310.Comlib.Sloop
