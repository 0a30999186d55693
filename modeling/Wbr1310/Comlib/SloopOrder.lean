import Wbr1310.Comlib.SloopTimers

/-!
# The order of the timers

`sloop_register_timeout` puts a timer before the first one with a later deadline,
so the list stays sorted by the stored deadline, and timers with the same deadline
stand in the order of their registration. `sloop_run` therefore only has to look at
the first timer, also when a signal handler has changed the list since `select`.
The deadline is the `time` of the entry, in the order of `timercmp`.
-/

namespace Wbr1310.Comlib.Sloop

open Lib Links Program List

theorem Timeval.lt_irrefl (a : Timeval) : a.lt a = false := by
  simp [Timeval.lt]

theorem Timeval.lt_trans {a b c : Timeval} (h : a.lt b = true) (h' : b.lt c = true) :
    a.lt c = true := by
  unfold Timeval.lt at *
  split at h <;> split at h' <;> split <;> simp only [decide_eq_true_eq] at * <;> omega

theorem Timeval.lt_or_eq {a b : Timeval} (h : a.lt b = false) : b.lt a = true ∨ b = a := by
  obtain ⟨as, au⟩ := a
  obtain ⟨bs, bu⟩ := b
  simp only [Timeval.lt, Timeval.mk.injEq] at h ⊢
  split at h <;> simp only [decide_eq_false_iff_not] at h
  · rw [if_pos (by omega), decide_eq_true_eq]
    omega
  · rw [if_neg (by omega), decide_eq_true_eq]
    omega

theorem Timeval.lt_asymm {a b : Timeval} (h : a.lt b = true) : b.lt a = false := by
  cases hba : b.lt a with
  | false => rfl
  | true => exact absurd (Timeval.lt_trans h hba) (by simp [Timeval.lt_irrefl])

/-- When the timer in the entry was registered last: how much was recorded by then. -/
def registeredAt (i : Fin maxSloopTimeout) : List Moment → Nat
  | [] => 0
  | m :: rest => if m.event = .registered i then rest.length + 1 else registeredAt i rest

/-- The timer in one entry has an earlier deadline than the timer in the other,
or the same one and was registered first. -/
def Precedes (T : Fin maxSloopTimeout → SloopTimeout) (log : List Moment)
    (i j : Fin maxSloopTimeout) : Prop :=
  (T i).time.lt (T j).time = true ∨
    (T i).time = (T j).time ∧ registeredAt i log < registeredAt j log

def Sorted (L : Links Node) (T : Fin maxSloopTimeout → SloopTimeout) (log : List Moment) : Prop :=
  ∃ is : List (Fin maxSloopTimeout), L.Ring (.head .timeout) (is.map .timeout) ∧
    is.Pairwise (Precedes T log)

/-- At the last moment of the record the timers stood in order. -/
def InOrder : List Moment → Prop
  | [] => True
  | m :: rest => Sorted m.links m.timeouts (m :: rest)

/-- If the handler of a timer is called at the last moment of the record, the
uptime is not before its deadline, and no timer on the list has an earlier one. -/
def FiresFirst : List Moment → Prop
  | [] => True
  | m :: _ => ∀ i now, m.event = .fired i now →
      Timeval.ge ⟨now, 0⟩ (m.timeouts i).time = true ∧
        ∀ j, OnList m.links .timeout (.timeout j) →
          (m.timeouts j).time.lt (m.timeouts i).time = false

/-- If the handler of a timer is called at the last moment of the record, no timer
that was pending then has an earlier deadline. -/
def FiresLeast : List Moment → Prop
  | [] => True
  | m :: rest => ∀ i now, m.event = .fired i now → ∀ j, pending j rest →
      (m.timeouts j).time.lt (m.timeouts i).time = false

section Order

variable {T T' : Fin maxSloopTimeout → SloopTimeout} {log : List Moment}
  {i j k : Fin maxSloopTimeout}

theorem registeredAt_le_length (i : Fin maxSloopTimeout) (log : List Moment) :
    registeredAt i log ≤ log.length := by
  induction log with
  | nil => exact Nat.le_refl 0
  | cons m rest ih =>
    simp only [registeredAt, length_cons]
    split
    · exact Nat.le_refl _
    · exact Nat.le_succ_of_le ih

theorem registeredAt_of_ne {m : Moment} (h : m.event ≠ .registered i) :
    registeredAt i (m :: log) = registeredAt i log :=
  if_neg h

theorem Precedes.trans (h : Precedes T log i j) (h' : Precedes T log j k) :
    Precedes T log i k := by
  cases h with
  | inl h =>
    cases h' with
    | inl h' => exact Or.inl (Timeval.lt_trans h h')
    | inr h' => exact Or.inl (h'.1 ▸ h)
  | inr h =>
    cases h' with
    | inl h' => exact Or.inl (h.1 ▸ h')
    | inr h' => exact Or.inr ⟨h.1.trans h'.1, Nat.lt_trans h.2 h'.2⟩

theorem Precedes.not_later (h : Precedes T log i j) : (T j).time.lt (T i).time = false := by
  cases h with
  | inl h => exact Timeval.lt_asymm h
  | inr h =>
    rw [h.1]
    exact Timeval.lt_irrefl _

theorem Precedes.later {log' : List Moment} (h : Precedes T log i j) (hi : T' i = T i)
    (hj : T' j = T j) (hri : registeredAt i log' = registeredAt i log)
    (hrj : registeredAt j log' = registeredAt j log) : Precedes T' log' i j := by
  unfold Precedes
  rw [hi, hj, hri, hrj]
  exact h

theorem pairwise_insert {α : Type} {R : α → α → Prop} (htrans : ∀ a b c, R a b → R b c → R a c)
    {xs ys : List α} {e : α} (h : (xs ++ ys).Pairwise R) (hxs : ∀ x ∈ xs, R x e)
    (hys : ∀ y ∈ ys.head?, R e y) : (xs ++ e :: ys).Pairwise R := by
  rw [pairwise_append] at h ⊢
  obtain ⟨hx, hy, hxy⟩ := h
  have he : ∀ y ∈ ys, R e y := by
    cases ys with
    | nil => simp
    | cons y₀ ys =>
      have h₀ : R e y₀ := hys y₀ rfl
      intro y hmem
      cases hmem with
      | head => exact h₀
      | tail _ hmem => exact htrans e y₀ y h₀ (rel_of_pairwise_cons hy hmem)
  refine ⟨hx, pairwise_cons.mpr ⟨he, hy⟩, ?_⟩
  intro x hxmem y hymem
  cases hymem with
  | head => exact hxs x hxmem
  | tail _ hymem => exact hxy x hxmem y hymem

end Order

section Step

variable {s s' : SloopData} {ls ls' : ListId → List Node}

theorem Transfer.timeout_sublist {e : Node} {l l' : ListId} (t : Transfer e l l' ls ls')
    (hl' : l' ≠ .timeout) : (ls' .timeout).Sublist (ls .timeout) := by
  by_cases hl : l = .timeout
  · subst hl
    rw [t.source (Ne.symm hl')]
    exact erase_sublist
  · rw [t.eq_of_ne (Ne.symm hl) (Ne.symm hl')]

theorem Moves.timeout_sublist {P : Node → ListId → ListId → Prop} (hm : Moves P ls ls')
    (hP : ∀ e l l', P e l l' → l' ≠ .timeout) : (ls' .timeout).Sublist (ls .timeout) := by
  apply hm.induct (I := fun ks => (ks .timeout).Sublist (ls .timeout)) ?_ (List.Sublist.refl _)
  intro e l l' ks ks' hp t hk
  exact (t.timeout_sublist (hP e l l' hp)).trans hk

def Event.Passive (e : Event) : Prop := (∀ i, e ≠ .registered i) ∧ ∀ i now, e ≠ .fired i now

/-- An invariant of the timers and their record: it is kept when timers are taken off the list
and a passive event is recorded, when a timer is registered and when the first one is called. -/
structure TimerInvariant (I : SloopData → Prop) : Prop where
  lists : ∀ s, I s → ∃ ls, Lists s.links ls
  removed : ∀ s s' ls ls', I s → Lists s.links ls → Lists s'.links ls' →
    (ls' .timeout).Sublist (ls .timeout) → s'.timeouts = s.timeouts →
    (s'.log = s.log ∨
      ∃ e : Event, e.Passive ∧ s'.log = ⟨e, s'.links, s'.timeouts⟩ :: s.log) → I s'
  registered : ∀ s s' ls ls' i, I s → Lists s.links ls → Lists s'.links ls' →
    .timeout i ∈ ls .freeTimeout → Inserted s ls s' ls' i →
    s'.log = ⟨.registered i, s'.links, s'.timeouts⟩ :: s.log → I s'
  fired : ∀ s i now, I s → s.links.next (.head .timeout) = some (.timeout i) →
    Timeval.ge ⟨now, 0⟩ (s.timeouts i).time = true →
    I { s with log := ⟨.fired i now, s.links, s.timeouts⟩ :: s.log }

section Invariant

variable {I : SloopData → Prop} {env : Env}

section

variable (h : TimerInvariant I)

include h

theorem TimerInvariant.note {e : Event} (he : e.Passive) (hs : I s) :
    I { s with log := ⟨e, s.links, s.timeouts⟩ :: s.log } := by
  obtain ⟨ls, hl⟩ := h.lists s hs
  exact h.removed s _ ls ls hs hl hl (List.Sublist.refl _) rfl (Or.inr ⟨e, he, rfl⟩)

theorem TimerInvariant.unseen (hs : I s) (hlinks : s'.links = s.links)
    (hT : s'.timeouts = s.timeouts) (hlog : s'.log = s.log) : I s' := by
  obtain ⟨ls, hl⟩ := h.lists s hs
  exact h.removed s s' ls ls hs hl (hlinks ▸ hl) (List.Sublist.refl _) hT (Or.inl hlog)

theorem TimerInvariant.recorded {caller : Caller} {a : Action}
    (hrec : Recorded caller s ls s' ls' a) (hm : Moves a.Permits ls ls') (hs : I s)
    (hl : Lists s.links ls) (hl' : Lists s'.links ls') : I s' := by
  have hreg : Event.Passive (.registering caller) := ⟨by simp, by simp⟩
  cases hrec with
  | plain _ ha hlog hT =>
    have heq : ls' .timeout = ls .timeout := hm.eq_of_kind ha
    exact h.removed s s' ls ls' hs hl hl' (by rw [heq]) hT
      (Or.inr ⟨_, ⟨by simp, by simp⟩, hlog⟩)
  | refused secs usecs callback hlog hT hls =>
    subst hls
    exact h.removed _ s' ls' ls' (h.note hreg hs) hl hl' (List.Sublist.refl _) hT
      (Or.inr ⟨_, ⟨by simp, by simp⟩, hlog⟩)
  | registered secs usecs callback i rest hfree hmem hlog hins =>
    exact h.registered _ s' ls ls' i (h.note hreg hs) hl hl' (hfree ▸ mem_cons_self)
      ⟨hins.others, hins.position⟩ hlog
  | cancelled i hlog hT | cancelledAll hlog hT =>
    have hsub := hm.timeout_sublist fun _ _ _ hp => by
      rw [hp.2]
      decide
    exact h.removed s s' ls ls' hs hl hl' hsub hT (Or.inr ⟨_, ⟨by simp, by simp⟩, hlog⟩)

theorem TimerInvariant.doAction (hfuel : 128 < env.fuel) (caller : Caller) (a : Action) :
    Triple I (doAction env caller a) (fun _ => I) I := by
  apply doAction_rule hfuel
  intro s hs
  obtain ⟨ls, hl⟩ := h.lists s hs
  exact ⟨ls, hl, fun s' ls' hl' hm hr _ => h.recorded hr hm hs hl hl'⟩

theorem TimerInvariant.timeoutPass (hfuel : 128 < env.fuel) (i : Fin maxSloopTimeout) :
    Triple I (timeoutPass env i) (fun _ => I) I := by
  refine timeoutPass_rule (J := I) (fun _ _ hs => h.unseen hs rfl rfl rfl)
    (fun s now hs hfirst hdue => h.fired s i now hs hfirst hdue) ?_ ?_
  · intro s callback hs
    exact runHandler_at (h.unseen hs rfl rfl rfl) fun a _ => h.doAction hfuel (.timeout i) a
  · intro s hs
    obtain ⟨ls, hl⟩ := h.lists s hs
    refine ⟨ls, hl, fun l L ls' hl' t => ?_⟩
    exact h.removed s _ ls ls' hs hl hl' (t.timeout_sublist (by decide)) rfl
      (Or.inr ⟨_, ⟨by simp, by simp⟩, rfl⟩)

/-- An invariant of the timers is kept by all the loop does. -/
theorem TimerInvariant.roaming (hfuel : 128 < env.fuel) : Roaming env I where
  lists := h.lists
  clock _ _ hs := h.unseen hs rfl rfl rfl
  calls _ hs := h.unseen hs rfl rfl rfl
  signalled _ _ hs := h.note ⟨by simp, by simp⟩ hs
  passing e he _ hs := by
    cases e with
    | pass | called => exact h.note ⟨by simp, by simp⟩ hs
    | registering | registered | cancelled | cancelledAll | fired | released | signalled | other =>
      exact he.elim
  action caller a _ := h.doAction hfuel caller a
  free s ls L ls' e l l' hs hl hl' t hkind :=
    h.removed s _ ls ls' hs hl hl' (t.timeout_sublist fun e => hkind (e ▸ rfl)) rfl (Or.inl rfl)
  timeout i := h.timeoutPass hfuel i

end

end Invariant

theorem Sorted.timeout_list {T : Fin maxSloopTimeout → SloopTimeout} {log : List Moment}
    (h : Sorted s.links T log) (hl : Lists s.links ls) :
    ∃ is : List (Fin maxSloopTimeout), ls .timeout = is.map .timeout ∧
      is.Pairwise (Precedes T log) := by
  obtain ⟨is, hring, hp⟩ := h
  exact ⟨is, (hl.family.ring .timeout).unique hring, hp⟩

theorem Sorted.of_sublist (h : Sorted s.links s.timeouts s.log) (hl : Lists s.links ls)
    (hl' : Lists s'.links ls') (hsub : (ls' .timeout).Sublist (ls .timeout))
    (hT : s'.timeouts = s.timeouts)
    (hlog : ∀ i, registeredAt i s'.log = registeredAt i s.log) :
    Sorted s'.links s'.timeouts s'.log := by
  obtain ⟨is, his, hp⟩ := h.timeout_list hl
  rw [his] at hsub
  obtain ⟨is', hsub', his'⟩ := sublist_map_iff.mp hsub
  refine ⟨is', his' ▸ hl'.family.ring .timeout, (hp.sublist hsub').imp ?_⟩
  intro i j hij
  exact hij.later (by rw [hT]) (by rw [hT]) (hlog i) (hlog j)

/-- A newly registered timer keeps the list in order: it stands behind all timers
with the same deadline, which were registered before it. -/
theorem Sorted.of_inserted {i : Fin maxSloopTimeout} {before : List Moment}
    (h : Sorted s.links s.timeouts before) (hl : Lists s.links ls) (hl' : Lists s'.links ls')
    (hfree : .timeout i ∈ ls .freeTimeout) (hins : Inserted s ls s' ls' i)
    (hlog : s'.log = ⟨.registered i, s'.links, s'.timeouts⟩ :: before) :
    Sorted s'.links s'.timeouts s'.log := by
  obtain ⟨is, his, hp⟩ := h.timeout_list hl
  obtain ⟨xs, ys, hsplit, hls'⟩ := hins.position
  obtain ⟨as, bs, hab, hxs, hys⟩ := map_eq_append_iff.mp (his.symm.trans hsplit.split)
  subst hab hxs hys
  have hne : ∀ j ∈ as ++ bs, j ≠ i := by
    intro j hj e
    have hmem : Node.timeout i ∈ ls .timeout := by
      rw [his, ← e]
      exact mem_map_of_mem hj
    cases hl.unique hmem hfree
  have hold : ∀ j, j ≠ i → registeredAt j s'.log = registeredAt j before := by
    intro j hj
    rw [hlog]
    exact registeredAt_of_ne fun e => hj (Event.registered.inj e).symm
  have hnew : registeredAt i s'.log = before.length + 1 := by
    rw [hlog, registeredAt, if_pos rfl]
  have htrans : ∀ a b c, Precedes s'.timeouts s'.log a b → Precedes s'.timeouts s'.log b c →
      Precedes s'.timeouts s'.log a c := fun _ _ _ h h' => h.trans h'
  refine ⟨as ++ i :: bs, ?_, pairwise_insert htrans ?_ ?_ ?_⟩
  · rw [map_append, map_cons, ← hls']
    exact hl'.family.ring .timeout
  · refine hp.imp_of_mem ?_
    intro j k hj hk hjk
    exact hjk.later (hins.others j (hne j hj)) (hins.others k (hne k hk))
      (hold j (hne j hj)) (hold k (hne k hk))
  · intro j hj
    have hfront := hsplit.front (.timeout j) (mem_map_of_mem hj)
    cases Timeval.lt_or_eq hfront with
    | inl hlt => exact Or.inl hlt
    | inr heq =>
      refine Or.inr ⟨heq, ?_⟩
      rw [hold j (hne j (mem_append_left bs hj)), hnew]
      exact Nat.lt_succ_of_le (registeredAt_le_length j before)
  · intro k hk
    refine Or.inl (hsplit.point (.timeout k) ?_)
    rw [head?_map, Option.mem_def.mp hk]
    rfl

end Step

/-- The invariant of the order: sorted lists, and calls in the order of time. -/
structure Ordered (s : SloopData) : Prop where
  lists : ∃ ls, Lists s.links ls
  sorted : Sorted s.links s.timeouts s.log
  inOrder : Always InOrder s.log
  first : Always FiresFirst s.log

section Runs

variable {env : Env} {s s' : SloopData}

theorem Ordered.push {e : Event} (h : Ordered s) (hl : ∃ ls, Lists s'.links ls)
    (hlog : s'.log = ⟨e, s'.links, s'.timeouts⟩ :: s.log) (he : ∀ i now, e ≠ .fired i now)
    (hsorted : Sorted s'.links s'.timeouts s'.log) : Ordered s' := by
  refine ⟨hl, hsorted, ?_, ?_⟩
  · rw [hlog] at hsorted ⊢
    exact always_cons.mpr ⟨hsorted, h.inOrder⟩
  · rw [hlog]
    refine always_cons.mpr ⟨?_, h.first⟩
    intro i now hfired
    exact absurd hfired (he i now)

theorem Ordered.fired {i : Fin maxSloopTimeout} {now : Int} (h : Ordered s)
    (hfirst : s.links.next (.head .timeout) = some (.timeout i))
    (hdue : Timeval.ge ⟨now, 0⟩ (s.timeouts i).time = true) :
    Ordered { s with log := ⟨.fired i now, s.links, s.timeouts⟩ :: s.log } := by
  obtain ⟨is, hring, hp⟩ := h.sorted
  have hsorted : Sorted s.links s.timeouts (⟨.fired i now, s.links, s.timeouts⟩ :: s.log) := by
    refine ⟨is, hring, hp.imp ?_⟩
    intro j k hjk
    exact hjk.later rfl rfl (registeredAt_of_ne (by simp)) (registeredAt_of_ne (by simp))
  refine ⟨h.lists, hsorted, always_cons.mpr ⟨hsorted, h.inOrder⟩,
    always_cons.mpr ⟨?_, h.first⟩⟩
  intro i' now' he
  cases he
  refine ⟨hdue, ?_⟩
  intro j ⟨xs, hxs, hj⟩
  rw [hxs.unique hring, mem_map] at hj
  obtain ⟨j', hj', e⟩ := hj
  cases e
  cases is with
  | nil => cases hj'
  | cons k rest =>
    rw [hring.next_head] at hfirst
    cases hfirst
    cases hj' with
    | head => exact Timeval.lt_irrefl _
    | tail _ hj' => exact (rel_of_pairwise_cons hp hj').not_later

theorem ordered_invariant : TimerInvariant Ordered where
  lists _ h := h.lists
  removed s s' ls ls' h hl hl' hsub hT hlog := by
    obtain hsame | ⟨e, he, hpush⟩ := hlog
    · refine ⟨⟨ls', hl'⟩, ?_, hsame ▸ h.inOrder, hsame ▸ h.first⟩
      exact h.sorted.of_sublist hl hl' hsub hT fun i => by rw [hsame]
    · refine h.push ⟨ls', hl'⟩ hpush he.2 (h.sorted.of_sublist hl hl' hsub hT ?_)
      intro i
      rw [hpush]
      exact registeredAt_of_ne (he.1 i)
  registered s s' ls ls' i h hl hl' hfree hins hlog :=
    h.push ⟨ls', hl'⟩ hlog (by simp) (h.sorted.of_inserted hl hl' hfree hins hlog)
  fired _ _ _ h hfirst hdue := h.fired hfirst hdue

end Runs

/-- Among the first handlers that are called, no handler of a timer cancels its own handle,
alone or with all others. -/
def Env.LeavesOwn (env : Env) (calls : Nat) : Prop :=
  ∀ n < calls, ∀ i callback, ∀ a ∈ (env.handler n (.timeout i) callback).actions,
    a ≠ .cancelTimeout (some i) ∧ a ≠ .cancelTimeout none

def Unrecycled (s : SloopData) : Prop := (∃ ls, Lists s.links ls) ∧ Always NotRecycled s.log

/-- The invariant while the handler of the timer in entry `i` runs: the entry is
still on the list, so it cannot be the first free one. -/
def Holding (i : Fin maxSloopTimeout) (s : SloopData) : Prop :=
  ∃ ls, Lists s.links ls ∧ .timeout i ∈ ls .timeout ∧ Always NotRecycled s.log

section Own

variable {env : Env} {s s' : SloopData} {ls ls' : ListId → List Node} {k : Nat}

theorem notRecycled_of_ne {m : Moment} {log : List Moment} (he : ∀ c, m.event ≠ .registering c)
    (h : Always NotRecycled log) : Always NotRecycled (m :: log) :=
  always_cons.mpr ⟨fun i hm => absurd hm (he (.timeout i)), h⟩

theorem notRecycled_registering {caller : Caller} {T : Fin maxSloopTimeout → SloopTimeout}
    {log : List Moment} (hl : Lists s.links ls)
    (hown : ∀ i, caller = .timeout i → .timeout i ∈ ls .timeout) (h : Always NotRecycled log) :
    Always NotRecycled (⟨.registering caller, s.links, T⟩ :: log) := by
  refine always_cons.mpr ⟨?_, h⟩
  intro i hi hfirst
  cases hl.unique (hown i (Event.registering.inj hi)) (hl.mem_of_next hfirst (by simp))

theorem Recorded.notRecycled {caller : Caller} {a : Action}
    (hrec : Recorded caller s ls s' ls' a) (hl : Lists s.links ls)
    (hown : ∀ i, caller = .timeout i → .timeout i ∈ ls .timeout)
    (h : Always NotRecycled s.log) : Always NotRecycled s'.log := by
  have hreg := notRecycled_registering (T := s.timeouts) hl hown h
  cases hrec with
  | plain _ _ hlog _ | cancelled _ hlog _ | cancelledAll hlog _ =>
    rw [hlog]
    exact notRecycled_of_ne (by simp) h
  | refused _ _ _ hlog _ _ | registered _ _ _ _ _ _ _ hlog _ =>
    rw [hlog]
    exact notRecycled_of_ne (by simp) hreg

theorem Moves.timeout_stays {a : Action} {i : Fin maxSloopTimeout} (hm : Moves a.Permits ls ls')
    (hi : a ≠ .cancelTimeout (some i)) (hall : a ≠ .cancelTimeout none)
    (hmem : .timeout i ∈ ls .timeout) : .timeout i ∈ ls' .timeout := by
  cases a with
  | registerTimeout => exact hm.timeout_mono hmem
  | cancelTimeout handle =>
    cases handle with
    | none => exact absurd rfl hall
    | some j => exact hm.timeout_other (fun e => hi (e ▸ rfl)) hmem
  | register | cancel | registerSignal | cancelSignal | terminate =>
    have heq : ls' .timeout = ls .timeout := hm.eq_of_kind nofun
    exact heq ▸ hmem

section

variable (hfuel : 128 < env.fuel)

include hfuel

theorem doAction_unrecycled (caller : Caller) (a : Action) (hc : ∀ i, caller ≠ .timeout i)
    (E : SloopData → Prop) : Triple Unrecycled (doAction env caller a) (fun _ => Unrecycled) E :=
  doAction_rule hfuel fun _ ⟨⟨ls, hl⟩, h⟩ => ⟨ls, hl, fun _ ls' hl' _ hr _ =>
    ⟨⟨ls', hl'⟩, hr.notRecycled hl (fun i e => absurd e (hc i)) h⟩⟩

theorem doAction_holding (i : Fin maxSloopTimeout) (a : Action)
    (ha : a ≠ .cancelTimeout (some i) ∧ a ≠ .cancelTimeout none) (E : SloopData → Prop) :
    Triple (Holding i) (doAction env (.timeout i) a) (fun _ => Holding i) E := by
  apply doAction_rule hfuel
  intro s ⟨ls, hl, hmem, h⟩
  refine ⟨ls, hl, fun s' ls' hl' hm hr _ =>
    ⟨ls', hl', hm.timeout_stays ha.1 ha.2 hmem, hr.notRecycled hl ?_ h⟩⟩
  intro j e
  cases e
  exact hmem

/-- The handler holds its entry when it is one of the first `k`, and else the run is over. -/
theorem runHandler_holding (hown : env.LeavesOwn k) (i : Fin maxSloopTimeout)
    (callback : Callback) {E : SloopData → Prop} (h : Holding i s ∨ Over k s) :
    Triple (fun t => t = s) (runHandler env (.timeout i) callback)
      (fun _ t => Holding i t ∨ Over k t) E := by
  by_cases hcalls : s.calls < k
  · obtain hi | hs := h
    · exact (runHandler_at (I := Holding i) hi fun a ha => doAction_holding hfuel i a
        (hown s.calls hcalls i callback a ha) E).mono (fun _ h => h) (fun _ _ => .inl) fun _ h => h
    · exact absurd hs.2 (Nat.lt_asymm hcalls)
  · have hlists : ∃ ls, Lists s.links ls := h.elim (fun ⟨ls, hl, _⟩ => ⟨ls, hl⟩) And.left
    exact (runHandler_over hfuel _ callback hlists (Nat.not_lt.mp hcalls)).mono (fun _ h => h)
      (fun _ _ => .inr) fun _ h => h

theorem timeoutPass_unrecycled (hown : env.LeavesOwn k) (i : Fin maxSloopTimeout) :
    Triple (fun s => Unrecycled s ∨ Over k s) (timeoutPass env i)
      (fun _ s => Unrecycled s ∨ Over k s) fun s => Unrecycled s ∨ Over k s := by
  refine timeoutPass_rule (J := fun s => Holding i s ∨ Over k s) (fun _ _ h => h) ?_
    (fun s callback => runHandler_holding hfuel hown i callback) ?_
  · rintro s now (⟨⟨ls, hl⟩, h⟩ | h) hfirst -
    · exact .inl ⟨ls, hl, hl.mem_of_next hfirst (by simp), notRecycled_of_ne (by simp) h⟩
    · exact .inr h
  · rintro s (⟨ls, hl, hmem, h⟩ | ⟨⟨ls, hl⟩, h⟩)
    · exact ⟨ls, hl, fun l L ls' hl' _ => .inl ⟨⟨ls', hl'⟩, notRecycled_of_ne (by simp) h⟩⟩
    · exact ⟨ls, hl, fun l L ls' hl' _ => .inr ⟨⟨ls', hl'⟩, h⟩⟩

/-- No entry is recycled while its handler runs, up to the call `k`. -/
theorem unrecycled_roaming (hown : env.LeavesOwn k) :
    Roaming env fun s => Unrecycled s ∨ Over k s where
  lists _ h := h.elim And.left And.left
  clock _ _ h := h
  calls _ h := h.imp_right fun h => ⟨h.1, Nat.lt_succ_of_lt h.2⟩
  signalled _ _ h := h.imp_left fun h => ⟨h.1, notRecycled_of_ne (by simp) h.2⟩
  passing e he _ h := h.imp_left fun h => ⟨h.1, by
    cases e with
    | pass | called => exact notRecycled_of_ne (by simp) h.2
    | registering | registered | cancelled | cancelledAll | fired | released | signalled | other =>
      exact he.elim⟩
  action caller a hc :=
    (doAction_unrecycled hfuel caller a hc _).or (doAction_over hfuel k caller a)
  free _ _ _ ls' _ _ _ h _ hl' _ _ := h.imp (fun h => ⟨⟨ls', hl'⟩, h.2⟩) fun h => ⟨⟨ls', hl'⟩, h.2⟩
  timeout i := timeoutPass_unrecycled hfuel hown i

end

end Own

section Programs

variable {env : Env}

theorem firesLeast_of_kept {log : List Moment} (hkept : Always Kept log)
    (hfirst : Always FiresFirst log) : Always FiresLeast log := by
  intro t ht
  cases t with
  | nil => trivial
  | cons m rest =>
    intro i now he j hj
    have hfires : FiresFirst (m :: rest) := hfirst (m :: rest) ht
    have honlist : Kept (m :: rest) := hkept (m :: rest) ht
    by_cases hij : i = j
    · rw [hij]
      exact Timeval.lt_irrefl _
    · have hpend : pending j (m :: rest) := by
        unfold pending
        rw [he]
        exact ⟨hij, hj⟩
      exact (hfires i now he).2 j (honlist j hpend)

/-- The order holds in every run. -/
theorem program_ordered (startup : List Action) (n : Nat) (hfuel : 128 < env.fuel) :
    Ordered (program env startup n .bss).2 := by
  refine (ordered_invariant.roaming hfuel).program hfuel ?_ startup n
  intro L hl
  refine ⟨⟨_, hl⟩, ⟨[], hl.family.ring .timeout, List.Pairwise.nil⟩, ?_, ?_⟩
  · exact always_nil.mpr trivial
  · exact always_nil.mpr trivial

/-- At every moment of every run the timers stand on their list in the order of
their deadlines, and of their registration among equal ones, and a timer is only
called as the first of the list and not before its deadline. When no handler of a
timer cancels its own handle, it also has the least deadline of all pending timers. -/
theorem program_orders_timers (env : Env) (startup : List Action) (n : Nat)
    (hfuel : 128 < env.fuel) :
    Always InOrder (program env startup n .bss).2.log ∧
      Sorted (program env startup n .bss).2.links (program env startup n .bss).2.timeouts
        (program env startup n .bss).2.log ∧
      Always FiresFirst (program env startup n .bss).2.log ∧
      (env.LeavesOwn (program env startup n .bss).2.calls →
        Always FiresLeast (program env startup n .bss).2.log) := by
  have hordered := program_ordered startup n hfuel
  refine ⟨hordered.inOrder, hordered.sorted, hordered.first, ?_⟩
  intro hown
  have hunrecycled := (unrecycled_roaming hfuel hown).program hfuel
    (fun _ hl => .inl ⟨⟨_, hl⟩, always_nil.mpr trivial⟩) startup n
  -- no run makes more calls than it has made in the end
  have hnr := (hunrecycled.resolve_right fun h => Nat.lt_irrefl _ h.2).2
  exact firesLeast_of_kept ((program_timers startup n hfuel).kept hnr).1 hordered.first

theorem periodic_leavesOwn (calls : Nat) : periodic.LeavesOwn calls := by
  intro n _ i callback a ha
  obtain rfl : a = .registerTimeout 60 0 callback := mem_singleton.mp ha
  exact ⟨by simp, by simp⟩

/-- Two timers with the same deadline, whose handlers register the next ones. -/
theorem program_orders_timers_periodic :
    128 < periodic.fuel ∧ (∀ calls, periodic.LeavesOwn calls) ∧
      Always InOrder (program periodic
        [.registerTimeout 1 1000000 ⟨0, 0⟩, .registerTimeout 1 0 ⟨0, 0⟩] 4 .bss).2.log ∧
      Always FiresLeast (program periodic
        [.registerTimeout 1 1000000 ⟨0, 0⟩, .registerTimeout 1 0 ⟨0, 0⟩] 4 .bss).2.log := by
  have h := program_orders_timers periodic
    [.registerTimeout 1 1000000 ⟨0, 0⟩, .registerTimeout 1 0 ⟨0, 0⟩] 4 (by decide)
  exact ⟨by decide, periodic_leavesOwn, h.1, h.2.2.2 (periodic_leavesOwn _)⟩

end Programs

end Wbr1310.Comlib.Sloop
