import Wbr1310.Comlib.SloopRun

/-!
# How the select loop dispatches sockets

`sloop_run` reads the next entry of a list after the handler of the current one
has returned. As long as no handler unlinks the entry it is called for, the walk
stays on its list: a handler can only shorten the part that is still ahead,
because new entries are linked at the front. A handler that cancels its own
entry sends the walk elsewhere.
-/

namespace Wbr1310.Comlib.Sloop

open Lib Links Program List

/-- The call unlinks the entry `i` when it is linked into the list of `d`. -/
def Action.CancelsSocket (a : Action) (d : Direction) (i : Fin maxSloopSocket) : Prop :=
  (∃ d', a = .cancel d' (some i)) ∨ a = .cancel d none

/-- Among the first handlers that are called, no handler of a socket unlinks its own entry. -/
def Env.KeepsOwnSocket (env : Env) (calls : Nat) : Prop :=
  ∀ n < calls, ∀ d i callback, ∀ a ∈ (env.handler n (.socket d i) callback).actions,
    ¬ a.CancelsSocket d i

/-- The sockets called since the last check of the readers or the writers began. -/
def callsInPass : List Moment → List Node
  | [] => []
  | m :: rest => match m.event with
    | .pass _ => []
    | .called _ i => .sock i :: callsInPass rest
    | _ => callsInPass rest

/-- Every pool entry is linked into exactly one list, and that one is of its kind. -/
def OneList (L : Links Node) : Prop :=
  ∀ n k, n.kind = some k → ∃ l, l.kind = k ∧ ∀ l', OnList L l' n ↔ l' = l

/-- The last moment of a record is in order: a called socket was on the list
that was being checked, no socket was called twice in this check, and every
entry was on one list. -/
def DispatchOk : List Moment → Prop
  | [] => True
  | m :: rest => (∀ d i, m.event = .called d i → OnList m.links d.list (.sock i)) ∧
      (callsInPass (m :: rest)).Nodup ∧ OneList m.links

variable {L : Links Node} {ls ls' : ListId → List Node} {l l' : ListId} {a : Action} {e : Node}
  {d : Direction} {rest : List Node}

theorem Lists.onList_iff (h : Lists L ls) {n : Node} : OnList L l n ↔ n ∈ ls l := by
  constructor
  · intro ⟨xs, hr, hn⟩
    exact hr.unique (h.family.ring l) ▸ hn
  · exact h.onList

theorem Lists.oneList (h : Lists L ls) :
    OneList L := by
  intro n k hk
  obtain ⟨l, hl⟩ := h.cover n k hk
  refine ⟨l, Option.some.inj ((h.kind l n hl).symm.trans hk), ?_⟩
  intro l'
  rw [h.onList_iff]
  constructor
  · intro hl'
    exact h.unique hl' hl
  · intro e
    exact e ▸ hl

theorem DispatchOk.nodup {t : List Moment} (h : DispatchOk t) : (callsInPass t).Nodup := by
  cases t with
  | nil => exact nodup_nil
  | cons m rest => exact h.2.1

theorem callsInPass_nodup {log : List Moment} (h : Always DispatchOk log) :
    (callsInPass log).Nodup :=
  (h _ suffix_rfl).nodup

/-- An event that does not belong to the walks over the sockets. -/
def Event.Quiet (e : Event) : Prop := (∀ d, e ≠ .pass d) ∧ ∀ d i, e ≠ .called d i

theorem callsInPass_quiet {e : Event} (h : e.Quiet) (L : Links Node)
    (T : Fin maxSloopTimeout → SloopTimeout) (log : List Moment) :
    callsInPass (⟨e, L, T⟩ :: log) = callsInPass log := by
  cases e with
  | pass d => exact absurd rfl (h.1 d)
  | called d i => exact absurd rfl (h.2 d i)
  | registering | registered | cancelled | cancelledAll | fired | released | signalled | other =>
    rfl

/-- An event that calls nothing keeps the dispatch in order. -/
theorem always_quiet {e : Event} (he : e.Quiet) (h : Lists L ls)
    {T : Fin maxSloopTimeout → SloopTimeout} {log : List Moment} (hlog : Always DispatchOk log) :
    Always DispatchOk (⟨e, L, T⟩ :: log) := by
  refine always_cons.mpr ⟨⟨?_, ?_, h.oneList⟩, hlog⟩
  · intro d i hd
    exact absurd hd (he.2 d i)
  · rw [callsInPass_quiet he]
    exact callsInPass_nodup hlog

theorem Recorded.quiet {caller : Caller} {s s' : SloopData} (hr : Recorded caller s ls s' ls' a)
    (h : Lists s.links ls) (h' : Lists s'.links ls') (hlog : Always DispatchOk s.log) :
    Always DispatchOk s'.log ∧ callsInPass s'.log = callsInPass s.log := by
  cases hr with
  | plain _ _ hl _ | cancelled i hl _ | cancelledAll hl _ =>
    rw [hl]
    exact ⟨always_quiet ⟨by simp, by simp⟩ h' hlog, rfl⟩
  | refused _ _ _ hl _ _ | registered _ _ _ i _ _ _ hl _ =>
    rw [hl]
    exact ⟨always_quiet ⟨by simp, by simp⟩ h' (always_quiet ⟨by simp, by simp⟩ h hlog), rfl⟩

theorem Transfer.after_sublist {x : Node} {k : ListId} (t : Transfer e l l' ls ls') (hx : e ≠ x)
    (hk : k ≠ .timeout) :
    (after x (ls' k)).Sublist (after x (ls k)) := by
  obtain ⟨xs, ys, hxs, hxy, rfl⟩ := t.moved
  have herased : (after x (erased ls l e k)).Sublist (after x (ls k)) := by
    by_cases hkl : k = l
    · subst hkl
      rw [erased, Function.update_self]
      exact after_erase_sublist hx (ls k)
    · rw [erased, Function.update_of_ne hkl]
  by_cases hkl' : k = l'
  · subst hkl'
    rw [hxs hk, nil_append] at hxy
    rw [Function.update_self, hxs hk, nil_append, after_cons_of_ne hx, ← hxy]
    exact herased
  · rw [Function.update_of_ne hkl']
    exact herased

/-- The entry is linked into the list of `d` only, and what is behind it is part of `rest`. -/
structure Ahead (d : Direction) (x : Node) (rest : List Node) (ls : ListId → List Node) :
    Prop where
  mem : x ∈ ls d.list
  only : ∀ l, x ∈ ls l → l = d.list
  sublist : (after x (ls d.list)).Sublist rest

theorem direction_ne_timeout (d : Direction) : d.list ≠ .timeout := by
  cases d <;> decide

theorem Ahead.transfer {x : Node} (h : Ahead d x rest ls) (t : Transfer e l l' ls ls')
    (hx : e ≠ x) : Ahead d x rest ls' := by
  refine ⟨(t.mem_iff hx.symm _).mpr h.mem, ?_, ?_⟩
  · intro k hk
    exact h.only k ((t.mem_iff hx.symm k).mp hk)
  · exact (t.after_sublist hx (direction_ne_timeout d)).trans h.sublist

theorem direction_list_inj {d' : Direction} (h : d.list = d'.list) : d = d' := by
  cases d <;> cases d' <;> first | rfl | cases h

theorem Action.Permits.ne_sock {i : Fin maxSloopSocket} (hp : a.Permits e l l')
    (ha : ¬ a.CancelsSocket d i) (h : Ahead d (.sock i) rest ls) (t : Transfer e l l' ls ls') :
    e ≠ .sock i := by
  intro he
  subst he
  have hl := h.only l t.mem
  cases a with
  | register d' _ _ | registerSignal | registerTimeout =>
    exact absurd (hp.1.symm.trans hl) (by cases d <;> decide)
  | cancel d' handle =>
    cases handle with
    | some j =>
      obtain ⟨hj, _⟩ := hp
      exact ha (.inl ⟨d', by rw [Node.sock.inj hj]⟩)
    | none =>
      obtain ⟨hd, _⟩ := hp
      exact ha (.inr (by rw [direction_list_inj (hd.symm.trans hl)]))
  | cancelSignal handle | cancelTimeout handle =>
    cases handle with
    | some j => cases hp.1
    | none => exact absurd (hp.1.symm.trans hl) (by cases d <;> decide)
  | terminate => exact hp

/-- The state while the handler of socket `x` runs. -/
def InHandler (d : Direction) (x : Node) (rest calls : List Node) (s : SloopData) : Prop :=
  ∃ ls, Lists s.links ls ∧ Ahead d x rest ls ∧ Always DispatchOk s.log ∧
    callsInPass s.log = calls

theorem doAction_inHandler {env : Env} (hfuel : 128 < env.fuel) {i : Fin maxSloopSocket}
    {calls : List Node} {E : SloopData → Prop} (caller : Caller) (ha : ¬ a.CancelsSocket d i) :
    Triple (InHandler d (.sock i) rest calls) (doAction env caller a)
      (fun _ => InHandler d (.sock i) rest calls) E := by
  apply doAction_rule hfuel
  intro s ⟨ls, hl, hahead, hlog, hcalls⟩
  refine ⟨ls, hl, fun s' ls' hl' hm hr _ => ?_⟩
  obtain ⟨hlog', hcalls'⟩ := hr.quiet hl hl' hlog
  have hahead' : Ahead d (.sock i) rest ls' :=
    hm.induct (fun e l l' ks ks' hp t hk => hk.transfer t (hp.ne_sock ha hk t)) hahead
  exact ⟨ls', hl', hahead', hlog', hcalls'.trans hcalls⟩

def Good (s : SloopData) : Prop := (∃ ls, Lists s.links ls) ∧ Always DispatchOk s.log

/-- The state of a walk that still has `rem` ahead. -/
def Walking (d : Direction) (rem : List Node) (s : SloopData) : Prop :=
  ∃ ls, Lists s.links ls ∧ rem <:+ ls d.list ∧ Always DispatchOk s.log ∧
    (rem ++ callsInPass s.log).Nodup

/-- The state after the handler of socket `x`, when only part of `rest` can still be ahead. -/
def Walked (d : Direction) (x : Node) (rest : List Node) (s : SloopData) : Prop :=
  ∃ ls, Lists s.links ls ∧ Ahead d x rest ls ∧ Always DispatchOk s.log ∧
    (rest ++ callsInPass s.log).Nodup

section Walk

variable {env : Env} {d : Direction} {i : Fin maxSloopSocket} {k : Nat}

theorem after_of_suffix {L : Links Node} {ls : ListId → List Node} (h : Lists L ls)
    {l : ListId} {x : Node} {rest : List Node} (hsuf : x :: rest <:+ ls l) :
    after x (ls l) = rest := by
  obtain ⟨pre, hpre⟩ := hsuf
  have hnd := h.nodup l
  rw [← hpre] at hnd ⊢
  have hx : x ∉ pre := fun hm => disjoint_of_nodup_append hnd hm mem_cons_self
  exact after_append_cons rest hx

theorem callSocket_walked (hfuel : 128 < env.fuel) (hown : env.KeepsOwnSocket k)
    (ready : Int → Bool) (rest : List Node) :
    Triple (Walking d (.sock i :: rest)) (callSocket env d ready i)
      (fun _ s => Walked d (.sock i) rest s ∨ Over k s) (Over k) := by
  apply Triple.get_bind
  intro s ⟨ls, hl, hsuf, hlog, hnd⟩
  have hmem : .sock i ∈ ls d.list := hsuf.subset mem_cons_self
  have hahead : Ahead d (.sock i) rest ls := by
    refine ⟨hmem, fun l hl' => hl.unique hl' hmem, ?_⟩
    rw [after_of_suffix hl hsuf]
  have hrest : (rest ++ callsInPass s.log).Nodup :=
    (nodup_cons.mp hnd).2
  apply Triple.ite
  · intro _
    -- the call is recorded before the handler runs
    let s₁ : SloopData := { s with log := ⟨.called d i, s.links, s.timeouts⟩ :: s.log }
    have hlog₁ : Always DispatchOk s₁.log := by
      refine always_cons.mpr ⟨⟨?_, ?_, hl.oneList⟩, hlog⟩
      · intro d' i' e
        cases e
        exact hl.onList hmem
      · exact (nodup_middle.mpr hnd).of_append_right
    apply Triple.bind (R := fun _ t => t = s₁)
    · exact Triple.modify fun t ht => ht ▸ rfl
    intro _
    by_cases hcalls : s.calls < k
    · refine (runHandler_at (s := s₁)
        (I := InHandler d (.sock i) rest (.sock i :: callsInPass s.log))
        ⟨ls, hl, hahead, hlog₁, rfl⟩ fun a ha => doAction_inHandler hfuel (.socket d i)
          (hown s.calls hcalls d i _ a ha)).mono (fun _ h => h) ?_ fun _ h => h
      intro _ t ⟨ls', hl', hahead', hlog', hcalls⟩
      refine .inl ⟨ls', hl', hahead', hlog', ?_⟩
      rw [hcalls]
      exact nodup_middle.mpr hnd
    · exact (runHandler_over hfuel (s := s₁) _ _ ⟨ls, hl⟩ (Nat.not_lt.mp hcalls)).mono
        (fun _ h => h) (fun _ _ h => .inr h) fun _ h => h
  · intro _
    apply Triple.pure
    intro t ht
    subst ht
    exact .inl ⟨ls, hl, hahead, hlog, hrest⟩

theorem checkSockets_head (ready : Int → Bool) (fuel : Nat) :
    checkSockets env d ready (fuel + 1) (.head d.list) = pure () := by
  simp [checkSockets]

theorem checkSockets_sock (ready : Int → Bool) (fuel : Nat) :
    checkSockets env d ready (fuel + 1) (.sock i) = (do
      let res ← callSocket env d ready i
      let s ← get
      let next ← ofOption (s.links.next (.sock i))
      (if res < 0 then cancelSocketEntry (.sock i) else pure () : Run Unit)
      checkSockets env d ready fuel next) := by
  simp [checkSockets]

/-- After the handler, the walk goes on with what is then behind the entry,
whether or not the entry is removed. -/
theorem drop_walking (res : Int) {s : SloopData} {rest : List Node}
    {ls : ListId → List Node} (hl : Lists s.links ls) (hahead : Ahead d (.sock i) rest ls)
    (hlog : Always DispatchOk s.log) (hnd : (rest ++ callsInPass s.log).Nodup)
    {E : SloopData → Prop} :
    Triple (fun t => t = s)
      (if res < 0 then cancelSocketEntry (.sock i) else pure () : Run Unit)
      (fun _ => Walking d (after (.sock i) (ls d.list))) E := by
  obtain ⟨pre, post, hpre⟩ := append_of_mem hahead.mem
  have hndl := hl.nodup d.list
  rw [hpre] at hndl
  have hx : .sock i ∉ pre := fun hm => disjoint_of_nodup_append hndl hm mem_cons_self
  have hafter : after (.sock i) (ls d.list) = post := by
    rw [hpre]
    exact after_append_cons post hx
  have hpost : (post ++ callsInPass s.log).Nodup :=
    hnd.sublist ((hafter ▸ hahead.sublist).append_right _)
  rw [hafter]
  apply Triple.ite
  · intro _
    apply Triple.of_some
    intro t ht
    subst ht
    obtain ⟨l, L, ls', he, hl', t⟩ := cancelSocketEntry_spec hl i
    obtain rfl := hl.unique t.mem hahead.mem
    refine ⟨(), _, he, ls', hl', ?_, hlog, hpost⟩
    rw [t.source (by cases d <;> decide), hpre, erase_append_right _ hx,
      erase_cons_head]
    exact suffix_append pre post
  · intro _
    apply Triple.pure
    intro t ht
    subst ht
    refine ⟨ls, hl, ?_, hlog, hpost⟩
    rw [hpre]
    exact ⟨pre ++ [.sock i], by simp⟩

/-- A walk ends, and nothing it calls is out of order. -/
theorem checkSockets_good (hfuel : 128 < env.fuel) (hown : env.KeepsOwnSocket k)
    (ready : Int → Bool) (fuel : Nat) (rem : List Node) (hrem : rem.length < fuel)
    (hkind : ∀ n ∈ rem, n.kind = some .socket) :
    Triple (Walking d rem) (checkSockets env d ready fuel (rem.headD (.head d.list)))
      (fun _ s => Good s ∨ Over k s) (Over k) := by
  induction fuel generalizing rem with
  | zero => exact absurd hrem (Nat.not_lt_zero _)
  | succ fuel ih =>
    cases rem with
    | nil =>
      rw [headD_nil, checkSockets_head]
      apply Triple.pure
      intro s ⟨ls, hl, _, hlog, _⟩
      exact .inl ⟨⟨ls, hl⟩, hlog⟩
    | cons n rest =>
      obtain ⟨i, rfl⟩ := kind_socket (hkind n mem_cons_self)
      rw [headD_cons, checkSockets_sock]
      apply Triple.bind (callSocket_walked hfuel hown ready rest)
      intro res
      apply Triple.cases
      · apply Triple.get_bind
        intro s ⟨ls, hl, hahead, hlog, hnd⟩
        rw [(hl.family.ring d.list).next_after hahead.mem]
        have hlen : (after (.sock i) (ls d.list)).length < fuel :=
          Nat.lt_of_le_of_lt hahead.sublist.length_le (Nat.lt_of_succ_lt_succ hrem)
        have hkind' : ∀ m ∈ after (.sock i) (ls d.list), m.kind = some .socket :=
          fun m hm => hkind m (mem_cons_of_mem _ (hahead.sublist.subset hm))
        have hdrop := Triple.bind (drop_walking res hl hahead hlog hnd) fun _ => ih _ hlen hkind'
        exact ⟨hdrop.ended⟩
      · have hover := over_roaming hfuel k
        exact (hover.goOn d ready (hover.checkSockets d ready fuel) i res).mono (fun _ h => h)
          (fun _ _ h => .inr h) fun _ h => h

end Walk

section Runs

variable {env : Env} {k : Nat}

theorem Good.note {s : SloopData} (h : Good s) {e : Event} (he : e.Quiet) :
    Good { s with log := ⟨e, s.links, s.timeouts⟩ :: s.log } := by
  obtain ⟨⟨ls, hl⟩, hlog⟩ := h
  exact ⟨⟨ls, hl⟩, always_quiet he hl hlog⟩

theorem good_steady (hfuel : 128 < env.fuel) (E : SloopData → Prop) : Steady env Good E := by
  have haction : ∀ caller a, Triple Good (doAction env caller a) (fun _ => Good) E :=
    fun caller a => doAction_rule hfuel fun s ⟨⟨ls, hl⟩, hlog⟩ =>
      ⟨ls, hl, fun s' ls' hl' _ hr _ => ⟨⟨ls', hl'⟩, (hr.quiet hl hl' hlog).1⟩⟩
  refine ⟨fun _ h => h.1, fun _ _ h => h, fun _ h => h, fun _ _ h => h.note ⟨by simp, by simp⟩,
    fun caller a _ => haction caller a, fun _ _ _ ls' _ _ _ h _ hl' _ _ => ⟨⟨ls', hl'⟩, h.2⟩, ?_⟩
  intro i
  refine timeoutPass_rule (J := Good) (fun _ _ h => h)
    (fun _ _ h _ _ => h.note ⟨by simp, by simp⟩) ?_ ?_
  · intro s callback h
    exact runHandler_at h fun a _ => haction _ a
  · rintro s ⟨⟨ls, hl⟩, hlog⟩
    exact ⟨ls, hl, fun l L ls' hl' _ => ⟨⟨ls', hl'⟩, always_quiet ⟨by simp, by simp⟩ hl' hlog⟩⟩

theorem socketPass_good (hfuel : 128 < env.fuel) (hown : env.KeepsOwnSocket k) (d : Direction)
    (ready : Int → Bool) :
    Triple Good (socketPass env d ready) (fun _ s => Good s ∨ Over k s) (Over k) := by
  have hnote : Triple Good (note (.pass d)) (fun _ s => Good s ∧ callsInPass s.log = [])
      (Over k) := by
    apply Triple.modify
    intro s ⟨⟨ls, hl⟩, hlog⟩
    refine ⟨⟨⟨ls, hl⟩, always_cons.mpr ⟨⟨?_, ?_, hl.oneList⟩, hlog⟩⟩, rfl⟩
    · intro d' i e
      cases e
    · exact nodup_nil
  apply Triple.bind hnote
  intro _
  apply Triple.get_bind
  intro s ⟨hgood, hcalls⟩
  obtain ⟨⟨ls, hl⟩, hlog⟩ := hgood
  apply Triple.ite
  · intro _
    apply Triple.pure
    intro t ht
    exact .inl (ht ▸ ⟨⟨ls, hl⟩, hlog⟩)
  · intro _
    rw [(hl.family.ring d.list).next_head]
    have hwalk := checkSockets_good (d := d) hfuel hown ready env.fuel (ls d.list)
      (Nat.lt_of_le_of_lt (hl.length_le d.list) hfuel)
      fun n hn => direction_kind d ▸ hl.kind d.list n hn
    refine hwalk.pre ?_
    intro t ht
    subst ht
    refine ⟨ls, hl, suffix_rfl, hlog, ?_⟩
    rw [hcalls, append_nil]
    exact hl.nodup d.list

/-- As long as the handlers keep to the rule, the dispatch is in order; later ones only keep
the lists. -/
theorem good_followed (hfuel : 128 < env.fuel) (hown : env.KeepsOwnSocket k) :
    Followed env (fun s => Good s ∨ Over k s) (Over k) := by
  have hover := over_roaming hfuel k
  refine ((good_steady hfuel _).or hover.toSteady).followed hfuel fun d ready => ?_
  refine Triple.cases (socketPass_good hfuel hown d ready) ?_
  exact (hover.socketPass d ready).mono (fun _ h => h) (fun _ _ h => .inr h) fun _ h => h

/-- In every run in which no handler of a socket cancels the entry it is called
for, all walks end, and at every moment the dispatch is in order. -/
theorem program_dispatch (env : Env) (startup : List Action) (n : Nat) (hfuel : 128 < env.fuel)
    (hown : env.KeepsOwnSocket (program env startup n .bss).2.calls) :
    (program env startup n .bss).1.isSome ∧
      Always DispatchOk (program env startup n .bss).2.log ∧
      OneList (program env startup n .bss).2.links := by
  have hgood := (good_followed hfuel hown).program hfuel
    (fun L hl => .inl ⟨⟨_, hl⟩, always_nil.mpr trivial⟩) startup n
  -- no run makes more calls than it has made in the end
  obtain ⟨b, s, hr, hs⟩ | ⟨s, hr, hs⟩ := hgood.run rfl
  · rw [hr] at hs ⊢
    obtain ⟨⟨ls, hl⟩, hlog⟩ := hs.resolve_right fun h => Nat.lt_irrefl _ h.2
    exact ⟨rfl, hlog, hl.oneList⟩
  · rw [hr] at hs
    exact absurd hs.2 (Nat.lt_irrefl _)

/-- Every socket handler registers a writer and gives its own socket up by its result. -/
def handingOver : Env where
  fuel := 129
  signalPipe := 5
  handler := fun _ caller callback => match caller with
    | .socket _ _ => ⟨[.register .write 9 callback], -1⟩
    | _ => ⟨[], 0⟩
  uptime := fun _ => 0
  select := fun _ => ⟨2, false, fun _ => true, fun _ => true, none⟩

/-- Handlers that register another socket. -/
theorem program_dispatch_handingOver :
    128 < handingOver.fuel ∧ (∀ calls, handingOver.KeepsOwnSocket calls) ∧
      (program handingOver [.register .read 3 ⟨0, 0⟩, .register .read 4 ⟨0, 0⟩] 2
        .bss).1.isSome := by
  have hown : ∀ calls, handingOver.KeepsOwnSocket calls := by
    intro calls n _ d i callback a ha hc
    obtain rfl : a = .register .write 9 callback := mem_singleton.mp ha
    simp [Action.CancelsSocket] at hc
  exact ⟨by decide, hown, (program_dispatch handingOver _ 2 (by decide) (hown _)).1⟩

/-- A reader that renews its registration from its own handler: it cancels its
entry and registers its descriptor again, which takes the same pool entry. -/
def renewing : Env where
  fuel := 129
  signalPipe := 5
  handler := fun _ caller callback => match caller with
    | .socket d i => if i.1 = 127 then ⟨[.cancel d (some i), .register d 3 callback], 0⟩
      else ⟨[], 0⟩
    | _ => ⟨[], 0⟩
  uptime := fun _ => 0
  select := fun _ => ⟨2, false, fun _ => true, fun _ => false, none⟩

theorem not_always_of_tail {log : List Moment} {calls : List Node}
    (hc : callsInPass log.tail = calls) (hnd : ¬ calls.Nodup) : ¬ Always DispatchOk log := by
  intro h
  exact hnd (hc ▸ (h _ (tail_suffix log)).nodup)

/-- The renewed entry is linked at the front, so the walk passes the other reader
a second time and calls it again. -/
theorem renewing_calls_twice :
    128 < renewing.fuel ∧ ¬ Always DispatchOk
      (program renewing [.register .read 3 ⟨0, 0⟩, .register .read 4 ⟨0, 0⟩] 1 .bss).2.log := by
  have htwice : callsInPass (program renewing
      [.register .read 3 ⟨0, 0⟩, .register .read 4 ⟨0, 0⟩] 1 .bss).2.log.tail =
      [.sock 126, .sock 127, .sock 126] := by
    decide +kernel
  exact ⟨by decide, not_always_of_tail htwice (by decide)⟩

end Runs

end Wbr1310.Comlib.Sloop
