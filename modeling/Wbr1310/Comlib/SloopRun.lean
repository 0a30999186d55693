import Wbr1310.Comlib.SloopLists

/-!
# What a run of the select loop keeps

`sloop_run` touches the lists in a few places only: the calls of its handlers,
the walks over the sockets, the first timer and the first matching signal. An
invariant that is kept there is kept by a run of any length. The rest of the
loop only reads the lists, and on rings it neither fails nor runs forever.
-/

namespace Wbr1310.Comlib.Sloop

open Lib Links Program

/-- An invariant that the parts of `sloop_run` keep; `E` is what may be said when one fails. -/
structure Followed (env : Env) (I E : SloopData → Prop) : Prop where
  lists : ∀ s, I s → ∃ ls, Lists s.links ls
  clock : ∀ s n, I s → I { s with ticks := n }
  action : ∀ a, Triple I (doAction env .main a) (fun _ => I) E
  signal : ∀ sig, Triple I (signalPass env sig) (fun _ => I) E
  timeout : ∀ i, Triple I (timeoutPass env i) (fun _ => I) E
  sockets : ∀ d ready, Triple I (socketPass env d ready) (fun _ => I) E

section Reads

variable {s : SloopData} {ls : ListId → List Node}

theorem firstTimeout_reads (h : Lists s.links ls) : ∃ r, firstTimeout s = (some r, s) := by
  simp only [firstTimeout, get_bind_apply]
  obtain ⟨_, hempty⟩ | ⟨n, rest, hl, hempty, hnext⟩ := h.first .timeout
  · rw [if_pos hempty]
    exact ⟨none, rfl⟩
  · obtain ⟨i, rfl⟩ := kind_timeout (h.kind .timeout n (hl ▸ List.mem_cons_self))
    rw [if_neg hempty, hnext]
    exact ⟨some i, rfl⟩

theorem Lists.next_of_suffix (h : Lists s.links ls) {l : ListId} {n : Node} {rest : List Node}
    (hsuf : n :: rest <:+ ls l) : s.links.next n = some (rest.headD (.head l)) := by
  obtain ⟨pre, hpre⟩ := hsuf
  have hring := h.family.ring l
  rw [← hpre] at hring
  exact hring.neighbours.2

theorem fdSockets_head (head : ListId) (fuel : Nat) :
    fdSockets head (fuel + 1) (.head head) = pure [] := by
  simp [fdSockets]

theorem fdSockets_sock (head : ListId) (fuel : Nat) (i : Fin maxSloopSocket) :
    fdSockets head (fuel + 1) (.sock i) = (do
      let s ← get
      let next ← ofOption (s.links.next (.sock i))
      let rest ← fdSockets head fuel next
      pure ((s.sockets i).sock :: rest)) := by
  simp [fdSockets]

theorem fdSockets_reads (h : Lists s.links ls) (d : Direction) (rem : List Node) (fuel : Nat)
    (hsuf : rem <:+ ls d.list) (hfuel : rem.length < fuel) :
    ∃ r, fdSockets d.list fuel (rem.headD (.head d.list)) s = (some r, s) := by
  induction rem generalizing fuel with
  | nil =>
    cases fuel with
    | zero => exact absurd hfuel (Nat.lt_irrefl 0)
    | succ fuel =>
      rw [List.headD_nil, fdSockets_head]
      exact ⟨[], rfl⟩
  | cons n rest ih =>
    cases fuel with
    | zero => exact absurd hfuel (Nat.not_lt_zero _)
    | succ fuel =>
      have hmem : n ∈ ls d.list := hsuf.subset List.mem_cons_self
      obtain ⟨i, rfl⟩ := h.sock_of_mem hmem
      obtain ⟨r, hr⟩ := ih fuel ((List.suffix_cons _ _).trans hsuf)
        (Nat.lt_of_succ_lt_succ hfuel)
      refine ⟨(s.sockets i).sock :: r, ?_⟩
      rw [List.headD_cons, fdSockets_sock, get_bind_apply, h.next_of_suffix hsuf,
        ofOption_some_bind, bind_of_some hr]
      rfl

theorem listSockets_reads (h : Lists s.links ls) {env : Env} (hfuel : 128 < env.fuel)
    (d : Direction) : ∃ r, listSockets env d s = (some r, s) := by
  have hlen := Nat.lt_of_le_of_lt (h.length_le d.list) hfuel
  simp only [listSockets, get_bind_apply, (h.family.ring d.list).next_head,
    ofOption_some_bind]
  exact fdSockets_reads h d (ls d.list) env.fuel List.suffix_rfl hlen

end Reads

section Followed

variable {env : Env} {I E : SloopData → Prop}

/-- A call returns and does what its specification says, so that is what it keeps. -/
theorem doAction_rule (hfuel : 128 < env.fuel) {caller : Caller} {a : Action}
    {P Q : SloopData → Prop}
    (h : ∀ s, P s → ∃ ls, Lists s.links ls ∧ ∀ s' ls', Lists s'.links ls' →
      Moves a.Permits ls ls' → Recorded caller s ls s' ls' a → Framed a s s' → Q s') :
    Triple P (doAction env caller a) (fun _ => Q) E := by
  apply Triple.of_some
  intro s hs
  obtain ⟨ls, hl, hq⟩ := h s hs
  obtain ⟨s', ls', he, hl', hm, hr, hf⟩ := doAction_spec hl hfuel caller a
  exact ⟨(), s', he, hq s' ls' hl' hm hr hf⟩

theorem relink_rule {e : Node} {l' : ListId} {P Q : SloopData → Prop}
    (hk : e.kind = some l'.kind)
    (h : ∀ s, P s → ∃ ls, Lists s.links ls ∧ ∀ l L ls', Lists L ls' → Transfer e l l' ls ls' →
      Q { s with links := L }) :
    Triple P (do
      onLinks fun L => dlistDel L e
      onLinks fun L => dlistAdd L e (.head l') : Run Unit) (fun _ => Q) E := by
  apply Triple.of_some
  intro s hs
  obtain ⟨ls, hl, hq⟩ := h s hs
  obtain ⟨l, L, ls', hr, hl', t⟩ := relink_spec hl hk
  exact ⟨(), _, hr, hq l L ls' hl' t⟩

theorem note_keeps {e : Event} {J : SloopData → Prop}
    (h : ∀ s, I s → J { s with log := ⟨e, s.links, s.timeouts⟩ :: s.log }) :
    Triple I (note e) (fun _ => J) E :=
  Triple.modify h

/-- The handler that is called in a state keeps what each of its calls keeps. -/
theorem runHandler_at {caller : Caller} {callback : Callback} {s : SloopData}
    (hs : I { s with calls := s.calls + 1 })
    (hact : ∀ a ∈ (env.handler s.calls caller callback).actions,
      Triple I (doAction env caller a) (fun _ => I) E) :
    Triple (fun t => t = s) (runHandler env caller callback) (fun _ => I) E := by
  constructor
  rintro _ rfl
  exact (Triple.bind (Triple.forEach hact) fun _ => Triple.pure fun _ h => h).ended _ hs

theorem search_signals {s : SloopData} {ls : ListId → List Node} (h : Lists s.links ls)
    (hfuel : 128 < env.fuel) (sig : Int) :
    ∃ n, s.links.search (hasSig s sig) (.head .signals) env.fuel
      ((ls .signals).headD (.head .signals)) = some n :=
  Option.isSome_iff_exists.mp (((h.family.ring .signals).search env.fuel).2
    (Nat.lt_of_le_of_lt (h.length_le .signals) hfuel))

/-- The check of the first timer, with `J` as the invariant while its handler runs. -/
theorem timeoutPass_rule {i : Fin maxSloopTimeout} {J : SloopData → Prop}
    (hclock : ∀ s n, I s → I { s with ticks := n })
    (hfired : ∀ s now, I s → s.links.next (.head .timeout) = some (.timeout i) →
      Timeval.ge ⟨now, 0⟩ (s.timeouts i).time →
      J { s with log := ⟨.fired i now, s.links, s.timeouts⟩ :: s.log })
    (hrun : ∀ s callback, J s →
      Triple (fun t => t = s) (runHandler env (.timeout i) callback) (fun _ => J) E)
    (hrelease : ∀ s, J s → ∃ ls, Lists s.links ls ∧ ∀ l L ls', Lists L ls' →
      Transfer (.timeout i) l .freeTimeout ls ls' →
      I { s with links := L, log := ⟨.released i, L, s.timeouts⟩ :: s.log }) :
    Triple I (timeoutPass env i) (fun _ => I) E := by
  apply Triple.get_bind
  intro s hs
  apply Triple.ite
  · intro hfirst
    -- the clock is read, but the lists and the timers are those of `s`
    let Here (t : SloopData) : Prop := I t ∧ t.links = s.links ∧ t.timeouts = s.timeouts
    have hread : Triple (fun t => t = s) (getUptime env) (fun _ => Here) E := by
      apply Triple.of_some
      intro t ht
      subst ht
      exact ⟨_, _, rfl, hclock t _ hs, rfl, rfl⟩
    apply Triple.bind hread
    intro now
    apply Triple.ite
    · intro hdue
      apply Triple.bind (note_keeps (I := Here) (J := J) fun t ⟨ht, hlinks, htimes⟩ =>
        hfired t now ht (hlinks ▸ hfirst) (htimes ▸ hdue))
      intro _
      apply Triple.bind ⟨fun t ht => (hrun t _ ht).ended t rfl⟩
      intro _
      have hkind : (Node.timeout i).kind = some ListId.freeTimeout.kind := rfl
      apply Triple.bind_assoc (relink_rule hkind hrelease
        (Q := fun s => I { s with log := ⟨.released i, s.links, s.timeouts⟩ :: s.log }))
      intro _
      exact note_keeps fun _ h => h
    · intro _
      exact Triple.pure fun _ ht => ht.1
  · intro _
    exact Triple.pure fun _ ht => ht ▸ hs

section

variable (h : Followed env I E)

include h

theorem Followed.readSignal (sigRead : Option Int) :
    Triple I (readSignal env sigRead) (fun _ => I) E := by
  cases sigRead with
  | none => exact Triple.skip
  | some sig =>
    apply Triple.ite
    · intro _
      exact Triple.skip
    · intro _
      apply Triple.get_bind_keep
      intro s _
      apply Triple.ite
      · intro _
        exact Triple.skip
      · intro _
        apply Triple.bind (h.signal sig)
        intro _
        exact Triple.of_reads fun s _ => ⟨_, rfl⟩

theorem Followed.checkTimeout (entryTimeout : Option (Fin maxSloopTimeout)) :
    Triple I (checkTimeout env entryTimeout) (fun _ => I) E := by
  cases entryTimeout with
  | none => exact Triple.skip
  | some i => exact h.timeout i

theorem Followed.prepareTimeout (entryTimeout : Option (Fin maxSloopTimeout)) :
    Triple I (prepareTimeout env entryTimeout) (fun _ => I) E := by
  cases entryTimeout with
  | none => exact Triple.skip
  | some i =>
    apply Triple.bind (Triple.of_some (Q := fun _ => I) fun s hs => ⟨_, _, rfl, h.clock s _ hs⟩)
    intro _
    exact Triple.skip

theorem Followed.afterSelect (entryTimeout : Option (Fin maxSloopTimeout)) (sel : Selected)
    (rfds wfds : Int → Bool) :
    Triple I (afterSelect env entryTimeout sel rfds wfds) (fun _ => I) E := by
  have hgo : Triple I (if 0 < sel.res ∧ rfds env.signalPipe then
      Sloop.readSignal env sel.sigRead else pure true) (fun _ => I) E := by
    apply Triple.ite
    · intro _
      exact h.readSignal sel.sigRead
    · intro _
      exact Triple.skip
  apply Triple.bind hgo
  intro goOn
  apply Triple.ite
  · intro _
    apply Triple.bind (h.checkTimeout entryTimeout)
    intro _
    apply Triple.ite
    · intro _
      exact Triple.skip
    · intro _
      apply Triple.bind (h.sockets .read rfds)
      intro _
      apply Triple.bind (h.sockets .write wfds)
      intro _
      exact Triple.skip
  · intro _
    exact Triple.skip

theorem Followed.round (hfuel : 128 < env.fuel) (k : Nat) :
    Triple I (sloopRound env k) (fun _ => I) E := by
  apply Triple.bind (Triple.of_reads fun s hs => (h.lists s hs).elim fun _ => firstTimeout_reads)
  intro entryTimeout
  apply Triple.bind (h.prepareTimeout entryTimeout)
  intro _
  apply Triple.bind (Triple.of_reads fun s hs => (h.lists s hs).elim fun _ hl =>
    listSockets_reads hl hfuel .read)
  intro readFds
  apply Triple.bind (Triple.of_reads fun s hs => (h.lists s hs).elim fun _ hl =>
    listSockets_reads hl hfuel .write)
  intro writeFds
  apply Triple.ite
  · intro _
    exact Triple.skip
  · intro _
    exact h.afterSelect _ _ _ _

theorem Followed.cancelAll : Triple I (cancelAll env) (fun _ => I) E := by
  apply Triple.bind (h.action _)
  intro _
  apply Triple.bind (h.action _)
  intro _
  apply Triple.bind (h.action _)
  intro _
  exact h.action _

/-- The induction over the rounds of the loop. -/
theorem Followed.sloopRun (hfuel : 128 < env.fuel) (n k : Nat) :
    Triple I (sloopRun env n k) (fun _ => I) E := by
  have hend : Triple I (do Sloop.cancelAll env; pure true) (fun _ => I) E := by
    apply Triple.bind h.cancelAll
    intro _
    exact Triple.skip
  induction n generalizing k with
  | zero => exact Triple.skip
  | succ n ih =>
    apply Triple.get_bind_keep
    intro s _
    apply Triple.ite
    · intro _
      exact hend
    · intro _
      apply Triple.bind (h.round hfuel k)
      intro goOn
      apply Triple.ite
      · intro _
        exact ih (k + 1)
      · intro _
        exact hend

/-- A whole program: set up, start and loop. -/
theorem Followed.program (hfuel : 128 < env.fuel)
    (hinit : ∀ L, Lists L initialLists → I { SloopData.bss with links := L })
    (startup : List Action) (n : Nat) :
    Triple (fun s => s = SloopData.bss) (program env startup n) (fun _ => I) E := by
  have hstart : Triple (fun s => s = SloopData.bss) sloopInit (fun _ => I) E := by
    refine Triple.of_some ?_
    intro s hs
    obtain ⟨L, hi, hl⟩ := sloopInit_spec
    rw [hs]
    exact ⟨(), _, hi, hinit L hl⟩
  rw [Sloop.program]
  apply Triple.bind hstart
  intro _
  apply Triple.bind (Triple.forEach fun a _ => h.action a)
  intro _
  exact h.sloopRun hfuel n 0

end

end Followed

/-- An invariant that the parts of `sloop_run` keep which are no walk over the sockets: the
calls of the handlers of sockets and signals, the return of such an entry to its pool, and the
check of the first timer. -/
structure Steady (env : Env) (I E : SloopData → Prop) : Prop where
  lists : ∀ s, I s → ∃ ls, Lists s.links ls
  clock : ∀ s n, I s → I { s with ticks := n }
  calls : ∀ s, I s → I { s with calls := s.calls + 1 }
  signalled : ∀ s i, I s → I { s with log := ⟨.signalled i, s.links, s.timeouts⟩ :: s.log }
  action : ∀ caller a, (∀ i, caller ≠ .timeout i) → Triple I (doAction env caller a) (fun _ => I) E
  free : ∀ s ls L ls' e l l', I s → Lists s.links ls → Lists L ls' →
    Transfer e l l' ls ls' → l'.kind ≠ .timeout → I { s with links := L }
  timeout : ∀ i, Triple I (timeoutPass env i) (fun _ => I) E

section Steady

variable {env : Env} {I E : SloopData → Prop}

theorem Steady.runHandler (h : Steady env I E) {caller : Caller} (hc : ∀ i, caller ≠ .timeout i)
    (callback : Callback) : Triple I (Sloop.runHandler env caller callback) (fun _ => I) E :=
  ⟨fun s hs => (runHandler_at (h.calls s hs) fun a _ => h.action caller a hc).ended s rfl⟩

theorem Steady.relink (h : Steady env I E) {e : Node} {l' : ListId} (hk : e.kind = some l'.kind)
    (hl' : l'.kind ≠ .timeout) :
    Triple I (do
      onLinks fun L => dlistDel L e
      onLinks fun L => dlistAdd L e (.head l') : Run Unit) (fun _ => I) E := by
  apply relink_rule hk
  intro s hs
  obtain ⟨ls, hl⟩ := h.lists s hs
  exact ⟨ls, hl, fun l L ls' hls' t => h.free s ls L ls' e l l' hs hl hls' t hl'⟩

/-- The dispatch of a signal: its handler runs, and its entry may be removed. -/
theorem Steady.signalPass (h : Steady env I E) (hfuel : 128 < env.fuel) (sig : Int) :
    Triple I (Sloop.signalPass env sig) (fun _ => I) E := by
  apply Triple.get_bind_keep
  intro s hs
  obtain ⟨ls, hl⟩ := h.lists s hs
  obtain ⟨n, hn⟩ := search_signals hl hfuel sig
  rw [(hl.family.ring .signals).next_head, ofOption_some_bind, hn, ofOption_some_bind]
  cases n with
  | signal i =>
    apply Triple.bind (note_keeps fun s hs => h.signalled s i hs)
    intro _
    apply Triple.bind (h.runHandler (by simp) _)
    intro res
    apply Triple.ite
    · intro _
      exact h.relink rfl (by decide)
    · intro _
      exact Triple.pure fun _ h => h
  | head | sock | timeout => exact Triple.pure fun _ h => h

theorem Steady.followed (h : Steady env I E) (hfuel : 128 < env.fuel)
    (hsockets : ∀ d ready, Triple I (socketPass env d ready) (fun _ => I) E) :
    Followed env I E where
  lists := h.lists
  clock := h.clock
  action a := h.action .main a fun _ => nofun
  signal sig := h.signalPass hfuel sig
  timeout := h.timeout
  sockets := hsockets

/-- Two invariants of which one holds. -/
theorem Steady.or {J : SloopData → Prop} (h : Steady env I E) (h' : Steady env J E) :
    Steady env (fun s => I s ∨ J s) E where
  lists s hs := hs.elim (h.lists s) (h'.lists s)
  clock s n := Or.imp (h.clock s n) (h'.clock s n)
  calls s := Or.imp (h.calls s) (h'.calls s)
  signalled s i := Or.imp (h.signalled s i) (h'.signalled s i)
  action caller a hc := (h.action caller a hc).or (h'.action caller a hc)
  free s ls L ls' e l l' hs hl hl' t hk :=
    hs.imp (fun hs => h.free s ls L ls' e l l' hs hl hl' t hk)
    fun hs => h'.free s ls L ls' e l l' hs hl hl' t hk
  timeout i := (h.timeout i).or (h'.timeout i)

end Steady

/-- The event of a walk over the sockets. -/
def Event.Passing : Event → Prop
  | .pass _ | .called _ _ => True
  | _ => False

/-- An invariant that is kept wherever the walks over the sockets lead. -/
structure Roaming (env : Env) (I : SloopData → Prop) : Prop extends Steady env I I where
  passing : ∀ e : Event, e.Passing → ∀ s, I s →
    I { s with log := ⟨e, s.links, s.timeouts⟩ :: s.log }

section Roaming

variable {env : Env} {I : SloopData → Prop}

section

variable (h : Roaming env I) (d : Direction) (ready : Int → Bool)

include h

theorem Roaming.callSocket (i : Fin maxSloopSocket) :
    Triple I (Sloop.callSocket env d ready i) (fun _ => I) I := by
  apply Triple.get_bind_keep
  intro s _
  apply Triple.ite
  · intro _
    apply Triple.bind (note_keeps (h.passing (.called d i) trivial))
    intro _
    exact h.runHandler (by simp) _
  · intro _
    exact Triple.skip

/-- The rest of a round of the walk, after the handler of the entry. -/
theorem Roaming.goOn {fuel : Nat}
    (hrest : ∀ next, Triple I (Sloop.checkSockets env d ready fuel next) (fun _ => I) I)
    (i : Fin maxSloopSocket) (res : Int) : Triple I (do
      let s ← get
      let next ← ofOption (s.links.next (.sock i))
      (if res < 0 then cancelSocketEntry (.sock i) else pure () : Run Unit)
      Sloop.checkSockets env d ready fuel next) (fun _ => I) I := by
  apply Triple.get_bind_keep
  intro s _
  apply Triple.bind (Triple.ofOption fun _ hs => hs)
  intro next
  apply Triple.bind (R := fun _ => I)
  · apply Triple.ite
    · intro _
      exact h.relink rfl (by decide)
    · intro _
      exact Triple.skip
  · intro _
    exact hrest next

/-- The walk over the sockets, wherever handlers lead it. -/
theorem Roaming.checkSockets (fuel : Nat) (entry : Node) :
    Triple I (Sloop.checkSockets env d ready fuel entry) (fun _ => I) I := by
  induction fuel generalizing entry with
  | zero => exact Triple.fail fun _ hs => hs
  | succ fuel ih =>
    apply Triple.ite
    · intro _
      exact Triple.skip
    · intro _
      cases entry with
      | sock i =>
        apply Triple.bind (h.callSocket d ready i)
        intro res
        exact h.goOn d ready ih i res
      | head | timeout | signal => exact Triple.fail fun _ hs => hs

theorem Roaming.socketPass : Triple I (Sloop.socketPass env d ready) (fun _ => I) I := by
  apply Triple.bind (note_keeps (h.passing (.pass d) trivial))
  intro _
  apply Triple.get_bind_keep
  intro s _
  apply Triple.ite
  · intro _
    exact Triple.skip
  · intro _
    apply Triple.bind (Triple.ofOption fun _ hs => hs)
    intro first
    exact h.checkSockets d ready env.fuel first

end

/-- The run lemma: what every step keeps holds at the end. -/
theorem Roaming.program (h : Roaming env I) (hfuel : 128 < env.fuel)
    (hinit : ∀ L, Lists L initialLists → I { SloopData.bss with links := L })
    (startup : List Action) (n : Nat) : I (program env startup n .bss).2 :=
  ((h.followed hfuel h.socketPass).program hfuel hinit startup n).always rfl

end Roaming

/-- More than `k` handlers were called. -/
def Over (k : Nat) (s : SloopData) : Prop := (∃ ls, Lists s.links ls) ∧ k < s.calls

section Over

variable {env : Env} {E : SloopData → Prop}

theorem doAction_over (hfuel : 128 < env.fuel) (k : Nat) (caller : Caller) (a : Action) :
    Triple (Over k) (doAction env caller a) (fun _ => Over k) E :=
  doAction_rule hfuel fun _ ⟨⟨ls, hl⟩, hk⟩ => ⟨ls, hl, fun _ ls' hl' _ _ hf =>
    ⟨⟨ls', hl'⟩, hf.calls ▸ hk⟩⟩

theorem runHandler_over (hfuel : 128 < env.fuel) {k : Nat} (caller : Caller) (callback : Callback)
    {s : SloopData} (hl : ∃ ls, Lists s.links ls) (hk : k ≤ s.calls) :
    Triple (fun t => t = s) (runHandler env caller callback) (fun _ => Over k) E :=
  runHandler_at ⟨hl, Nat.lt_succ_of_le hk⟩ fun a _ => doAction_over hfuel k caller a

theorem over_roaming (hfuel : 128 < env.fuel) (k : Nat) : Roaming env (Over k) := by
  refine ⟨⟨fun _ h => h.1, fun _ _ h => h, fun _ h => ⟨h.1, Nat.lt_succ_of_lt h.2⟩, fun _ _ h => h,
    fun caller a _ => doAction_over hfuel k caller a,
    fun _ _ _ ls' _ _ _ h _ hl' _ _ => ⟨⟨ls', hl'⟩, h.2⟩, ?_⟩, fun _ _ _ h => h⟩
  intro i
  refine timeoutPass_rule (J := Over k) (fun _ _ h => h) (fun _ _ h _ _ => h) ?_ ?_
  · intro s callback h
    exact runHandler_over hfuel _ callback h.1 h.2.le
  · rintro s ⟨⟨ls, hl⟩, hk⟩
    exact ⟨ls, hl, fun l L ls' hl' _ => ⟨⟨ls', hl'⟩, hk⟩⟩

end Over

end Wbr1310.Comlib.Sloop
