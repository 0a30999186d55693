import Wbr1310.Comlib.Sloop

/-!
# The lists of the select loop

The links always form disjoint rings that hold every pool entry exactly once,
whatever the handlers do: each call into the module only unlinks entries and
links them again elsewhere. A `Transfer` is one such step, and each call is
specified by the transfers it may make.
-/

namespace Wbr1310.Comlib.Sloop

open Lib Links Program List

/-- The three kinds of entries. -/
inductive Kind
  | socket
  | timeout
  | signal
  deriving DecidableEq

def ListId.kind : ListId → Kind
  | .readers | .writers | .freeSockets => .socket
  | .timeout | .freeTimeout => .timeout
  | .signals | .freeSignals => .signal

def Node.kind : Node → Option Kind
  | .head _ => none
  | .sock _ => some .socket
  | .timeout _ => some .timeout
  | .signal _ => some .signal

/-- The links form disjoint rings that hold each pool entry, each on a list of its kind. -/
structure Lists (L : Links Node) (ls : ListId → List Node) : Prop where
  family : L.Family Node.head ls
  kind : ∀ l, ∀ n ∈ ls l, n.kind = some l.kind
  cover : ∀ n k, n.kind = some k → ∃ l, n ∈ ls l

section Lists

variable {L : Links Node} {ls : ListId → List Node}

variable {n : Node}

theorem Lists.unique (h : Lists L ls) {l l' : ListId} (hn : n ∈ ls l) (hn' : n ∈ ls l') : l = l' :=
  h.family.index_unique (mem_cons_of_mem _ hn) (mem_cons_of_mem _ hn')

theorem Lists.nodup (h : Lists L ls) (l : ListId) : (ls l).Nodup :=
  (nodup_cons.mp (h.family.ring l).nodup).2

def OnList (L : Links Node) (l : ListId) (n : Node) : Prop :=
  ∃ xs, L.Ring (.head l) xs ∧ n ∈ xs

theorem Lists.onList (h : Lists L ls) {l : ListId} (hn : n ∈ ls l) : OnList L l n :=
  ⟨ls l, h.family.ring l, hn⟩

/-- A list is empty, or the head points to its first entry. -/
theorem Lists.first (h : Lists L ls) (l : ListId) :
    (ls l = [] ∧ dlistEmpty L (.head l) = true) ∨
      ∃ e rest, ls l = e :: rest ∧ ¬ dlistEmpty L (.head l) = true ∧
        L.next (.head l) = some e := by
  have hring := h.family.ring l
  cases hl : ls l with
  | nil => exact .inl ⟨rfl, (dlistEmpty_iff hring).mpr hl⟩
  | cons e rest =>
    refine .inr ⟨e, rest, rfl, ?_, ?_⟩
    · rw [dlistEmpty_iff hring, hl]
      exact cons_ne_nil e rest
    · rw [hring.next_head, hl]
      rfl

theorem Lists.mem_of_next (h : Lists L ls) {l : ListId} (hnext : L.next (.head l) = some n)
    (hn : n ≠ .head l) : n ∈ ls l := by
  obtain ⟨hnil, _⟩ | ⟨e, rest, hl, _, he⟩ := h.first l
  · rw [(h.family.ring l).next_head, hnil] at hnext
    exact absurd (Option.some.inj hnext).symm hn
  · rw [hl, ← Option.some.inj (he.symm.trans hnext)]
    exact mem_cons_self

def Node.index : Node → Fin 128
  | .head _ => 0
  | .sock i => i
  | .timeout i => i
  | .signal i => i.castLE (by decide)

theorem Node.index_inj {m : Node} {k : Kind} (hn : n.kind = some k) (hm : m.kind = some k)
    (e : n.index = m.index) : n = m := by
  cases n with
  | head l => cases hn
  | sock i =>
    cases hn
    cases m with
    | sock j => exact congrArg Node.sock e
    | head | timeout | signal => cases hm
  | timeout i =>
    cases hn
    cases m with
    | timeout j => exact congrArg Node.timeout e
    | head | sock | signal => cases hm
  | signal i =>
    cases hn
    cases m with
    | signal j => exact congrArg Node.signal (Fin.castLE_injective (by decide) e)
    | head | sock | timeout => cases hm

theorem Lists.length_le (h : Lists L ls) (l : ListId) : (ls l).length ≤ 128 := by
  have hnd : ((ls l).map Node.index).Nodup :=
    (h.nodup l).map_on fun n hn m hm e => Node.index_inj (h.kind l n hn) (h.kind l m hm) e
  have hle := hnd.length_le_card
  rwa [length_map, Fintype.card_fin] at hle

end Lists

def erased (ls : ListId → List Node) (l : ListId) (e : Node) : ListId → List Node :=
  Function.update ls l ((ls l).erase e)

/-- One entry is unlinked from a list and linked into a list of the same kind.
Only the list of the timers takes it elsewhere than at the front. -/
structure Transfer (e : Node) (l l' : ListId) (ls ls' : ListId → List Node) : Prop where
  mem : e ∈ ls l
  same_kind : l.kind = l'.kind
  moved : ∃ xs ys, (l' ≠ .timeout → xs = []) ∧ erased ls l e l' = xs ++ ys ∧
    ls' = Function.update (erased ls l e) l' (xs ++ e :: ys)

theorem mem_erased_of_ne (ls : ListId → List Node) (l : ListId) {e x : Node} (hx : x ≠ e)
    (k : ListId) : x ∈ erased ls l e k ↔ x ∈ ls k := by
  by_cases hk : k = l
  · subst hk
    rw [erased, Function.update_self, mem_erase_of_ne hx]
  · rw [erased, Function.update_of_ne hk]

section Transfer

variable {ls ls' : ListId → List Node} {e : Node} {l l' : ListId}

theorem Transfer.mem_iff (t : Transfer e l l' ls ls') {x : Node} (hx : x ≠ e) (k : ListId) :
    x ∈ ls' k ↔ x ∈ ls k := by
  obtain ⟨xs, ys, _, hxy, rfl⟩ := t.moved
  rw [← mem_erased_of_ne ls l hx k]
  by_cases hk : k = l'
  · subst hk
    rw [Function.update_self, hxy]
    simp [hx]
  · rw [Function.update_of_ne hk]

theorem Transfer.mem_target (t : Transfer e l l' ls ls') : e ∈ ls' l' := by
  obtain ⟨xs, ys, _, _, rfl⟩ := t.moved
  simp

theorem Transfer.eq_of_ne (t : Transfer e l l' ls ls') {k : ListId} (hk : k ≠ l) (hk' : k ≠ l') :
    ls' k = ls k := by
  obtain ⟨xs, ys, _, _, rfl⟩ := t.moved
  rw [Function.update_of_ne hk', erased, Function.update_of_ne hk]

theorem Transfer.source (t : Transfer e l l' ls ls') (hne : l ≠ l') :
    ls' l = (ls l).erase e := by
  obtain ⟨xs, ys, _, _, rfl⟩ := t.moved
  rw [Function.update_of_ne hne, erased, Function.update_self]

theorem Lists.transfer {L L' : Links Node} (h : Lists L ls) (t : Transfer e l l' ls ls')
    (F : L'.Family Node.head ls') : Lists L' ls' := by
  have hek : e.kind = some l'.kind := t.same_kind ▸ h.kind l e t.mem
  refine ⟨F, ?_, ?_⟩
  · intro k n hn
    by_cases hne : n = e
    · subst hne
      have hkl : k = l' := F.index_unique (mem_cons_of_mem _ hn)
        (mem_cons_of_mem _ t.mem_target)
      rw [hkl, hek]
    · exact h.kind k n ((t.mem_iff hne k).mp hn)
  · intro n k hk
    by_cases hne : n = e
    · exact ⟨l', hne ▸ t.mem_target⟩
    · obtain ⟨j, hj⟩ := h.cover n k hk
      exact ⟨j, (t.mem_iff hne j).mpr hj⟩

end Transfer

/-- A sequence of transfers, each of which `T` permits. -/
def Moves (T : Node → ListId → ListId → Prop) :
    (ListId → List Node) → (ListId → List Node) → Prop :=
  Relation.ReflTransGen fun ls ls' => ∃ e l l', T e l l' ∧ Transfer e l l' ls ls'

theorem Moves.single {T : Node → ListId → ListId → Prop} {ls ls' : ListId → List Node} {e : Node}
    {l l' : ListId} (hT : T e l l') (t : Transfer e l l' ls ls') : Moves T ls ls' :=
  Relation.ReflTransGen.single ⟨e, l, l', hT, t⟩

theorem Moves.induct {T : Node → ListId → ListId → Prop} {I : (ListId → List Node) → Prop}
    {ls ls' : ListId → List Node} (hm : Moves T ls ls')
    (step : ∀ e l l' ks ks', T e l l' → Transfer e l l' ks ks' → I ks → I ks') (h : I ls) :
    I ls' := by
  induction hm with
  | refl => exact h
  | tail _ hs ih =>
    obtain ⟨e, l, l', hT, t⟩ := hs
    exact step e l l' _ _ hT t ih

section Calls

variable {s : SloopData} {ls : ListId → List Node}

theorem onLinks_of_some {f : Links Node → Option (Links Node)} {L : Links Node}
    (h : f s.links = some L) : onLinks f s = (some (), { s with links := L }) := by
  simp only [onLinks, update, h, Option.map_some]

/-- Neither the record nor the data of a timer has changed. -/
structure Silent (s s' : SloopData) : Prop where
  log : s'.log = s.log
  timeouts : s'.timeouts = s.timeouts
  calls : s'.calls = s.calls

theorem Silent.refl (s : SloopData) : Silent s s := ⟨rfl, rfl, rfl⟩

theorem Silent.trans {s₁ s₂ s₃ : SloopData} (h : Silent s₁ s₂) (h' : Silent s₂ s₃) :
    Silent s₁ s₃ :=
  ⟨h'.log.trans h.log, h'.timeouts.trans h.timeouts, h'.calls.trans h.calls⟩

/-- The dispositions and the entries of the signals have not changed. -/
structure SameSignals (s s' : SloopData) : Prop where
  disposition : s'.disposition = s.disposition
  signals : s'.signals = s.signals

theorem SameSignals.trans {s₁ s₂ s₃ : SloopData} (h : SameSignals s₁ s₂)
    (h' : SameSignals s₂ s₃) : SameSignals s₁ s₃ :=
  ⟨h'.disposition.trans h.disposition, h'.signals.trans h.signals⟩

variable {l : ListId} {n : Node} {E P : SloopData → Prop} {fuel : Nat}

theorem add_popped (h : Lists s.links ls) {e : Node} {L : Links Node} (he : e ∈ ls l)
    (l' : ListId) (hk : l.kind = l'.kind) (F : L.Family Node.head (erased ls l e))
    (off : Off Node.head (erased ls l e) e) :
    ∃ L' ls', dlistAdd L e (.head l') = some L' ∧ Lists L' ls' ∧ Transfer e l l' ls ls' := by
  obtain ⟨L', h', F'⟩ := dlistAdd_family F off l'
  have t : Transfer e l l' ls (Function.update (erased ls l e) l' (e :: erased ls l e l')) :=
    ⟨he, hk, [], erased ls l e l', fun _ => rfl, rfl, rfl⟩
  exact ⟨L', _, h', h.transfer t F', t⟩

/-- An entry that is unlinked, from whatever list it is on, and linked into a list of its kind. -/
theorem relink_spec (h : Lists s.links ls) {e : Node} {l' : ListId}
    (hk : e.kind = some l'.kind) :
    ∃ l L ls', (do
        onLinks fun L => dlistDel L e
        onLinks fun L => dlistAdd L e (.head l') : Run Unit) s =
          (some (), { s with links := L }) ∧ Lists L ls' ∧ Transfer e l l' ls ls' := by
  obtain ⟨l, he⟩ := h.cover e l'.kind hk
  obtain ⟨L₁, h₁, F₁, off₁⟩ := dlistDel_family h.family he
  obtain ⟨L₂, ls', h₂, hl', t⟩ := add_popped h he l'
    (Option.some.inj ((h.kind l e he).symm.trans hk)) F₁ off₁
  refine ⟨l, L₂, ls', ?_, hl', t⟩
  rw [bind_of_some (onLinks_of_some h₁), onLinks_of_some h₂]

/-- The first free entry is taken, if there is one. -/
theorem popFree_spec (h : Lists s.links ls) (l : ListId) :
    (ls l = [] ∧ popFree l s = (some none, s)) ∨
      ∃ e rest L, ls l = e :: rest ∧ popFree l s = (some (some e), { s with links := L }) ∧
        L.Family Node.head (erased ls l e) ∧ Off Node.head (erased ls l e) e := by
  simp only [popFree, get_bind_apply]
  obtain ⟨hl, hempty⟩ | ⟨e, rest, hl, hne, hnext⟩ := h.first l
  · left
    rw [if_pos hempty]
    exact ⟨hl, rfl⟩
  · right
    obtain ⟨L, h₁, F₁, off₁⟩ := dlistDel_family h.family (hl ▸ mem_cons_self : e ∈ ls l)
    refine ⟨e, rest, L, hl, ?_, F₁, off₁⟩
    rw [if_neg hne, hnext, ofOption_some_bind, bind_of_some (onLinks_of_some h₁)]
    rfl

theorem kind_socket (h : n.kind = some .socket) : ∃ i, n = .sock i := by
  cases n with
  | sock i => exact ⟨i, rfl⟩
  | head | timeout | signal => cases h

theorem kind_timeout (h : n.kind = some .timeout) : ∃ i, n = .timeout i := by
  cases n with
  | timeout i => exact ⟨i, rfl⟩
  | head | sock | signal => cases h

theorem kind_signal (h : n.kind = some .signal) : ∃ i, n = .signal i := by
  cases n with
  | signal i => exact ⟨i, rfl⟩
  | head | sock | timeout => cases h

section

variable (h : Lists s.links ls)

include h

/-- `register_socket` moves the first free entry to the front of the list, if there is one. -/
theorem registerSocket_spec (sock : Int) (callback : Callback) (d : Direction) :
    ∃ r s' ls', registerSocket sock callback d.list s = (some r, s') ∧ Lists s'.links ls' ∧
      Moves (fun _ l l' => l = .freeSockets ∧ l' = d.list) ls ls' ∧ Silent s s' ∧
      SameSignals s s' := by
  have hk : ListId.freeSockets.kind = d.list.kind := by cases d <;> rfl
  obtain ⟨_, hp⟩ | ⟨e, rest, L, hl, hp, F, off⟩ := popFree_spec h .freeSockets
  · refine ⟨none, s, ls, ?_, h, .refl, .refl s, ⟨rfl, rfl⟩⟩
    have hg : getSocket s = (some none, s) := by
      rw [getSocket, bind_of_some hp]
      rfl
    rw [registerSocket, bind_of_some hg]
    rfl
  · have he : e ∈ ls .freeSockets := hl ▸ mem_cons_self
    obtain ⟨i, rfl⟩ := kind_socket (h.kind _ e he)
    obtain ⟨L', ls', h', hl', t⟩ := add_popped h he d.list hk F off
    have hg : getSocket s = (some (some i), { s with links := L }) := by
      rw [getSocket, bind_of_some hp]
      rfl
    refine ⟨some i, { s with links := L', sockets := Function.update s.sockets i ⟨sock, callback⟩ },
      ls', ?_, hl', .single ⟨rfl, rfl⟩ t, ⟨rfl, rfl, rfl⟩, ⟨rfl, rfl⟩⟩
    rw [registerSocket, bind_of_some hg]
    simp only [modify_bind_apply]
    rw [bind_of_some (onLinks_of_some h')]
    rfl

theorem sloopRegisterSignal_spec (sig : Int) (callback : Callback) :
    sloopRegisterSignal sig callback s = (some none, s) ∨
      ∃ i L ls', sloopRegisterSignal sig callback s = (some (some i), { s with
          links := L
          signals := Function.update s.signals i ⟨sig, callback⟩
          disposition := Function.update s.disposition sig true }) ∧
        Lists L ls' ∧ Transfer (.signal i) .freeSignals .signals ls ls' := by
  obtain ⟨_, hp⟩ | ⟨e, rest, L, hl, hp, F, off⟩ := popFree_spec h .freeSignals
  · left
    have hg : getSignal s = (some none, s) := by
      rw [getSignal, bind_of_some hp]
      rfl
    rw [sloopRegisterSignal, bind_of_some hg]
    rfl
  · right
    have he : e ∈ ls .freeSignals := hl ▸ mem_cons_self
    obtain ⟨i, rfl⟩ := kind_signal (h.kind _ e he)
    obtain ⟨L', ls', h', hl', t⟩ := add_popped h he .signals rfl F off
    have hg : getSignal s = (some (some i), { s with links := L }) := by
      rw [getSignal, bind_of_some hp]
      rfl
    refine ⟨i, L', ls', ?_, hl', t⟩
    rw [sloopRegisterSignal, bind_of_some hg]
    simp only [modify_bind_apply]
    rw [bind_of_some (onLinks_of_some h')]
    rfl

/-- A cancellation moves the entry to the free ones. -/
theorem cancelSocketEntry_spec (i : Fin maxSloopSocket) :
    ∃ l L ls', cancelSocketEntry (.sock i) s = (some (), { s with links := L }) ∧
      Lists L ls' ∧ Transfer (.sock i) l .freeSockets ls ls' :=
  relink_spec h rfl

theorem cancelTimeoutEntry_spec (i : Fin maxSloopTimeout) :
    ∃ l L ls', cancelTimeoutEntry (.timeout i) s = (some (), { s with links := L }) ∧
      Lists L ls' ∧ Transfer (.timeout i) l .freeTimeout ls ls' :=
  relink_spec h rfl

theorem cancelSignalEntry_spec (i : Fin maxSloopSignal) :
    ∃ l L ls', cancelSignalEntry (.signal i) s = (some (), { s with
        links := L
        disposition := Function.update s.disposition (s.signals i).sig false }) ∧
      Lists L ls' ∧ Transfer (.signal i) l .freeSignals ls ls' :=
  relink_spec (s := { s with
    disposition := Function.update s.disposition (s.signals i).sig false }) h rfl

end

/-- The loops that cancel a whole list empty it, one entry after the other, and do in all what
cancelling single entries does. -/
theorem drain_spec (cancelEntry : Node → Run Unit) {head free : ListId} (hne : head ≠ free)
    {R : SloopData → SloopData → Prop} (hrefl : ∀ s, R s s)
    (htrans : ∀ s₁ s₂ s₃, R s₁ s₂ → R s₂ s₃ → R s₁ s₃)
    (hc : ∀ s ls e, Lists s.links ls → e ∈ ls head → ∃ l s' ls', cancelEntry e s = (some (), s') ∧
      Lists s'.links ls' ∧ Transfer e l free ls ls' ∧ R s s')
    (h : Lists s.links ls) (fuel : Nat) (hfuel : (ls head).length < fuel) :
    ∃ s' ls', drain head cancelEntry fuel s = (some (), s') ∧ Lists s'.links ls' ∧
      Moves (fun _ l l' => l = head ∧ l' = free) ls ls' ∧ R s s' ∧ ls' head = [] := by
  induction fuel generalizing s ls with
  | zero => exact absurd hfuel (Nat.not_lt_zero _)
  | succ fuel ih =>
    simp only [drain, get_bind_apply]
    obtain ⟨hl, hempty⟩ | ⟨e, rest, hl, hempty, hnext⟩ := h.first head
    · rw [if_pos hempty]
      exact ⟨s, ls, rfl, h, .refl, hrefl s, hl⟩
    · have he : e ∈ ls head := hl ▸ mem_cons_self
      obtain ⟨l, s₁, ls₁, h₁, hl₁, t, hs₁⟩ := hc s ls e h he
      obtain rfl := h.unique t.mem he
      have hlen : (ls₁ l).length < fuel := by
        rw [t.source hne, hl, erase_cons_head]
        rw [hl, length_cons] at hfuel
        omega
      obtain ⟨s₂, ls₂, h₂, hl₂, hm, hs₂, hnil⟩ := ih hl₁ hlen
      refine ⟨s₂, ls₂, ?_, hl₂, .head ⟨e, l, free, ⟨rfl, rfl⟩, t⟩ hm,
        htrans _ _ _ hs₁ hs₂, hnil⟩
      rw [if_neg hempty, hnext, ofOption_some_bind, bind_of_some h₁, h₂]

section

variable (hP : ∀ s L, P s → P { s with links := L }) (hE : ∀ s, P s → E s)

include hP hE

theorem onLinks_keeps (f : Links Node → Option (Links Node)) :
    Triple P (onLinks f) (fun _ => P) E := by
  constructor
  intro s hs
  simp only [onLinks, update]
  cases f s.links with
  | none => exact hE s hs
  | some L => exact hP s L hs

theorem popFree_keeps (l : ListId) : Triple P (popFree l) (fun _ => P) E := by
  apply Triple.get_bind_keep
  intro s _
  apply Triple.ite
  · intro _
    exact Triple.skip
  · intro _
    apply Triple.bind (Triple.ofOption hE)
    intro entry
    apply Triple.bind (onLinks_keeps hP hE _)
    intro _
    exact Triple.skip

theorem getTimeout_keeps : Triple P getTimeout (fun _ => P) E := by
  apply Triple.bind (popFree_keeps hP hE _)
  intro entry
  cases entry with
  | none => exact Triple.skip
  | some n =>
    cases n with
    | timeout i => exact Triple.skip
    | head | sock | signal => exact Triple.fail hE

end

/-- Where a sorted insertion puts its entry: before the first later one. -/
structure SplitAt (later : Node → Bool) (xs ys zs : List Node) : Prop where
  split : zs = xs ++ ys
  front : ∀ x ∈ xs, later x = false
  point : ∀ y ∈ ys.head?, later y = true

/-- The walk of `sloop_register_timeout` stops before the first timer with a later deadline. -/
theorem insertPoint_spec (F : s.links.Family Node.head ls) (fuel : Nat) (time : Timeval)
    (hfuel : (ls .timeout).length < fuel) :
    ∃ xs ys, SplitAt (isLater s time) xs ys (ls .timeout) ∧
      insertPoint fuel s time = some (ys.headD (.head .timeout)) := by
  have hring := F.ring .timeout
  have hs := hring.search (p := isLater s time) fuel
  obtain ⟨d, hd⟩ := Option.isSome_iff_exists.mp (hs.2 hfuel)
  have hpoint : insertPoint fuel s time = some d := by
    rw [insertPoint, hring.next_head, Option.bind_some, hd]
  have hfind := hs.1 d hd
  rw [hpoint]
  cases hf : (ls .timeout).find? (isLater s time) with
  | none =>
    rw [hf] at hfind
    have hsplit : SplitAt (isLater s time) (ls .timeout) [] (ls .timeout) := by
      refine ⟨(append_nil _).symm, ?_, by simp⟩
      intro x hx
      exact Bool.eq_false_of_not_eq_true (find?_eq_none.mp hf x hx)
    exact ⟨ls .timeout, [], hsplit, by rw [hfind]; rfl⟩
  | some c =>
    rw [hf] at hfind
    obtain ⟨hc, xs, ys, hxy, hxs⟩ := find?_eq_some_iff_append.mp hf
    have hsplit : SplitAt (isLater s time) xs (c :: ys) (ls .timeout) := by
      refine ⟨hxy, ?_, ?_⟩
      · intro x hx
        exact Bool.not_eq_true' (isLater s time x) ▸ hxs x hx
      · intro y hy
        rw [head?_cons, Option.mem_some_iff] at hy
        exact hy ▸ hc
    exact ⟨xs, c :: ys, hsplit, by rw [hfind]; rfl⟩

/-- A timer was put into the list, before the first one with a later deadline. -/
structure Inserted (s : SloopData) (ls : ListId → List Node) (s' : SloopData)
    (ls' : ListId → List Node) (i : Fin maxSloopTimeout) : Prop where
  others : ∀ j, j ≠ i → s'.timeouts j = s.timeouts j
  position : ∃ xs ys, SplitAt (isLater s' (s'.timeouts i).time) xs ys (ls .timeout) ∧
    ls' .timeout = xs ++ .timeout i :: ys

/-- `sloop_register_timeout` moves the first free entry into the list of the timers. -/
theorem sloopRegisterTimeout_spec (h : Lists s.links ls) {env : Env} (hfuel : 128 < env.fuel)
    (secs usecs : UInt32) (callback : Callback) :
    (ls .freeTimeout = [] ∧ sloopRegisterTimeout env secs usecs callback s = (some none, s)) ∨
      ∃ i rest s' ls', ls .freeTimeout = .timeout i :: rest ∧
        sloopRegisterTimeout env secs usecs callback s = (some (some i), s') ∧
        Lists s'.links ls' ∧ Transfer (.timeout i) .freeTimeout .timeout ls ls' ∧
        s'.log = s.log ∧ s'.calls = s.calls ∧ SameSignals s s' ∧ Inserted s ls s' ls' i := by
  obtain ⟨hempty, hp⟩ | ⟨e, rest, L, hl, hp, F, off⟩ := popFree_spec h .freeTimeout
  · left
    have hg : getTimeout s = (some none, s) := by
      rw [getTimeout, bind_of_some hp]
      rfl
    refine ⟨hempty, ?_⟩
    rw [sloopRegisterTimeout, bind_of_some hg]
    rfl
  · right
    have he : e ∈ ls .freeTimeout := hl ▸ mem_cons_self
    obtain ⟨i, rfl⟩ := kind_timeout (h.kind _ e he)
    have hg : getTimeout s = (some (some i), { s with links := L }) := by
      rw [getTimeout, bind_of_some hp]
      rfl
    let time := normalise 2148
      ⟨wrap (wrap (env.uptime s.ticks) + secs.toNat), wrap usecs.toNat⟩
    let s₁ : SloopData := { s with
      links := initDlistHead L (.timeout i)
      timeouts := Function.update s.timeouts i ⟨time, callback⟩
      ticks := s.ticks + 1 }
    have F₁ : s₁.links.Family Node.head (erased ls .freeTimeout (.timeout i)) := F.close off
    have htl : erased ls .freeTimeout (.timeout i) .timeout = ls .timeout :=
      Function.update_of_ne (by decide) _ _
    -- the tail of the function, once the entry is filled in
    have hrun : sloopRegisterTimeout env secs usecs callback s =
        (if dlistEmpty s₁.links (.head .timeout) then do
          onLinks fun L => dlistAdd L (.timeout i) (.head .timeout)
          pure (some i)
        else do
          let point ← ofOption (insertPoint env.fuel s₁ time)
          onLinks fun L => dlistAddTail L (.timeout i) point
          pure (some i) : Run (Option (Fin maxSloopTimeout))) s₁ := by
      rw [sloopRegisterTimeout, bind_of_some hg]
      rfl
    have hadd : ∃ xs ys L', SplitAt (isLater s₁ time) xs ys (ls .timeout) ∧
        sloopRegisterTimeout env secs usecs callback s =
          (some (some i), { s₁ with links := L' }) ∧
        L'.Family Node.head (Function.update (erased ls .freeTimeout (.timeout i)) .timeout
          (xs ++ .timeout i :: ys)) := by
      by_cases hempty : dlistEmpty s₁.links (.head .timeout) = true
      · obtain ⟨L', h', F'⟩ := dlistAdd_family F₁ off .timeout
        rw [htl] at F'
        have hnil : ls .timeout = [] := htl ▸ (dlistEmpty_iff (F₁.ring .timeout)).mp hempty
        rw [hnil] at F' ⊢
        refine ⟨[], [], L', ⟨rfl, by simp, by simp⟩, ?_, F'⟩
        rw [hrun, if_pos hempty, bind_of_some (onLinks_of_some h')]
        rfl
      · obtain ⟨xs, ys, hsplit, hpoint⟩ := insertPoint_spec F₁ env.fuel time
          (htl ▸ Nat.lt_of_le_of_lt (h.length_le .timeout) hfuel)
        obtain ⟨L', h', F'⟩ := dlistAddTail_family F₁ off hsplit.split
        refine ⟨xs, ys, L', htl ▸ hsplit, ?_, F'⟩
        rw [hrun, if_neg hempty, hpoint, ofOption_some_bind,
          bind_of_some (onLinks_of_some h')]
        rfl
    obtain ⟨xs, ys, L', hsplit, hr, F'⟩ := hadd
    have t : Transfer (.timeout i) .freeTimeout .timeout ls _ :=
      ⟨he, rfl, xs, ys, fun hne => absurd rfl hne, htl.trans hsplit.split, rfl⟩
    clear_value time
    have hfilled : s₁.timeouts i = ⟨time, callback⟩ := Function.update_self i _ _
    have htime : (s₁.timeouts i).time = time := by rw [hfilled]
    refine ⟨i, rest, _, _, hl, hr, h.transfer t F', t, rfl, rfl, ⟨rfl, rfl⟩, ?_, xs, ys, ?_, ?_⟩
    · intro j hj
      exact Function.update_of_ne hj _ _
    · exact htime.symm ▸ hsplit
    · rw [Function.update_self]

def Action.Permits : Action → Node → ListId → ListId → Prop
  | .register d _ _, _, l, l' => l = .freeSockets ∧ l' = d.list
  | .cancel _ (some i), e, _, l' => e = .sock i ∧ l' = .freeSockets
  | .cancel d none, _, l, l' => l = d.list ∧ l' = .freeSockets
  | .registerSignal _ _, _, l, l' => l = .freeSignals ∧ l' = .signals
  | .cancelSignal (some i), e, _, l' => e = .signal i ∧ l' = .freeSignals
  | .cancelSignal none, _, l, l' => l = .signals ∧ l' = .freeSignals
  | .registerTimeout _ _ _, _, l, l' => l = .freeTimeout ∧ l' = .timeout
  | .cancelTimeout (some i), e, _, l' => e = .timeout i ∧ l' = .freeTimeout
  | .cancelTimeout none, _, l, l' => l = .timeout ∧ l' = .freeTimeout
  | .terminate, _, _, _ => False

/-- The kind of the entries that a call is about. -/
def Action.kind : Action → Option Kind
  | .register _ _ _ | .cancel _ _ => some .socket
  | .registerSignal _ _ | .cancelSignal _ => some .signal
  | .registerTimeout _ _ _ | .cancelTimeout _ => some .timeout
  | .terminate => none

theorem Action.Permits.kind_eq {a : Action} {e : Node} {l l' : ListId} (hp : a.Permits e l l') :
    a.kind = some l'.kind := by
  cases a with
  | register d _ _ =>
    obtain ⟨_, rfl⟩ := hp
    cases d <;> rfl
  | cancel d handle | cancelSignal handle | cancelTimeout handle =>
    cases handle <;> (obtain ⟨_, rfl⟩ := hp; rfl)
  | registerSignal | registerTimeout =>
    obtain ⟨_, rfl⟩ := hp
    rfl
  | terminate => exact hp.elim

theorem Moves.eq_of_kind {a : Action} {ls' : ListId → List Node} (hm : Moves a.Permits ls ls')
    {k : ListId} (hk : a.kind ≠ some k.kind) : ls' k = ls k := by
  apply hm.induct (I := fun ks => ks k = ls k) ?_ rfl
  intro e l l' ks ks' hp t heq
  have hl' : l'.kind ≠ k.kind := fun e => hk (e ▸ hp.kind_eq)
  have hl : l.kind ≠ k.kind := t.same_kind ▸ hl'
  rw [t.eq_of_ne (fun e => hl (e ▸ rfl)) fun e => hl' (e ▸ rfl)]
  exact heq

/-- What a call leaves in the record: its own event with the links and the timers after it,
and before that, when it registers a timer, the event of entering it. Only
registering fills in the data of a timer. -/
inductive Recorded (caller : Caller) (s : SloopData) (ls : ListId → List Node) (s' : SloopData)
    (ls' : ListId → List Node) : Action → Prop
  | plain (a : Action) (ha : a.kind ≠ some .timeout)
      (log : s'.log = ⟨.other, s'.links, s'.timeouts⟩ :: s.log)
      (same : s'.timeouts = s.timeouts) : Recorded caller s ls s' ls' a
  | refused (secs usecs : UInt32) (callback : Callback)
      (log : s'.log = ⟨.other, s'.links, s'.timeouts⟩ ::
        ⟨.registering caller, s.links, s.timeouts⟩ :: s.log)
      (same : s'.timeouts = s.timeouts) (unmoved : ls' = ls) :
      Recorded caller s ls s' ls' (.registerTimeout secs usecs callback)
  | registered (secs usecs : UInt32) (callback : Callback) (i : Fin maxSloopTimeout)
      (rest : List Node) (free : ls .freeTimeout = .timeout i :: rest)
      (mem : .timeout i ∈ ls' .timeout)
      (log : s'.log = ⟨.registered i, s'.links, s'.timeouts⟩ ::
        ⟨.registering caller, s.links, s.timeouts⟩ :: s.log)
      (inserted : Inserted s ls s' ls' i) :
      Recorded caller s ls s' ls' (.registerTimeout secs usecs callback)
  | cancelled (i : Fin maxSloopTimeout)
      (log : s'.log = ⟨.cancelled i, s'.links, s'.timeouts⟩ :: s.log)
      (same : s'.timeouts = s.timeouts) : Recorded caller s ls s' ls' (.cancelTimeout (some i))
  | cancelledAll (log : s'.log = ⟨.cancelledAll, s'.links, s'.timeouts⟩ :: s.log)
      (same : s'.timeouts = s.timeouts) : Recorded caller s ls s' ls' (.cancelTimeout none)

theorem direction_kind (d : Direction) : d.list.kind = .socket := by
  cases d <;> rfl

theorem Lists.sock_of_mem (h : Lists s.links ls) {d : Direction} (hn : n ∈ ls d.list) :
    ∃ i, n = .sock i :=
  kind_socket (direction_kind d ▸ h.kind d.list n hn)

section

variable (h : Lists s.links ls) (hfuel : 128 < fuel)

include h hfuel

theorem cancelSocket_spec (d : Direction) (handle : Option (Fin maxSloopSocket)) :
    ∃ s' ls', cancelSocket fuel handle d.list s = (some (), s') ∧ Lists s'.links ls' ∧
      Moves (Action.cancel d handle).Permits ls ls' ∧ Silent s s' ∧ SameSignals s s' := by
  cases handle with
  | some i =>
    obtain ⟨l, L, ls', he, hl, t⟩ := cancelSocketEntry_spec h i
    exact ⟨_, ls', he, hl, .single ⟨rfl, rfl⟩ t, ⟨rfl, rfl, rfl⟩, ⟨rfl, rfl⟩⟩
  | none =>
    obtain ⟨s', ls', he, hl, hm, hs, _⟩ := drain_spec cancelSocketEntry
      (show d.list ≠ .freeSockets by cases d <;> decide)
      (R := fun s s' => Silent s s' ∧ SameSignals s s') (fun s => ⟨.refl s, rfl, rfl⟩)
      (fun _ _ _ h h' => ⟨h.1.trans h'.1, h.2.trans h'.2⟩) (by
        intro s ls e hl he
        obtain ⟨i, rfl⟩ := hl.sock_of_mem he
        obtain ⟨l, L, ls', he', hl', t⟩ := cancelSocketEntry_spec hl i
        exact ⟨l, _, ls', he', hl', t, ⟨rfl, rfl, rfl⟩, ⟨rfl, rfl⟩⟩)
      h fuel (Nat.lt_of_le_of_lt (h.length_le d.list) hfuel)
    exact ⟨s', ls', he, hl, hm, hs⟩

theorem sloopCancelSignal_spec (handle : Option (Fin maxSloopSignal)) :
    ∃ s' ls', sloopCancelSignal fuel handle s = (some (), s') ∧ Lists s'.links ls' ∧
      Moves (Action.cancelSignal handle).Permits ls ls' ∧ Silent s s' := by
  cases handle with
  | some i =>
    obtain ⟨l, L, ls', he, hl, t⟩ := cancelSignalEntry_spec h i
    exact ⟨_, ls', he, hl, .single ⟨rfl, rfl⟩ t, ⟨rfl, rfl, rfl⟩⟩
  | none =>
    obtain ⟨s', ls', he, hl, hm, hs, _⟩ := drain_spec cancelSignalEntry
      (show ListId.signals ≠ .freeSignals by decide) Silent.refl (fun _ _ _ h h' => h.trans h') (by
        intro s ls e hl he
        obtain ⟨i, rfl⟩ := kind_signal (hl.kind _ e he)
        obtain ⟨l, L, ls', he', hl', t⟩ := cancelSignalEntry_spec hl i
        exact ⟨l, _, ls', he', hl', t, ⟨rfl, rfl, rfl⟩⟩)
      h fuel (Nat.lt_of_le_of_lt (h.length_le .signals) hfuel)
    exact ⟨s', ls', he, hl, hm, hs⟩

theorem sloopCancelTimeout_spec (handle : Option (Fin maxSloopTimeout)) :
    ∃ s' ls', sloopCancelTimeout fuel handle s = (some (), s') ∧ Lists s'.links ls' ∧
      Moves (Action.cancelTimeout handle).Permits ls ls' ∧ Silent s s' ∧ SameSignals s s' := by
  cases handle with
  | some i =>
    obtain ⟨l, L, ls', he, hl, t⟩ := cancelTimeoutEntry_spec h i
    exact ⟨_, ls', he, hl, .single ⟨rfl, rfl⟩ t, ⟨rfl, rfl, rfl⟩, ⟨rfl, rfl⟩⟩
  | none =>
    obtain ⟨s', ls', he, hl, hm, hs, _⟩ := drain_spec cancelTimeoutEntry
      (show ListId.timeout ≠ .freeTimeout by decide)
      (R := fun s s' => Silent s s' ∧ SameSignals s s') (fun s => ⟨.refl s, rfl, rfl⟩)
      (fun _ _ _ h h' => ⟨h.1.trans h'.1, h.2.trans h'.2⟩) (by
        intro s ls e hl he
        obtain ⟨i, rfl⟩ := kind_timeout (hl.kind _ e he)
        obtain ⟨l, L, ls', he', hl', t⟩ := cancelTimeoutEntry_spec hl i
        exact ⟨l, _, ls', he', hl', t, ⟨rfl, rfl, rfl⟩, ⟨rfl, rfl⟩⟩)
      h fuel (Nat.lt_of_le_of_lt (h.length_le .timeout) hfuel)
    exact ⟨s', ls', he, hl, hm, hs⟩

end

/-- What a call leaves alone: it is no call of a handler, and most calls concern no signal. -/
structure Framed (a : Action) (s s' : SloopData) : Prop where
  calls : s'.calls = s.calls
  signals : a.kind ≠ some .signal → SameSignals s s'

theorem noted {α : Type} {c : Run α} {r : α} {s' : SloopData} (he : c s = (some r, s'))
    (e : Event) : (do
      let _ ← c
      note e : Run Unit) s =
        (some (), { s' with log := ⟨e, s'.links, s'.timeouts⟩ :: s'.log }) := by
  rw [bind_of_some he]
  rfl

/-- With enough fuel every call returns, whatever its handle, and makes only its transfers. -/
theorem doAction_spec (h : Lists s.links ls) {env : Env} (hfuel : 128 < env.fuel)
    (caller : Caller) (a : Action) :
    ∃ s' ls', doAction env caller a s = (some (), s') ∧ Lists s'.links ls' ∧
      Moves a.Permits ls ls' ∧ Recorded caller s ls s' ls' a ∧ Framed a s s' := by
  cases a with
  | register d sock callback =>
    obtain ⟨r, s₁, ls₁, he, hl, hm, hs, hsig⟩ := registerSocket_spec h sock callback d
    exact ⟨_, ls₁, noted he _, hl, hm, .plain _ nofun (by rw [hs.log]) hs.timeouts,
      hs.calls, fun _ => ⟨hsig.1, hsig.2⟩⟩
  | cancel d handle =>
    obtain ⟨s₁, ls₁, he, hl, hm, hs, hsig⟩ := cancelSocket_spec h hfuel d handle
    exact ⟨_, ls₁, noted he _, hl, hm, .plain _ nofun (by rw [hs.log]) hs.timeouts,
      hs.calls, fun _ => ⟨hsig.1, hsig.2⟩⟩
  | registerSignal sig callback =>
    obtain he | ⟨i, L, ls₁, he, hl, t⟩ := sloopRegisterSignal_spec h sig callback
    · exact ⟨_, ls, noted he _, h, .refl, .plain _ nofun rfl rfl, rfl, fun h => absurd rfl h⟩
    · exact ⟨_, ls₁, noted he _, hl, .single ⟨rfl, rfl⟩ t,
        .plain _ nofun rfl rfl, rfl, fun h => absurd rfl h⟩
  | cancelSignal handle =>
    obtain ⟨s₁, ls₁, he, hl, hm, hs⟩ := sloopCancelSignal_spec h hfuel handle
    exact ⟨_, ls₁, noted he _, hl, hm, .plain _ nofun (by rw [hs.log]) hs.timeouts,
      hs.calls, fun h => absurd rfl h⟩
  | registerTimeout secs usecs callback =>
    let s₀ : SloopData := { s with log := ⟨.registering caller, s.links, s.timeouts⟩ :: s.log }
    have h₀ : Lists s₀.links ls := h
    obtain ⟨_, he⟩ | ⟨i, rest, s₁, ls₁, hfree, he, hl, t, hlog, hcalls, hsig, hins⟩ :=
      sloopRegisterTimeout_spec h₀ hfuel secs usecs callback
    · refine ⟨{ s₀ with log := ⟨.other, s.links, s.timeouts⟩ :: s₀.log }, ls, ?_, h, .refl,
        .refused secs usecs callback rfl rfl rfl, rfl, fun _ => ⟨rfl, rfl⟩⟩
      simp only [doAction, note, modify_bind_apply]
      rw [bind_of_some he]
      rfl
    · refine ⟨{ s₁ with log := ⟨.registered i, s₁.links, s₁.timeouts⟩ :: s₁.log }, ls₁, ?_, hl,
        .single ⟨rfl, rfl⟩ t,
        .registered secs usecs callback i rest hfree t.mem_target (by rw [hlog])
          ⟨hins.others, hins.position⟩, hcalls, fun _ => ⟨hsig.1, hsig.2⟩⟩
      simp only [doAction, note, modify_bind_apply]
      rw [bind_of_some he]
      rfl
  | cancelTimeout handle =>
    obtain ⟨s₁, ls₁, he, hl, hm, hs, hsig⟩ := sloopCancelTimeout_spec h hfuel handle
    cases handle with
    | some i =>
      exact ⟨_, ls₁, noted he _, hl, hm, .cancelled i (by rw [hs.log]) hs.timeouts, hs.calls,
        fun _ => ⟨hsig.1, hsig.2⟩⟩
    | none =>
      exact ⟨_, ls₁, noted he _, hl, hm, .cancelledAll (by rw [hs.log]) hs.timeouts, hs.calls,
        fun _ => ⟨hsig.1, hsig.2⟩⟩
  | terminate =>
    exact ⟨{ s with terminate := true, log := ⟨.other, s.links, s.timeouts⟩ :: s.log }, ls, rfl,
      h, .refl, .plain _ nofun rfl rfl, rfl, fun _ => ⟨rfl, rfl⟩⟩

end Calls

/-- `init_list_pools` links the entries of a pool in turn, so the last one comes first. -/
theorem addAll_spec {ι : Type} (f : ι → Node) (l : ListId) (is : List ι) (hf : (is.map f).Nodup)
    (s : SloopData) (ls : ListId → List Node) (F : s.links.Family Node.head ls)
    (hoff : ∀ i ∈ is, Off Node.head ls (f i)) :
    ∃ L, forEach (fun i => onLinks fun L => dlistAdd L (f i) (.head l)) is s =
        (some (), { s with links := L }) ∧
      L.Family Node.head (Function.update ls l ((is.map f).reverse ++ ls l)) := by
  induction is generalizing s ls with
  | nil =>
    refine ⟨s.links, rfl, ?_⟩
    simpa using F
  | cons i is ih =>
    obtain ⟨hi, hnd⟩ := nodup_cons.mp hf
    obtain ⟨L₁, h₁, F₁⟩ := dlistAdd_family F (hoff i mem_cons_self) l
    have hoff₁ : ∀ j ∈ is, Off Node.head (Function.update ls l (f i :: ls l)) (f j) := by
      intro j hj k hk
      have hne : f j ≠ f i := fun e => hi (e ▸ mem_map_of_mem hj)
      have hold := hoff j (mem_cons_of_mem i hj) k
      by_cases hkl : k = l
      · subst hkl
        rw [Function.update_self] at hk
        simp only [mem_cons] at hk hold
        tauto
      · rw [Function.update_of_ne hkl] at hk
        exact hold hk
    obtain ⟨L₂, h₂, F₂⟩ := ih hnd { s with links := L₁ } _ F₁ hoff₁
    refine ⟨L₂, ?_, ?_⟩
    · rw [forEach, bind_of_some (onLinks_of_some h₁), h₂]
    · rw [Function.update_self, Function.update_idem] at F₂
      simpa using F₂

/-- The lists after `sloop_init`: every entry is free. -/
def initialLists : ListId → List Node
  | .freeSockets => ((List.finRange maxSloopSocket).map Node.sock).reverse
  | .freeTimeout => ((List.finRange maxSloopTimeout).map Node.timeout).reverse
  | .freeSignals => ((List.finRange maxSloopSignal).map Node.signal).reverse
  | _ => []

theorem initialLists_lists {L : Links Node} (F : L.Family Node.head initialLists) :
    Lists L initialLists := by
  refine ⟨F, ?_, ?_⟩
  · intro l n hn
    cases l with
    | freeSockets | freeTimeout | freeSignals =>
      simp only [initialLists, mem_reverse, mem_map] at hn
      obtain ⟨i, _, rfl⟩ := hn
      rfl
    | readers | writers | signals | timeout => cases hn
  · intro n k hk
    cases n with
    | head l => cases hk
    | sock i => exact ⟨.freeSockets, by simp [initialLists]⟩
    | timeout i => exact ⟨.freeTimeout, by simp [initialLists]⟩
    | signal i => exact ⟨.freeSignals, by simp [initialLists]⟩

theorem initHeads_run (hs : List ListId) (s : SloopData) :
    forEach (fun l => onLinks fun L => some (initDlistHead L (.head l))) hs s =
      (some (), { s with links := hs.foldl (fun L l => initDlistHead L (.head l)) s.links }) := by
  induction hs generalizing s with
  | nil => rfl
  | cons l hs ih => exact ih { s with links := initDlistHead s.links (.head l) }

/-- The links after `sloop_init` initialised the list heads. -/
def headLinks : Links Node :=
  [ListId.readers, .writers, .signals, .timeout, .freeSockets, .freeTimeout, .freeSignals].foldl
    (fun L l => initDlistHead L (.head l)) SloopData.bss.links

theorem headLinks_family : headLinks.Family Node.head fun _ => [] := by
  constructor
  · intro l
    refine ⟨?_, by simp⟩
    cases l <;> exact ⟨rfl, rfl⟩
  · intro i j hij x hx hx'
    simp only [mem_singleton] at hx hx'
    exact hij (Node.head.inj (hx.symm.trans hx'))

/-- All entries are free at the start. -/
theorem sloopInit_spec : ∃ L, sloopInit .bss = (some (), { SloopData.bss with links := L }) ∧
    Lists L initialLists := by
  obtain ⟨L₁, h₁, F₁⟩ := addAll_spec Node.sock .freeSockets (finRange maxSloopSocket)
    ((nodup_finRange _).map fun _ _ e => Node.sock.inj e)
    { SloopData.bss with links := headLinks } _ headLinks_family (by intro i _ l; simp)
  obtain ⟨L₂, h₂, F₂⟩ := addAll_spec Node.timeout .freeTimeout (finRange maxSloopTimeout)
    ((nodup_finRange _).map fun _ _ e => Node.timeout.inj e)
    { SloopData.bss with links := L₁ } _ F₁ (by intro i _ l; cases l <;> simp)
  obtain ⟨L₃, h₃, F₃⟩ := addAll_spec Node.signal .freeSignals (finRange maxSloopSignal)
    ((nodup_finRange _).map fun _ _ e => Node.signal.inj e)
    { SloopData.bss with links := L₂ } _ F₂ (by intro i _ l; cases l <;> simp)
  refine ⟨L₃, ?_, initialLists_lists ?_⟩
  · have h₀ : forEach (fun l => onLinks fun L => some (initDlistHead L (.head l)))
        [.readers, .writers, .signals, .timeout, .freeSockets, .freeTimeout, .freeSignals]
        SloopData.bss = (some (), { SloopData.bss with links := headLinks }) :=
      initHeads_run _ _
    rw [sloopInit, bind_of_some h₀, initListPools, bind_of_some h₁, bind_of_some h₂, h₃]
  · convert F₃ using 1
    ext l : 1
    cases l <;> simp [initialLists]

end Wbr1310.Comlib.Sloop
