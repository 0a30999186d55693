import Mathlib

/-!
# Circular doubly linked lists on a heap of links

A heap of links gives every node a forward and a backward pointer, and `none`
is the null pointer. A ring is a head node followed by the listed nodes and
closed back to the head, with both pointers of every consecutive pair agreeing.
The two pointer surgeries, splicing a node between two neighbours and bridging
over a node, are specified on rings and on families of disjoint rings.

## Implementation notes

Every node of a family lies on at most one ring, so an operation on one ring
leaves the others unchanged. The family rules below carry that frame argument
once, and clients never reason about single pointers.
-/

namespace Wbr1310.Lib

open List Function

variable {α ι : Type*}

/-- The forward and the backward link of every node; `none` is the null pointer. -/
structure Links (α : Type*) where
  next : α → Option α
  prev : α → Option α

namespace Links

/-- Both pointers between two consecutive nodes agree. -/
def Linked (L : Links α) (a b : α) : Prop :=
  L.next a = some b ∧ L.prev b = some a

/-- The nodes `xs` lead from `a` to `b` along agreeing pointers. -/
def Path (L : Links α) : α → List α → α → Prop
  | a, [], b => L.Linked a b
  | a, x :: xs, b => L.Linked a x ∧ Path L x xs b

/-- A closed path through pairwise different nodes, starting at the head `h`. -/
structure Ring (L : Links α) (h : α) (xs : List α) : Prop where
  path : L.Path h xs h
  nodup : (h :: xs).Nodup

@[simp] theorem path_nil (L : Links α) (a b : α) : L.Path a [] b ↔ L.Linked a b := Iff.rfl

@[simp] theorem path_cons (L : Links α) (a x b : α) (xs : List α) :
    L.Path a (x :: xs) b ↔ L.Linked a x ∧ L.Path x xs b := Iff.rfl

theorem path_append (L : Links α) (a x b : α) (xs ys : List α) :
    L.Path a (xs ++ x :: ys) b ↔ L.Path a xs x ∧ L.Path x ys b := by
  induction xs generalizing a with
  | nil => simp
  | cons y xs ih => simp [ih, and_assoc]

variable {L L' : Links α} {a b h : α} {xs ys : List α}

theorem Path.congr (h : L.Path a xs b) (hn : ∀ c ∈ a :: xs, L'.next c = L.next c)
    (hp : ∀ c ∈ xs ++ [b], L'.prev c = L.prev c) : L'.Path a xs b := by
  induction xs generalizing a with
  | nil =>
    exact ⟨(hn a (by simp)).trans h.1, (hp b (by simp)).trans h.2⟩
  | cons x xs ih =>
    refine ⟨⟨(hn a (by simp)).trans h.1.1, (hp x (by simp)).trans h.1.2⟩, ih h.2 ?_ ?_⟩
    · intro c hc
      exact hn c (mem_cons_of_mem a hc)
    · intro c hc
      exact hp c (mem_cons_of_mem x hc)

theorem Path.next_eq (h : L.Path a xs b) :
    L.next a = some (xs.headD b) := by
  cases xs with
  | nil => exact h.1
  | cons x xs => exact h.1.1

theorem Path.prev_eq (h : L.Path a xs b) :
    L.prev b = some (xs.getLastD a) := by
  induction xs generalizing a with
  | nil => exact h.2
  | cons x xs ih =>
    rw [ih h.2, getLastD_cons]

theorem Ring.congr (r : L.Ring h xs) (hn : ∀ c ∈ h :: xs, L'.next c = L.next c)
    (hp : ∀ c ∈ h :: xs, L'.prev c = L.prev c) : L'.Ring h xs := by
  refine ⟨r.path.congr hn ?_, r.nodup⟩
  intro c hc
  exact hp c (by simpa [or_comm] using hc)

theorem Ring.not_mem (r : L.Ring h xs) : h ∉ xs :=
  (nodup_cons.mp r.nodup).1

theorem Ring.next_head (r : L.Ring h xs) :
    L.next h = some (xs.headD h) := r.path.next_eq

theorem Ring.prev_head (r : L.Ring h xs) :
    L.prev h = some (xs.getLastD h) := r.path.prev_eq

theorem Path.unique (h : L.Path a xs b) (h' : L.Path a ys b) (hx : b ∉ xs) (hy : b ∉ ys) :
    xs = ys := by
  induction xs generalizing a ys with
  | nil =>
    cases ys with
    | nil => rfl
    | cons y ys =>
      have e : b = y := Option.some.inj (h.1.symm.trans h'.1.1)
      exact absurd mem_cons_self (e ▸ hy)
  | cons x xs ih =>
    cases ys with
    | nil =>
      have e : b = x := Option.some.inj (h'.1.symm.trans h.1.1)
      exact absurd mem_cons_self (e ▸ hx)
    | cons y ys =>
      have e : x = y := Option.some.inj (h.1.1.symm.trans h'.1.1)
      subst e
      rw [ih h.2 h'.2 (fun hb => hx (mem_cons_of_mem x hb))
        fun hb => hy (mem_cons_of_mem x hb)]

theorem Ring.unique (r : L.Ring h xs) (r' : L.Ring h ys) : xs = ys :=
  r.path.unique r'.path r.not_mem r'.not_mem

theorem Ring.next_head_eq_iff (r : L.Ring h xs) :
    L.next h = some h ↔ xs = [] := by
  rw [r.next_head]
  cases xs with
  | nil => simp
  | cons x xs =>
    have hx : x ≠ h := fun e => r.not_mem (by simp [e])
    simp [hx]

theorem Ring.neighbours {e : α} (r : L.Ring h (xs ++ e :: ys)) :
    L.prev e = some (xs.getLastD h) ∧ L.next e = some (ys.headD h) := by
  obtain ⟨h₁, h₂⟩ := (path_append L h e h xs ys).mp r.path
  exact ⟨h₁.prev_eq, h₂.next_eq⟩

/-- The links of the node `c` are the same in both heaps. -/
def SameAt (L' L : Links α) (c : α) : Prop := L'.next c = L.next c ∧ L'.prev c = L.prev c

theorem SameAt.refl (L : Links α) (c : α) : L.SameAt L c := ⟨rfl, rfl⟩

theorem SameAt.trans {L'' : Links α} {c : α} (h' : L''.SameAt L' c) (h : L'.SameAt L c) :
    L''.SameAt L c :=
  ⟨h'.1.trans h.1, h'.2.trans h.2⟩

theorem getLastD_mem_ring (h : α) (xs ys : List α) :
    xs.getLastD h ∈ h :: (xs ++ ys) := by
  have hm : xs.getLastD h ∈ h :: xs := getLastD_mem_cons
  simp only [mem_cons, mem_append] at hm ⊢
  exact hm.imp_right Or.inl

theorem headD_mem_ring (h : α) (xs ys : List α) : ys.headD h ∈ h :: (xs ++ ys) := by
  cases ys <;> simp

section Surgery

variable [DecidableEq α]

/-- Splice `x` between the nodes `p` and `n`. -/
def splice (L : Links α) (x p n : α) : Links α where
  next := Function.update (Function.update L.next x (some n)) p (some x)
  prev := Function.update (Function.update L.prev n (some x)) x (some p)

/-- Link `p` to `n` directly and null both pointers of the node `x` between them. -/
def bridge (L : Links α) (x p n : α) : Links α where
  next := Function.update (Function.update L.next p (some n)) x none
  prev := Function.update (Function.update L.prev n (some p)) x none

/-- Point both links of `x` to itself. -/
def close (L : Links α) (x : α) : Links α where
  next := Function.update L.next x (some x)
  prev := Function.update L.prev x (some x)

variable {L : Links α} {x p n c : α} {xs ys : List α}

theorem splice_next_of_ne (hx : c ≠ x) (hp : c ≠ p) :
    (L.splice x p n).next c = L.next c := by
  simp [splice, hx, hp]

theorem splice_prev_of_ne (hx : c ≠ x) (hn : c ≠ n) :
    (L.splice x p n).prev c = L.prev c := by
  simp [splice, hx, hn]

theorem bridge_next_of_ne (hx : c ≠ x) (hp : c ≠ p) :
    (L.bridge x p n).next c = L.next c := by
  simp [bridge, hx, hp]

theorem bridge_prev_of_ne (hx : c ≠ x) (hn : c ≠ n) :
    (L.bridge x p n).prev c = L.prev c := by
  simp [bridge, hx, hn]

theorem splice_path (hp : x ≠ p) (hn : x ≠ n) : (L.splice x p n).Path p [x] n :=
  ⟨⟨by simp [splice], by simp [splice]⟩, by simp [splice, hp], by simp [splice, hn.symm]⟩

theorem bridge_path (hp : p ≠ x) (hn : n ≠ x) : (L.bridge x p n).Path p [] n :=
  ⟨by simp [bridge, hp], by simp [bridge, hn]⟩

theorem close_sameAt (hx : c ≠ x) : (L.close x).SameAt L c :=
  ⟨update_of_ne hx _ _, update_of_ne hx _ _⟩

omit [DecidableEq α] in
/-- A path of which a piece was replaced, when only the links at its two ends have changed. -/
theorem Path.rejoin {L' : Links α} {a b : α} (old mid : List α) (h : L.Path a (xs ++ (old ++ ys)) b)
    (hmid : L'.Path (xs.getLastD a) mid (ys.headD b))
    (hnext : ∀ c ∈ a :: (xs ++ ys), c ≠ xs.getLastD a → L'.next c = L.next c)
    (hprev : ∀ c ∈ b :: (xs ++ ys), c ≠ ys.headD b → L'.prev c = L.prev c)
    (ha : (a :: (xs ++ ys)).Nodup) (hb : (b :: (xs ++ ys)).Nodup) :
    L'.Path a (xs ++ (mid ++ ys)) b := by
  induction xs generalizing a with
  | nil =>
    cases ys with
    | nil => simpa using hmid
    | cons y ys =>
      obtain ⟨hby, hys⟩ := nodup_cons.mp hb
      refine (path_append L' a y b mid ys).mpr ⟨hmid, ?_⟩
      refine ((path_append L a y b old ys).mp h).2.congr ?_ ?_
      · intro c hc
        refine hnext c (mem_cons_of_mem a hc) ?_
        rintro rfl
        exact (nodup_cons.mp ha).1 hc
      · intro c hc
        rcases mem_append.mp hc with hc | hc
        · refine hprev c (by simp [hc]) ?_
          rintro rfl
          exact (nodup_cons.mp hys).1 hc
        · obtain rfl := mem_singleton.mp hc
          refine hprev c mem_cons_self ?_
          rintro rfl
          exact hby mem_cons_self
  | cons w xs ih =>
    rw [getLastD_cons] at hmid hnext
    obtain ⟨haw, hw⟩ := nodup_cons.mp ha
    have hlast : a ≠ xs.getLastD w := fun e => haw (e ▸ getLastD_mem_ring w xs ys)
    have hhead : w ≠ ys.headD b := by
      cases ys with
      | nil =>
        rintro rfl
        exact (nodup_cons.mp hb).1 mem_cons_self
      | cons y ys =>
        rintro rfl
        exact (nodup_cons.mp hw).1 (by simp)
    refine ⟨⟨(hnext a mem_cons_self hlast).trans h.1.1,
      (hprev w (by simp) hhead).trans h.1.2⟩, ih h.2 hmid ?_ ?_ hw ?_⟩
    · intro c hc
      exact hnext c (mem_cons_of_mem a hc)
    · intro c hc
      exact hprev c (by simp only [mem_cons, cons_append] at hc ⊢; tauto)
    · exact hb.sublist ((sublist_cons_self w _).cons_cons b)

theorem Ring.splice {h : α} (r : L.Ring h (xs ++ ys)) (hx : x ∉ h :: (xs ++ ys)) :
    (L.splice x (xs.getLastD h) (ys.headD h)).Ring h (xs ++ x :: ys) := by
  have hlast : x ≠ xs.getLastD h := fun e => hx (e ▸ getLastD_mem_ring h xs ys)
  have hhead : x ≠ ys.headD h := fun e => hx (e ▸ headD_mem_ring h xs ys)
  have hne : ∀ c ∈ h :: (xs ++ ys), c ≠ x := fun c hc e => hx (e ▸ hc)
  refine ⟨r.path.rejoin [] [x] ?_ ?_ ?_ r.nodup r.nodup, ?_⟩
  · exact splice_path hlast hhead
  · exact fun c hc => splice_next_of_ne (hne c hc)
  · exact fun c hc => splice_prev_of_ne (hne c hc)
  · have hp : List.Perm (h :: (xs ++ x :: ys)) (x :: h :: (xs ++ ys)) :=
      (List.Perm.cons h perm_middle).trans (List.Perm.swap x h _)
    exact hp.nodup_iff.mpr (nodup_cons.mpr ⟨hx, r.nodup⟩)

theorem Ring.bridge {h e : α} (r : L.Ring h (xs ++ e :: ys)) :
    (L.bridge e (xs.getLastD h) (ys.headD h)).Ring h (xs ++ ys) := by
  have hp : List.Perm (h :: (xs ++ e :: ys)) (e :: h :: (xs ++ ys)) :=
    (List.Perm.cons h perm_middle).trans (List.Perm.swap e h _)
  obtain ⟨he, hnodup⟩ := nodup_cons.mp (hp.nodup_iff.mp r.nodup)
  have hne : ∀ c ∈ h :: (xs ++ ys), c ≠ e := fun c hc hce => he (hce ▸ hc)
  refine ⟨r.path.rejoin [e] [] ?_ ?_ ?_ hnodup hnodup, hnodup⟩
  · exact bridge_path (hne _ (getLastD_mem_ring h xs ys)) (hne _ (headD_mem_ring h xs ys))
  · exact fun c hc => bridge_next_of_ne (hne c hc)
  · exact fun c hc => bridge_prev_of_ne (hne c hc)

end Surgery

/-- Disjoint rings of one heap, one for every index. -/
structure Family (L : Links α) (head : ι → α) (ls : ι → List α) : Prop where
  ring : ∀ i, L.Ring (head i) (ls i)
  disjoint : ∀ i j, i ≠ j → List.Disjoint (head i :: ls i) (head j :: ls j)

/-- The node lies on no ring of the family, neither as a head nor inside. -/
def Off (head : ι → α) (ls : ι → List α) (x : α) : Prop :=
  ∀ i, x ∉ head i :: ls i

theorem Family.not_mem {head : ι → α} {ls : ι → List α} (F : L.Family head ls) {i j : ι} {x : α}
    (hij : i ≠ j) (hx : x ∈ head i :: ls i) : x ∉ head j :: ls j :=
  fun hj => F.disjoint i j hij hx hj

theorem Family.index_unique {head : ι → α} {ls : ι → List α} (F : L.Family head ls) {i j : ι}
    {x : α} (hi : x ∈ head i :: ls i) (hj : x ∈ head j :: ls j) : i = j := by
  by_contra hij
  exact F.disjoint i j hij hi hj

section FamilySurgery

variable [DecidableEq α] [DecidableEq ι] {L : Links α} {head : ι → α} {ls : ι → List α}

omit [DecidableEq α] in
/-- Replacing one ring of a family by a ring on the same nodes and nodes
outside the family keeps the family, when the other rings keep their links. -/
theorem Family.update {L' : Links α} (F : L.Family head ls) (i : ι) (zs : List α)
    (hr : L'.Ring (head i) zs)
    (hz : ∀ z ∈ zs, z ∈ ls i ∨ Off head ls z)
    (hf : ∀ j, j ≠ i → ∀ c ∈ head j :: ls j, L'.next c = L.next c ∧ L'.prev c = L.prev c) :
    L'.Family head (Function.update ls i zs) := by
  have hd : ∀ j, j ≠ i → List.Disjoint (head i :: zs) (head j :: ls j) := by
    intro j hj z hz' hzj
    rcases mem_cons.mp hz' with rfl | hz'
    · exact F.disjoint i j hj.symm (by simp) hzj
    · rcases hz z hz' with hzi | hoff
      · exact F.disjoint i j hj.symm (mem_cons_of_mem _ hzi) hzj
      · exact hoff j hzj
  constructor
  · intro j
    by_cases hj : j = i
    · subst hj
      simpa using hr
    · rw [update_of_ne hj]
      exact (F.ring j).congr (fun c hc => (hf j hj c hc).1) (fun c hc => (hf j hj c hc).2)
  · intro j k hjk
    by_cases hj : j = i
    · subst hj
      rw [update_self, update_of_ne (Ne.symm hjk)]
      exact hd k (Ne.symm hjk)
    · rw [update_of_ne hj]
      by_cases hk : k = i
      · subst hk
        rw [update_self]
        exact fun z hz hz' => hd j hj hz' hz
      · rw [update_of_ne hk]
        exact F.disjoint j k hjk

variable {i : ι} {xs ys : List α}

theorem Family.splice (F : L.Family head ls) {x : α} (hi : ls i = xs ++ ys) (hx : Off head ls x) :
    (L.splice x (xs.getLastD (head i)) (ys.headD (head i))).Family head
      (Function.update ls i (xs ++ x :: ys)) := by
  have hr := F.ring i
  rw [hi] at hr
  refine F.update i _ (hr.splice (hi ▸ hx i)) ?_ ?_
  · intro z hz
    rcases mem_append.mp hz with h | h
    · exact Or.inl (by simp [hi, h])
    · rcases mem_cons.mp h with rfl | h
      · exact Or.inr hx
      · exact Or.inl (by simp [hi, h])
  · intro j hj c hc
    have hcx : c ≠ x := fun e => hx j (e ▸ hc)
    have hcl : c ≠ xs.getLastD (head i) := fun e =>
      F.disjoint j i hj hc (e ▸ hi ▸ getLastD_mem_ring (head i) xs ys)
    have hch : c ≠ ys.headD (head i) := fun e =>
      F.disjoint j i hj hc (e ▸ hi ▸ headD_mem_ring (head i) xs ys)
    exact ⟨splice_next_of_ne hcx hcl, splice_prev_of_ne hcx hch⟩

theorem Family.bridge (F : L.Family head ls) {e : α} (hi : ls i = xs ++ e :: ys) :
    (L.bridge e (xs.getLastD (head i)) (ys.headD (head i))).Family head
      (Function.update ls i (xs ++ ys)) := by
  have hr := F.ring i
  rw [hi] at hr
  refine F.update i _ hr.bridge ?_ ?_
  · intro z hz
    refine Or.inl ?_
    rw [hi]
    rcases mem_append.mp hz with h | h
    · exact mem_append_left _ h
    · exact mem_append_right _ (mem_cons_of_mem e h)
  · intro j hj c hc
    have hmem : ∀ z ∈ head i :: (xs ++ ys), z ∈ head i :: ls i := by
      intro z hz
      rw [hi]
      simp only [mem_cons, mem_append] at hz ⊢
      tauto
    have hce : c ≠ e := fun h => F.disjoint j i hj hc (by simp [h, hi])
    have hcl : c ≠ xs.getLastD (head i) := fun h =>
      F.disjoint j i hj hc (hmem c (h ▸ getLastD_mem_ring (head i) xs ys))
    have hch : c ≠ ys.headD (head i) := fun h =>
      F.disjoint j i hj hc (hmem c (h ▸ headD_mem_ring (head i) xs ys))
    exact ⟨bridge_next_of_ne hce hcl, bridge_prev_of_ne hce hch⟩

omit [DecidableEq α] in
theorem Family.off_bridge (F : L.Family head ls) {e : α} (hi : ls i = xs ++ e :: ys) :
    Off head (Function.update ls i (xs ++ ys)) e := by
  intro j
  have hr := F.ring i
  rw [hi] at hr
  by_cases hj : j = i
  · subst hj
    rw [update_self]
    have hnd := (List.Perm.nodup_iff
      ((List.Perm.cons (head j) perm_middle).trans (List.Perm.swap e (head j) _))).mp hr.nodup
    exact (nodup_cons.mp hnd).1
  · rw [update_of_ne hj]
    exact F.not_mem (Ne.symm hj) (by simp [hi])

omit [DecidableEq ι] in
theorem Family.close (F : L.Family head ls) {x : α} (hx : Off head ls x) :
    (L.close x).Family head ls := by
  have hf : ∀ i, ∀ c ∈ head i :: ls i, c ≠ x := fun i c hc e => hx i (e ▸ hc)
  refine ⟨fun i => (F.ring i).congr ?_ ?_, F.disjoint⟩
  · intro c hc
    simp [Links.close, hf i c hc]
  · intro c hc
    simp [Links.close, hf i c hc]

end FamilySurgery

section Search

variable [DecidableEq α]

/-- Follow the forward links from `c` up to the node `stop`, and return the
first node that satisfies `p`, or `stop`. The walk fails on a null link. -/
def search (L : Links α) (p : α → Bool) (stop : α) : Nat → α → Option α
  | 0, _ => none
  | fuel + 1, c =>
    if c = stop then some stop
    else if p c then some c
    else (L.next c).bind (search L p stop fuel)

/-- A walk along a path that returns has found the first match, and a walk with
more fuel than the path is long returns. -/
theorem search_path {L : Links α} {p : α → Bool} {stop c : α} {xs : List α}
    (h : L.Path c xs stop) (hs : stop ∉ c :: xs) (fuel : Nat) :
    (∀ d, L.search p stop fuel c = some d → d = ((c :: xs).find? p).getD stop) ∧
      (xs.length + 1 < fuel → (L.search p stop fuel c).isSome) := by
  induction xs generalizing c fuel with
  | nil =>
    have hc : c ≠ stop := fun e => hs (by simp [e])
    match fuel with
    | 0 => simp [search]
    | 1 | fuel + 2 =>
      cases hp : p c <;> simp [search, hc, hp, h.1]
  | cons x xs ih =>
    have hc : c ≠ stop := fun e => hs (by simp [e])
    match fuel with
    | 0 => simp [search]
    | fuel + 1 =>
      have ih' := ih h.2 (fun e => hs (mem_cons_of_mem c e)) fuel
      cases hp : p c with
      | true => simp [search, hc, hp]
      | false =>
        have hf : (c :: x :: xs).find? p = (x :: xs).find? p := by
          rw [find?_cons, hp]
        rw [hf]
        simp only [search, hc, hp, h.1.1, if_false, Bool.false_eq_true, Option.bind_some,
          length_cons]
        exact ⟨ih'.1, fun hl => ih'.2 (by omega)⟩

theorem Ring.search {L : Links α} {p : α → Bool} {h : α} {xs : List α} (r : L.Ring h xs)
    (fuel : Nat) :
    (∀ d, L.search p h fuel (xs.headD h) = some d → d = (xs.find? p).getD h) ∧
      (xs.length < fuel → (L.search p h fuel (xs.headD h)).isSome) := by
  cases xs with
  | nil =>
    cases fuel with
    | zero => simp [Links.search]
    | succ fuel => simp [Links.search]
  | cons x xs =>
    have hs := search_path (p := p) r.path.2 r.not_mem fuel
    exact ⟨hs.1, fun hl => hs.2 (by simpa using hl)⟩

end Search

end Links

section After

variable [DecidableEq α]

/-- The elements behind the first occurrence of `e`. -/
def after (e : α) : List α → List α
  | [] => []
  | x :: xs => if x = e then xs else after e xs

variable {e : α}

theorem after_append_cons {xs : List α} (ys : List α) (h : e ∉ xs) :
    after e (xs ++ e :: ys) = ys := by
  induction xs with
  | nil => simp [after]
  | cons x xs ih =>
    simp only [mem_cons, not_or] at h
    simp [after, Ne.symm h.1, ih h.2]

theorem after_cons_of_ne {x : α} (h : x ≠ e) (xs : List α) : after e (x :: xs) = after e xs :=
  if_neg h

theorem after_erase_sublist {y : α} (h : y ≠ e) (xs : List α) :
    (after e (xs.erase y)).Sublist (after e xs) := by
  induction xs with
  | nil => exact List.Sublist.refl _
  | cons x xs ih =>
    by_cases hy : x = y
    · subst hy
      rw [erase_cons_head, after_cons_of_ne h]
    · rw [erase_cons_tail (by simpa using hy)]
      by_cases he : x = e
      · subst he
        simp only [after, if_true]
        exact erase_sublist
      · rw [after_cons_of_ne he, after_cons_of_ne he]
        exact ih

theorem Links.Ring.next_after {L : Links α} {h : α} {xs : List α} (r : L.Ring h xs) (he : e ∈ xs) :
    L.next e = some ((after e xs).headD h) := by
  obtain ⟨ys, zs, rfl⟩ := append_of_mem he
  have hnd := (nodup_cons.mp r.nodup).2
  have hy : e ∉ ys := fun hm => disjoint_of_nodup_append hnd hm mem_cons_self
  rw [after_append_cons zs hy]
  exact r.neighbours.2

end After

end Wbr1310.Lib
