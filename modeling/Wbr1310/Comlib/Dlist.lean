import Wbr1310.Lib.Ring

/-!
# The intrusive list of `include/dlist.h`

The list operations as the header computes them, on a heap of links. Each
operation dereferences the pointers it reads, so it fails on a null pointer.
On a family of disjoint rings none of them fails, and each one edits exactly
one of the rings.
-/

namespace Wbr1310.Comlib

open Lib Links List Option

variable {α ι : Type*} [DecidableEq α]

def initDlistHead (L : Links α) (ptr : α) : Links α := L.close ptr

/-- `__dlist_add`: put `new` between the two known neighbours. -/
def dlistAddBetween (L : Links α) (new prev next : α) : Links α := L.splice new prev next

/-- `dlist_add`: insert `new` right after `head`. -/
def dlistAdd (L : Links α) (new head : α) : Option (Links α) :=
  (L.next head).map fun next => dlistAddBetween L new head next

/-- `dlist_add_tail`: insert `new` right before `head`. -/
def dlistAddTail (L : Links α) (new head : α) : Option (Links α) :=
  (L.prev head).map fun prev => dlistAddBetween L new prev head

/-- `dlist_del`: link the neighbours of `entry` to each other and null its own links. -/
def dlistDel (L : Links α) (entry : α) : Option (Links α) :=
  (L.prev entry).bind fun prev => (L.next entry).map fun next => L.bridge entry prev next

def dlistEmpty (L : Links α) (head : α) : Bool := L.next head == some head

theorem dlistEmpty_iff {L : Links α} {h : α} {xs : List α} (r : L.Ring h xs) :
    dlistEmpty L h = true ↔ xs = [] := by
  rw [dlistEmpty, beq_iff_eq, r.next_head_eq_iff]

section Family

variable [DecidableEq ι] {L : Links α} {head : ι → α} {ls : ι → List α}

variable {x e c : α} {i : ι} {L' : Links α}

theorem dlistAdd_family (F : L.Family head ls) (hx : Off head ls x) (i : ι) :
    ∃ L', dlistAdd L x (head i) = some L' ∧
      L'.Family head (Function.update ls i (x :: ls i)) := by
  refine ⟨L.splice x (head i) ((ls i).headD (head i)), ?_, ?_⟩
  · simp [dlistAdd, dlistAddBetween, (F.ring i).next_head]
  · simpa using F.splice (nil_append (ls i)).symm hx

theorem dlistAddTail_family (F : L.Family head ls) (hx : Off head ls x) {xs ys : List α}
    (hi : ls i = xs ++ ys) :
    ∃ L', dlistAddTail L x (ys.headD (head i)) = some L' ∧
      L'.Family head (Function.update ls i (xs ++ x :: ys)) := by
  refine ⟨L.splice x (xs.getLastD (head i)) (ys.headD (head i)), ?_, F.splice hi hx⟩
  have hr := F.ring i
  rw [hi] at hr
  have hp : L.prev (ys.headD (head i)) = some (xs.getLastD (head i)) := by
    cases ys with
    | nil =>
      rw [append_nil] at hr
      exact hr.prev_head
    | cons y ys => exact hr.neighbours.1
  simp only [dlistAddTail, dlistAddBetween, hp, map_some]

theorem dlistDel_family (F : L.Family head ls) (he : e ∈ ls i) :
    ∃ L', dlistDel L e = some L' ∧
      L'.Family head (Function.update ls i ((ls i).erase e)) ∧
      Off head (Function.update ls i ((ls i).erase e)) e := by
  obtain ⟨xs, ys, hi⟩ := append_of_mem he
  have hr := F.ring i
  rw [hi] at hr
  have hnot : e ∉ xs := by
    have hnd := (nodup_cons.mp hr.nodup).2
    exact fun h => (disjoint_of_nodup_append hnd) h (by simp)
  have her : (ls i).erase e = xs ++ ys := by
    rw [hi, erase_append_right _ hnot, erase_cons_head]
  rw [her]
  refine ⟨L.bridge e (xs.getLastD (head i)) (ys.headD (head i)), ?_, F.bridge hi,
    F.off_bridge hi⟩
  simp only [dlistDel, hr.neighbours, bind_some, map_some]

theorem dlistMove_family (F : L.Family head ls) {j : ι} (hij : i ≠ j) (he : e ∈ ls i) :
    ∃ L₁ L₂, dlistDel L e = some L₁ ∧ dlistAdd L₁ e (head j) = some L₂ ∧
      L₂.Family head
        (Function.update (Function.update ls i ((ls i).erase e)) j (e :: ls j)) := by
  obtain ⟨L₁, h₁, F₁, off₁⟩ := dlistDel_family F he
  obtain ⟨L₂, h₂, F₂⟩ := dlistAdd_family F₁ off₁ j
  rw [Function.update_of_ne hij.symm] at F₂
  exact ⟨L₁, L₂, h₁, h₂, F₂⟩

omit [DecidableEq ι] in
theorem dlistAdd_sameAt (F : L.Family head ls) (he : dlistAdd L x (head i) = some L')
    (hc : Off head ls c) (hx : c ≠ x) :
    L'.SameAt L c := by
  rw [dlistAdd, (F.ring i).next_head] at he
  obtain rfl := some.inj he
  have hhead : c ≠ head i := fun e => hc i (e ▸ mem_cons_self)
  have hnext : c ≠ (ls i).headD (head i) := fun e => hc i (e ▸ headD_mem_ring (head i) [] (ls i))
  exact ⟨splice_next_of_ne hx hhead, splice_prev_of_ne hx hnext⟩

omit [DecidableEq ι] in
theorem dlistAddTail_sameAt (F : L.Family head ls) (he : dlistAddTail L x (head i) = some L')
    (hc : Off head ls c) (hx : c ≠ x) :
    L'.SameAt L c := by
  rw [dlistAddTail, (F.ring i).prev_head] at he
  obtain rfl := some.inj he
  have hhead : c ≠ head i := fun e => hc i (e ▸ mem_cons_self)
  have hprev : c ≠ (ls i).getLastD (head i) := fun e => hc i (e ▸ getLastD_mem_cons)
  exact ⟨splice_next_of_ne hx hprev, splice_prev_of_ne hx hhead⟩

omit [DecidableEq ι] in
theorem dlistDel_sameAt (F : L.Family head ls) (hi : e ∈ ls i) (he : dlistDel L e = some L')
    (hc : Off head ls c) : L'.SameAt L c := by
  obtain ⟨xs, ys, hxs⟩ := append_of_mem hi
  have hr := F.ring i
  rw [hxs] at hr
  simp only [dlistDel, hr.neighbours, bind_some, map_some] at he
  obtain rfl := some.inj he
  have hmem : ∀ z ∈ head i :: (xs ++ ys), z ∈ head i :: ls i := by
    intro z hz
    rw [hxs]
    simp only [mem_cons, mem_append] at hz ⊢
    tauto
  have hself : c ≠ e := fun h => hc i (h ▸ mem_cons_of_mem _ hi)
  have hprev : c ≠ xs.getLastD (head i) :=
    fun h => hc i (hmem c (h ▸ getLastD_mem_ring (head i) xs ys))
  have hnext : c ≠ ys.headD (head i) := fun h => hc i (hmem c (h ▸ headD_mem_ring (head i) xs ys))
  exact ⟨bridge_next_of_ne hself hprev, bridge_prev_of_ne hself hnext⟩

theorem dlistMove_sameAt (F : L.Family head ls) {j : ι} {L₁ L₂ : Links α} (hi : e ∈ ls i)
    (h₁ : dlistDel L e = some L₁) (h₂ : dlistAdd L₁ e (head j) = some L₂) (hc : Off head ls c) :
    L₂.SameAt L c := by
  obtain ⟨L', h', F', -⟩ := dlistDel_family F hi
  obtain rfl := some.inj (h₁.symm.trans h')
  have hself : c ≠ e := fun h => hc i (h ▸ mem_cons_of_mem _ hi)
  have hoff : Off head (Function.update ls i ((ls i).erase e)) c := by
    intro k hk
    by_cases hki : k = i
    · subst hki
      rw [Function.update_self] at hk
      obtain hk | hk := mem_cons.mp hk
      · exact hc k (hk ▸ mem_cons_self)
      · exact hc k (mem_cons_of_mem _ (mem_of_mem_erase hk))
    · rw [Function.update_of_ne hki] at hk
      exact hc k hk
  exact (dlistAdd_sameAt F' h₂ hoff hself).trans (dlistDel_sameAt F hi h₁ hc)

end Family

end Wbr1310.Comlib
