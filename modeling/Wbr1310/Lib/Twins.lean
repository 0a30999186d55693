import Mathlib

/-!
# Numbers from the first twin on

The items of a list are numbered from the first one that is followed by an item equal to it, and
from there on without a break. These numbers are the ordinals of the items that occur more than once
exactly if there is one such item and its occurrences stand one after the other.
-/

namespace Wbr1310.Lib.Twins

open List Nat

variable {α : Type*} [DecidableEq α]

/-- The position of the first item that is followed by an equal one. -/
def firstTwin : List α → Option ℕ
  | a :: b :: rest => if a = b then some 0 else (firstTwin (b :: rest)).map (· + 1)
  | _ => none

/-- The number of an item, or 0 for an item before the first twin. -/
def numberOf (l : List α) (q : ℕ) : ℕ :=
  match firstTwin l with
  | some p => q + 1 - p
  | none => 0

variable {l before : List α} {a x : α}

theorem split_of_firstTwin {p : ℕ} (h : firstTwin l = some p) :
    ∃ before a rest, l = before ++ a :: a :: rest ∧ before.length = p := by
  induction l generalizing p with
  | nil => cases h
  | cons a l ih =>
    cases l with
    | nil => cases h
    | cons b rest =>
      rw [firstTwin] at h
      split at h
      · next hab =>
        obtain rfl := hab
        exact ⟨[], a, rest, rfl, Option.some.inj h⟩
      · obtain ⟨p', hp', rfl⟩ := Option.map_eq_some_iff.mp h
        obtain ⟨before, c, rest', hl, hlen⟩ := ih hp'
        exact ⟨a :: before, c, rest', by rw [hl, cons_append],
          by rw [length_cons, hlen]⟩

theorem firstTwin_append (h : (before ++ [a]).Nodup) (rest : List α) :
    firstTwin (before ++ a :: a :: rest) = some before.length := by
  induction before with
  | nil => exact if_pos rfl
  | cons b before ih =>
    have hb : b ∉ before ++ [a] := (nodup_cons.mp h).1
    have hnext := ih (nodup_cons.mp h).2
    cases before with
    | nil =>
      have hba : b ≠ a := by simpa using hb
      simp only [nil_append, length_nil] at hnext
      simp [firstTwin, hba]
    | cons c before =>
      have hbc : b ≠ c := fun he => hb (by simp [he])
      rw [cons_append, cons_append, firstTwin, if_neg hbc, ← cons_append, hnext]
      rfl

theorem exists_replicate (a : α) (l : List α) :
    ∃ n after, l = List.replicate n a ++ after ∧ after.head? ≠ some a := by
  induction l with
  | nil => exact ⟨0, [], rfl, nofun⟩
  | cons b l ih =>
    by_cases hba : b = a
    · obtain ⟨n, after, rfl, hafter⟩ := ih
      exact ⟨n + 1, after, by rw [hba, replicate_succ, cons_append], hafter⟩
    · exact ⟨0, b :: l, rfl, by simpa using hba⟩

theorem numberOf_run {after : List α} {n : ℕ} (h : (before ++ a :: after).Nodup) (q : ℕ) :
    numberOf (before ++ List.replicate (n + 2) a ++ after) q = q + 1 - before.length := by
  have hbefore : (before ++ [a]).Nodup :=
    List.Nodup.sublist (by simp) h
  have htwin := firstTwin_append hbefore (replicate n a ++ after)
  have hlist : before ++ a :: a :: (replicate n a ++ after) =
      before ++ replicate (n + 2) a ++ after := by
    simp [replicate_succ]
  rw [hlist] at htwin
  simp only [numberOf, htwin]

/-- The items are different, apart from one whose occurrences stand one after the other. -/
def OneRun {α : Type*} (l : List α) : Prop :=
  l.Nodup ∨ ∃ before a n after, l = before ++ List.replicate (n + 2) a ++ after ∧
    (before ++ a :: after).Nodup

variable [BEq α]

/-- The numbers of repeated items are their ordinals. -/
def Ordinal (l : List α) : Prop :=
  ∀ q x, l[q]? = some x → 1 < l.count x → numberOf l q = (l.take (q + 1)).count x

variable [LawfulBEq α]

omit [DecidableEq α] in
theorem count_take_pos {q : ℕ} (h : l[q]? = some x) :
    0 < (l.take (q + 1)).count x :=
  count_pos_iff.mpr (mem_of_getElem? (i := q) (by
    rw [getElem?_take_of_lt (lt_succ_self q), h]))

theorem Ordinal.count_before {rest : List α} (h : Ordinal (before ++ rest))
    (hp : firstTwin (before ++ rest) = some before.length) (hx : x ∈ before) :
    (before ++ rest).count x ≤ 1 := by
  by_contra hcount
  obtain ⟨q, hq, rfl⟩ := getElem_of_mem hx
  have hget : (before ++ rest)[q]? = some before[q] := by
    rw [getElem?_append_left hq, getElem?_eq_getElem hq]
  have hnumber := h q _ hget (Nat.lt_of_not_le hcount)
  have hzero : numberOf (before ++ rest) q = 0 := by
    simp only [numberOf, hp]
    omega
  have hpos := count_take_pos hget
  omega

/-- Behind the run of the first twin nothing may be repeated. -/
theorem Ordinal.count_after {after : List α} {n : ℕ}
    (h : Ordinal (before ++ (List.replicate (n + 2) a ++ after)))
    (hp : firstTwin (before ++ (List.replicate (n + 2) a ++ after)) = some before.length)
    (hafter : after.head? ≠ some a) (hx : x ∈ after) :
    (before ++ (List.replicate (n + 2) a ++ after)).count x ≤ 1 := by
  by_contra hcount
  obtain ⟨j, hj, rfl⟩ := getElem_of_mem hx
  generalize hrest : replicate (n + 2) a ++ after = rest at h hp hcount
  have hget : rest[n + 2 + j]? = some after[j] := by
    rw [← hrest, getElem?_append_right (by simp), length_replicate,
      Nat.add_sub_cancel_left, getElem?_eq_getElem hj]
  have hlen : n + 2 + j + 1 ≤ rest.length := by
    rw [← hrest, length_append, length_replicate]
    omega
  have hnumber := h (before.length + (n + 2 + j)) _
    (by rw [getElem?_append_right (Nat.le_add_right _ _), Nat.add_sub_cancel_left, hget])
    (Nat.lt_of_not_le hcount)
  have hnotin : after[j] ∉ before := fun hmem => hcount (h.count_before hp hmem)
  -- all items from the first twin up to this one would be the same
  have hall : (rest.take (n + 2 + j + 1)).count after[j] = (rest.take (n + 2 + j + 1)).length := by
    rw [length_take_of_le hlen]
    simp only [numberOf, hp] at hnumber
    rw [Nat.add_assoc, take_length_add_append, count_append,
      count_eq_zero.mpr hnotin, Nat.zero_add] at hnumber
    omega
  rw [count_eq_length] at hall
  have hsame : ∀ k ≤ n + 2 + j, ∀ y, rest[k]? = some y → after[j] = y := fun k hk y hy =>
    hall y (mem_of_getElem? (i := k) (by
      rw [getElem?_take_of_lt (lt_succ_of_le hk), hy]))
  have hfirst : after[j] = a := hsame 0 (zero_le _) a (by rw [← hrest]; rfl)
  refine hafter ?_
  rw [head?_eq_getElem?]
  cases hhead : after[0]? with
  | none =>
    rw [getElem?_eq_none_iff] at hhead
    omega
  | some y =>
    have := hsame (n + 2) (Nat.le_add_right _ _) y (by
      rw [← hrest, getElem?_append_right (by simp), length_replicate, Nat.sub_self,
        hhead])
    rw [← this, hfirst]

theorem Ordinal.oneRun (h : Ordinal l) : OneRun l := by
  cases hp : firstTwin l with
  | none =>
    refine .inl (nodup_iff_count_le_one.mpr fun x => ?_)
    by_contra hcount
    obtain ⟨q, hq, rfl⟩ := getElem_of_mem (count_pos_iff.mp (by omega : 0 < l.count x))
    have hget := getElem?_eq_getElem hq
    have hnumber := h q _ hget (Nat.lt_of_not_le hcount)
    have hpos := count_take_pos hget
    simp only [numberOf, hp] at hnumber
    omega
  | some p =>
    obtain ⟨before, a, rest, rfl, rfl⟩ := split_of_firstTwin hp
    obtain ⟨n, after, rfl, hafter⟩ := exists_replicate a rest
    have hrun : a :: a :: (replicate n a ++ after) = replicate (n + 2) a ++ after := by
      simp [replicate_succ]
    rw [hrun] at h hp
    refine .inr ⟨before, a, n, after, by rw [hrun, append_assoc], ?_⟩
    have hbefore : a ∉ before := fun ha => by
      have := h.count_before hp ha
      simp only [count_append, count_replicate_self] at this
      omega
    have hnotin : a ∉ after := fun ha => by
      have := h.count_after hp hafter ha
      simp only [count_append, count_replicate_self] at this
      omega
    rw [nodup_iff_count_le_one]
    intro x
    have hle : x ≠ a → (before ++ a :: after).count x =
        (before ++ (replicate (n + 2) a ++ after)).count x := fun hx => by
      simp [count_append, count_replicate, Ne.symm hx]
    by_cases hmem : x ∈ before
    · rw [hle fun hx => hbefore (hx ▸ hmem)]
      exact h.count_before hp hmem
    by_cases hmem' : x ∈ after
    · rw [hle fun hx => hnotin (hx ▸ hmem')]
      exact h.count_after hp hafter hmem'
    · rw [count_append, count_cons, count_eq_zero.mpr hmem,
        count_eq_zero.mpr hmem']
      split <;> omega

theorem OneRun.ordinal (h : OneRun l) : Ordinal l := by
  rintro q x hx hcount
  obtain hnodup | ⟨before, a, n, after, rfl, hnodup⟩ := h
  · exact absurd (nodup_iff_count_le_one.mp hnodup x) (Nat.not_le.mpr hcount)
  have hone := nodup_iff_count_le_one.mp hnodup
  have hxa : a = x := by
    by_contra hne
    have := hone x
    simp only [count_append, count_replicate, count_cons, beq_iff_eq, hne,
      if_false] at this hcount
    omega
  obtain rfl := hxa
  have hself := hone a
  rw [count_append, count_cons_self] at hself
  have hbefore : before.count a = 0 := by omega
  have hafter : after.count a = 0 := by omega
  rw [numberOf_run hnodup]
  rw [append_assoc] at hx ⊢
  -- the item stands in the run
  have hle : before.length ≤ q := by
    by_contra hlt
    rw [getElem?_append_left (Nat.lt_of_not_le hlt)] at hx
    exact count_eq_zero.mp hbefore (mem_of_getElem? hx)
  obtain ⟨i, rfl⟩ := Nat.exists_eq_add_of_le hle
  rw [getElem?_append_right hle, Nat.add_sub_cancel_left] at hx
  have hi : i < n + 2 := by
    by_contra hge
    rw [getElem?_append_right (by rw [length_replicate]; omega)] at hx
    exact count_eq_zero.mp hafter (mem_of_getElem? hx)
  rw [Nat.add_assoc, take_length_add_append, count_append, hbefore,
    take_append_of_le_length (by rw [length_replicate]; omega), take_replicate,
    count_replicate_self]
  omega

/-- The numbers are ordinals just if all copies stand in one run. -/
theorem ordinal_iff_oneRun : Ordinal l ↔ OneRun l :=
  ⟨Ordinal.oneRun, OneRun.ordinal⟩

end Wbr1310.Lib.Twins
