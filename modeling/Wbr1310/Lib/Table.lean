import Mathlib

/-!
# Tables with keys

A table is a list of slots. A key of its entries may be `blank`, which any number
of slots may carry; a key is distinct in a table when no other value of it occurs in
two slots. The lemmas say how the two ways of writing to a table, to all slots
that match and to one slot, keep a key distinct and which entries stay.
-/

namespace Wbr1310.Lib

open List Option

variable {α κ : Type*} {key : α → κ} {blank : κ} {t : List α}

/-- No two slots of the table have the same key, unless it is `blank`. -/
def DistinctKeys (key : α → κ) (blank : κ) (t : List α) : Prop :=
  ∀ (i j : ℕ) (a b : α), t[i]? = some a → t[j]? = some b → key a = key b → key a ≠ blank → i = j

namespace DistinctKeys

theorem eq_of_mem (h : DistinctKeys key blank t) {a b : α} (ha : a ∈ t) (hb : b ∈ t)
    (hk : key a = key b) (hn : key a ≠ blank) : a = b := by
  obtain ⟨i, hi⟩ := mem_iff_getElem?.mp ha
  obtain ⟨j, hj⟩ := mem_iff_getElem?.mp hb
  rw [h i j a b hi hj hk hn, hj] at hi
  exact (some.inj hi).symm

theorem pairwise (h : DistinctKeys key blank t) :
    t.Pairwise fun a b => key a = key b → key a = blank := by
  rw [pairwise_iff_getElem]
  intro i j hi hj hij hk
  by_contra hn
  have hsame := h i j t[i] t[j] (getElem?_eq_getElem hi) (getElem?_eq_getElem hj) hk hn
  omega

theorem replicate {n : ℕ} {a : α} (ha : key a = blank) :
    DistinctKeys key blank (List.replicate n a) := by
  intro i j b c hb _ _ hn
  have hba := eq_of_mem_replicate (mem_of_getElem? hb)
  exact absurd (hba ▸ ha) hn

theorem map (h : DistinctKeys key blank t) {f : α → α}
    (hf : ∀ a, key (f a) = key a ∨ key (f a) = blank) : DistinctKeys key blank (t.map f) := by
  intro i j a b ha hb hk hn
  rw [getElem?_map, map_eq_some_iff] at ha hb
  obtain ⟨a', ha', rfl⟩ := ha
  obtain ⟨b', hb', rfl⟩ := hb
  have hka := (hf a').resolve_right hn
  have hkb := (hf b').resolve_right (hk ▸ hn)
  exact h i j a' b' ha' hb' (hka.symm.trans (hk.trans hkb)) (hka ▸ hn)

theorem modify (h : DistinctKeys key blank t) {f : α → α} {k : ℕ}
    (hf : ∀ a ∈ t, key (f a) = key a ∨ key (f a) = blank ∨ ∀ b ∈ t, key b ≠ key (f a)) :
    DistinctKeys key blank (t.modify k f) := by
  intro i j a b ha hb hkey hn
  rw [getElem?_modify, Option.map_eq_map, Option.map_eq_some_iff] at ha hb
  obtain ⟨a', ha', rfl⟩ := ha
  obtain ⟨b', hb', rfl⟩ := hb
  have hma := mem_of_getElem? ha'
  have hmb := mem_of_getElem? hb'
  by_cases hki : k = i <;> by_cases hkj : k = j
  · exact hki.symm.trans hkj
  · simp only [hki, if_true, if_neg (hki ▸ hkj)] at hkey hn
    obtain hsame | hblank | hfresh := hf a' hma
    · exact h i j a' b' ha' hb' (hsame.symm.trans hkey) (hsame ▸ hn)
    · exact absurd hblank hn
    · exact absurd hkey.symm (hfresh b' hmb)
  · simp only [hkj, if_true, if_neg (hkj ▸ hki)] at hkey hn
    obtain hsame | hblank | hfresh := hf b' hmb
    · exact h i j a' b' ha' hb' (hkey.trans hsame) hn
    · exact absurd (hkey.trans hblank) hn
    · exact absurd hkey (hfresh a' hma)
  · simp only [if_neg hki, if_neg hkj] at hkey hn
    exact h i j a' b' ha' hb' hkey hn

end DistinctKeys

variable {f : α → α} {k : ℕ}

theorem mem_modify {a : α} (h : a ∈ t.modify k f) :
    a ∈ t ∨ ∃ o, t[k]? = some o ∧ a = f o := by
  obtain ⟨i, hi⟩ := mem_iff_getElem?.mp h
  rw [getElem?_modify, Option.map_eq_map, Option.map_eq_some_iff] at hi
  obtain ⟨b, hb, rfl⟩ := hi
  by_cases hk : k = i
  · exact .inr ⟨b, hk ▸ hb, if_pos hk⟩
  · exact .inl (if_neg hk ▸ mem_of_getElem? hb)

/-- What holds of all entries and is kept by writing to one holds of all entries afterwards. -/
theorem forall_mem_modify {R : α → Prop} (h : ∀ a ∈ t, R a) (hf : ∀ a, R a → R (f a)) (k : ℕ) :
    ∀ a ∈ t.modify k f, R a := by
  intro a ha
  obtain ha | ⟨o, ho, rfl⟩ := mem_modify ha
  · exact h a ha
  · exact hf o (h o (mem_of_getElem? ho))

theorem mem_modify_of_ne {a : α} (h : a ∈ t) (hk : t[k]? ≠ some a) :
    a ∈ t.modify k f := by
  obtain ⟨i, hi⟩ := mem_iff_getElem?.mp h
  have hki : k ≠ i := fun e => hk (e ▸ hi)
  apply mem_iff_getElem?.mpr
  exact ⟨i, by simp [hki, hi]⟩

theorem mem_modify_self {o : α} (h : t[k]? = some o) :
    f o ∈ t.modify k f :=
  mem_iff_getElem?.mpr ⟨k, by simp [h]⟩

end Wbr1310.Lib
