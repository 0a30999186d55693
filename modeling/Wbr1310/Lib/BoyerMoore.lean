import Mathlib

/-!
# Searching from the right

A needle of `n` items is compared with a text from the right, and moved on after a difference.
This file says how far it can be moved without passing an occurrence: to the last place in the
needle of the item that differs, and to the first place where the needle agrees with itself as far
as it agreed with the text. Needle and text are functions on positions.
-/

namespace Wbr1310.Lib.BoyerMoore

open Nat

variable {α : Type*} {w h : ℕ → α} {n : ℕ}

/-- The needle stands in the text, its last item at position `r`. -/
def EndsAt (w h : ℕ → α) (n r : ℕ) : Prop := n ≤ r + 1 ∧ ∀ j < n, h (r - j) = w (n - 1 - j)

/-- With its last item at position `r`, the needle agrees with the text in exactly `i` items from
the right. -/
structure Agrees (w h : ℕ → α) (n r i : ℕ) : Prop where
  lt : i < n
  eq : ∀ j < i, h (r - j) = w (n - 1 - j)
  ne : h (r - i) ≠ w (n - 1 - i)

/-- Moved by `k`, the needle agrees with itself in exactly `i` items from the right. -/
structure Overlap (w : ℕ → α) (n k i : ℕ) : Prop where
  fits : k + i < n
  eq : ∀ j < i, w (n - 1 - j) = w (n - 1 - k - j)
  ne : w (n - 1 - i) ≠ w (n - 1 - k - i)

/-- From position `a` on, the needle repeats itself after `k` items. -/
def PeriodFrom (w : ℕ → α) (n a k : ℕ) : Prop := ∀ q < n, a + k ≤ q → w q = w (q - k)

/-- No beginning of the needle is also an end of it. -/
def Unbordered (w : ℕ → α) (n : ℕ) : Prop := ∀ k < n, 0 < k → ¬ PeriodFrom w n 0 k

/-- The needle has no border, and behind its first item it does not repeat itself in two ways that
fit into it one after the other. -/
structure Regular (w : ℕ → α) (n : ℕ) : Prop where
  unbordered : Unbordered w n
  periods : ∀ e < n, ∀ k < e,
    ¬ (0 < k ∧ k + e < n ∧ PeriodFrom w n 1 k ∧ PeriodFrom w n 1 e)

instance [DecidableEq α] (w : ℕ → α) (n a k : ℕ) : Decidable (PeriodFrom w n a k) :=
  inferInstanceAs (Decidable (∀ q < n, _ → _))

instance [DecidableEq α] (w : ℕ → α) (n : ℕ) : Decidable (Unbordered w n) :=
  inferInstanceAs (Decidable (∀ k < n, _ → _))

instance [DecidableEq α] (w : ℕ → α) (n : ℕ) : Decidable (Regular w n) :=
  decidable_of_iff (Unbordered w n ∧ ∀ e < n, ∀ k < e,
      ¬ (0 < k ∧ k + e < n ∧ PeriodFrom w n 1 k ∧ PeriodFrom w n 1 e))
    ⟨fun h => ⟨h.1, h.2⟩, fun h => ⟨h.unbordered, h.periods⟩⟩

variable {k i e r : ℕ}

theorem Overlap.unique {j : ℕ} (hi : Overlap w n k i) (hj : Overlap w n k j) : i = j := by
  rcases lt_trichotomy i j with hlt | heq | hlt
  · exact absurd (hj.eq i hlt) hi.ne
  · exact heq
  · exact absurd (hi.eq j hlt) hj.ne

theorem Unbordered.exists_overlap (hw : Unbordered w n) (hk : 0 < k) (hkn : k < n) :
    ∃ i, Overlap w n k i := by
  classical
  have hex : ∃ i, k + i < n ∧ w (n - 1 - i) ≠ w (n - 1 - k - i) := by
    have hborder := hw k hkn hk
    simp only [PeriodFrom, not_forall] at hborder
    obtain ⟨q, hq, hkq, hne⟩ := hborder
    refine ⟨n - 1 - q, by omega, ?_⟩
    have hleft : n - 1 - (n - 1 - q) = q := by omega
    have hright : n - 1 - k - (n - 1 - q) = q - k := by omega
    rwa [hleft, hright]
  obtain ⟨hfits, hne⟩ := Nat.find_spec hex
  refine ⟨Nat.find hex, hfits, fun j hj => ?_, hne⟩
  by_contra hdiff
  exact Nat.find_min hex hj ⟨by omega, hdiff⟩

theorem Overlap.periodFrom_one (he : Overlap w n e (n - 1 - e)) : PeriodFrom w n 1 e := by
  intro q hq hle
  have hagree := he.eq (n - 1 - q) (by omega)
  have hleft : n - 1 - (n - 1 - q) = q := by omega
  have hright : n - 1 - e - (n - 1 - q) = q - e := by omega
  rwa [hleft, hright] at hagree

theorem Overlap.period (ho : Overlap w n k i) (he : PeriodFrom w n 1 e) (hpos : 0 < e)
    (hle : e ≤ i) : PeriodFrom w n 1 k := by
  intro q hq hkq
  -- from the right, where the overlap is
  obtain ⟨d, hd⟩ : ∃ d, d = n - q := ⟨_, rfl⟩
  induction d using Nat.strong_induction_on generalizing q with
  | _ d ih =>
    by_cases hin : n - 1 - q < i
    · have hagree := ho.eq (n - 1 - q) hin
      have hleft : n - 1 - (n - 1 - q) = q := by omega
      have hright : n - 1 - k - (n - 1 - q) = q - k := by omega
      rwa [hleft, hright] at hagree
    · have hmoved := ih (n - (q + e)) (by omega) (q + e) (by omega) (by omega) rfl
      have hitem := he (q + e) (by omega) (by omega)
      have hother := he (q + e - k) (by omega) (by omega)
      have hback : q + e - k - e = q - k := by omega
      rw [Nat.add_sub_cancel] at hitem
      rw [hback] at hother
      exact hitem.symm.trans (hmoved.trans hother)

theorem Regular.period_le (hw : Regular w n) (ho : Overlap w n k i) (hk : 0 < k)
    (he : Overlap w n e (n - 1 - e)) (hle : e ≤ i) : e ≤ k := by
  by_contra hlt
  have hfits := ho.fits
  have hperiod := ho.period he.periodFrom_one (by omega) hle
  exact hw.periods e (by omega) k (by omega) ⟨hk, by omega, hperiod, he.periodFrom_one⟩

theorem EndsAt.not_agrees (hend : EndsAt w h n r) : ¬ Agrees w h n r i :=
  fun hagree => hagree.ne (hend.2 i hagree.lt)

theorem Agrees.overlap (hagree : Agrees w h n r i) (hend : EndsAt w h n (r + k))
    (hw : Unbordered w n) (hr : n ≤ r + 1) (hk : 0 < k) (hkn : k < n) : Overlap w n k i := by
  have htext : ∀ j, k + j < n → h (r - j) = w (n - 1 - k - j) := by
    intro j hj
    have hitem := hend.2 (k + j) hj
    have hleft : r + k - (k + j) = r - j := by omega
    have hright : n - 1 - (k + j) = n - 1 - k - j := by omega
    rwa [hleft, hright] at hitem
  have hfits : k + i < n := by
    by_contra hout
    refine hw k hkn hk fun q hq hkq => ?_
    have hneedle := hagree.eq (n - 1 - q) (by omega)
    have hmoved := htext (n - 1 - q) (by omega)
    have hleft : n - 1 - (n - 1 - q) = q := by omega
    have hright : n - 1 - k - (n - 1 - q) = q - k := by omega
    rw [hleft] at hneedle
    rw [hright] at hmoved
    exact hneedle.symm.trans hmoved
  refine ⟨hfits, fun j hj => ?_, ?_⟩
  · exact (hagree.eq j hj).symm.trans (htext j (by omega))
  · rw [← htext i hfits]
    exact fun heq => hagree.ne heq.symm

theorem EndsAt.skip_le {p : ℕ} {s : ℤ} (hend : EndsAt w h n p) (hrp : r ≤ p) (hi : i ≤ r)
    (hn : s ≤ n) (hlast : ∀ q < n, w q = h (r - i) → s ≤ (n : ℤ) - 1 - q) :
    (r : ℤ) - i + s ≤ p := by
  by_cases hin : p - (r - i) < n
  · have hitem := hend.2 (p - (r - i)) hin
    have hpos : p - (p - (r - i)) = r - i := by omega
    rw [hpos] at hitem
    have hle := hlast (n - 1 - (p - (r - i))) (by omega) hitem.symm
    omega
  · omega

theorem EndsAt.shift_le {p : ℕ} {s : ℤ} (hend : EndsAt w h n p) (hw : Unbordered w n)
    (hr : n ≤ r + 1) (hrp : r < p) (hagree : Agrees w h n r i) (hn : s ≤ n)
    (hshift : ∀ k, 0 < k → Overlap w n k i → s ≤ k) : (r : ℤ) + s ≤ p := by
  obtain ⟨k, rfl⟩ := Nat.exists_eq_add_of_lt hrp
  by_cases hkn : k + 1 < n
  · have ho := hagree.overlap (k := k + 1) hend hw hr (succ_pos k) hkn
    have := hshift (k + 1) (succ_pos k) ho
    omega
  · omega

end Wbr1310.Lib.BoyerMoore
