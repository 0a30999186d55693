import Mathlib

/-!
# Streams in chunks

A socket delivers a stream of bytes in chunks that its reader does not choose: a call
of `read` gets what is left of the stream, at most what it asks for and at most what the chunk
brings. A chunk brings at least one byte.
-/

namespace Wbr1310.Lib.Stream

variable {α : Type*}

/-- What `read` returns when `want` bytes are asked for and the chunk brings `chunk + 1`. -/
def recv (want chunk : ℕ) (stream : List α) : List α := stream.take (min want (chunk + 1))

theorem recv_eq_nil_iff {want chunk : ℕ} {stream : List α} (h : want ≠ 0) :
    recv want chunk stream = [] ↔ stream = [] := by
  rw [recv, List.take_eq_nil_iff]
  constructor
  · rintro (hzero | hnil)
    · omega
    · exact hnil
  · exact Or.inr

theorem recv_concat (want chunk : ℕ) (text : List α) (z : α) :
    recv want chunk (text ++ [z]) = text ++ [z] ∨
      ∃ k ≤ text.length, recv want chunk (text ++ [z]) = text.take k := by
  obtain hlong | hshort := Nat.lt_or_ge text.length (min want (chunk + 1))
  · refine .inl (List.take_of_length_le ?_)
    rw [List.length_append, List.length_singleton]
    exact hlong
  · exact .inr ⟨_, hshort, List.take_append_of_le_length hshort⟩

/-- A stream is delivered in chunks of the given lengths. -/
def deliver : List α → List ℕ → List (List α)
  | _, [] => []
  | stream, k :: ks => stream.take k :: deliver (stream.drop k) ks

/-- Memory after bytes are stored from a position on. -/
def store (mem : ℕ → α) (i : ℕ) (bs : List α) : ℕ → α := fun k =>
  if i ≤ k then (bs[k - i]?).getD (mem k) else mem k

@[simp] theorem store_nil (mem : ℕ → α) (i : ℕ) : store mem i [] = mem := by
  funext k
  simp [store]

theorem store_append (mem : ℕ → α) (bs cs : List α) :
    store (store mem 0 bs) bs.length cs = store mem 0 (bs ++ cs) := by
  funext k
  simp only [store, Nat.zero_le, if_true, Nat.sub_zero]
  by_cases hk : bs.length ≤ k
  · rw [if_pos hk, List.getElem?_append_right hk, List.getElem?_eq_none hk]
    rfl
  · rw [if_neg hk, List.getElem?_append_left (Nat.not_le.mp hk)]

theorem store_last (mem : ℕ → α) {bs : List α} {b : α} (h : bs.getLast? = some b) :
    store mem 0 bs (bs.length - 1) = b := by
  simp only [store, Nat.zero_le, if_true, Nat.sub_zero]
  rw [← List.getLast?_eq_getElem?, h]
  rfl

end Wbr1310.Lib.Stream
