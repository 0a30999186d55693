import Wbr1310.Lib.Stream

/-!
# Replies of the configuration database

`redirect_output` and `redirect_to_buffer` of `libxmldbc.c`, which read a reply from the socket of
the database until its end mark. The `n`-th call of `read` gets at most `chunk n + 1` bytes;
`select` only delays it.
-/

namespace Wbr1310.Comlib.Xmldbc

open Lib List

/-- The loop of `redirect_output` from the `n`-th call of `read` on, in at most `fuel` rounds: what
it writes. -/
def redirectOutputFrom (chunk : ℕ → ℕ) : ℕ → ℕ → List UInt8 → List UInt8
  | 0, _, _ => []
  | fuel + 1, n, stream =>
    let buff := Stream.recv 1024 (chunk n) stream
    if buff = [] then []
    else if buff.getLast? = some 0 then buff.takeWhile (· ≠ 0)
    else buff ++ redirectOutputFrom chunk fuel (n + 1) (stream.drop buff.length)

def redirectOutput (chunk : ℕ → ℕ) (stream : List UInt8) : List UInt8 :=
  redirectOutputFrom chunk (stream.length + 1) 0 stream

/-- The loop of `redirect_to_buffer` from the `n`-th call of `read` on, in at most `fuel` rounds:
`written` and the memory from `buff` on. -/
def redirectToBufferFrom (chunk : ℕ → ℕ) (buffSize : ℕ) :
    ℕ → ℕ → ℕ → (ℕ → UInt8) → List UInt8 → ℕ × (ℕ → UInt8)
  | 0, _, written, buff, _ => (written, buff)
  | fuel + 1, n, written, buff, stream =>
    let got := Stream.recv (buffSize - written) (chunk n) stream
    if got = [] then (written, buff)
    else
      let written' := written + got.length
      let buff' := Stream.store buff written got
      if buff' (written' - 1) = 0 then (written', buff')
      -- no more buffer space for read
      else if buffSize ≥ written' then (written', buff')
      else redirectToBufferFrom chunk buffSize fuel (n + 1) written' buff'
        (stream.drop got.length)

def redirectToBuffer (chunk : ℕ → ℕ) (buffSize : ℕ) (buff : ℕ → UInt8) (stream : List UInt8) :
    ℕ × (ℕ → UInt8) :=
  redirectToBufferFrom chunk buffSize (stream.length + 1) 0 0 buff stream

theorem redirectOutputFrom_reply (chunk : ℕ → ℕ) {fuel : ℕ} (n : ℕ) {text : List UInt8}
    (htext : 0 ∉ text) (hfuel : text.length < fuel) :
    redirectOutputFrom chunk fuel n (text ++ [0]) = text := by
  induction fuel generalizing n text with
  | zero => omega
  | succ fuel ih =>
    have hsome : Stream.recv 1024 (chunk n) (text ++ [0]) ≠ [] :=
      (Stream.recv_eq_nil_iff (by decide)).not.mpr (by simp)
    rw [redirectOutputFrom, if_neg hsome]
    obtain hall | ⟨k, hk, hpart⟩ := Stream.recv_concat 1024 (chunk n) text (0 : UInt8)
    · have hbefore : ∀ b ∈ text, decide (b ≠ 0) = true := fun b hb =>
        decide_eq_true fun hzero => htext (hzero ▸ hb)
      rw [hall, if_pos getLast?_concat, takeWhile_append_of_pos hbefore]
      exact append_nil text
    · rw [hpart] at hsome ⊢
      have hlast : (text.take k).getLast? ≠ some 0 := fun hzero =>
        htext (mem_of_mem_take (mem_of_getLast? hzero))
      have hpos : k ≠ 0 := fun hzero => hsome (by rw [hzero, take_zero])
      have hrest : (text ++ [0]).drop (text.take k).length = text.drop k ++ [0] := by
        rw [length_take_of_le hk, drop_append_of_le_length hk]
      rw [if_neg hlast, hrest, ih (n + 1), take_append_drop]
      · exact fun hzero => htext (mem_of_mem_drop hzero)
      · rw [length_drop]
        omega

theorem redirectOutput_reply (chunk : ℕ → ℕ) {text : List UInt8} (htext : 0 ∉ text) :
    redirectOutput chunk (text ++ [0]) = text := by
  refine redirectOutputFrom_reply chunk 0 htext ?_
  rw [length_append]
  omega

theorem redirectToBuffer_eq (chunk : ℕ → ℕ) (buffSize : ℕ) (buff : ℕ → UInt8)
    (stream : List UInt8) :
    redirectToBuffer chunk buffSize buff stream =
      ((Stream.recv buffSize (chunk 0) stream).length,
        Stream.store buff 0 (Stream.recv buffSize (chunk 0) stream)) := by
  have hfits : (Stream.recv buffSize (chunk 0) stream).length ≤ buffSize := by
    rw [Stream.recv, length_take]
    omega
  rw [redirectToBuffer, redirectToBufferFrom]
  simp only [Nat.sub_zero, Nat.zero_add, ge_iff_le, if_pos hfits, ite_self]
  split
  · next hnil =>
    rw [hnil, Stream.store_nil]
    rfl
  · rfl

/-- The reply, up to the size of the buffer, is stored, nothing else is written, and
`redirect_output` writes the same text. -/
def Delivered (chunk chunk' : ℕ → ℕ) (buffSize : ℕ) (buff : ℕ → UInt8) (text : List UInt8) :
    Prop :=
  let reply := text ++ [0]
  redirectToBuffer chunk buffSize buff reply =
      ((reply.take buffSize).length, Stream.store buff 0 (reply.take buffSize)) ∧
    redirectOutput chunk' reply = text

/-- A reply is delivered exactly when the first `read` gets all of it that fits the buffer. -/
theorem delivered_iff (chunk chunk' : ℕ → ℕ) (buffSize : ℕ) (buff : ℕ → UInt8)
    {text : List UInt8} (htext : 0 ∉ text) :
    Delivered chunk chunk' buffSize buff text ↔
      min (text.length + 1) buffSize ≤ chunk 0 + 1 := by
  have hlength : (text ++ [0]).length = text.length + 1 := length_append
  rw [Delivered, and_iff_left (redirectOutput_reply chunk' htext), redirectToBuffer_eq]
  constructor
  · intro h
    have hcount := congrArg Prod.fst h
    simp only [Stream.recv, length_take, hlength] at hcount
    omega
  · intro h
    have hsame : Stream.recv buffSize (chunk 0) (text ++ [0]) = (text ++ [0]).take buffSize := by
      rw [Stream.recv, take_eq_take_iff, hlength]
      omega
    rw [hsame]

/-- The reply fits the buffer and comes at once. -/
theorem delivered_at_once : Delivered (fun _ => 3) (fun _ => 0) 8 (fun _ => 255) [79, 75] :=
  (delivered_iff _ _ 8 _ (by decide)).mpr (by decide)

/-- A reply of three bytes, cut behind the first one, does not reach a buffer of eight. -/
theorem not_delivered_in_parts :
    ¬ Delivered (fun _ => 0) (fun _ => 0) 8 (fun _ => 255) [79, 75] := by
  intro h
  have hcount := congrArg Prod.fst h.1
  revert hcount
  decide

end Wbr1310.Comlib.Xmldbc
