import Wbr1310.Lib.Stream

/-!
# Replies of the database in a buffer

`output2buffer` of `lrgbin.c` reads a reply into a buffer until its end mark. It keeps the result
of `read` in a `size_t`: an error is not below zero but `2^32 - 1`, so the loop goes on with one
byte less, or with the largest count when nothing was read yet. A full buffer does not end the
loop either: it calls `select` and `read` once more.
-/

namespace Wbr1310.Upnpd.ReplyBuffer

open Lib Stream List Nat

/-- A result of `read`: an error, or the bytes there are to be read, none at the end. -/
inductive Got where
  | error
  | data (bytes : List UInt8)

/-- How `output2buffer` ends: it waits for more than the given results, reads or writes outside the
buffer, or returns a count with the buffer and the results it has not asked for. -/
inductive Outcome where
  | waiting
  | outside
  | returned (readCount : ℕ) (buffer : ℕ → UInt8) (unread : List Got)

/-- The bytes that `read` stores in that much room. -/
def Got.bytes (room : ℕ) : Got → List UInt8
  | .error => []
  | .data bytes => bytes.take room

/-- The result of `read` as a `size_t`. -/
def Got.rn (room : ℕ) : Got → ℕ
  | .error => 2 ^ 32 - 1
  | .data bytes => (bytes.take room).length

/-- The loop of `output2buffer`; `size_t` has 32 bits. -/
def output2bufferFrom (size : ℕ) : ℕ → (ℕ → UInt8) → List Got → Outcome
  | _, _, [] => .waiting
  | readCount, buffer, got :: rest =>
    let room := (size + 2 ^ 32 - readCount) % 2 ^ 32
    if got.rn room = 0 then .returned readCount buffer rest
    else if got.bytes room ≠ [] ∧ size < readCount + (got.bytes room).length then .outside
    else
      let buffer := store buffer readCount (got.bytes room)
      let readCount := (readCount + got.rn room) % 2 ^ 32
      let last := (readCount + 2 ^ 32 - 1) % 2 ^ 32
      if size ≤ last then .outside
      else if buffer last = 0 then .returned readCount buffer rest
      else output2bufferFrom size readCount buffer rest

def output2buffer (size : ℕ) (buffer : ℕ → UInt8) (results : List Got) : Outcome :=
  output2bufferFrom size 0 buffer results

/-- `lrgdb_do_ephp`, when the socket was opened as `fd` and the command was sent or not: what it
returns as an `int`, if it returns. -/
def lrgdbDoEphp (fd : ℤ) (sent : Bool) (size : ℕ) (buffer : ℕ → UInt8) (results : List Got) :
    Option ℤ :=
  if fd = 0 ∨ sent = false then some (-1)
  else match output2buffer size buffer results with
    | .returned readCount _ _ => some ((readCount : ℤ).bmod (2 ^ 32))
    | _ => none

/-- The bytes of a reply that fit in the buffer, behind those that were stored, and the results
behind the reply; none if the reply has not ended. -/
def reply (size : ℕ) : List UInt8 → List Got → Option (List UInt8 × List Got)
  | stored, [] => if size ≤ stored.length then some (stored, []) else none
  | stored, .error :: rest => some (stored, if size ≤ stored.length then .error :: rest else rest)
  | stored, .data bytes :: rest =>
    let stored' := stored ++ bytes.take (size - stored.length)
    if size ≤ stored.length then some (stored, .data bytes :: rest)
    else if bytes = [] ∨ stored'.getLast? = some 0 then some (stored', rest)
    else reply size stored' rest

def replied (buffer : ℕ → UInt8) : Option (List UInt8 × List Got) → Outcome
  | none => .waiting
  | some (stored, rest) => .returned stored.length (store buffer 0 stored) rest

def received (results : List Got) : ℕ :=
  (results.map fun got => match got with
    | .error => 0
    | .data bytes => bytes.length).sum

/-- The loop stays inside the buffer, ends with the reply and returns the number of bytes it has
stored, and `lrgdb_do_ephp` reports no more than were received. -/
structure Bounded (size : ℕ) (buffer : ℕ → UInt8) (results : List Got) : Prop where
  ends : output2buffer size buffer results = replied buffer (reply size [] results)
  reports : ∀ fd sent n, lrgdbDoEphp fd sent size buffer results = some n → n ≤ received results

/-- With that much room in the buffer, no `read` fails before the reply has ended, and the buffer
is not filled before, or only by a last byte that is the end mark. -/
def Orderly : ℕ → List Got → Prop
  | 0, _ => False
  | _ + 1, [] => True
  | _ + 1, .error :: _ => False
  | room + 1, .data bytes :: rest =>
    bytes = [] ∨ (bytes.take (room + 1)).getLast? = some 0 ∨ Orderly (room + 1 - bytes.length) rest

section Loop

variable {size : ℕ} {buffer : ℕ → UInt8}

theorem unread_lt {results unread : List Got} {readCount count : ℕ} {buffer' : ℕ → UInt8}
    (h : output2bufferFrom size readCount buffer results = .returned count buffer' unread) :
    unread.length < results.length := by
  induction results generalizing readCount buffer with
  | nil => cases h
  | cons got rest ih =>
    simp only [output2bufferFrom] at h
    split at h
    · cases h
      exact lt_succ_self _
    · split at h
      · cases h
      · split at h
        · cases h
        · split at h
          · cases h
            exact lt_succ_self _
          · exact lt_succ_of_lt (ih h)

theorem output2bufferFrom_error (readCount : ℕ) (rest : List Got) (buffer' : ℕ → UInt8) :
    output2bufferFrom size readCount buffer (.error :: rest) ≠
      .returned readCount buffer' rest := by
  intro h
  simp only [output2bufferFrom] at h
  rw [if_neg (by simp [Got.rn]), if_neg (by simp [Got.bytes])] at h
  split at h
  · cases h
  · split at h
    · have hsame := (Outcome.returned.inj h).1
      simp only [Got.rn] at hsame
      omega
    · exact absurd (unread_lt h) (lt_irrefl _)

/-- The loop as long as nothing wraps: it stores what came and looks at its last byte. -/
theorem output2bufferFrom_data {stored bytes : List UInt8} (hsize : size < 2 ^ 32)
    (hroom : stored.length < size) (hne : bytes ≠ []) (rest : List Got) {b : UInt8}
    (hb : (stored ++ bytes.take (size - stored.length)).getLast? = some b) :
    output2bufferFrom size stored.length (store buffer 0 stored) (.data bytes :: rest) =
      if b = 0 then
        .returned (stored ++ bytes.take (size - stored.length)).length
          (store buffer 0 (stored ++ bytes.take (size - stored.length))) rest
      else output2bufferFrom size (stored ++ bytes.take (size - stored.length)).length
        (store buffer 0 (stored ++ bytes.take (size - stored.length))) rest := by
  have hspace : (size + 2 ^ 32 - stored.length) % 2 ^ 32 = size - stored.length := by omega
  have hlen := length_pos_iff.mpr hne
  simp only [output2bufferFrom, hspace, Got.rn, Got.bytes, store_append, ← length_append]
  have hgrown : (stored ++ bytes.take (size - stored.length)).length =
      stored.length + min (size - stored.length) bytes.length := by
    rw [length_append, length_take]
  have hlast := store_last buffer hb
  generalize stored ++ bytes.take (size - stored.length) = stored' at hgrown hlast ⊢
  have hmod : stored'.length % 2 ^ 32 = stored'.length := mod_eq_of_lt (by omega)
  have hindex : (stored'.length + 2 ^ 32 - 1) % 2 ^ 32 = stored'.length - 1 := by omega
  rw [if_neg (by rw [length_take]; omega), if_neg (by omega), hmod, hindex,
    if_neg (by omega), hlast]

theorem output2bufferFrom_full {stored : List UInt8} (hfull : stored.length = size)
    (results : List Got) :
    output2bufferFrom size stored.length (store buffer 0 stored) results ≠
      replied buffer (reply size stored results) := by
  have hreply : reply size stored results = some (stored, results) := by
    cases results with
    | nil => simp [reply, hfull]
    | cons got rest => cases got <;> simp [reply, hfull]
  rw [hreply]
  intro h
  exact absurd (unread_lt h) (lt_irrefl _)

/-- From any state with the given bytes stored the loop does what is meant exactly for orderly
results. -/
theorem output2bufferFrom_iff (hsize : size < 2 ^ 32) (results : List Got) (stored : List UInt8)
    (hle : stored.length ≤ size) :
    output2bufferFrom size stored.length (store buffer 0 stored) results =
        replied buffer (reply size stored results) ↔
      Orderly (size - stored.length) results := by
  induction results generalizing stored with
  | nil =>
    obtain hfull | hroom := Nat.eq_or_lt_of_le hle
    · refine iff_of_false (output2bufferFrom_full hfull _) ?_
      rw [hfull, Nat.sub_self]
      exact id
    · obtain ⟨room, hspace⟩ := exists_eq_add_one_of_ne_zero (sub_ne_zero_of_lt hroom)
      rw [reply, if_neg (not_le.mpr hroom), hspace]
      exact iff_of_true rfl trivial
  | cons got rest ih =>
    obtain hfull | hroom := Nat.eq_or_lt_of_le hle
    · refine iff_of_false (output2bufferFrom_full hfull _) ?_
      rw [hfull, Nat.sub_self]
      cases got <;> exact id
    obtain ⟨room, hspace⟩ := exists_eq_add_one_of_ne_zero (sub_ne_zero_of_lt hroom)
    cases got with
    | error =>
      rw [reply, if_neg (not_le.mpr hroom), hspace]
      exact iff_of_false (output2bufferFrom_error _ rest _) id
    | data bytes =>
      have hgrown : (stored ++ bytes.take (size - stored.length)).length ≤ size := by
        rw [length_append, length_take]
        omega
      have hrest : size - (stored ++ bytes.take (size - stored.length)).length =
          size - stored.length - bytes.length := by
        rw [length_append, length_take]
        omega
      simp only [reply, if_neg (not_le.mpr hroom)]
      by_cases hnil : bytes = []
      · rw [if_pos (Or.inl hnil), hspace]
        refine iff_of_true ?_ (Or.inl hnil)
        simp [hnil, output2bufferFrom, Got.rn, replied]
      · have hgot : bytes.take (size - stored.length) ≠ [] := by
          rw [hspace, ne_eq, take_eq_nil_iff]
          simpa using hnil
        have hlast : (stored ++ bytes.take (size - stored.length)).getLast? =
            (bytes.take (size - stored.length)).getLast? := getLast?_append_of_ne_nil _ hgot
        obtain ⟨b, hb⟩ := Option.isSome_iff_exists.mp (getLast?_isSome.mpr hgot)
        rw [output2bufferFrom_data hsize hroom hnil rest (hlast.trans hb), hlast, hb]
        have horderly : Orderly (size - stored.length) (.data bytes :: rest) ↔
            b = 0 ∨ Orderly (size - stored.length - bytes.length) rest := by
          rw [hspace] at hb ⊢
          rw [Orderly, or_iff_right hnil, hb, Option.some.injEq]
        rw [horderly]
        by_cases hzero : b = 0
        · rw [if_pos hzero, if_pos (Or.inr (by rw [hzero]))]
          exact iff_of_true rfl (Or.inl hzero)
        · rw [if_neg hzero, if_neg (by simp [hnil, hzero]), or_iff_right hzero, ← hrest]
          exact ih _ hgrown

end Loop

theorem length_reply_le {size : ℕ} {results rest : List Got} {stored bytes : List UInt8}
    (h : reply size stored results = some (bytes, rest)) :
    bytes.length ≤ stored.length + received results := by
  induction results generalizing stored with
  | nil =>
    rw [reply] at h
    split at h
    · cases h
      exact le_add_right _ _
    · cases h
  | cons got rest ih =>
    cases got with
    | error =>
      cases h
      exact le_add_right _ _
    | data chunk =>
      have hlen : (stored ++ chunk.take (size - stored.length)).length ≤
          stored.length + chunk.length := by
        rw [length_append]
        exact Nat.add_le_add_left (length_take_le' _ _) _
      have hsum : received (.data chunk :: rest) = chunk.length + received rest := by
        simp [received]
      rw [hsum]
      simp only [reply] at h
      split at h
      · cases h
        exact le_add_right _ _
      · split at h
        · cases h
          omega
        · have := ih h
          omega

/-- A reply is read within the buffer, to its end and no further, and counted, exactly if the
results are orderly. -/
theorem bounded_iff (size : UInt32) (buffer : ℕ → UInt8) (results : List Got) :
    Bounded size.toNat buffer results ↔ Orderly size.toNat results := by
  have hloop : output2bufferFrom size.toNat 0 (store buffer 0 []) results = _ ↔ _ :=
    output2bufferFrom_iff size.toNat_lt results [] (zero_le _)
  rw [store_nil] at hloop
  constructor
  · intro h
    exact hloop.mp h.ends
  · intro h
    have hends : output2buffer _ _ _ = _ := hloop.mpr h
    refine ⟨hends, ?_⟩
    intro fd sent n hn
    rw [lrgdbDoEphp, hends] at hn
    split at hn
    · cases hn
      omega
    · cases hreply : reply size.toNat [] results with
      | none =>
        rw [hreply] at hn
        cases hn
      | some r =>
        obtain ⟨bytes, rest⟩ := r
        have hle := length_reply_le hreply
        rw [length_nil, Nat.zero_add] at hle
        rw [hreply] at hn
        have hcount : (bytes.length : ℤ).bmod (2 ^ 32) ≤ bytes.length := by
          rw [Int.bmod_def]
          split <;> omega
        have hn' : (bytes.length : ℤ).bmod (2 ^ 32) = n := Option.some.inj hn
        omega

/-- A first `read` that fails makes the loop look before the buffer. -/
theorem not_bounded_error :
    ¬ Bounded (16 : UInt32).toNat (fun _ => 1) [.error, .data [104, 105, 0]] ∧
      output2buffer 16 (fun _ => 1) [.error, .data [104, 105, 0]] = .outside := by
  have houtside : output2buffer 16 (fun _ => 1) [.error, .data [104, 105, 0]] = .outside := by
    simp [output2buffer, output2bufferFrom, Got.rn, Got.bytes]
  refine ⟨fun h => ?_, houtside⟩
  have hends : Outcome.outside = replied _ _ := houtside.symm.trans h.ends
  cases hends

end Wbr1310.Upnpd.ReplyBuffer
