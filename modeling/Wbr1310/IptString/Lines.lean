import Wbr1310.IptString.Matcher

/-!
# What the loops of the matchers compute

The line splitter cuts the segment at its line breaks, the copies take words and lists from one
buffer to another. Each lemma gives the result of a loop on buffers that hold lists, or the
access that stops it.
-/

namespace Wbr1310.IptString

open Lib Buffer List Nat

def lineOf (packet : List Byte) : List Byte := packet.takeWhile fun c => decide (¬ IsBreak c)

def breaksOf (packet : List Byte) : List Byte :=
  (packet.drop (lineOf packet).length).takeWhile fun c => decide (IsBreak c)

/-- The bytes that `get_one_line` goes on by. -/
def span (packet : List Byte) : ℕ := (lineOf packet).length + (breaksOf packet).length

def afterLine (packet : List Byte) : List Byte := packet.drop (span packet)

theorem lineOf_prefix (packet : List Byte) : lineOf packet <+: packet := List.takeWhile_prefix _

variable {c : Byte} {n size i start : ℕ} {xs : List Byte}

theorem lineOf_cons_break (h : IsBreak c) (rest : List Byte) :
    lineOf (c :: rest) = [] :=
  takeWhile_cons_of_neg (by simpa using h)

theorem lineOf_cons (h : ¬ IsBreak c) (rest : List Byte) :
    lineOf (c :: rest) = c :: lineOf rest :=
  takeWhile_cons_of_pos (by simpa using h)

theorem copyLine_spec (front rest : List Byte) (hn : front.length + n ≤ lineLen) :
    copyLine (front ++ rest) (front ++ rest).length n front.length (held front) =
      .ok (front.length + min (lineOf rest).length n, held (front ++ (lineOf rest).take n)) := by
  induction n generalizing front rest with
  | zero => simp [copyLine]
  | succ n ih =>
    cases rest with
    | nil => simp [copyLine, lineOf]
    | cons c rest =>
      have hlt : front.length < (front ++ c :: rest).length := by simp
      rw [copyLine, if_pos hlt, readList_append, ok_bind]
      by_cases hc : IsBreak c
      · simp [if_pos hc, lineOf_cons_break hc]
      · have hlen : (front ++ [c]).length + n ≤ lineLen := by
          rw [length_append, length_singleton]
          omega
        have hstep := ih (front ++ [c]) rest hlen
        rw [if_neg hc, write_of_lt _ _ (by omega), ok_bind, update_held, lineOf_cons hc]
        simp only [append_assoc, singleton_append, length_append,
          length_singleton] at hstep ⊢
        rw [hstep]
        simp only [length_cons, take_succ_cons]
        congr 2
        omega

theorem skipBreaks_spec (front rest : List Byte) (hn : rest.length ≤ n) :
    skipBreaks (front ++ rest) (front ++ rest).length n front.length =
      .ok (front.length + (rest.takeWhile fun c => decide (IsBreak c)).length) := by
  induction n generalizing front rest with
  | zero =>
    obtain rfl := length_eq_zero_iff.mp (le_zero.mp hn)
    simp [skipBreaks]
  | succ n ih =>
    cases rest with
    | nil => simp [skipBreaks]
    | cons c rest =>
      have hlt : front.length < (front ++ c :: rest).length := by simp
      rw [skipBreaks, if_pos hlt, readList_append, ok_bind]
      by_cases hc : IsBreak c
      · have hstep := ih (front ++ [c]) rest (by simpa using hn)
        simp only [append_assoc, singleton_append, length_append,
          length_singleton] at hstep ⊢
        rw [if_pos hc, hstep, takeWhile_cons_of_pos (by simpa using hc), length_cons]
        congr 1
        omega
      · rw [if_neg hc, takeWhile_cons_of_neg (by simpa using hc)]
        rfl

/-- The line that is read, and where the next one starts. -/
theorem getOneLine_spec (packet : List Byte) (h : (lineOf packet).length < lineLen) :
    getOneLine packet packet.length cleared lineLen = .ok (span packet, held (lineOf packet)) := by
  have hcopy := copyLine_spec [] packet (n := lineLen) (by simp)
  rw [nil_append, length_nil, nil_append, Nat.zero_add, Nat.min_eq_left h.le,
    take_of_length_le h.le, held_nil] at hcopy
  obtain ⟨rest, hrest⟩ := lineOf_prefix packet
  have hdrop : packet.drop (lineOf packet).length = rest := by
    have hright := congrArg (drop (lineOf packet).length) hrest
    rw [drop_left] at hright
    exact hright.symm
  have hskip := skipBreaks_spec (lineOf packet) rest (n := packet.length - (lineOf packet).length)
    (by rw [← hdrop, length_drop])
  rw [hrest, ← hdrop] at hskip
  rw [getOneLine]
  simp only [show (cleared : Cells) = fun _ => 0 from rfl, hcopy, ok_bind,
    write_of_lt _ _ h, update_held_zero, hskip, pure_eq_ok]
  rfl

theorem getOneLine_long (packet : List Byte) (h : lineLen ≤ (lineOf packet).length) :
    getOneLine packet packet.length cleared lineLen = .error .bounds := by
  have hcopy := copyLine_spec [] packet (n := lineLen) (by simp)
  rw [nil_append, length_nil, nil_append, Nat.zero_add, Nat.min_eq_right h,
    held_nil] at hcopy
  rw [getOneLine]
  simp only [show (cleared : Cells) = fun _ => 0 from rfl, hcopy, ok_bind,
    write_of_le _ _ le_rfl, error_bind]

theorem span_pos {packet : List Byte} (h : packet ≠ []) : 0 < span packet := by
  obtain ⟨c, rest, rfl⟩ := exists_cons_of_ne_nil h
  by_cases hc : IsBreak c
  · have hbreaks : 0 < (breaksOf (c :: rest)).length := by
      rw [breaksOf, lineOf_cons_break hc, length_nil, drop_zero,
        takeWhile_cons_of_pos (by simpa using hc)]
      exact succ_pos _
    exact lt_of_lt_of_le hbreaks (le_add_left _ _)
  · rw [span, lineOf_cons hc, length_cons]
    omega

def lower (xs : List Byte) : List Byte := xs.map lowerByte

@[simp]
theorem length_lower (xs : List Byte) : (lower xs).length = xs.length := List.length_map _

theorem lower_append (xs ys : List Byte) : lower (xs ++ ys) = lower xs ++ lower ys :=
  map_append

theorem lowerByte_ne_zero (h : c ≠ 0) : lowerByte c ≠ 0 := by
  unfold lowerByte
  split
  · next hc =>
    intro hzero
    have hnat := congrArg UInt8.toNat hzero
    rw [UInt8.le_iff_toNat_le, UInt8.le_iff_toNat_le] at hc
    simp at hnat hc
    omega
  · exact h

theorem ne_zero_of_mem_lower (h : ∀ c ∈ xs, c ≠ 0) : ∀ c ∈ lower xs, c ≠ 0 := by
  intro c hc
  obtain ⟨d, hd, rfl⟩ := mem_map.mp hc
  exact lowerByte_ne_zero (h d hd)

theorem lowerCells_spec (b : Cells) (h : i + n ≤ size) :
    lowerCells size n i b =
      .ok fun j => if i ≤ j ∧ j < i + n then lowerByte (b j) else b j := by
  induction n generalizing i b with
  | zero =>
    rw [lowerCells, pure_eq_ok]
    congr 1
    funext j
    rw [if_neg (by omega)]
  | succ n ih =>
    rw [lowerCells, read_of_lt _ (by omega), ok_bind, write_of_lt _ _ (by omega), ok_bind,
      ih _ (by omega)]
    congr 1
    funext j
    by_cases hj : j = i
    · subst hj
      rw [if_neg (by omega), if_pos (by omega), Function.update_self]
    · rw [Function.update_of_ne hj]
      by_cases hr : i ≤ j ∧ j < i + (n + 1)
      · rw [if_pos hr, if_pos (by omega)]
      · rw [if_neg hr, if_neg (by omega)]

theorem lowerCells_held (hn : n ≤ size) (h : xs.length ≤ n) :
    lowerCells size n 0 (held xs) = .ok (held (lower xs)) := by
  rw [lowerCells_spec _ (by omega), lower, ← held_map lowerByte (by decide)]
  congr 1
  funext j
  by_cases hj : 0 ≤ j ∧ j < 0 + n
  · rw [if_pos hj]
  · rw [if_neg hj, held_of_ge (by omega)]
    rfl

theorem strstr_held (pat : List Byte) (h : xs.length < size) :
    strstr size (held xs) pat = .ok (indexOf pat (cut xs)) := by
  rw [strstr, string_held ((cut_length_le xs).trans_lt h), ok_bind, pure_eq_ok]

theorem anyOccurs_held (h : xs.length < lineLen) (names : List (List Byte)) :
    anyOccurs (held xs) names = .ok (names.any fun name => (indexOf name (cut xs)).isSome) := by
  induction names with
  | nil => rfl
  | cons name names ih =>
    rw [anyOccurs, strstr_held name h, ok_bind, any_cons, ih]
    cases (indexOf name (cut xs)).isSome <;> rfl

def word (xs : List Byte) : List Byte := xs.takeWhile fun c => decide (c ≠ blank ∧ c ≠ 0)

theorem word_length_le (xs : List Byte) : (word xs).length ≤ xs.length :=
  (takeWhile_sublist _).length_le

theorem ne_zero_of_mem_word (h : c ∈ word xs) : c ≠ 0 := by
  have hc := mem_takeWhile_imp h
  simp only [decide_eq_true_eq] at hc
  exact hc.2

theorem word_cons (h : c ≠ blank ∧ c ≠ 0) (rest : List Byte) :
    word (c :: rest) = c :: word rest :=
  takeWhile_cons_of_pos (by simpa using h)

theorem word_cons_end (h : ¬ (c ≠ blank ∧ c ≠ 0)) (rest : List Byte) :
    word (c :: rest) = [] :=
  takeWhile_cons_of_neg (by rw [decide_eq_true_eq]; exact h)

theorem held_middle (front done rest : List Byte) :
    held (front ++ (done ++ rest)) (front.length + done.length) = held rest 0 := by
  rw [held_append_right _ (by omega), held_append_right _ (by omega)]
  congr 1
  omega

/-- By induction on the word that is left. -/
theorem copyWord_spec {limit : Option ℕ} (front done rest : List Byte)
    (hn : (word rest).length < n) (hline : front.length + done.length + rest.length < lineLen)
    (hlimit : ∀ i < done.length + rest.length, limit.all (i < ·) = true ∧ i < size) :
    copyWord size limit (held (front ++ (done ++ rest))) front.length n done.length (held done) =
      .ok (done.length + (word rest).length, held (done ++ word rest)) := by
  induction rest generalizing done n with
  | nil =>
    obtain ⟨n, rfl⟩ := Nat.exists_eq_add_one_of_ne_zero (Nat.ne_zero_of_lt hn)
    rw [copyWord, read_of_lt _ (by omega), ok_bind, held_middle, if_neg fun h => h.2.1 rfl]
    simp [word]
  | cons c rest ih =>
    obtain ⟨n, rfl⟩ := Nat.exists_eq_add_one_of_ne_zero (Nat.ne_zero_of_lt hn)
    have hhead : held (c :: rest) 0 = c := rfl
    rw [copyWord, read_of_lt _ (by omega), ok_bind, held_middle, hhead]
    by_cases hc : c ≠ blank ∧ c ≠ 0
    · obtain ⟨hbelow, hsize⟩ := hlimit done.length (by simp)
      rw [word_cons hc, length_cons] at hn
      have hstep := ih (n := n) (done ++ [c]) (by omega)
        (by simp only [length_append, length_cons, length_nil] at hline ⊢; omega)
        (by
          intro i hi
          apply hlimit i
          simp only [length_append, length_cons, length_nil] at hi ⊢
          omega)
      simp only [append_assoc, singleton_append, length_append,
        length_singleton] at hstep
      rw [if_pos ⟨hc.1, hc.2, hbelow⟩, write_of_lt _ _ hsize, ok_bind, update_held, hstep,
        word_cons hc, length_cons]
      congr 2
      omega
    · rw [if_neg fun h => hc ⟨h.1, h.2.1⟩, word_cons_end hc, length_nil, append_nil]
      rfl

theorem copyWord_held {limit : Option ℕ} (h : xs.length < lineLen) (hin : start ≤ xs.length)
    (hlimit : ∀ i < xs.length - start, limit.all (i < ·) = true ∧ i < size) :
    copyWord size limit (held xs) start (lineLen + 1) 0 cleared =
      .ok ((word (xs.drop start)).length, held (word (xs.drop start))) := by
  have hlen : (xs.take start).length = start := length_take_of_le hin
  have hdrop : (xs.drop start).length = xs.length - start := length_drop
  have hword := word_length_le (xs.drop start)
  have hcopy := copyWord_spec (n := lineLen + 1) (xs.take start) [] (xs.drop start) (by omega)
    (by rw [hlen, hdrop, length_nil]; omega)
    (by rw [hdrop, length_nil, Nat.zero_add]; exact hlimit)
  rw [nil_append, nil_append, take_append_drop, hlen, length_nil,
    Nat.zero_add, held_nil] at hcopy
  exact hcopy

theorem copyUri_spec (h : xs.length < lineLen) (hstart : 0 < start) (hin : start ≤ xs.length) :
    copyUri (held xs) start = .ok ((word (xs.drop start)).length, held (word (xs.drop start))) := by
  apply copyWord_held h hin
  intro i hi
  simp only [lineLen] at h
  simp only [buffLen, Option.all_some, decide_eq_true_eq]
  omega

theorem copyHost_spec (h : xs.length < lineLen) (hin : start ≤ xs.length) :
    copyHost (held xs) start =
      .ok ((word (xs.drop start)).length, held (word (xs.drop start))) := by
  apply copyWord_held h hin
  intro i hi
  simp only [lineLen] at h
  exact ⟨rfl, by simp only [urlLen]; omega⟩

theorem copyBuff_spec {source dest : ℕ} (buff url : Cells) (hs : source + i + n ≤ buffLen)
    (hd : dest + i + n ≤ urlLen) :
    copyBuff buff source dest n i url = .ok fun j =>
      if dest + i ≤ j ∧ j < dest + i + n then buff (source + (j - dest)) else url j := by
  induction n generalizing i url with
  | zero =>
    rw [copyBuff, pure_eq_ok]
    congr 1
    funext j
    rw [if_neg (by omega)]
  | succ n ih =>
    rw [copyBuff, read_of_lt _ (by omega), ok_bind, write_of_lt _ _ (by omega), ok_bind,
      ih _ (by omega) (by omega)]
    congr 1
    funext j
    by_cases hj : j = dest + i
    · subst hj
      rw [if_neg (by omega), if_pos (by omega), Function.update_self]
      congr 1
      omega
    · rw [Function.update_of_ne hj]
      by_cases hr : dest + i ≤ j ∧ j < dest + i + (n + 1)
      · rw [if_pos hr, if_pos (by omega)]
      · rw [if_neg hr, if_neg (by omega)]

theorem copyBuff_long {source dest : ℕ} (buff url : Cells) (hs : source + i ≤ buffLen)
    (hlong : buffLen < source + i + n) (hd : dest + i + n ≤ urlLen) :
    copyBuff buff source dest n i url = .error .bounds := by
  induction n generalizing i url with
  | zero => omega
  | succ n ih =>
    rw [copyBuff]
    by_cases hlast : source + i < buffLen
    · rw [read_of_lt _ hlast, ok_bind, write_of_lt _ _ (by omega), ok_bind]
      exact ih _ (by omega) (by omega) (by omega)
    · rw [read_of_le _ (not_lt.mp hlast), error_bind]

theorem copyBuff_append {ys : List Byte} (hs : ys.length ≤ buffLen)
    (hd : xs.length + ys.length ≤ urlLen) :
    copyBuff (held ys) 0 xs.length ys.length 0 (held xs) = .ok (held (xs ++ ys)) := by
  rw [copyBuff_spec _ _ (by omega) (by omega)]
  congr 1
  funext j
  by_cases hj : xs.length + 0 ≤ j ∧ j < xs.length + 0 + ys.length
  · rw [if_pos hj, held_append_right _ (by omega), Nat.zero_add]
  · rw [if_neg hj]
    by_cases hlt : j < xs.length
    · exact (held_append_left ys hlt).symm
    · rw [held_of_ge (by omega), held_of_ge (by rw [length_append]; omega)]

end Wbr1310.IptString
