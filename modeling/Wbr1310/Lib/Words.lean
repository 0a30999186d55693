import Wbr1310.Lib.Text

/-!
# Words of a text

`strtok`, which cuts a word off a text, and `fgets`, which cuts a file into lines of a limited
length.
-/

namespace Wbr1310.Lib.Text

open List

/-- `strtok`: the first word between delimiters, and the text behind the delimiter that ends it. -/
def strtok (delimiters : List Char) (s : Text) : Option (Text × Text) :=
  match s.dropWhile (· ∈ delimiters) with
  | [] => none
  | c :: t =>
    some ((c :: t).takeWhile (· ∉ delimiters), ((c :: t).dropWhile (· ∉ delimiters)).drop 1)

/-- What `fgets` reads one after the other with a buffer for `size` characters and the end mark:
`line` has been read into the buffer. -/
def fgetsFrom (size : ℕ) : Text → Text → List Text
  | line, [] => if line = [] then [] else [line]
  | line, c :: rest =>
    if c = '\n' ∨ line.length + 1 = size then (line ++ [c]) :: fgetsFrom size [] rest
    else fgetsFrom size (line ++ [c]) rest

variable {delimiters : List Char} {s word rest : Text}

theorem length_of_strtok (h : strtok delimiters s = some (word, rest)) :
    rest.length < s.length := by
  rw [strtok] at h
  split at h
  · cases h
  · next c t hdrop =>
    obtain ⟨-, rfl⟩ := Prod.mk.inj (Option.some.inj h)
    have hle : (c :: t).length ≤ s.length := hdrop ▸ (dropWhile_sublist _).length_le
    have hle' : ((c :: t).dropWhile (· ∉ delimiters)).length ≤ (c :: t).length :=
      (dropWhile_sublist _).length_le
    rw [length_drop]
    simp only [length_cons] at hle hle'
    omega

theorem strtok_word (hne : word ≠ []) (hword : ∀ c ∈ word, c ∉ delimiters) {d : Char}
    (hd : d ∈ delimiters) (rest : Text) :
    strtok delimiters (word ++ d :: rest) = some (word, rest) := by
  cases word with
  | nil => exact absurd rfl hne
  | cons c word =>
    have hc : c ∉ delimiters := hword c mem_cons_self
    have hall : ∀ x ∈ c :: word, decide (x ∉ delimiters) = true := fun x hx =>
      decide_eq_true (hword x hx)
    have hdrop : (c :: word ++ d :: rest).dropWhile (· ∈ delimiters) =
        c :: (word ++ d :: rest) := by
      rw [cons_append, dropWhile_cons_of_neg (by simpa using hc)]
    rw [strtok, hdrop]
    simp only [← cons_append]
    rw [takeWhile_append_of_pos hall, dropWhile_append_of_pos hall,
      takeWhile_cons_of_neg (by simpa using hd),
      dropWhile_cons_of_neg (by simpa using hd), append_nil]
    rfl

theorem strtok_skip {skipped : Text} (h : ∀ c ∈ skipped, c ∈ delimiters) (s : Text) :
    strtok delimiters (skipped ++ s) = strtok delimiters s := by
  rw [strtok, strtok, dropWhile_append_of_pos fun c hc => decide_eq_true (h c hc)]

theorem strtok_last (hne : word ≠ []) (hword : ∀ c ∈ word, c ∉ delimiters) :
    strtok delimiters word = some (word, []) := by
  cases word with
  | nil => exact absurd rfl hne
  | cons c word =>
    have hall : ∀ x ∈ c :: word, decide (x ∉ delimiters) = true := fun x hx =>
      decide_eq_true (hword x hx)
    have hdrop : (c :: word).dropWhile (· ∈ delimiters) = c :: word :=
      dropWhile_cons_of_neg (by simpa using hword c mem_cons_self)
    rw [strtok, hdrop]
    simp only
    rw [takeWhile_eq_self_iff.mpr hall, dropWhile_eq_nil_iff.mpr hall]
    rfl

end Wbr1310.Lib.Text
