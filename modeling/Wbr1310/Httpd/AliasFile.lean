import Wbr1310.Httpd.Request

/-!
# Alias files

`parse_alias_file` reads a file character by character into an array of 512 bytes. It is meant to
find the first line whose alias matches. But it returns from a match without closing the file, a
line without a location takes it from a later line, and an entry that does not fit the array ends
the search.
-/

namespace Wbr1310.Httpd.AliasFile

open Lib Text List

def sizeofBuf : ℕ := 512

def nul : Char := Char.ofNat 0

def cstr (array : Text) : Text := array.takeWhile (· ≠ nul)

def IsSeparator (c : Char) : Prop := c = ':' ∨ c = ',' ∨ c = ';'

def IsEol (c : Char) : Prop := c = '\r' ∨ c = '\n'

instance : DecidablePred IsSeparator := fun _ => inferInstanceAs (Decidable (_ ∨ _))

instance : DecidablePred IsEol := fun _ => inferInstanceAs (Decidable (_ ∨ _))

/-- The states of the scanner. -/
inductive State where
  | one
  | two
  | three
  | four
  deriving DecidableEq

/-- What is returned: the rest of the path with what the array `location` holds, and whether the
file was closed. -/
structure Result where
  found : Option (Text × Text)
  closed : Bool

def stopped : Result := ⟨none, true⟩

/-- `exactmatch` or `dirmatch` of the path. -/
def aliasMatch (exactMatch : Bool) (path name : Text) : Option Text :=
  if exactMatch then exactmatch path name else dirmatch path name

/-- The array behind `strncpy`. -/
def strncpy (s : Text) (n : ℕ) : Text := s.take n ++ List.replicate (n - s.length) nul

section Scanner

variable (search : Text → Option Text) (maxlen : ℕ)

/-- The loop, with the characters in `buf` and the index of the value. -/
def scan : State → Text → ℕ → Text → Result
  | state, buf, pVal, [] =>
    if buf.length < sizeofBuf ∧ state = .four then
      match search (cstr buf) with
      | some s => ⟨some (s, strncpy (cstr (buf.drop pVal)) maxlen), false⟩
      | none => stopped
    else stopped
  | state, buf, pVal, c :: cs =>
    if buf.length < sizeofBuf then
      match state with
      | .one => if c = ' ' ∨ isSpace c = false then scan .two (buf ++ [c]) pVal cs
        else scan .one buf pVal cs
      | .two => if IsSeparator c then scan .three (buf ++ [nul]) (buf.length + 1) cs
        else if IsEol c then scan .one [] 0 cs
        else scan .two (buf ++ [c]) pVal cs
      | .three => if isSpace c = false then scan .four (buf ++ [c]) pVal cs
        else scan .three buf pVal cs
      | .four => if IsEol c then
          match search (cstr buf) with
          | some s => ⟨some (s, strncpy (cstr (buf.drop pVal)) maxlen), false⟩
          | none => scan .one [] 0 cs
        else scan .four (buf ++ [c]) pVal cs
    else stopped

end Scanner

/-- `parse_alias_file` for a file that can be opened. -/
def parseAliasFile (file alias' : Text) (maxlen : ℕ) (exactMatch : Bool) : Result :=
  scan (aliasMatch exactMatch alias') maxlen .one [] 0 file

def lines (file : Text) : List Text := file.splitOnP (IsEol ·)

/-- The parts of a line: nothing if there is only white space other than blanks, else what stands
before the first separator and, behind it and white space, the rest. -/
def parts (line : Text) : Option (Text × Option Text) :=
  match line.dropWhile fun c => isSpace c && c ≠ ' ' with
  | [] => none
  | c :: cs =>
    some (c :: cs.takeWhile (¬ IsSeparator ·), match cs.dropWhile (¬ IsSeparator ·) with
      | [] => none
      | _ :: behind => some (behind.dropWhile isSpace))

/-- The alias and the location of a line. -/
def entryOf (line : Text) : Option (Text × Text) :=
  match parts line with
  | some (name, some (c :: value)) => some (cstr name, cstr (c :: value))
  | _ => none

/-- A result is that of the first line that matches, and the location is stored with an end. -/
structure Finds (search : Text → Option Text) (r : Result) (ls : List Text) : Prop where
  found : r.found.map (fun x => (x.1, cstr x.2)) =
    (ls.filterMap entryOf).findSome? fun e => (search e.1).map (·, e.2)
  terminated : ∀ x ∈ r.found, nul ∈ x.2

/-- The result for the array of `faketoreal` is that of the first line that matches, and the file
is closed. -/
structure Right (exactMatch : Bool) (path file : Text) : Prop where
  finds : Finds (aliasMatch exactMatch path) (parseAliasFile file path 256 exactMatch) (lines file)
  closed : (parseAliasFile file path 256 exactMatch).closed = true

/-- A line that is read as it is meant: it fits the array, with a zero for the separator, and
a separator is followed by a location, of less than 256 characters. -/
def Tidy (line : Text) : Prop :=
  ∀ p ∈ parts line, p.1.length < sizeofBuf ∧
    ∀ value ∈ p.2, value ≠ [] ∧ p.1.length + 1 + value.length < sizeofBuf ∧
      (cstr value).length < 256

instance (line : Text) : Decidable (Tidy line) :=
  inferInstanceAs (Decidable (∀ p ∈ _, _ ∧ ∀ value ∈ _, _))

/-- The lines up to the first one whose alias matches are tidy. -/
def TidyUntil (search : Text → Option Text) : List Text → Prop
  | [] => True
  | line :: lines =>
    Tidy line ∧ ((∀ e ∈ entryOf line, search e.1 = none) → TidyUntil search lines)

instance decidableTidyUntil (search : Text → Option Text) :
    (ls : List Text) → Decidable (TidyUntil search ls)
  | [] => inferInstanceAs (Decidable True)
  | _ :: ls =>
    have := decidableTidyUntil search ls
    inferInstanceAs (Decidable (_ ∧ (_ → _)))

section Loop

variable {search : Text → Option Text} {maxlen pVal : ℕ} {state : State} {buf text : Text}

theorem scan_full (h : sizeofBuf ≤ buf.length) :
    scan search maxlen state buf pVal text = stopped := by
  have hlt := not_lt.mpr h
  cases text with
  | nil => rw [scan, if_neg fun hc => hlt hc.1]
  | cons c cs =>
    cases state with
    | one | two | three | four => rw [scan, if_neg hlt]

variable {xs name rest line : Text}

/-- Characters that are stored in a state that stays the same. -/
theorem scan_append (hone : ∀ c ∈ xs, ∀ buf cs, buf.length < sizeofBuf →
      scan search maxlen state buf pVal (c :: cs) = scan search maxlen state (buf ++ [c]) pVal cs) :
    scan search maxlen state buf pVal (xs ++ text) =
      scan search maxlen state (buf ++ xs) pVal text := by
  induction xs generalizing buf with
  | nil => rw [append_nil, nil_append]
  | cons c xs ih =>
    by_cases hfull : buf.length < sizeofBuf
    · rw [cons_append, hone c mem_cons_self _ _ hfull, ih fun d hd => hone d (mem_cons_of_mem _ hd),
        append_assoc]
      rfl
    · rw [scan_full (not_lt.mp hfull), scan_full]
      rw [length_append]
      omega

theorem scan_two_append (h : ∀ c ∈ xs, ¬ IsSeparator c ∧ ¬ IsEol c) :
    scan search maxlen .two buf pVal (xs ++ text) =
      scan search maxlen .two (buf ++ xs) pVal text := by
  apply scan_append
  intro c hc buf cs hlt
  rw [scan, if_pos hlt, if_neg (h c hc).1, if_neg (h c hc).2]

theorem scan_four_append (h : ∀ c ∈ xs, ¬ IsEol c) :
    scan search maxlen .four buf pVal (xs ++ text) =
      scan search maxlen .four (buf ++ xs) pVal text := by
  apply scan_append
  intro c hc buf cs hlt
  rw [scan, if_pos hlt, if_neg (h c hc)]

theorem scan_three (hlt : buf.length < sizeofBuf) :
    scan search maxlen .three buf pVal text = match text.dropWhile isSpace with
      | [] => stopped
      | c :: cs => scan search maxlen .four (buf ++ [c]) pVal cs := by
  induction text with
  | nil =>
    rw [scan, if_neg fun h => nomatch h.2]
    rfl
  | cons c cs ih =>
    rw [scan, if_pos hlt]
    by_cases hc : isSpace c = true
    · rw [if_neg (by simp [hc]), ih, dropWhile_cons_of_pos hc]
    · rw [if_pos (by simpa using hc), dropWhile_cons_of_neg hc]

theorem scan_closed :
    (scan search maxlen state buf pVal text).closed =
      (scan search maxlen state buf pVal text).found.isNone := by
  induction text generalizing state buf pVal with
  | nil =>
    rw [scan]
    split
    · split <;> rfl
    · rfl
  | cons c cs ih =>
    by_cases hlt : buf.length < sizeofBuf
    · cases state with
      | one | three =>
        rw [scan, if_pos hlt]
        split <;> exact ih
      | two =>
        rw [scan, if_pos hlt]
        split
        · exact ih
        · split <;> exact ih
      | four =>
        rw [scan, if_pos hlt]
        split
        · split
          · rfl
          · exact ih
        · exact ih
    · rw [scan_full (not_lt.mp hlt)]
      rfl

theorem cstr_append_nul (name rest : Text) : cstr (name ++ nul :: rest) = cstr name := by
  induction name with
  | nil => simp [cstr]
  | cons c name ih => rw [cons_append, cstr, takeWhile_cons, ← cstr, ih, cstr, cstr, takeWhile_cons]

theorem scan_one_append (h : ∀ c ∈ xs, isSpace c = true ∧ c ≠ ' ') :
    scan search maxlen .one [] 0 (xs ++ text) = scan search maxlen .one [] 0 text := by
  induction xs with
  | nil => rfl
  | cons c xs ih =>
    obtain ⟨hspace, hblank⟩ := h c mem_cons_self
    rw [cons_append, scan, if_pos (by decide), if_neg (by simp [hspace, hblank]),
      ih fun d hd => h d (mem_cons_of_mem c hd)]

/-- What comes of an entry at the end of its line. -/
theorem scan_end {value : Text} (hlt : name.length + 1 + value.length < sizeofBuf)
    (hrest : ∀ c ∈ rest.head?, IsEol c) :
    scan search maxlen .four (name ++ nul :: value) (name.length + 1) rest =
      match search (cstr name) with
      | some s => ⟨some (s, strncpy (cstr value) maxlen), false⟩
      | none => scan search maxlen .one [] 0 rest.tail := by
  have hlength : (name ++ nul :: value).length < sizeofBuf := by
    rw [length_append, length_cons]
    omega
  have hvalue : (name ++ nul :: value).drop (name.length + 1) = value := by simp
  cases rest with
  | nil =>
    rw [scan, if_pos ⟨hlength, rfl⟩, cstr_append_nul, hvalue]
    rfl
  | cons c rest =>
    rw [scan, if_pos hlength, if_pos (hrest c rfl), cstr_append_nul, hvalue]
    rfl

theorem isSpace_of_isEol {c : Char} (h : IsEol c) : isSpace c = true ∧ c ≠ ' ' := by
  rcases h with rfl | rfl <;> decide

/-- The first part of a line is stored. -/
theorem scan_name {c : Char} {cs : Text} (hc : c = ' ' ∨ isSpace c = false)
    (hline : ∀ d ∈ cs, ¬ IsEol d) :
    scan search maxlen .one [] 0 (c :: cs ++ rest) =
      scan search maxlen .two (c :: cs.takeWhile (¬ IsSeparator ·)) 0
        (cs.dropWhile (¬ IsSeparator ·) ++ rest) := by
  have hplain : ∀ d ∈ cs.takeWhile (¬ IsSeparator ·), ¬ IsSeparator d ∧ ¬ IsEol d := by
    intro d hd
    exact ⟨of_decide_eq_true (mem_takeWhile_imp (p := (¬ IsSeparator ·)) hd),
      hline d ((takeWhile_sublist _).mem hd)⟩
  rw [cons_append, scan, if_pos (by decide), if_pos hc]
  nth_rewrite 1 [← takeWhile_append_dropWhile (p := (¬ IsSeparator ·)) (l := cs)]
  rw [append_assoc, scan_two_append hplain]
  rfl

/-- The location is stored behind a zero for the separator. -/
theorem scan_value {behind : Text} {d : Char} (hd : IsSeparator d)
    (hline : ∀ e ∈ behind, ¬ IsEol e) (hne : behind.dropWhile isSpace ≠ [])
    (hlt : name.length + 1 < sizeofBuf) :
    scan search maxlen .two name pVal (d :: behind ++ rest) =
      scan search maxlen .four (name ++ nul :: behind.dropWhile isSpace) (name.length + 1)
        rest := by
  have hstored : (name ++ [nul]).length < sizeofBuf := by simpa using hlt
  rw [cons_append, scan, if_pos (by omega), if_pos hd, scan_three hstored, dropWhile_append,
    if_neg (by simpa using hne)]
  cases hvalue : behind.dropWhile isSpace with
  | nil => exact absurd hvalue hne
  | cons c cs =>
    have hcs : ∀ e ∈ cs, ¬ IsEol e := fun e he =>
      hline e ((dropWhile_sublist _).mem (hvalue ▸ mem_cons_of_mem c he))
    simp only [cons_append]
    rw [scan_four_append hcs]
    simp

theorem scan_bare (hlt : name.length < sizeofBuf) (hrest : ∀ c ∈ rest.head?, IsEol c) :
    scan search maxlen .two name pVal rest = scan search maxlen .one [] 0 rest.tail := by
  cases rest with
  | nil =>
    rw [scan, if_neg fun h => nomatch h.2]
    rfl
  | cons e rest =>
    have he := hrest e rfl
    have hnot : ¬ IsSeparator e := by
      rcases he with rfl | rfl <;> decide
    rw [scan, if_pos hlt, if_neg hnot, if_pos he]
    rfl

/-- A tidy line either settles the search or is left behind. -/
theorem scan_line (hline : ∀ c ∈ line, ¬ IsEol c) (htidy : Tidy line)
    (hrest : ∀ c ∈ rest.head?, IsEol c) :
    scan search maxlen .one [] 0 (line ++ rest) =
      match (entryOf line).bind fun e => (search e.1).map (·, e.2) with
      | some r => ⟨some (r.1, strncpy r.2 maxlen), false⟩
      | none => scan search maxlen .one [] 0 rest.tail := by
  have hskip : ∀ c ∈ line.takeWhile fun c => isSpace c && c ≠ ' ', isSpace c = true ∧ c ≠ ' ' := by
    intro c hc
    simpa using mem_takeWhile_imp hc
  nth_rewrite 1 [← takeWhile_append_dropWhile (p := fun c => isSpace c && c ≠ ' ') (l := line)]
  rw [append_assoc, scan_one_append hskip]
  cases hbegin : line.dropWhile fun c => isSpace c && c ≠ ' ' with
  | nil =>
    have hentry : entryOf line = none := by simp only [entryOf, parts, hbegin]
    rw [hentry]
    cases rest with
    | nil => rfl
    | cons c rest =>
      have hskip : ∀ d ∈ [c], isSpace d = true ∧ d ≠ ' ' := fun d hd =>
        isSpace_of_isEol (mem_singleton.mp hd ▸ hrest c rfl)
      exact scan_one_append hskip
  | cons c cs =>
    have hc : c = ' ' ∨ isSpace c = false := by
      have hhead := head?_dropWhile_not (fun c => isSpace c && c ≠ ' ') line
      rw [hbegin] at hhead
      by_cases hblank : c = ' '
      · exact .inl hblank
      · exact .inr (by simpa [hblank] using hhead)
    have hcs : ∀ e ∈ cs, ¬ IsEol e := fun e he =>
      hline e ((dropWhile_sublist _).mem (hbegin ▸ mem_cons_of_mem c he))
    rw [scan_name hc hcs]
    cases hsep : cs.dropWhile (¬ IsSeparator ·) with
    | nil =>
      have hparts : parts line = some (c :: cs.takeWhile (¬ IsSeparator ·), none) := by
        simp only [parts, hbegin, hsep]
      rw [nil_append, scan_bare (htidy _ hparts).1 hrest, entryOf, hparts]
      rfl
    | cons d behind =>
      have hparts : parts line = some (c :: cs.takeWhile (¬ IsSeparator ·),
          some (behind.dropWhile isSpace)) := by
        simp only [parts, hbegin, hsep]
      obtain ⟨hne, hlt, -⟩ := (htidy _ hparts).2 _ rfl
      have hd : IsSeparator d := by
        have hhead := head?_dropWhile_not (¬ IsSeparator ·) cs
        rw [hsep] at hhead
        simpa using hhead
      have hbehind : ∀ e ∈ behind, ¬ IsEol e := fun e he =>
        hcs e ((dropWhile_sublist _).mem (hsep ▸ mem_cons_of_mem d he))
      rw [scan_value hd hbehind hne (Nat.lt_of_le_of_lt (Nat.le_add_right _ _) hlt),
        scan_end hlt hrest, entryOf, hparts]
      cases hvalue : behind.dropWhile isSpace with
      | nil => exact absurd hvalue hne
      | cons v vs =>
        rw [Option.bind_some]
        cases search (cstr (c :: cs.takeWhile (¬ IsSeparator ·))) with
        | none => rfl
        | some s => rfl

theorem length_entryOf {e : Text × Text} (htidy : Tidy line) (he : entryOf line = some e) :
    nul ∉ e.2 ∧ e.2.length < 256 := by
  rw [entryOf] at he
  split at he
  · next hparts =>
    obtain rfl := Option.some.inj he
    refine ⟨fun hmem => ?_, ((htidy _ hparts).2 _ rfl).2.2⟩
    simpa using mem_takeWhile_imp hmem
  · cases he

theorem strncpy_spec {s : Text} {n : ℕ} (hs : nul ∉ s) (hlt : s.length < n) :
    cstr (strncpy s n) = s ∧ nul ∈ strncpy s n := by
  obtain ⟨k, hk⟩ := Nat.exists_eq_succ_of_ne_zero (Nat.sub_ne_zero_of_lt hlt)
  have hcopy : strncpy s n = s ++ nul :: List.replicate k nul := by
    rw [strncpy, take_of_length_le hlt.le, hk, replicate_succ]
  rw [hcopy, cstr_append_nul]
  refine ⟨takeWhile_eq_self_iff.mpr fun c hc => ?_, by simp⟩
  exact decide_eq_true fun h => hs (h ▸ hc)

/-- The first line settles the search, or the others do. -/
theorem finds_cons {ls : List Text} (hline : ∀ c ∈ line, ¬ IsEol c)
    (hrest : ∀ c ∈ rest.head?, IsEol c) (htidy : TidyUntil search (line :: ls))
    (hnext : TidyUntil search ls → Finds search (scan search 256 .one [] 0 rest.tail) ls) :
    Finds search (scan search 256 .one [] 0 (line ++ rest)) (line :: ls) := by
  obtain ⟨htidy, hls⟩ := htidy
  have hscan : scan search 256 .one [] 0 (line ++ rest) = _ := scan_line hline htidy hrest
  cases he : entryOf line with
  | none =>
    rw [hscan, he]
    have h := hnext (hls fun e hmem => nomatch he.symm.trans hmem)
    exact ⟨by rw [filterMap_cons_none he]; exact h.found, h.terminated⟩
  | some e =>
    obtain ⟨hnul, hlt⟩ := length_entryOf htidy he
    obtain ⟨hcstr, hmem⟩ := strncpy_spec hnul hlt
    cases hsearch : search e.1 with
    | none =>
      rw [hscan, he, Option.bind_some, hsearch]
      have h := hnext (hls fun e' he' => Option.some.inj (he.symm.trans he') ▸ hsearch)
      refine ⟨?_, h.terminated⟩
      rw [filterMap_cons_some he, findSome?_cons, hsearch]
      exact h.found
    | some s =>
      rw [hscan, he, Option.bind_some, hsearch]
      refine ⟨?_, ?_⟩
      · rw [filterMap_cons_some he, findSome?_cons, hsearch]
        simp [hcstr]
      · rintro x ⟨⟩
        exact hmem

theorem finds_lines (htidy : TidyUntil search (lines text)) :
    Finds search (scan search 256 .one [] 0 text) (lines text) := by
  -- the text behind the first line is shorter
  induction hn : text.length using Nat.strong_induction_on generalizing text with
  | _ n ih =>
    have hline : ∀ c ∈ text.takeWhile (¬ IsEol ·), ¬ IsEol c := fun c hc =>
      of_decide_eq_true (mem_takeWhile_imp (p := (¬ IsEol ·)) hc)
    have hplain : ∀ c ∈ text.takeWhile (¬ IsEol ·), decide (IsEol c) = false := fun c hc =>
      decide_eq_false (hline c hc)
    have hsplit := takeWhile_append_dropWhile (p := (¬ IsEol ·)) (l := text)
    have hhead := head?_dropWhile_not (¬ IsEol ·) text
    cases hrest : text.dropWhile (¬ IsEol ·) with
    | nil =>
      rw [hrest, append_nil] at hsplit
      rw [lines, ← hsplit, splitOnP_eq_singleton hplain] at htidy ⊢
      have hend : Finds search (scan search 256 .one [] 0 ([] : Text).tail) [] := ⟨rfl, nofun⟩
      have h := finds_cons hline (by simp) htidy fun _ => hend
      rwa [append_nil] at h
    | cons e rest =>
      rw [hrest] at hsplit hhead
      have he : IsEol e := by simpa using hhead
      have hlines := splitOnP_append_cons_of_forall_mem hplain e (decide_eq_true he) rest
      rw [lines, ← hsplit, hlines] at htidy ⊢
      refine finds_cons hline (by simpa using he) htidy fun h => ih rest.length ?_ h rfl
      rw [← hn, ← hsplit, length_append, length_cons]
      omega

end Loop

end Wbr1310.Httpd.AliasFile
