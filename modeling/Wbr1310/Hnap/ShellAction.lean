import Wbr1310.Lib.Bytes

/-!
# How the shell script of an action is run

`check_shell_action` of `hnap.c` reads a file of lines with the name of an action and a word that
says how its script is run. A line is collected in an array of 256 bytes without a test of the
index. The name begins with the line, and the rest of the line, up to a comment, is the word: white
space before the name or behind the word makes the line one of no action.
-/

namespace Wbr1310.Hnap

open Lib Bytes Buffer List

/-- `SHELL_ACTION`. -/
inductive ShellAction where
  | foreground
  | background
  deriving DecidableEq, Repr

/-- `action_str` in the row of an action. -/
def ShellAction.actionStr : ShellAction → Bytes
  | .foreground => ascii "FOREGROUND".toList
  | .background => ascii "BACKGROUND".toList

/-- The rows of `shell_action`. -/
def shellAction : List ShellAction := [.foreground, .background]

/-- How `check_shell_action` ends: it writes behind the array, or it returns an action, and the file
is open or closed then. -/
inductive ShellOutcome where
  | outside
  | returned (action : ShellAction) (isOpen : Bool)
  deriving DecidableEq, Repr

def newline : UInt8 := 10

def isascii (c : UInt8) : Bool := c < 128

def beginsComment (c : UInt8) : Bool := c = 39 || c = 35

/-- What a line says, if it is about the action: `pName` ends at the first white space, `pAction`
begins behind the white space, and both are strings. -/
def lineAction (pFileName str : Bytes) : Option ShellAction :=
  let pName := str.takeWhile (! isSpace ·)
  let behind := (str.dropWhile (! isSpace ·)).tail
  if cut pName ≠ [] ∧ cut pName = pFileName then
    let pAction := behind.dropWhile isSpace
    if pAction ≠ [] then
      shellAction.find? fun action => decide (EqIgnoreCase (cut pAction) action.actionStr)
    else none
  else none

/-- The loop, with `str[0..i]` as a list. -/
def checkShellActionFrom (pFileName : Bytes) : Bytes → Bytes → Bool → ShellOutcome
  | [], str, _ =>
    if 256 ≤ str.length then .outside
    else .returned ((lineAction pFileName str).getD .background) false
  | c :: file, str, comm =>
    if c = newline then
      if 256 ≤ str.length then .outside
      else match lineAction pFileName str with
        | some action => .returned action false
        | none => checkShellActionFrom pFileName file [] false
    else if comm then checkShellActionFrom pFileName file str comm
    else if str ≠ [] ∨ isascii c then
      if beginsComment c then checkShellActionFrom pFileName file str true
      else if 256 ≤ str.length then .outside
      else checkShellActionFrom pFileName file (str ++ [c]) comm
    else checkShellActionFrom pFileName file str comm

/-- `check_shell_action`, for a file that can be opened or not. -/
def checkShellAction (pFileName : Bytes) : Option Bytes → ShellOutcome
  | none => .returned .background false
  | some file => checkShellActionFrom pFileName file [] false

/-- What is looked at of a line: it begins with an ASCII character and ends before a comment. -/
def textOf (line : Bytes) : Bytes :=
  (line.dropWhile (! isascii ·)).takeWhile (! beginsComment ·)

/-- The text is the name, white space and a known action, in any case, up to the end. -/
def Assigns (name text : Bytes) (action : ShellAction) : Prop :=
  ∃ word space rest, text = word ++ (space ++ rest) ∧ (∀ c ∈ word, isSpace c = false) ∧
    space ≠ [] ∧ (∀ c ∈ space, isSpace c = true) ∧ (∀ c ∈ rest.head?, isSpace c = false) ∧
    (name ≠ [] ∧ cut word = name) ∧ rest ≠ [] ∧ EqIgnoreCase (cut rest) action.actionStr

theorem lineAction_append {word space rest : Bytes} (hword : ∀ c ∈ word, isSpace c = false)
    (hne : space ≠ []) (hspace : ∀ c ∈ space, isSpace c = true)
    (hrest : ∀ c ∈ rest.head?, isSpace c = false) :
    (word ++ (space ++ rest)).takeWhile (! isSpace ·) = word ∧
      ((word ++ (space ++ rest)).dropWhile (! isSpace ·)).tail.dropWhile isSpace = rest := by
  obtain ⟨s, spaces, rfl⟩ := exists_cons_of_ne_nil hne
  have hword' : ∀ c ∈ word, (! isSpace c) = true := fun c hc => by rw [hword c hc]; rfl
  have hs : isSpace s = true := hspace s mem_cons_self
  have hspaces : ∀ c ∈ spaces, isSpace c = true := fun c hc => hspace c (mem_cons_of_mem s hc)
  rw [takeWhile_append_of_pos hword', dropWhile_append_of_pos hword', cons_append,
    takeWhile_cons_of_neg (by simp [hs]), dropWhile_cons_of_neg (by simp [hs]),
    tail_cons, dropWhile_append_of_pos hspaces, append_nil]
  refine ⟨rfl, ?_⟩
  cases rest with
  | nil => rfl
  | cons c rest => rw [dropWhile_cons_of_neg (by simp [hrest c rfl])]

theorem find_shellAction {text : Bytes} {action : ShellAction} :
    shellAction.find? (fun action => decide (EqIgnoreCase text action.actionStr)) = some action ↔
      EqIgnoreCase text action.actionStr := by
  have hapart : ¬ EqIgnoreCase ShellAction.background.actionStr
      ShellAction.foreground.actionStr := by decide
  rw [shellAction, find?_cons]
  by_cases hfore : EqIgnoreCase text ShellAction.foreground.actionStr
  · have hback : ¬ EqIgnoreCase text ShellAction.background.actionStr := fun h =>
      hapart (Eq.trans (Eq.symm h) hfore)
    cases action <;> simp [hfore, hback]
  · by_cases hback : EqIgnoreCase text ShellAction.background.actionStr <;> cases action <;>
      simp [hfore, hback]

theorem lineAction_iff {name text : Bytes} {action : ShellAction} :
    lineAction name text = some action ↔ Assigns name text action := by
  constructor
  · intro h
    simp only [lineAction] at h
    split_ifs at h with hname hne
    have hparts : text = text.takeWhile (! isSpace ·) ++ text.dropWhile (! isSpace ·) :=
      takeWhile_append_dropWhile.symm
    have hword : ∀ c ∈ text.takeWhile (! isSpace ·), isSpace c = false := fun c hc => by
      simpa using mem_takeWhile_imp hc
    cases hbehind : text.dropWhile (! isSpace ·) with
    | nil =>
      rw [hbehind] at hne
      exact absurd rfl hne
    | cons s behind =>
      have hs : isSpace s = true := by
        have hhead := head_dropWhile_not (! isSpace ·)
          (hbehind ▸ cons_ne_nil s behind)
        simpa [hbehind] using hhead
      rw [hbehind, tail_cons] at hne h
      refine ⟨_, s :: behind.takeWhile isSpace, behind.dropWhile isSpace, ?_, hword,
        cons_ne_nil _ _, ?_, ?_, ⟨hname.2 ▸ hname.1, hname.2⟩, hne, find_shellAction.mp h⟩
      · rw [cons_append, takeWhile_append_dropWhile, ← hbehind]
        exact hparts
      · intro c hc
        rcases mem_cons.mp hc with rfl | hc
        · exact hs
        · exact mem_takeWhile_imp hc
      · intro c hc
        have hhead := head_dropWhile_not isSpace hne
        rw [head?_eq_some_head hne] at hc
        exact Option.some.inj hc ▸ hhead
  · rintro ⟨word, space, rest, rfl, hword, hne, hspace, hrest, hname, hrest', haction⟩
    obtain ⟨htake, hdrop⟩ := lineAction_append hword hne hspace hrest
    simp only [lineAction, htake, hdrop, hname.2]
    rw [if_pos ⟨hname.1, trivial⟩, if_pos hrest']
    exact find_shellAction.mpr haction

section Loop

variable (name : Bytes) {rest : Bytes} (hrest : rest = [] ∨ ∃ file, rest = newline :: file)
include hrest

theorem checkShellActionFrom_comment {line : Bytes} (hline : newline ∉ line) (str : Bytes) :
    checkShellActionFrom name (line ++ rest) str true =
      checkShellActionFrom name rest str false := by
  induction line with
  | nil =>
    rcases hrest with rfl | ⟨file, rfl⟩
    · rfl
    · simp [checkShellActionFrom]
  | cons c line ih =>
    have hc : c ≠ newline := fun e => hline (e ▸ mem_cons_self)
    rw [cons_append, checkShellActionFrom, if_neg hc, if_pos rfl]
    exact ih fun h => hline (mem_cons_of_mem c h)

theorem checkShellActionFrom_text {line : Bytes} (hline : newline ∉ line) {str : Bytes}
    (hstr : str ≠ []) (hshort : (str ++ line.takeWhile (! beginsComment ·)).length < 256) :
    checkShellActionFrom name (line ++ rest) str false =
      checkShellActionFrom name rest (str ++ line.takeWhile (! beginsComment ·)) false := by
  induction line generalizing str with
  | nil => rw [nil_append, takeWhile_nil, append_nil]
  | cons c line ih =>
    have hc : c ≠ newline := fun e => hline (e ▸ mem_cons_self)
    have hline' : newline ∉ line := fun h => hline (mem_cons_of_mem c h)
    rw [cons_append, checkShellActionFrom, if_neg hc, if_neg Bool.false_ne_true,
      if_pos (.inl hstr)]
    by_cases hcomment : beginsComment c = true
    · rw [if_pos hcomment, checkShellActionFrom_comment name hrest hline',
        takeWhile_cons_of_neg (by simp [hcomment]), append_nil]
    · rw [takeWhile_cons_of_pos (by simp [hcomment])] at hshort ⊢
      rw [append_cons] at hshort
      have hroom : ¬ 256 ≤ str.length := by
        simp only [length_append] at hshort
        omega
      rw [if_neg hcomment, if_neg hroom, append_cons str c (takeWhile _ line)]
      exact ih hline' (by simp) hshort

theorem checkShellActionFrom_line {line : Bytes} (hline : newline ∉ line)
    (hshort : (textOf line).length < 256) :
    checkShellActionFrom name (line ++ rest) [] false =
      checkShellActionFrom name rest (textOf line) false := by
  induction line with
  | nil => rfl
  | cons c line ih =>
    have hc : c ≠ newline := fun e => hline (e ▸ mem_cons_self)
    have hline' : newline ∉ line := fun h => hline (mem_cons_of_mem c h)
    rw [cons_append, checkShellActionFrom, if_neg hc, if_neg Bool.false_ne_true]
    by_cases hascii : isascii c = true
    · rw [textOf, dropWhile_cons_of_neg (by simp [hascii])] at hshort ⊢
      rw [if_pos (.inr hascii)]
      by_cases hcomment : beginsComment c = true
      · rw [if_pos hcomment, checkShellActionFrom_comment name hrest hline',
          takeWhile_cons_of_neg (by simp [hcomment])]
      · rw [takeWhile_cons_of_pos (by simp [hcomment])] at hshort ⊢
        rw [if_neg hcomment, if_neg (by simp)]
        exact checkShellActionFrom_text name hrest hline' (by simp) hshort
    · rw [textOf, dropWhile_cons_of_pos (by simp [hascii])] at hshort ⊢
      rw [if_neg (by simp [hascii])]
      exact ih hline' hshort

end Loop

/-- The action of the first line that assigns one to the name, and else `SA_BACKGROUND`. -/
def Looked (name file : Bytes) (action : ShellAction) : Prop :=
  (∃ before line after, file.splitOn newline = before ++ line :: after ∧
      Assigns name (textOf line) action ∧
      ∀ line' ∈ before, ∀ action', ¬ Assigns name (textOf line') action') ∨
    (∀ line ∈ file.splitOn newline, ∀ action', ¬ Assigns name (textOf line) action') ∧
      action = .background

theorem looked_findSome {name file : Bytes} :
    Looked name file (((file.splitOn newline).findSome? (lineAction name <| textOf ·)).getD
      .background) := by
  have hnone : ∀ line, lineAction name (textOf line) = none →
      ∀ action, ¬ Assigns name (textOf line) action := by
    intro line h action hassigns
    rw [lineAction_iff.mpr hassigns] at h
    cases h
  cases h : (file.splitOn newline).findSome? (lineAction name <| textOf ·) with
  | none =>
    right
    exact ⟨fun line hline => hnone line (findSome?_eq_none_iff.mp h line hline), rfl⟩
  | some action =>
    left
    obtain ⟨before, line, after, hlines, hline, hbefore⟩ := findSome?_eq_some_iff.mp h
    exact ⟨before, line, after, hlines, lineAction_iff.mp hline, fun line' hline' =>
      hnone line' (hbefore line' hline')⟩

theorem checkShellActionFrom_eq (name : Bytes) {file : Bytes}
    (hshort : ∀ line ∈ file.splitOn newline, (textOf line).length < 256) :
    checkShellActionFrom name file [] false = .returned
      (((file.splitOn newline).findSome? (lineAction name <| textOf ·)).getD .background)
        false := by
  induction hn : file.length using Nat.strong_induction_on generalizing file with
  | _ n ih =>
    by_cases hmem : newline ∈ file
    · -- the first line and the rest
      obtain ⟨line, rest, rfl, hline⟩ := eq_append_cons_of_mem hmem
      rw [splitOn_append_cons_self_of_not_mem hline] at hshort ⊢
      have hfirst := hshort line mem_cons_self
      rw [checkShellActionFrom_line name (.inr ⟨rest, rfl⟩) hline hfirst, checkShellActionFrom,
        if_pos rfl, if_neg (Nat.not_le.mpr hfirst), findSome?_cons]
      cases lineAction name (textOf line) with
      | some action => rfl
      | none =>
        have hlt : rest.length < n := by
          rw [← hn, length_append, length_cons]
          omega
        exact ih rest.length hlt (fun l hl => hshort l (mem_cons_of_mem line hl)) rfl
    · rw [splitOn_eq_singleton hmem] at hshort ⊢
      have hfirst := hshort file mem_cons_self
      have hline := checkShellActionFrom_line name (.inl rfl) hmem hfirst
      rw [append_nil] at hline
      rw [hline, checkShellActionFrom, if_neg (Nat.not_le.mpr hfirst), findSome?_singleton]

/-- A file whose lines fit in the array is looked up line by line, and is closed afterwards. -/
theorem checkShellAction_looked (name : Bytes) (file : Option Bytes)
    (hshort : ∀ line ∈ (file.getD []).splitOn newline, (textOf line).length < 256) :
    ∃ action, checkShellAction name file = .returned action false ∧
      Looked name (file.getD []) action := by
  refine ⟨_, ?_, looked_findSome⟩
  cases file with
  | none => simp [checkShellAction, lineAction, textOf, cut]
  | some file => exact checkShellActionFrom_eq name hshort

/-- A comment, another name and an unknown word are passed over. -/
theorem checkShellAction_looked_second :
    let file := ascii "# a comment\nb FOREGROUND\na sometimes\na  Foreground#now".toList
    checkShellAction (ascii "a".toList) (some file) = .returned .foreground false ∧
      ∃ action, checkShellAction (ascii "a".toList) (some file) = .returned action false ∧
        Looked (ascii "a".toList) file action := by
  intro file
  exact ⟨by decide +kernel, checkShellAction_looked _ (some file) (by decide +kernel)⟩

/-- White space before the name or behind the word hides the line, and a line of 256 characters is
written behind the array. -/
theorem checkShellAction_spaces :
    checkShellAction (ascii "a".toList) (some (ascii " a FOREGROUND".toList)) =
        .returned .background false ∧
      checkShellAction (ascii "a".toList) (some (ascii "a FOREGROUND\r\n".toList)) =
        .returned .background false ∧
      checkShellAction (ascii "a".toList) (some (List.replicate 256 98)) = .outside := by
  decide +kernel

end Wbr1310.Hnap
