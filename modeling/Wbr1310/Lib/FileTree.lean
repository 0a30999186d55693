import Mathlib

/-!
# Trees of files

A directory has files and directories under names, which are kept apart. A file is named by the
directories on the way and its own name. Every operation is described by what is read
afterwards.
-/

namespace Wbr1310.Lib

open Function

/-- A directory with the contents of its files. -/
inductive Dir (N C : Type) where
  | mk (files : N → Option C) (dirs : N → Option (Dir N C))

namespace Dir

variable {N C : Type}

/-- The files of a directory. -/
def files : Dir N C → N → Option C
  | mk files _ => files

/-- The directories below a directory. -/
def dirs : Dir N C → N → Option (Dir N C)
  | mk _ dirs => dirs

@[simp]
theorem files_mk (files : N → Option C) (dirs : N → Option (Dir N C)) :
    (mk files dirs).files = files := rfl

@[simp]
theorem dirs_mk (files : N → Option C) (dirs : N → Option (Dir N C)) :
    (mk files dirs).dirs = dirs := rfl

/-- A directory with nothing in it. -/
def empty : Dir N C := mk (fun _ => none) fun _ => none

/-- The contents of a file. -/
def read (d : Dir N C) : List N → N → Option C
  | [], name => d.files name
  | x :: path, name => match d.dirs x with
    | some below => below.read path name
    | none => none

mutual

/-- All files below the directory are removed, and the directories stay. -/
def clear : Dir N C → Dir N C
  | mk _ dirs => mk (fun _ => none) fun x => clearEntry (dirs x)

/-- A directory that may be there. -/
def clearEntry : Option (Dir N C) → Option (Dir N C)
  | some d => some (clear d)
  | none => none

end

variable (d : Dir N C) (path : List N) (name : N)

theorem read_empty : (empty : Dir N C).read path name = none := by
  cases path with
  | nil => rfl
  | cons x path => rfl

theorem read_clear : d.clear.read path name = none := by
  induction path generalizing d with
  | nil =>
    cases d with
    | mk files dirs => rw [clear, read, files_mk]
  | cons x path ih =>
    cases d with
    | mk files dirs =>
      rw [clear, read, dirs_mk]
      cases dirs x with
      | none => rw [clearEntry]
      | some below =>
        rw [clearEntry]
        exact ih below

variable [DecidableEq N]

/-- Give a file new contents; directories that are missing are made. -/
def write (d : Dir N C) : List N → N → C → Dir N C
  | [], name, c => mk (Function.update d.files name (some c)) d.dirs
  | x :: path, name, c =>
    mk d.files (Function.update d.dirs x (some (((d.dirs x).getD empty).write path name c)))

/-- Change the directory at a path, if it is there. -/
def modify (f : Dir N C → Dir N C) (d : Dir N C) : List N → Dir N C
  | [] => f d
  | x :: path => match d.dirs x with
    | some below => mk d.files (Function.update d.dirs x (some (below.modify f path)))
    | none => d

/-- Remove a file, if it is there. -/
def remove (d : Dir N C) (path : List N) (name : N) : Dir N C :=
  d.modify (fun d => mk (Function.update d.files name none) d.dirs) path

/-- Remove all files below the directory at a path. -/
def clearAt (d : Dir N C) (path : List N) : Dir N C := d.modify clear path

theorem read_write (c : C) (path' : List N) (name' : N) :
    (d.write path name c).read path' name' =
      if path' = path ∧ name' = name then some c else d.read path' name' := by
  induction path generalizing d path' with
  | nil =>
    cases path' with
    | nil => simp [write, read, update_apply]
    | cons x' path' => simp [write, read]
  | cons x path ih =>
    cases path' with
    | nil => simp [write, read]
    | cons x' path' =>
      simp only [write, read, dirs_mk, List.cons.injEq]
      by_cases hx : x' = x
      · subst hx
        rw [update_self]
        simp only [true_and, ih]
        cases d.dirs x' with
        | none => rw [Option.getD_none, read_empty]
        | some below => rfl
      · rw [update_of_ne hx, if_neg fun h => hx h.1.1]

theorem read_modify_append {f : Dir N C → Dir N C} {p : List N → N → Bool}
    (hf : ∀ d rest name, (f d).read rest name = if p rest name then none else d.read rest name)
    (d : Dir N C) (path rest : List N) (name : N) :
    (d.modify f path).read (path ++ rest) name =
      if p rest name then none else d.read (path ++ rest) name := by
  induction path generalizing d with
  | nil => exact hf d rest name
  | cons x path ih =>
    rw [modify, List.cons_append]
    cases hx : d.dirs x with
    | none =>
      have hnone : d.read (x :: (path ++ rest)) name = none := by rw [read, hx]
      rw [hnone, ite_self]
    | some below =>
      simp only [read, dirs_mk, update_self, hx]
      exact ih below

theorem read_modify_of_not_prefix (f : Dir N C → Dir N C) (d : Dir N C) {path path' : List N}
    (h : ¬ path <+: path') (name : N) : (d.modify f path).read path' name = d.read path' name := by
  induction path generalizing d path' with
  | nil => exact absurd List.nil_prefix h
  | cons x path ih =>
    rw [modify]
    cases hx : d.dirs x with
    | none => rfl
    | some below =>
      cases path' with
      | nil => rfl
      | cons x' path' =>
        simp only [read, dirs_mk]
        by_cases hxx : x' = x
        · subst hxx
          rw [update_self, hx]
          exact ih below fun hpre => h (List.cons_prefix_cons.mpr ⟨rfl, hpre⟩)
        · rw [update_of_ne hxx]

theorem read_remove (path' : List N) (name' : N) :
    (d.remove path name).read path' name' =
      if path' = path ∧ name' = name then none else d.read path' name' := by
  by_cases hpre : path <+: path'
  · obtain ⟨rest, rfl⟩ := hpre
    rw [remove, read_modify_append (p := fun rest name' => decide (rest = [] ∧ name' = name))]
    · simp
    · intro d rest name'
      cases rest with
      | nil => simp [read, update_apply]
      | cons x rest => simp [read]
  · rw [remove, read_modify_of_not_prefix _ d hpre, if_neg]
    rintro ⟨rfl, -⟩
    exact hpre (List.prefix_refl _)

theorem read_clearAt (path' : List N) (name : N) :
    (d.clearAt path).read path' name = if path <+: path' then none else d.read path' name := by
  split
  · next hpre =>
    obtain ⟨rest, rfl⟩ := hpre
    rw [clearAt, read_modify_append (p := fun _ _ => true)]
    · rfl
    · exact fun d rest name => read_clear d rest name
  · next hpre => exact read_modify_of_not_prefix _ d hpre name

end Dir

end Wbr1310.Lib
