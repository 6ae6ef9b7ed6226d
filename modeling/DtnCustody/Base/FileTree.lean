/-
# DtnCustody.Base.FileTree — directories and files, by the names on the way to them.

A tree says what is at a path: nothing, a directory, or a file with its contents. `makeDirs` makes a
directory and those above it, `writeFile` puts a file into a directory that is there. Either fails where
something of the other kind is in the way or a name is not one that the file system takes. Both leave
every other path as it is (`makeDirs_of_parents`, `writeFile_of_parent`).

What names and contents are is left open.
-/
import Mathlib.Data.List.Infix
import Mathlib.Logic.Function.Basic

namespace DtnCustody.Base.FileTree

variable {ν β : Type} [DecidableEq ν]

inductive Item (β : Type) where
  | dir
  | file (contents : β)

/-- What is at each path; the empty path is the root. -/
abbrev Tree (ν β : Type) := List ν → Option (Item β)

inductive Fault where
  /-- A name that the file system does not take. -/
  | name
  /-- A file where a directory is to be made. -/
  | exists
  /-- A directory where a file is to be written. -/
  | isDirectory
  /-- No directory to write into. -/
  | noDirectory
  deriving DecidableEq

/-- The directory at a path whose parent is there. -/
def makeDir (takes : ν → Bool) (t : Tree ν β) (path : List ν) : Except Fault (Tree ν β) :=
  match t path with
  | some .dir => .ok t
  | some (.file _) => .error .exists
  | none => if path.all takes then .ok (Function.update t path (some .dir)) else .error .name

/-- The directory at a path, and all above it. -/
def makeDirs (takes : ν → Bool) (t : Tree ν β) (path : List ν) : Except Fault (Tree ν β) :=
  path.inits.foldlM (makeDir takes) t

def writeFile (takes : ν → Bool) (t : Tree ν β) (path : List ν) (contents : β) :
    Except Fault (Tree ν β) :=
  match t path with
  | some .dir => .error .isDirectory
  | _ =>
      if path.all takes = false then .error .name
      else match t path.dropLast with
        | some .dir => .ok (Function.update t path (some (.file contents)))
        | _ => .error .noDirectory

variable {takes : ν → Bool} {t : Tree ν β}

theorem makeDir_of_dir {path : List ν} (h : t path = some .dir) : makeDir takes t path = .ok t := by
  rw [makeDir, h]

/-- A directory in a path that has no file at it is made, or is there. -/
theorem makeDir_of_free {path : List ν} (hfree : ∀ contents, t path ≠ some (.file contents))
    (htakes : path.all takes = true) :
    makeDir takes t path = .ok (Function.update t path (some .dir)) := by
  rw [makeDir]
  cases h : t path with
  | none => exact if_pos htakes
  | some item =>
      cases item with
      | file contents => exact absurd h (hfree contents)
      | dir =>
          dsimp only
          rw [← h, Function.update_eq_self]

theorem foldlM_makeDir_of_dirs {paths : List (List ν)} (h : ∀ p ∈ paths, t p = some .dir) :
    paths.foldlM (makeDir takes) t = .ok t := by
  induction paths with
  | nil => rfl
  | cons p paths ih =>
      rw [List.forall_mem_cons] at h
      rw [List.foldlM_cons, makeDir_of_dir h.1]
      exact ih h.2

/-- **A directory is made** where all above it are there. -/
theorem makeDirs_of_parents {path : List ν} {name : ν} (hparents : ∀ p ∈ path.inits, t p = some .dir)
    (hfree : ∀ contents, t (path ++ [name]) ≠ some (.file contents))
    (htakes : (path ++ [name]).all takes = true) :
    makeDirs takes t (path ++ [name]) = .ok (Function.update t (path ++ [name]) (some .dir)) := by
  rw [makeDirs, List.inits_append, List.foldlM_append, foldlM_makeDir_of_dirs hparents]
  show (do let t ← makeDir takes t (path ++ [name]); _) = _
  rw [makeDir_of_free hfree htakes]
  rfl

/-- **A file is written** into a directory that is there, over what file there was. -/
theorem writeFile_of_parent {path : List ν} {name : ν} (hparent : t path = some .dir)
    (hfree : t (path ++ [name]) ≠ some .dir) (htakes : (path ++ [name]).all takes = true)
    (contents : β) : writeFile takes t (path ++ [name]) contents =
      .ok (Function.update t (path ++ [name]) (some (.file contents))) := by
  have hdir : t (path ++ [name]).dropLast = some .dir := by
    rw [List.dropLast_concat]
    exact hparent
  rw [writeFile]
  cases h : t (path ++ [name]) with
  | none =>
      dsimp only
      rw [if_neg (by rw [htakes]; simp), hdir]
  | some item =>
      cases item with
      | dir => exact absurd h hfree
      | file old =>
          dsimp only
          rw [if_neg (by rw [htakes]; simp), hdir]

end DtnCustody.Base.FileTree
