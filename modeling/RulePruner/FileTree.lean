import RulePruner.Fault
import RulePruner.Text.Encoding

/-!
File trees: the files and directories below a working directory, reading and writing them by
path, and the refusals that paths, read-only files and size limits cause. Outside the working
directory a tree has nothing but the directories on the way to it.
-/

namespace RulePruner

/-- The names that lead from a directory to a file or a directory below it. -/
abbrev Location := List Text

/-- Where a path can lead. -/
inductive Place where
  /-- A location below the working directory. -/
  | inside (location : Location)
  /-- A directory above the working directory, by the names that lead there from the root. -/
  | outside (location : Location)
  deriving DecidableEq, Repr

namespace Place

/-- The place that names lead to from the root, where `base` leads to the working directory. -/
def ofNames (base names : Location) : Except Fault Place :=
  if base <+: names then .ok (.inside (names.drop base.length))
  else if names <+: base then .ok (.outside names)
  else .error .notFound

/-- The names that lead to a place from the root. -/
def names (base : Location) : Place → Location
  | inside location => base ++ location
  | outside location => location

end Place

/-- What stands at a location. -/
inductive Entry where
  | file (content : Bytes)
  | directory
  deriving DecidableEq, Repr

/-- The files and directories below a working directory. -/
structure FileTree where
  entries : List (Location × Entry) := []
  /-- The names that lead from the root to the working directory. A name that is not known is
  empty, as no path spells the empty name. -/
  base : Location := [[]]
  /-- The locations of files that cannot be written, with the refusal of a write. -/
  readOnly : List (Location × Fault) := []
  deriving DecidableEq, Repr

namespace FileTree

/-- What stands at a location; the working directory itself always does. -/
def get? (tree : FileTree) : Location → Option Entry
  | [] => some .directory
  | location => tree.entries.lookup location

/-- What stands at a place. Outside is nothing but the directories above. -/
def standing? (tree : FileTree) : Place → Option Entry
  | .inside location => tree.get? location
  | .outside _ => some .directory

/-- Goes on from a place by one name of a path, which takes a directory to go on from. Above the
root is the root. -/
def step (tree : FileTree) (place : Place) (name : Text) : Except Fault Place :=
  match tree.standing? place with
  | none => .error .notFound
  | some (.file _) => .error .notDirectory
  | some .directory =>
    if name = [] ∨ name = ['.'] then .ok place
    else if name = ['.', '.'] then Place.ofNames tree.base (place.names tree.base).dropLast
    else Place.ofNames tree.base (place.names tree.base ++ [name])

/-- The place that a path leads to. Something stands at every place it passes, but perhaps not at
the last one. A path that opens with a slash starts at the root. -/
def locate (tree : FileTree) (path : Text) : Except Fault Place :=
  match path with
  | [] => .error .notFound
  | '/' :: path => do (path.splitOn '/').foldlM tree.step (← Place.ofNames tree.base [])
  | path => (path.splitOn '/').foldlM tree.step (.inside [])

/-- Puts an entry at a location, in place of what stands there. -/
def set (location : Location) (entry : Entry) (tree : FileTree) : FileTree :=
  { tree with
    entries := (location, entry) :: tree.entries.filter fun placed => placed.1 ≠ location }

/-- The content of a file. -/
def read (tree : FileTree) (path : Text) : Except Fault Bytes := do
  let place ← tree.locate path
  match tree.standing? place with
  | some (.file content) => .ok content
  | some .directory => .error .isDirectory
  | none => .error .notFound

/-- Why the file that a path leads to cannot be written, if it is read-only. -/
def barred? (tree : FileTree) (path : Text) : Option Fault :=
  match tree.locate path with
  | .ok (.inside location) => tree.readOnly.lookup location
  | _ => none

/-- Gives a file new content. A file that is read-only stays as it is. Where files can only grow to
a limit, the file ends up with as much of the content as fits. -/
def write (limit : Option Nat) (path : Text) (content : Bytes) (tree : FileTree) :
    FileTree × Option Fault :=
  match tree.locate path with
  | .error fault => (tree, some fault)
  | .ok (.outside _) => (tree, some .isDirectory)
  | .ok (.inside location) =>
    match tree.get? location, tree.barred? path, limit with
    | some .directory, _, _ => (tree, some .isDirectory)
    | _, some fault, _ => (tree, some fault)
    | _, none, none => (tree.set location (.file content), none)
    | _, none, some limit =>
      (tree.set location (.file (content.take limit)),
        if content.length ≤ limit then none else some .fileTooLarge)

/-- Deletes a file, and with it what kept it from being written. -/
def delete (path : Text) (tree : FileTree) : Except Fault FileTree := do
  match ← tree.locate path with
  | .outside _ => .error .isDirectory
  | .inside location =>
    match tree.get? location with
    | some (.file _) =>
      .ok { tree with
        entries := tree.entries.filter fun placed => placed.1 ≠ location
        readOnly := tree.readOnly.filter fun barred => barred.1 ≠ location }
    | some .directory => .error .isDirectory
    | none => .error .notFound

/-- Puts an entry at a location, with directories on the way to it. -/
def place (location : Location) (entry : Entry) (tree : FileTree) : FileTree :=
  let parents := (List.range location.length).drop 1
  let withParents := parents.foldl (fun tree depth =>
    match tree.get? (location.take depth) with
    | some .directory => tree
    | _ => tree.set (location.take depth) .directory) tree
  withParents.set location entry

@[simp] theorem base_set (location : Location) (entry : Entry) (tree : FileTree) :
    (tree.set location entry).base = tree.base := rfl

@[simp] theorem readOnly_set (location : Location) (entry : Entry) (tree : FileTree) :
    (tree.set location entry).readOnly = tree.readOnly := rfl

theorem get?_set_self {location : Location} (proper : location ≠ []) (entry : Entry)
    (tree : FileTree) : (tree.set location entry).get? location = some entry := by
  cases location with
  | nil => exact absurd rfl proper
  | cons name names => simp [get?, set]

/-- What is put at one location leaves the others as they are. -/
theorem get?_set_of_ne {location other : Location} (different : other ≠ location)
    (entry : Entry) (tree : FileTree) :
    (tree.set location entry).get? other = tree.get? other := by
  cases other with
  | nil => rfl
  | cons name names =>
    simp only [get?, set, List.lookup_cons, beq_false_of_ne different]
    induction tree.entries with
    | nil => rfl
    | cons placed rest ih =>
      obtain ⟨key, value⟩ := placed
      by_cases same : key = location
      · have apart : (name :: names == key) = false := by
          rw [same]
          exact beq_false_of_ne different
        rw [List.filter_cons_of_neg (by simpa using same), ih, List.lookup_cons, apart]
      · rw [List.filter_cons_of_pos (by simpa using same), List.lookup_cons, List.lookup_cons, ih]

end FileTree

end RulePruner
