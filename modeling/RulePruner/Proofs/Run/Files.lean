import Mathlib.Tactic.ByContra
import RulePruner.FileTree

/-!
# Writing to a file that is there

Where a path leads to a file, the file can be given new content unless it is read-only, and nothing
else changes: every path leads where it led before, and what stands elsewhere is what stood there
(`FileTree.Frame`). The file holds the new content, or as much of it as the limit of files allows
(`FileTree.write_of_read`).
-/

namespace RulePruner.FileTree

variable {tree after : FileTree} {path : Text} {location : Location} {old content : Bytes}
  {limit : Option Nat}

theorem read_eq_ok_iff :
    tree.read path = .ok content ↔
      ∃ location, tree.locate path = .ok (.inside location) ∧
        tree.get? location = some (.file content) := by
  simp only [read, bind, Except.bind]
  cases tree.locate path with
  | error fault => simp
  | ok target =>
    cases target with
    | outside above => simp [standing?]
    | inside location =>
      simp only [standing?, Except.ok.injEq, Place.inside.injEq, exists_eq_left']
      cases tree.get? location with
      | none => simp
      | some entry => cases entry <;> simp

/-- Paths that lead to one place read alike. -/
theorem read_congr {other : Text} (same : tree.locate other = tree.locate path) :
    tree.read other = tree.read path := by
  rw [read, read, same]

/-- Nothing differs between two trees but what stands at the place that `path` leads to. -/
structure Frame (path : Text) (tree after : FileTree) : Prop where
  base : after.base = tree.base
  readOnly : after.readOnly = tree.readOnly
  locate : ∀ other, after.locate other = tree.locate other
  standing? : ∀ place, tree.locate path ≠ .ok place → after.standing? place = tree.standing? place

namespace Frame

theorem refl (path : Text) (tree : FileTree) : Frame path tree tree :=
  ⟨rfl, rfl, fun _ => rfl, fun _ _ => rfl⟩

/-- A path that leads elsewhere reads as before. -/
theorem read {other : Text} (frame : Frame path tree after)
    (apart : tree.locate other ≠ tree.locate path) : after.read other = tree.read other := by
  simp only [FileTree.read, bind, Except.bind, frame.locate]
  cases target : tree.locate other with
  | error fault => rfl
  | ok place =>
    have elsewhere : tree.locate path ≠ .ok place := fun same => apart (target.trans same.symm)
    simp only [frame.standing? place elsewhere]

theorem barred? (frame : Frame path tree after) (other : Text) :
    after.barred? other = tree.barred? other := by
  rw [FileTree.barred?, FileTree.barred?, frame.locate, frame.readOnly]

end Frame

theorem ne_nil_of_file (standing : tree.get? location = some (.file old)) : location ≠ [] := by
  rintro rfl
  simp [get?] at standing

/-- What a path leads to is told from where directories and files stand, not from what they hold. -/
theorem locate_set {new : Bytes} (standing : tree.get? location = some (.file old))
    (path : Text) : (tree.set location (.file new)).locate path = tree.locate path := by
  have step : (tree.set location (.file new)).step = tree.step := by
    funext place name
    cases place with
    | outside above => rfl
    | inside other =>
      by_cases same : other = location
      · subst same
        simp [FileTree.step, standing?, standing, get?_set_self (ne_nil_of_file standing)]
      · simp [FileTree.step, standing?, get?_set_of_ne same]
  simp only [locate, step, base_set]

theorem frame_set (leads : tree.locate path = .ok (.inside location))
    (standing : tree.get? location = some (.file old)) (new : Bytes) :
    Frame path tree (tree.set location (.file new)) where
  base := base_set location _ tree
  readOnly := readOnly_set location _ tree
  locate := locate_set standing
  standing? := by
    intro place elsewhere
    cases place with
    | outside above => rfl
    | inside other =>
      have different : other ≠ location := by
        rintro rfl
        exact elsewhere leads
      exact get?_set_of_ne different _ tree

/-- As much of a content as fits within a limit. -/
def clip (limit : Option Nat) (content : Bytes) : Bytes :=
  match limit with
  | none => content
  | some bound => content.take bound

/-- Whether a content fits within a limit as a whole. -/
def Fits (limit : Option Nat) (content : Bytes) : Prop := ∀ bound ∈ limit, content.length ≤ bound

instance (limit : Option Nat) (content : Bytes) : Decidable (Fits limit content) :=
  inferInstanceAs (Decidable (∀ bound ∈ limit, content.length ≤ bound))

theorem fits_nil (limit : Option Nat) : Fits limit [] := fun bound _ => Nat.zero_le bound

theorem Fits.clip_eq (fits : Fits limit content) : clip limit content = content := by
  cases limit with
  | none => rfl
  | some bound => exact List.take_of_length_le (fits bound rfl)

theorem exists_of_not_fits (exceeds : ¬ Fits limit content) :
    ∃ bound, limit = some bound ∧ bound < content.length := by
  cases limit with
  | none => simp [Fits] at exceeds
  | some bound => exact ⟨bound, rfl, by simpa [Fits] using exceeds⟩

theorem Fits.of_append {more : Bytes} (fits : Fits limit (content ++ more)) :
    Fits limit content := by
  intro bound given
  have whole := fits bound given
  rw [List.length_append] at whole
  omega

/-- A content that does not fit leaves no room for more. -/
theorem clip_append_of_not_fits (exceeds : ¬ Fits limit content) (more : Bytes) :
    clip limit (content ++ more) = clip limit content := by
  obtain ⟨bound, rfl, beyond⟩ := exists_of_not_fits exceeds
  exact List.take_append_of_le_length (Nat.le_of_lt beyond)

/-- Why a file that is there does not take a content: it is read-only, or the content exceeds the
limit. -/
def refusal? (limit : Option Nat) (path : Text) (content : Bytes) (tree : FileTree) :
    Option Fault :=
  (tree.barred? path).or (if Fits limit content then none else some .fileTooLarge)

theorem refusal?_eq_none_iff :
    tree.refusal? limit path content = none ↔ tree.barred? path = none ∧ Fits limit content := by
  simp [refusal?]

/-- A file that is read-only stays as it is. -/
theorem write_of_barred {fault : Fault} (readable : tree.read path = .ok old)
    (barred : tree.barred? path = some fault) (limit : Option Nat) (content : Bytes) :
    tree.write limit path content = (tree, some fault) := by
  obtain ⟨location, leads, standing⟩ := read_eq_ok_iff.mp readable
  simp only [write, leads, standing, barred]

/-- Writing to a file that is there, and is not read-only, is refused only if the content exceeds
the limit. -/
theorem write_eq (leads : tree.locate path = .ok (.inside location))
    (standing : tree.get? location = some (.file old)) (unbarred : tree.barred? path = none) :
    tree.write limit path content = (tree.set location (.file (clip limit content)),
      if Fits limit content then none else some .fileTooLarge) := by
  unfold write
  rw [leads]
  cases limit <;> simp [standing, unbarred, clip, Fits]

/-- What a write to a file that is there does, unless the file is read-only. -/
theorem write_of_read (readable : tree.read path = .ok old) (unbarred : tree.barred? path = none)
    (limit : Option Nat) (content : Bytes) :
    ∃ after, tree.write limit path content =
        (after, if Fits limit content then none else some .fileTooLarge) ∧
      Frame path tree after ∧ after.read path = .ok (clip limit content) := by
  obtain ⟨location, leads, standing⟩ := read_eq_ok_iff.mp readable
  have frame := frame_set leads standing (clip limit content)
  refine ⟨_, write_eq leads standing unbarred, frame, read_eq_ok_iff.mpr ⟨location, ?_, ?_⟩⟩
  · rw [frame.locate, leads]
  · exact get?_set_self (ne_nil_of_file standing) _ tree

/-- Whether a file that is there takes a content is told without its old content. -/
theorem write_refusal (readable : tree.read path = .ok old) (limit : Option Nat)
    (content : Bytes) : (tree.write limit path content).2 = tree.refusal? limit path content := by
  unfold refusal?
  cases barred : tree.barred? path with
  | some fault => rw [write_of_barred readable barred, Option.some_or]
  | none =>
    obtain ⟨after, written, -⟩ := write_of_read readable barred limit content
    rw [written, Option.none_or]

/-- A file that is there holds what was written to it. -/
theorem frame_of_write (readable : tree.read path = .ok old)
    (written : tree.write limit path content = (after, none)) :
    tree.barred? path = none ∧ Fits limit content ∧ Frame path tree after ∧
      after.read path = .ok content := by
  have accepted := write_refusal readable limit content
  rw [written, eq_comm, refusal?_eq_none_iff] at accepted
  obtain ⟨unbarred, fits⟩ := accepted
  obtain ⟨after', written', frame, here⟩ := write_of_read readable unbarred limit content
  obtain ⟨rfl, -⟩ := Prod.mk.inj (written.symm.trans written')
  rw [fits.clip_eq] at here
  exact ⟨unbarred, fits, frame, here⟩

/-- What a successful write to a file that is there changes. -/
theorem read_write (readable : tree.read path = .ok old)
    (written : tree.write limit path content = (after, none)) :
    (∀ other, after.locate other = tree.locate other) ∧
      (∀ other, tree.locate other = tree.locate path → after.read other = .ok content) ∧
      ∀ other, tree.locate other ≠ tree.locate path → after.read other = tree.read other := by
  obtain ⟨-, -, frame, here⟩ := frame_of_write readable written
  refine ⟨frame.locate, fun other same => ?_, fun other apart => frame.read apart⟩
  have alike : after.locate other = after.locate path := by rw [frame.locate, frame.locate, same]
  rw [read_congr alike, here]

/-- What was written to a file can be replaced by anything that is no longer. -/
theorem write_shorter {new : Bytes} (readable : tree.read path = .ok old)
    (written : tree.write limit path content = (after, none))
    (shorter : new.length ≤ content.length) :
    ∃ final, after.write limit path new = (final, none) := by
  obtain ⟨unbarred, fits, frame, here⟩ := frame_of_write readable written
  have fitsNew : Fits limit new := fun bound given => Nat.le_trans shorter (fits bound given)
  have accepted := write_refusal here limit new
  rw [refusal?_eq_none_iff.mpr ⟨(frame.barred? path).trans unbarred, fitsNew⟩] at accepted
  exact ⟨_, Prod.ext rfl accepted⟩

end RulePruner.FileTree
