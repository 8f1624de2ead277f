import RulePruner.FileTree

/-!
# Where paths lead

A path is followed name by name, up and down the directories on the way from the root to the working
directory as well as below it. So a file is also found by the path from the root
(`FileTree.locate_rooted`), and by a path that leaves the working directory and comes back
(`FileTree.locate_back`).
-/

namespace RulePruner

namespace Place

variable {base names : Location}

theorem ofNames_base (base location : Location) :
    ofNames base (base ++ location) = .ok (inside location) := by
  rw [ofNames, if_pos (List.prefix_append base location), List.drop_left]

theorem ofNames_self (base : Location) : ofNames base base = .ok (inside []) := by
  simpa using ofNames_base base []

/-- The names on the way to the working directory lead to a directory. -/
theorem exists_ofNames (onTheWay : names <+: base) :
    ∃ place, ofNames base names = .ok place ∧ place.names base = names ∧
      ∀ tree : FileTree, tree.standing? place = some .directory := by
  by_cases arrived : base <+: names
  · obtain rfl := onTheWay.eq_of_length_le arrived.length_le
    exact ⟨inside [], ofNames_self names, List.append_nil names, fun _ => rfl⟩
  · exact ⟨outside names, by rw [ofNames, if_neg arrived, if_pos onTheWay], rfl, fun _ => rfl⟩

end Place

namespace FileTree

/-- The name of a directory, as a path spells it. -/
structure IsName (name : Text) : Prop where
  ne_nil : name ≠ []
  ne_here : name ≠ ['.']
  ne_above : name ≠ ['.', '.']
  unbroken : '/' ∉ name

/-- Names with a slash behind each. -/
def spell (names : List Text) : Text := names.flatMap fun name => name ++ ['/']

variable {tree : FileTree} {place : Place} {above names : Location} {path : Text} {c : Char}

theorem splitOn_spell (unbroken : ∀ name ∈ names, '/' ∉ name) (path : Text) :
    (spell names ++ path).splitOn '/' = names ++ path.splitOn '/' := by
  induction names with
  | nil => rfl
  | cons name names ih =>
    rw [List.forall_mem_cons] at unbroken
    rw [spell, List.flatMap_cons, List.append_assoc, List.append_assoc, List.singleton_append,
      List.splitOn_append_cons_self, List.splitOn_eq_singleton unbroken.1, ← spell, ih unbroken.2]
    rfl

theorem locate_slash (tree : FileTree) (path : Text) :
    tree.locate ('/' :: path) =
      (do (path.splitOn '/').foldlM tree.step (← Place.ofNames tree.base [])) := rfl

theorem locate_relative (relative : c ≠ '/') (path : Text) :
    tree.locate (c :: path) = ((c :: path).splitOn '/').foldlM tree.step (.inside []) := by
  rw [locate]
  · exact List.cons_ne_nil c path
  · intro rest same
    exact relative (List.cons.inj same).1

theorem step_down {name : Text} (isName : IsName name)
    (standing : tree.standing? place = some .directory) :
    tree.step place name = Place.ofNames tree.base (place.names tree.base ++ [name]) := by
  simp [step, standing, isName.ne_nil, isName.ne_here, isName.ne_above]

theorem step_up (standing : tree.standing? place = some .directory) :
    tree.step place ['.', '.'] = Place.ofNames tree.base (place.names tree.base).dropLast := by
  simp [step, standing]

/-- From a directory on the way, the names that are left lead to the working directory. -/
theorem foldlM_down (whole : above ++ names = tree.base) (isName : ∀ name ∈ names, IsName name)
    (start : Place.ofNames tree.base above = .ok place) :
    names.foldlM tree.step place = .ok (.inside []) := by
  induction names generalizing above place with
  | nil =>
    rw [← whole, List.append_nil, Place.ofNames_self] at start
    exact start.symm
  | cons name names ih =>
    rw [List.forall_mem_cons] at isName
    have passed : above ++ [name] ++ names = tree.base := by simpa using whole
    obtain ⟨here, found, spelled, standing⟩ :=
      Place.exists_ofNames (⟨_, whole⟩ : above <+: tree.base)
    obtain rfl := Except.ok.inj (start.symm.trans found)
    obtain ⟨next, found', -⟩ := Place.exists_ofNames (⟨_, passed⟩ : above ++ [name] <+: tree.base)
    have down := step_down isName.1 (standing tree)
    rw [spelled, found'] at down
    rw [List.foldlM_cons, down]
    exact ih passed isName.2 found'

/-- As many steps up from the working directory as there are names lead to where the names start. -/
theorem foldlM_up (whole : above ++ names = tree.base) :
    (List.replicate names.length ['.', '.']).foldlM tree.step (.inside []) =
      Place.ofNames tree.base above := by
  induction names generalizing above with
  | nil =>
    rw [← whole, List.append_nil, Place.ofNames_self]
    rfl
  | cons name names ih =>
    have passed : above ++ [name] ++ names = tree.base := by simpa using whole
    obtain ⟨here, found, spelled, standing⟩ :=
      Place.exists_ofNames (⟨_, passed⟩ : above ++ [name] <+: tree.base)
    have up := step_up (standing tree)
    rw [spelled, List.dropLast_concat] at up
    rw [List.length_cons, List.replicate_succ', List.foldlM_append, ih passed, found]
    exact (bind_pure (tree.step here ['.', '.'])).trans up

/-- A path from the root through the working directory leads where its rest leads. -/
theorem locate_rooted (isName : ∀ name ∈ tree.base, IsName name) (relative : c ≠ '/')
    (path : Text) :
    tree.locate ('/' :: spell tree.base ++ c :: path) = tree.locate (c :: path) := by
  have unbroken : ∀ name ∈ tree.base, '/' ∉ name := fun name member => (isName name member).unbroken
  obtain ⟨root, found, -⟩ := Place.exists_ofNames (List.nil_prefix : [] <+: tree.base)
  rw [List.cons_append, locate_slash, splitOn_spell unbroken, found, locate_relative relative]
  show List.foldlM tree.step root _ = _
  rw [List.foldlM_append, foldlM_down (List.nil_append tree.base) isName found]
  rfl

/-- A path that leaves the working directory upward and comes back by the same names leads where its
rest leads. -/
theorem locate_back (whole : above ++ names = tree.base) (isName : ∀ name ∈ names, IsName name)
    (relative : c ≠ '/') (path : Text) :
    tree.locate (spell (List.replicate names.length ['.', '.']) ++ (spell names ++ c :: path)) =
      tree.locate (c :: path) := by
  have unbroken : ∀ name ∈ names, '/' ∉ name := fun name member => (isName name member).unbroken
  have ups : ∀ up ∈ List.replicate names.length ['.', '.'], '/' ∉ up := by
    intro up member
    rw [List.eq_of_mem_replicate member]
    decide
  cases names with
  | nil => rfl
  | cons name names =>
    obtain ⟨place, found, -⟩ := Place.exists_ofNames (⟨_, whole⟩ : above <+: tree.base)
    have leaves : spell (List.replicate (name :: names).length ['.', '.']) ++
        (spell (name :: names) ++ c :: path) = '.' :: _ := rfl
    rw [leaves, locate_relative (by decide), ← leaves, splitOn_spell ups, splitOn_spell unbroken,
      locate_relative relative, List.foldlM_append, foldlM_up whole, found]
    show List.foldlM tree.step place _ = _
    rw [List.foldlM_append, foldlM_down whole isName found]
    rfl

/-- The stylesheet of a working directory that is `/home/site`. -/
example :
    let tree : FileTree :=
      { entries := [(["a.css".toList], .file [])], base := ["home".toList, "site".toList] }
    tree.read "/home/site/a.css".toList = .ok [] ∧ tree.read "../site/./a.css".toList = .ok [] ∧
      tree.read "../a.css".toList = .error .notFound :=
  ⟨rfl, rfl, rfl⟩

end FileTree

end RulePruner
