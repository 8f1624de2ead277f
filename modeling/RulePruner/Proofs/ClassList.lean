import Mathlib.Data.List.TakeWhile
import RulePruner.Proofs.Run.Ending

/-!
# What a class list says

A text is cut into lines at each line end, however the line end is spelled (`Text.Lines`), and it
lists the names that are left on its lines without the blanks around them. `ClassList.Lists` says
how a list of names can be laid out in a text: with any blanks around the names, blank lines between
them, and each line end spelled in any way. The main statement is `Run.loadClassList_lists`: reading
a class list gives the names on its lines, and a text is read as a list of names exactly if it is a
layout of that list.
-/

namespace RulePruner

namespace Text

/-- Whether a line ends at a character. -/
def endsLine (c : Char) : Bool := c = '\n' || c = '\r'

/-- The spellings of a line end. -/
def lineEnds : List Text := [['\n'], ['\r', '\n'], ['\r']]

/-- `Lines t lines` says that `lines` are what lies between the line ends of `t`. A carriage return
with a newline right behind it is one line end. -/
inductive Lines : Text → List Text → Prop where
  | last {line : Text} : (∀ c ∈ line, endsLine c = false) → Lines line [line]
  | next {line ending t : Text} {lines : List Text} : (∀ c ∈ line, endsLine c = false) →
      ending ∈ lineEnds → (ending = ['\r'] → t.head? ≠ some '\n') → Lines t lines →
      Lines (line ++ ending ++ t) (line :: lines)

/-- Every text has lines. -/
theorem exists_lines (t : Text) : ∃ lines, Lines t lines := by
  apply normalize_induction (motive := fun t _ => ∃ lines, Lines t lines)
  · exact ⟨[[]], .last (by simp)⟩
  · rintro c t notReturn ⟨lines, cut⟩
    by_cases newline : c = '\n'
    · subst newline
      exact ⟨_, @Lines.next [] ['\n'] t lines (by simp) (by decide) (by simp) cut⟩
    · have shown : endsLine c = false := by simp [endsLine, newline, notReturn]
      cases cut with
      | last unbroken => exact ⟨[c :: t], .last (by simpa [shown] using unbroken)⟩
      | @next line ending rest lines unbroken given apart later =>
        have whole : ∀ d ∈ c :: line, endsLine d = false := by simpa [shown] using unbroken
        exact ⟨_, .next whole given apart later⟩
  · rintro t ⟨lines, cut⟩
    exact ⟨_, @Lines.next [] ['\r', '\n'] t lines (by simp) (by decide) (by simp) cut⟩
  · rintro t apart ⟨lines, cut⟩
    exact ⟨_, @Lines.next [] ['\r'] t lines (by simp) (by decide) (fun _ => apart) cut⟩

theorem trim_cons_of_blank {c : Char} (blank : isBlank c) (t : Text) : trim (c :: t) = trim t := by
  rw [trim, List.dropWhile_cons_of_pos blank, trim]

/-- A text that neither starts nor ends with a blank is what is left of it with blanks behind it. -/
theorem trim_append_blanks {t blanks : Text} (proper : t ≠ [])
    (first : ∀ c ∈ t.head?, isBlank c = false) (last : ∀ c ∈ t.getLast?, isBlank c = false)
    (blank : ∀ c ∈ blanks, isBlank c) : trim (t ++ blanks) = t := by
  have kept {u : Text} (proper : u ≠ []) (first : ∀ c ∈ u.head?, isBlank c = false) (rest : Text) :
      (u ++ rest).dropWhile isBlank = u ++ rest := by
    cases u with
    | nil => exact absurd rfl proper
    | cons c u => exact List.dropWhile_cons_of_neg (by simp [first c rfl])
  have back := kept (u := t.reverse) (by simpa using proper) (by simpa using last) []
  rw [List.append_nil] at back
  rw [trim, kept proper first, List.reverse_append,
    List.dropWhile_append_of_pos (by simpa using blank), back, List.reverse_reverse]

/-- What is left of a text without the blanks around it. -/
theorem exists_trim (t : Text) :
    ∃ left right, t = left ++ trim t ++ right ∧ (∀ c ∈ left, isBlank c) ∧
      (∀ c ∈ right, isBlank c) ∧ (∀ c ∈ (trim t).head?, isBlank c = false) ∧
      ∀ c ∈ (trim t).getLast?, isBlank c = false := by
  have shown (u : Text) : ∀ c ∈ (u.dropWhile isBlank).head?, isBlank c = false := by
    intro c member
    have first := List.head?_dropWhile_not isBlank u
    rw [Option.mem_def.mp member] at first
    simpa using first
  have inner : t.dropWhile isBlank =
      trim t ++ ((t.dropWhile isBlank).reverse.takeWhile isBlank).reverse := by
    rw [trim, ← List.reverse_append, List.takeWhile_append_dropWhile, List.reverse_reverse]
  refine ⟨t.takeWhile isBlank, ((t.dropWhile isBlank).reverse.takeWhile isBlank).reverse, ?_,
    fun c => List.mem_takeWhile_imp, ?_, ?_, ?_⟩
  · rw [List.append_assoc, ← inner, List.takeWhile_append_dropWhile]
  · intro c member
    exact List.mem_takeWhile_imp (List.mem_reverse.mp member)
  · intro c member
    refine shown t c ?_
    rw [inner, List.head?_append, Option.mem_def.mp member]
    rfl
  · intro c member
    rw [trim, List.getLast?_reverse] at member
    exact shown _ c member

end Text

namespace ClassList

open Text

/-- A name as it can stand in a class list: not empty, with no blank at its ends and in one line. -/
structure IsName (name : Text) : Prop where
  proper : name ≠ []
  first : ∀ c ∈ name.head?, isBlank c = false
  last : ∀ c ∈ name.getLast?, isBlank c = false
  unbroken : ∀ c ∈ name, endsLine c = false

/-- The names on some lines: what is left of each line without the blanks around it, if any is. -/
def namesOn (lines : List Text) : List Text := (lines.map trim).filter fun name => !name.isEmpty

/-- `Lists names t` says that `t` holds each of the names on a line of its own, with blanks around
it, and else blank lines. The last line may have a line end or not. -/
inductive Lists : List Text → Text → Prop where
  | rest {blanks : Text} : (∀ c ∈ blanks, isBlank c) → Lists [] blanks
  | last {name left right : Text} : IsName name → (∀ c ∈ left, isBlank c) →
      (∀ c ∈ right, isBlank c) → Lists [name] (left ++ name ++ right)
  | blankLine {blanks ending t : Text} {names : List Text} : (∀ c ∈ blanks, isBlank c) →
      ending ∈ lineEnds → Lists names t → Lists names (blanks ++ ending ++ t)
  | line {name left right ending t : Text} {names : List Text} : IsName name →
      (∀ c ∈ left, isBlank c) → (∀ c ∈ right, isBlank c) → ending ∈ lineEnds → Lists names t →
      Lists (name :: names) (left ++ name ++ right ++ ending ++ t)

/-- The names between the characters of a text at which lines end. -/
def fields (t : Text) : List Text := namesOn (t.splitOnP endsLine)

theorem namesOn_cons_of_nil {line : Text} (empty : trim line = []) (lines : List Text) :
    namesOn (line :: lines) = namesOn lines := by
  simp [namesOn, empty]

theorem namesOn_cons_of_isName {line : Text} (isName : IsName (trim line)) (lines : List Text) :
    namesOn (line :: lines) = trim line :: namesOn lines := by
  simp [namesOn, isName.proper]

theorem namesOn_append (lines lines' : List Text) :
    namesOn (lines ++ lines') = namesOn lines ++ namesOn lines' := by
  simp [namesOn]

theorem fields_append_cons {c : Char} (ends : endsLine c = true) (a b : Text) :
    fields (a ++ c :: b) = fields a ++ fields b := by
  rw [fields, List.splitOnP_append_cons a b ends, namesOn_append, fields, fields]

theorem fields_cons_of_blank {c : Char} (blank : isBlank c) (t : Text) :
    fields (c :: t) = fields t := by
  by_cases ends : endsLine c = true
  · exact fields_append_cons ends [] t
  · rw [fields, List.splitOnP_cons_eq_if_modifyHead, if_neg ends, fields]
    cases t.splitOnP endsLine with
    | nil => rfl
    | cons line lines => simp [namesOn, trim_cons_of_blank blank]

theorem fields_append_of_blanks {blanks : Text} (blank : ∀ c ∈ blanks, isBlank c) (t : Text) :
    fields (blanks ++ t) = fields t := by
  induction blanks with
  | nil => rfl
  | cons c blanks ih =>
    rw [List.cons_append, fields_cons_of_blank (blank c (by simp)),
      ih fun d member => blank d (List.mem_cons_of_mem c member)]

theorem fields_of_blanks {blanks : Text} (blank : ∀ c ∈ blanks, isBlank c) :
    fields blanks = [] := by
  have whole := fields_append_of_blanks blank []
  rwa [List.append_nil] at whole

theorem fields_of_unbroken {line : Text} (unbroken : ∀ c ∈ line, endsLine c = false) :
    fields line = namesOn [line] := by
  rw [fields, List.splitOnP_eq_singleton unbroken]

/-- A name with blanks behind it, line ends among them or not. -/
theorem fields_name {name blanks : Text} (isName : IsName name) (blank : ∀ c ∈ blanks, isBlank c) :
    fields (name ++ blanks) = [name] := by
  have single {w : Text} (blank : ∀ c ∈ w, isBlank c) (unbroken : ∀ c ∈ w, endsLine c = false) :
      fields (name ++ w) = [name] := by
    have whole : ∀ c ∈ name ++ w, endsLine c = false := by
      intro c member
      exact (List.mem_append.mp member).elim (isName.unbroken c) (unbroken c)
    rw [fields_of_unbroken whole]
    have left := trim_append_blanks isName.proper isName.first isName.last blank
    simp [namesOn, left, isName.proper]
  have split := List.takeWhile_append_dropWhile (p := fun c => !endsLine c) (l := blanks)
  have unbroken : ∀ c ∈ blanks.takeWhile fun c => !endsLine c, endsLine c = false := by
    intro c member
    simpa using List.mem_takeWhile_imp member
  have front : ∀ c ∈ blanks.takeWhile fun c => !endsLine c, isBlank c := fun c member =>
    blank c ((List.takeWhile_prefix _).subset member)
  cases behind : blanks.dropWhile fun c => !endsLine c with
  | nil =>
    rw [behind, List.append_nil] at split
    rw [split] at front unbroken
    exact single front unbroken
  | cons c rest =>
    have ends : endsLine c = true := by
      have first := List.head?_dropWhile_not (fun c => !endsLine c) blanks
      rw [behind] at first
      simpa using first
    have later : ∀ d ∈ rest, isBlank d := fun d member => by
      have inside := (List.dropWhile_suffix (fun c => !endsLine c)).subset
        (behind ▸ List.mem_cons_of_mem c member)
      exact blank d inside
    rw [behind] at split
    rw [← split, ← List.append_assoc, fields_append_cons ends, single front unbroken,
      fields_of_blanks later, List.append_nil]

theorem fields_append_ending {ending : Text} (given : ending ∈ lineEnds) (a b : Text) :
    fields (a ++ ending ++ b) = fields a ++ fields b := by
  simp only [lineEnds, List.mem_cons, List.not_mem_nil, or_false] at given
  rw [List.append_assoc]
  rcases given with rfl | rfl | rfl
  · exact fields_append_cons rfl a b
  · exact (fields_append_cons rfl a ('\n' :: b)).trans
      (congrArg (fields a ++ ·) (fields_cons_of_blank isBlank_newline b))
  · exact fields_append_cons rfl a b

/-- The lines after the line ends of a text are read are those between its line end characters, but
for empty ones after the first. -/
theorem splitOn_normalize (t : Text) :
    ∃ line lines lines', (normalize t).splitOn '\n' = line :: lines ∧
      t.splitOnP endsLine = line :: lines' ∧ namesOn lines = namesOn lines' := by
  have alike (line : Text) {lines lines' : List Text} (same : namesOn lines = namesOn lines') :
      namesOn (line :: lines) = namesOn (line :: lines') := by
    rw [← List.singleton_append, namesOn_append, same, ← namesOn_append, List.singleton_append]
  apply normalize_induction (motive := fun t read => ∃ line lines lines',
    read.splitOn '\n' = line :: lines ∧ t.splitOnP endsLine = line :: lines' ∧
      namesOn lines = namesOn lines')
  · exact ⟨[], [], [], rfl, rfl, rfl⟩
  · rintro c t notReturn ⟨line, lines, lines', read, cut, same⟩
    rw [List.splitOn_cons_eq_if_modifyHead, List.splitOnP_cons_eq_if_modifyHead, read, cut]
    by_cases newline : c = '\n'
    · subst newline
      exact ⟨[], line :: lines, line :: lines', rfl, rfl, alike line same⟩
    · have shown : endsLine c = false := by simp [endsLine, newline, notReturn]
      exact ⟨c :: line, lines, lines', by simp [newline], by simp [shown], same⟩
  · rintro t ⟨line, lines, lines', read, cut, same⟩
    refine ⟨[], line :: lines, [] :: line :: lines', ?_, ?_, ?_⟩
    · rw [List.splitOn_cons_eq_if_modifyHead, read]
      rfl
    · rw [List.splitOnP_cons_eq_if_modifyHead, List.splitOnP_cons_eq_if_modifyHead, cut]
      rfl
    · rw [namesOn_cons_of_nil trim_nil, alike line same]
  · rintro t - ⟨line, lines, lines', read, cut, same⟩
    refine ⟨[], line :: lines, line :: lines', ?_, ?_, alike line same⟩
    · rw [List.splitOn_cons_eq_if_modifyHead, read]
      rfl
    · rw [List.splitOnP_cons_eq_if_modifyHead, cut]
      rfl

/-- Reading line ends first gives the same names as cutting at both characters. -/
theorem parse_normalize (t : Text) : parse (normalize t) = fields t := by
  obtain ⟨line, lines, lines', read, cut, same⟩ := splitOn_normalize t
  have split := namesOn_append [line]
  calc parse (normalize t) = namesOn ([line] ++ lines) := by
        rw [parse, read, namesOn, List.singleton_append]
    _ = namesOn ([line] ++ lines') := by rw [split, split, same]
    _ = fields t := by rw [fields, cut, List.singleton_append]

theorem Lists.fields_eq {names : List Text} {t : Text} (lists : Lists names t) :
    fields t = names := by
  induction lists with
  | rest blank => exact fields_of_blanks blank
  | last isName blank blank' =>
    rw [List.append_assoc, fields_append_of_blanks blank, fields_name isName blank']
  | blankLine blank given _ ih => rw [fields_append_ending given, fields_of_blanks blank, ih]; rfl
  | line isName blank blank' given _ ih =>
    rw [fields_append_ending given, List.append_assoc, fields_append_of_blanks blank,
      fields_name isName blank', ih]
    rfl

/-- A line is blank, or it holds a name with blanks around it. -/
theorem line_cases {line : Text} (unbroken : ∀ c ∈ line, endsLine c = false) :
    ((∀ c ∈ line, isBlank c) ∧ trim line = []) ∨
      ∃ left right, line = left ++ trim line ++ right ∧ (∀ c ∈ left, isBlank c) ∧
        (∀ c ∈ right, isBlank c) ∧ IsName (trim line) := by
  obtain ⟨left, right, split, blank, blank', first, last⟩ := exists_trim line
  by_cases empty : trim line = []
  · left
    rw [empty, List.append_nil] at split
    refine ⟨fun c member => ?_, empty⟩
    rw [split] at member
    exact (List.mem_append.mp member).elim (blank c) (blank' c)
  · right
    exact ⟨left, right, split, blank, blank', empty, first, last, fun c member =>
      unbroken c (trim_subset line member)⟩

/-- The lines of a text are laid out in it as the names that are left on them. -/
theorem lists_of_lines {t : Text} {lines : List Text} (cut : Lines t lines) :
    Lists (namesOn lines) t := by
  induction cut with
  | @last line unbroken =>
    rcases line_cases unbroken with ⟨blank, empty⟩ | ⟨left, right, split, blank, blank', isName⟩
    · rw [namesOn_cons_of_nil empty]
      exact .rest blank
    · rw [namesOn_cons_of_isName isName]
      conv => rhs; rw [split]
      exact .last isName blank blank'
  | @next line ending t lines unbroken given _ _ ih =>
    rcases line_cases unbroken with ⟨blank, empty⟩ | ⟨left, right, split, blank, blank', isName⟩
    · rw [namesOn_cons_of_nil empty]
      exact .blankLine blank given ih
    · rw [namesOn_cons_of_isName isName]
      conv => rhs; rw [split]
      exact .line isName blank blank' given ih

theorem Lists.isName {names : List Text} {t : Text} (lists : Lists names t) :
    ∀ name ∈ names, IsName name := by
  induction lists with
  | rest _ => simp
  | last isName _ _ => simpa using isName
  | blankLine _ _ _ ih => exact ih
  | line isName _ _ _ _ ih => simpa using ⟨isName, ih⟩

/-- Every text is a layout of the names in it, and of no others. -/
theorem lists_iff {names : List Text} {t : Text} : Lists names t ↔ fields t = names := by
  refine ⟨Lists.fields_eq, ?_⟩
  rintro rfl
  obtain ⟨lines, cut⟩ := exists_lines t
  have lists := lists_of_lines cut
  rwa [← lists.fields_eq] at lists

end ClassList

namespace Run

open Text ClassList

/-- Reading a class list gives the names on its lines, in order, each without blanks around it and
on a line of its own, and the texts that are read as some names are the layouts of these names. -/
theorem loadClassList_lists {read : Text → Except Fault Bytes} {path t : Text}
    (readable : read path = .ok (encode t)) :
    (∃ lines, Lines t lines) ∧
      (∀ lines, Lines t lines → (loadClassList read path).2 = .ok (namesOn lines)) ∧
      (∀ names, (loadClassList read path).2 = .ok names → ∀ name ∈ names, IsName name) ∧
      ∀ names, (loadClassList read path).2 = .ok names ↔ Lists names t := by
  have loaded : (loadClassList read path).2 = .ok (fields t) := by
    rw [loadClassList, readText_eq_ok_iff.mpr readable, ← parse_normalize]
  have layout (names : List Text) : (loadClassList read path).2 = .ok names ↔ Lists names t := by
    rw [loaded, Except.ok.injEq, lists_iff]
  refine ⟨exists_lines t, ?_, ?_, layout⟩
  · intro lines cut
    exact (layout _).mpr (lists_of_lines cut)
  · intro names listed
    exact ((layout names).mp listed).isName

/-- A list with all three line ends, a blank line, two carriage returns in a row, a blank inside a
name, blanks of several kinds around names, a repeated name, and no line end behind the last one. -/
theorem loadClassList_lists_of_mixed_line_ends :
    let t := " \r\n\u2028a\u2028b\u3000\r\rhero\n\u00a0\thero".toList
    let names := ["a\u2028b".toList, "hero".toList, "hero".toList]
    (loadClassList (fun _ => .ok (encode t)) "classes.txt".toList).2 = .ok names ∧
      Lists names t ∧ ∀ name ∈ names, IsName name := by
  intro t names
  have read : (loadClassList (fun _ => .ok (encode t)) "classes.txt".toList).2 = .ok names := by
    rw [loadClassList, readText_eq_ok_iff.mpr rfl]
    decide
  obtain ⟨-, -, isName, layout⟩ :=
    @loadClassList_lists (fun _ => .ok (encode t)) "classes.txt".toList t rfl
  exact ⟨read, (layout names).mp read, isName names read⟩

end Run

end RulePruner
