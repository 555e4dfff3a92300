import Mathlib.Algebra.BigOperators.Group.Finset.Basic
import Mathlib.Algebra.GroupWithZero.Nat
import PinFile.Datum.Manifest
import PinFile.Proofs.Distinct
import PinFile.Proofs.Text.Ascending

/-!
# What a summary adds up to

A summary counts every line once, under the kind of its entry. The requirements fall into groups
by package: the packages with a group of two or more are those that the summary calls duplicated,
and what is in these groups beyond the first requirements is what the requirements are more than the
packages (`summary_adds_up`).
-/

namespace PinFile

open Text

/-- The line is a requirement for the package. -/
def Line.isFor (package : String) (line : Line) : Bool :=
  line.requirement?.any (·.package == package)

/-- How many lines have an entry of the kind. -/
def Manifest.countKind (m : Manifest) (kind : String) : Nat :=
  m.lines.countP (·.entry.kindName == kind)

namespace Manifest

variable {m : Manifest} {package : String}

/-! ## Lines by kind -/

theorem lines_summary (m : Manifest) : m.summary.lines =
    m.summary.requirementLines + m.summary.editableInstalls + m.summary.includes
      + m.summary.options + m.summary.commentLines + m.summary.blankLines := by
  obtain ⟨lines⟩ := m
  simp only [summary, requirements, editables, includes, options, List.length_filterMap_eq_countP]
  induction lines with
  | nil => rfl
  | cons line lines ih =>
    obtain ⟨number, entry, comment⟩ := line
    simp only [List.countP_cons, List.length_cons, ih]
    cases entry <;>
      simp [Line.requirement?, Line.editable?, Line.include?, Line.option?] <;> omega

theorem countP_eq_countKind {p : Line → Bool} {kind : String}
    (h : ∀ line, p line = (line.entry.kindName == kind)) : m.lines.countP p = m.countKind kind :=
  congrArg (m.lines.countP ·) (funext h)

theorem length_filterMap_eq_countKind {α : Type} {f : Line → Option α} {kind : String}
    (h : ∀ line, (f line).isSome = (line.entry.kindName == kind)) :
    (m.lines.filterMap f).length = m.countKind kind := by
  rw [List.length_filterMap_eq_countP]
  exact countP_eq_countKind h

/-- Each counter is for the lines of one kind. -/
theorem counts_summary (m : Manifest) :
    m.summary.requirementLines = m.countKind "requirement" ∧
    m.summary.editableInstalls = m.countKind "editable" ∧
    m.summary.includes = m.countKind "include" ∧
    m.summary.options = m.countKind "global_option" ∧
    m.summary.commentLines = m.countKind "comment" ∧
    m.summary.blankLines = m.countKind "blank" := by
  refine ⟨length_filterMap_eq_countKind fun line => ?_,
    length_filterMap_eq_countKind fun line => ?_, length_filterMap_eq_countKind fun line => ?_,
    length_filterMap_eq_countKind fun line => ?_, countP_eq_countKind fun line => ?_,
    countP_eq_countKind fun line => ?_⟩
  all_goals
    obtain ⟨number, entry, comment⟩ := line
    cases entry <;> rfl

/-! ## Requirements by package -/

/-- The package of each requirement. -/
def namings (m : Manifest) : List String := m.requirements.map (·.package)

theorem linesOf_eq (m : Manifest) (package : String) :
    m.linesOf package = (m.lines.filter (·.isFor package)).map (·.number) := by
  unfold linesOf declarations
  induction m.lines with
  | nil => rfl
  | cons line lines ih =>
    rw [List.filterMap_cons, List.filter_cons]
    cases hr : line.requirement? with
    | none => simp [Line.isFor, hr, ih]
    | some r =>
      by_cases hp : r.package = package
      · simp [Line.isFor, hr, hp, ih]
      · simp [Line.isFor, hr, hp, ih]

theorem countP_isFor (m : Manifest) (package : String) :
    m.lines.countP (·.isFor package) = m.namings.count package := by
  unfold namings requirements
  rw [List.map_filterMap, List.count, List.countP_filterMap]
  refine List.countP_congr fun line _ => ?_
  cases hr : line.requirement? with
  | none => simp [Line.isFor, hr]
  | some r => simp [Line.isFor, hr]

theorem length_linesOf (m : Manifest) (package : String) :
    (m.linesOf package).length = m.namings.count package := by
  rw [linesOf_eq, List.length_map, ← List.countP_eq_length_filter, countP_isFor]

theorem mem_packages : package ∈ m.packages ↔ package ∈ m.namings := List.mem_eraseDups

theorem distinctPackages_summary (m : Manifest) :
    m.summary.distinctPackages = m.namings.toFinset.card := by
  have hset : m.packages.toFinset = m.namings.toFinset := by
    ext package
    rw [List.mem_toFinset, List.mem_toFinset, mem_packages]
  rw [← hset]
  exact (List.toFinset_card_of_nodup (nodup_eraseDups _)).symm

/-- Every requirement names a package, and so they are as many as all packages are named. -/
theorem sum_length_linesOf (m : Manifest) :
    ((ascending m.packages).map fun package => (m.linesOf package).length).sum =
      m.summary.requirementLines := by
  have hset : (ascending m.packages).toFinset = m.namings.toFinset := by
    ext package
    rw [List.mem_toFinset, List.mem_toFinset, mem_ascending, mem_packages]
  calc ((ascending m.packages).map fun package => (m.linesOf package).length).sum
      = ((ascending m.packages).map (m.namings.count ·)).sum := by simp only [length_linesOf]
    _ = ∑ package ∈ m.namings.toFinset, m.namings.count package := by
        rw [← hset, List.sum_toFinset _ (nodup_ascending _)]
    _ = m.namings.length := List.sum_toFinset_count_eq_length _
    _ = m.summary.requirementLines := List.length_map _

theorem length_ascending_packages (m : Manifest) :
    (ascending m.packages).length = m.summary.distinctPackages := by
  have hperm : (ascending m.packages).Perm m.packages :=
    (List.perm_ext_iff_of_nodup (nodup_ascending _) (nodup_eraseDups _)).mpr fun _ => mem_ascending
  exact hperm.length_eq

/-! ## Groups of two or more -/

theorem duplicates_eq (m : Manifest) : m.duplicates =
    ((ascending m.packages).filter fun package => 1 < (m.linesOf package).length).map
      fun package => (package, m.linesOf package) := List.filter_map

theorem duplicatedPackages_summary (m : Manifest) : m.summary.duplicatedPackages =
    (ascending m.packages).filter fun package => 1 < (m.linesOf package).length := by
  change m.duplicates.map (·.1) = _
  rw [duplicates_eq, List.map_map]
  exact List.map_id _

/-- Where every item counts for something, the sum is the number of items and what some of them
count for beyond that. -/
theorem sum_map_eq_length_add {α : Type} {f : α → Nat} {xs : List α} (h : ∀ x ∈ xs, 0 < f x) :
    (xs.map f).sum = xs.length + ((xs.filter (1 < f ·)).map (f · - 1)).sum := by
  induction xs with
  | nil => rfl
  | cons x xs ih =>
    obtain ⟨hx, hxs⟩ := List.forall_mem_cons.mp h
    rw [List.map_cons, List.sum_cons, ih hxs, List.filter_cons, List.length_cons]
    split
    · rename_i hf
      rw [decide_eq_true_iff] at hf
      rw [List.map_cons, List.sum_cons]
      omega
    · rename_i hf
      rw [decide_eq_true_iff] at hf
      omega

/-- All lines are counted, and each of the six counters is for the lines of one kind. The packages
are the different names in normal form; those on more than one line are listed in ascending order,
each with the numbers of all its lines. The requirements are as many as the packages and the
further lines of these. -/
theorem summary_adds_up (m : Manifest) :
    m.summary.lines = m.lines.length ∧
    (m.summary.requirementLines = m.countKind "requirement" ∧
      m.summary.editableInstalls = m.countKind "editable" ∧
      m.summary.includes = m.countKind "include" ∧
      m.summary.options = m.countKind "global_option" ∧
      m.summary.commentLines = m.countKind "comment" ∧
      m.summary.blankLines = m.countKind "blank") ∧
    m.summary.lines = m.summary.requirementLines + m.summary.editableInstalls + m.summary.includes
      + m.summary.options + m.summary.commentLines + m.summary.blankLines ∧
    m.summary.distinctPackages = (m.requirements.map (·.package)).toFinset.card ∧
    m.summary.duplicatedPackages.Pairwise (· < ·) ∧
    (∀ package, package ∈ m.summary.duplicatedPackages ↔ 1 < m.lines.countP (·.isFor package)) ∧
    m.duplicates = m.summary.duplicatedPackages.map (fun package =>
      (package, (m.lines.filter (·.isFor package)).map (·.number))) ∧
    m.summary.requirementLines =
      m.summary.distinctPackages + (m.duplicates.map fun group => group.2.length - 1).sum := by
  refine ⟨rfl, counts_summary m, lines_summary m, distinctPackages_summary m, ?_,
    fun package => ?_, ?_, ?_⟩
  · rw [duplicatedPackages_summary]
    exact (pairwise_ascending _).filter _
  · rw [duplicatedPackages_summary, List.mem_filter, mem_ascending, mem_packages,
      decide_eq_true_iff, length_linesOf, countP_isFor]
    refine and_iff_right_of_imp fun h => List.count_pos_iff.mp ?_
    omega
  · rw [duplicates_eq, duplicatedPackages_summary]
    simp only [linesOf_eq]
  · have hpos : ∀ package ∈ ascending m.packages, 0 < (m.linesOf package).length := by
      intro package hp
      rw [length_linesOf]
      exact List.count_pos_iff.mpr (mem_packages.mp (mem_ascending.mp hp))
    rw [← sum_length_linesOf, sum_map_eq_length_add hpos, length_ascending_packages,
      duplicates_eq, List.map_map]
    rfl

/-- Lines of every kind; one package is named three times in two spellings. -/
def everyKind : Manifest := ⟨[
  ⟨1, .comment "# web", none⟩,
  ⟨2, .requirement ⟨"zope.interface", [], [], none, none, []⟩, none⟩,
  ⟨3, .option ⟨"--pre", none⟩, none⟩,
  ⟨4, .requirement ⟨"idna", [], [⟨.equal, "3"⟩], none, none, []⟩, none⟩,
  ⟨6, .includeFile ⟨.requirements, "base.txt"⟩, none⟩,
  ⟨7, .requirement ⟨"Zope_Interface", [], [⟨.equal, "5"⟩], none, none, []⟩, none⟩,
  ⟨8, .blank, none⟩,
  ⟨9, .editable ⟨"."⟩, none⟩,
  ⟨10, .requirement ⟨"zope.interface", [], [], none, none, []⟩, none⟩]⟩

/-- Four requirements for two packages, and two lines beyond the first of `zope-interface`. -/
theorem summary_adds_up_everyKind :
    everyKind.summary = ⟨9, 1, 1, 4, 2, 1, 1, 1, ["zope-interface"]⟩ ∧
    everyKind.duplicates = [("zope-interface", [2, 7, 10])] ∧
    (everyKind.countKind "requirement", everyKind.countKind "comment") = (4, 1) ∧
    everyKind.summary.requirementLines = everyKind.summary.distinctPackages
      + (everyKind.duplicates.map fun group => group.2.length - 1).sum := by
  obtain ⟨-, ⟨hrequirement, -, -, -, hcomment, -⟩, -, -, -, -, -, hsum⟩ :=
    summary_adds_up everyKind
  have hsummary : everyKind.summary = ⟨9, 1, 1, 4, 2, 1, 1, 1, ["zope-interface"]⟩ := by
    decide +kernel
  refine ⟨hsummary, by decide +kernel, ?_, hsum⟩
  rw [← hrequirement, ← hcomment, hsummary]

end Manifest

end PinFile
