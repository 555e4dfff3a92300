import Mathlib.Logic.Relation
import PinFile.Proofs.Change

/-!
# Edits that are no changes

A requirement can be written in other ways and still ask for the same (`Requirement.Respells`),
and a manifest can be edited without asking for anything else (`Manifest.Edit`): its lines may be
put into another order, numbered anew, commented and repeated, and what is no requirement may come
and go. Each of these edits keeps the specifications of every package (`Edit.hasSpec_iff`), so
between the first and the last manifest of a row of them there is no change (`between_of_edits`).
-/

namespace PinFile

open Text

/-! ## One requirement in several spellings -/

namespace Requirement

variable {r r' : Requirement}

/-- One way of writing a requirement differently. -/
inductive Respells : Requirement → Requirement → Prop where
  | name (r : Requirement) (name : String)
      (h : Name.normalize name = Name.normalize r.name) : Respells r { r with name }
  | extra (r : Requirement) (before : List String) (extra extra' : String) (after : List String)
      (hr : r.extras = before ++ extra :: after)
      (h : Name.normalize extra' = Name.normalize extra) :
      Respells r { r with extras := before ++ extra' :: after }
  | extrasOrder (r : Requirement) (extras : List String) (h : r.extras.Perm extras) :
      Respells r { r with extras }
  | extraAgain (r : Requirement) (extra : String) (h : extra ∈ r.extras) :
      Respells r { r with extras := extra :: r.extras }
  | constraintsOrder (r : Requirement) (constraints : List Constraint)
      (h : r.constraints.Perm constraints) : Respells r { r with constraints }
  | hashes (r : Requirement) (hashes : List String) : Respells r { r with hashes }

theorem Respells.package_eq (h : r.Respells r') : r'.package = r.package := by
  cases h with
  | name _ h => exact h
  | extra | extrasOrder | extraAgain | constraintsOrder | hashes => rfl

/-- The extras count as a set of normal forms. -/
theorem specKey_extras {extras : List String}
    (h : ∀ x, x ∈ r.extras.map Name.normalize ↔ x ∈ extras.map Name.normalize) :
    ({ r with extras } : Requirement).specKey = r.specKey := by
  unfold specKey
  rw [ascending_congr h]
  rfl

/-- The constraints count with their repetitions. -/
theorem specKey_constraints {constraints : List Constraint} (h : r.constraints.Perm constraints) :
    ({ r with constraints } : Requirement).specKey = r.specKey := by
  unfold specKey
  rw [sorted_eq_iff.mpr (h.map _)]
  rfl

theorem Respells.specKey_eq (h : r.Respells r') : r'.specKey = r.specKey := by
  cases h with
  | name | hashes => rfl
  | extra before extra extra' after hr h =>
    refine specKey_extras fun x => ?_
    rw [hr, List.map_append, List.map_append, List.map_cons, List.map_cons, h]
  | extrasOrder extras h => exact specKey_extras fun x => (h.map _).mem_iff
  | extraAgain extra h =>
    refine specKey_extras fun x => ?_
    rw [List.map_cons, List.mem_cons]
    refine (or_iff_right_of_imp ?_).symm
    rintro rfl
    exact List.mem_map_of_mem h
  | constraintsOrder constraints h => exact specKey_constraints h

end Requirement

/-! ## One manifest after another -/

namespace Manifest

variable {m m' : Manifest} {line line' : Line} {package key : String}

/-- One edit of a manifest that asks for nothing else. -/
inductive Edit : Manifest → Manifest → Prop where
  | order (lines lines' : List Line) (h : lines.Perm lines') : Edit ⟨lines⟩ ⟨lines'⟩
  | number (before : List Line) (line : Line) (after : List Line) (number : Nat) :
      Edit ⟨before ++ line :: after⟩ ⟨before ++ { line with number } :: after⟩
  | comment (before : List Line) (line : Line) (after : List Line) (comment : Option String) :
      Edit ⟨before ++ line :: after⟩ ⟨before ++ { line with comment } :: after⟩
  | others (before others others' after : List Line)
      (h : ∀ line ∈ others, line.requirement? = none)
      (h' : ∀ line ∈ others', line.requirement? = none) :
      Edit ⟨before ++ others ++ after⟩ ⟨before ++ others' ++ after⟩
  | again (lines : List Line) (line : Line) (h : line ∈ lines) : Edit ⟨lines⟩ ⟨line :: lines⟩
  | respell (before : List Line) (n : Nat) (r r' : Requirement) (comment : Option String)
      (after : List Line) (h : r.Respells r') :
      Edit ⟨before ++ ⟨n, .requirement r, comment⟩ :: after⟩
        ⟨before ++ ⟨n, .requirement r', comment⟩ :: after⟩

theorem requirements_append (lines lines' : List Line) :
    requirements ⟨lines ++ lines'⟩ = requirements ⟨lines⟩ ++ requirements ⟨lines'⟩ :=
  List.filterMap_append

theorem requirements_eq_nil {lines : List Line} (h : ∀ line ∈ lines, line.requirement? = none) :
    requirements ⟨lines⟩ = [] :=
  List.filterMap_eq_nil_iff.mpr h

/-- A line may be replaced by one that asks for the same. -/
theorem hasSpec_replace
    (h : Asks (requirements ⟨[line]⟩) package key ↔ Asks (requirements ⟨[line']⟩) package key)
    (before after : List Line) : HasSpec ⟨before ++ line :: after⟩ package key ↔
      HasSpec ⟨before ++ line' :: after⟩ package key := by
  simp only [hasSpec_iff_asks, List.append_cons before _ after, requirements_append, asks_append, h]

theorem Edit.hasSpec_iff (h : Edit m m') : m.HasSpec package key ↔ m'.HasSpec package key := by
  cases h with
  | order lines lines' h => exact asks_perm (h.filterMap _)
  | number before line after | comment before line after =>
    refine hasSpec_replace ?_ before after
    exact Iff.rfl
  | others before others others' after h h' =>
    simp only [hasSpec_iff_asks, requirements_append, requirements_eq_nil h,
      requirements_eq_nil h']
  | again lines line h =>
    -- both lists have the same members
    have hsame : line :: lines ⊆ lines := List.cons_subset.mpr ⟨h, List.Subset.refl lines⟩
    exact ⟨asks_subset (List.filterMap_subset _ (List.subset_cons_self line lines)),
      asks_subset (List.filterMap_subset _ hsame)⟩
  | respell before n r r' comment after h =>
    refine hasSpec_replace ?_ before after
    simp only [Asks, requirements, Line.requirement?, List.filterMap_cons, List.filterMap_nil,
      List.mem_singleton, exists_eq_left, h.package_eq, h.specKey_eq]

/-- However many edits follow one another, what the manifest asks for stays. -/
theorem hasSpec_iff_of_edits (h : Relation.ReflTransGen Edit m m') :
    m.HasSpec package key ↔ m'.HasSpec package key := by
  induction h with
  | refl => exact Iff.rfl
  | tail _ hedit ih => exact ih.trans hedit.hasSpec_iff

end Manifest

/-! ## No change -/

namespace Change

open Manifest

/-- Between a manifest and what any edits make of it there is no change: it asks for the same
specifications of the same packages. -/
theorem between_of_edits {m m' : Manifest} (h : Relation.ReflTransGen Edit m m') :
    (∀ p key, m.HasSpec p key ↔ m'.HasSpec p key) ∧
      (between m m').isEmpty = true ∧ (between m' m).isEmpty = true := by
  have hspecs : ∀ p key, m.HasSpec p key ↔ m'.HasSpec p key := fun _ _ => hasSpec_iff_of_edits h
  exact ⟨hspecs, isEmpty_between_iff.mpr hspecs,
    isEmpty_between_iff.mpr fun p key => (hspecs p key).symm⟩

/-- A package with two extras and two constraints, between a comment and an editable install. -/
def unedited : Manifest := ⟨[
  ⟨1, .comment "# web", none⟩,
  ⟨2, .requirement ⟨"Flask", ["async", "dotenv"], [⟨.atLeast, "1"⟩, ⟨.less, "3"⟩], none, none,
    []⟩, none⟩,
  ⟨3, .editable ⟨"."⟩, none⟩]⟩

/-- The package as it is spelled in the end. -/
def respelled : Requirement :=
  ⟨"flask", ["DotEnv", "dotenv", "async"], [⟨.less, "3"⟩, ⟨.atLeast, "1"⟩], none, none, ["md5:0a"]⟩

def edited : Manifest := ⟨[
  ⟨1, .option ⟨"--pre", none⟩, none⟩,
  ⟨7, .requirement respelled, some "twice"⟩,
  ⟨2, .requirement respelled, none⟩,
  ⟨2, .blank, none⟩]⟩

theorem edits_edited : Relation.ReflTransGen Edit unedited edited := by
  have hname : Name.normalize "flask" = Name.normalize "Flask" := by decide +kernel
  have hextra : Name.normalize "DotEnv" = Name.normalize "dotenv" := by decide +kernel
  let web : Line := ⟨1, .comment "# web", none⟩
  let project : Line := ⟨3, .editable ⟨"."⟩, none⟩
  let early : Line := ⟨1, .option ⟨"--pre", none⟩, none⟩
  let blank : Line := ⟨2, .blank, none⟩
  let flask : Line := ⟨2, .requirement respelled, none⟩
  have hrespell {r r' : Requirement} (h : r.Respells r') :
      Edit ⟨[web, ⟨2, .requirement r, none⟩, project]⟩
        ⟨[web, ⟨2, .requirement r', none⟩, project]⟩ :=
    .respell [web] 2 r r' none [project] h
  refine .head (hrespell (.name _ "flask" hname)) ?_
  refine .head (hrespell (.extraAgain _ "dotenv" (by simp))) ?_
  refine .head (hrespell (.extra _ [] "dotenv" "DotEnv" ["async", "dotenv"] rfl hextra)) ?_
  refine .head (hrespell (.extrasOrder _ ["DotEnv", "dotenv", "async"] (by decide))) ?_
  refine .head (hrespell (.constraintsOrder _ [⟨.less, "3"⟩, ⟨.atLeast, "1"⟩] (by decide))) ?_
  refine .head (hrespell (.hashes _ ["md5:0a"])) ?_
  refine .head (.others [] [web] [early] [flask, project] (by decide) (by decide)) ?_
  refine .head (.others [early, flask] [project] [blank] [] (by decide) (by decide)) ?_
  refine .head (.again [early, flask, blank] flask (by simp)) ?_
  refine .head (.number [] flask [early, flask, blank] 7) ?_
  refine .head (.comment [] { flask with number := 7 } [early, flask, blank] (some "twice")) ?_
  exact .single (.order _ _ (.swap early _ [flask, blank]))

theorem between_of_edits_edited : Relation.ReflTransGen Edit unedited edited ∧
    (between unedited edited).isEmpty = true ∧ (between edited unedited).isEmpty = true :=
  ⟨edits_edited, (between_of_edits edits_edited).2⟩

end Change

end PinFile
