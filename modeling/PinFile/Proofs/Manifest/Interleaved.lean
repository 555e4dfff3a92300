import PinFile.Change
import PinFile.Proofs.Manifest.Normal
import PinFile.Proofs.Sorting

/-!
# Interleaved lines

The normal layout looks at options, inclusions, editable installs and the requirements of each
package one by one, so it writes the same text however these are interleaved
(`render_normalize_interleaved`). One of each specification is chosen package by package
(`filter_distinctSpecs`), sorting keeps the order inside a package, and what is sorted by package
is determined by the requirements of each package (`eq_of_filter_key_eq`).
-/

namespace PinFile.Manifest

variable {m m' : Manifest}

/-- Requirements that ask for the same are of one package. -/
theorem filter_distinctSpecs (package : String) (rs : List Requirement) :
    (distinctSpecs rs).filter (·.package == package) =
      distinctSpecs (rs.filter (·.package == package)) := by
  induction rs with
  | nil => rfl
  | cons r rs ih =>
    rw [distinctSpecs]
    cases hr : r.package == package with
    | true =>
      rw [List.filter_cons, List.filter_cons, if_pos hr, if_pos hr, List.filter_comm, ih,
        distinctSpecs]
    | false =>
      have hnot : ¬ (r.package == package) = true := by simp [hr]
      rw [List.filter_cons, List.filter_cons, if_neg hnot, if_neg hnot, ← ih, List.filter_filter]
      refine List.filter_congr fun a _ => ?_
      -- nothing of another package is dropped for `r`
      cases ha : a.package == package with
      | false => rfl
      | true =>
        have hne : ¬ r.package = a.package := by
          rw [beq_iff_eq.mp ha]
          simpa using hr
        simp [sameSpec, hne]

theorem filter_normalRequirements (m : Manifest) (package : String) :
    m.normalRequirements.filter (·.package == package) =
      (distinctSpecs (m.requirementsOf package)).mergeSort notAfter := by
  rw [normalRequirements, filter_mergeSort notAfter_trans notAfter_total, filter_distinctSpecs]
  rfl

theorem pairwise_package_normalRequirements (m : Manifest) :
    m.normalRequirements.Pairwise (·.package ≤ ·.package) := by
  refine (List.pairwise_mergeSort notAfter_trans notAfter_total _).imp fun {a b} hab => ?_
  simp only [notAfter, Bool.or_eq_true, Bool.and_eq_true, decide_eq_true_eq, beq_iff_eq] at hab
  rcases hab with hlt | ⟨heq, -⟩
  · exact hlt.le
  · exact heq.le

/-- Two manifests with the same options, the same inclusions, the same editable installs and, for
each package, the same requirements are written in the same way, however these are interleaved and
whatever else stands in the lines. -/
theorem render_normalize_interleaved (ho : m.options = m'.options)
    (hi : m.includes = m'.includes) (he : m.editables = m'.editables)
    (hr : ∀ package, m.requirementsOf package = m'.requirementsOf package) :
    m.render .normalize = m'.render .normalize := by
  have hnormal : m.normalRequirements = m'.normalRequirements :=
    eq_of_filter_key_eq (pairwise_package_normalRequirements m)
      (pairwise_package_normalRequirements m') fun package => by
        rw [filter_normalRequirements, filter_normalRequirements, hr]
  unfold normalRequirements at hnormal
  simp only [render, renderedLines, normalizedEntries, ho, hi, he, hnormal]

def flaskTwo : Requirement := ⟨"flask", [], [⟨.equal, "2"⟩], none, none, []⟩

def flaskOne : Requirement := ⟨"Flask", [], [⟨.equal, "1"⟩], none, none, []⟩

def plainIdna : Requirement := ⟨"idna", [], [], none, none, []⟩

/-- The lines in groups; both lines of the first package have no marker. -/
def grouped : Manifest := ⟨[
  ⟨1, .option ⟨"--pre", none⟩, none⟩,
  ⟨2, .includeFile ⟨.requirements, "base.txt"⟩, none⟩,
  ⟨3, .requirement flaskTwo, none⟩,
  ⟨4, .requirement flaskOne, none⟩,
  ⟨5, .requirement plainIdna, none⟩,
  ⟨6, .editable ⟨"."⟩, none⟩]⟩

def groupedText : String := "--pre\n-r base.txt\nflask==2\nFlask==1\nidna\n-e .\n"

theorem render_grouped : grouped.render .normalize = groupedText := by
  have hspecs : distinctSpecs grouped.requirements = [flaskTwo, flaskOne, plainIdna] := by
    decide +kernel
  have hsorted : (distinctSpecs grouped.requirements).mergeSort notAfter =
      [flaskTwo, flaskOne, plainIdna] := by
    rw [hspecs]
    exact List.mergeSort_of_pairwise (by decide +kernel)
  rw [render, renderedLines, normalizedEntries, hsorted]
  decide +kernel

def scattered : Manifest := ⟨[
  ⟨1, .comment "# web", none⟩,
  ⟨2, .requirement flaskTwo, some "first"⟩,
  ⟨3, .editable ⟨"."⟩, none⟩,
  ⟨4, .requirement plainIdna, none⟩,
  ⟨7, .includeFile ⟨.requirements, "base.txt"⟩, none⟩,
  ⟨8, .requirement flaskOne, none⟩,
  ⟨9, .blank, none⟩,
  ⟨10, .option ⟨"--pre", none⟩, none⟩]⟩

theorem requirementsOf_grouped_eq (package : String) :
    grouped.requirementsOf package = scattered.requirementsOf package := by
  have hgrouped : grouped.requirements = [flaskTwo, flaskOne, plainIdna] := rfl
  have hscattered : scattered.requirements = [flaskTwo, plainIdna, flaskOne] := rfl
  have hidna : plainIdna.package = "idna" := by decide +kernel
  have htwo : flaskTwo.package = "flask" := by decide +kernel
  have hone : flaskOne.package = "flask" := by decide +kernel
  rw [requirementsOf, requirementsOf, hgrouped, hscattered]
  by_cases hp : package = "idna"
  · simp [hp, hidna, htwo, hone]
  · simp [List.filter_cons, Ne.symm hp, hidna]

theorem render_normalize_interleaved_scattered :
    (grouped.options = scattered.options ∧ grouped.includes = scattered.includes ∧
      grouped.editables = scattered.editables ∧
      ∀ package, grouped.requirementsOf package = scattered.requirementsOf package) ∧
    grouped.render .normalize = groupedText ∧ scattered.render .normalize = groupedText := by
  have hsame : grouped.render .normalize = scattered.render .normalize :=
    render_normalize_interleaved rfl rfl rfl requirementsOf_grouped_eq
  exact ⟨⟨rfl, rfl, rfl, requirementsOf_grouped_eq⟩, render_grouped, hsame ▸ render_grouped⟩

end PinFile.Manifest
