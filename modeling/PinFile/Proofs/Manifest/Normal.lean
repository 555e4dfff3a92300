import Mathlib.Algebra.Order.BigOperators.Group.List
import Mathlib.Algebra.Order.Ring.Nat
import Mathlib.Data.String.Basic
import PinFile.Manifest.Layout
import PinFile.Proofs.Distinct

/-!
# The normal layout

The requirements of the normal layout are one of each specification (`pairwise_distinctSpecs`),
in the order of `notAfter`, which is total and transitive. A manifest that holds what the normal
layout writes is written in the same way again (`normalizedEntries_idem`).
-/

namespace PinFile.Manifest

variable {m : Manifest}

/-! ## The parts of a manifest -/

theorem options_eq (m : Manifest) :
    m.options = (m.lines.map (·.entry)).filterMap fun e => Line.option? ⟨0, e, none⟩ := by
  rw [List.filterMap_map]
  rfl

theorem includes_eq (m : Manifest) :
    m.includes = (m.lines.map (·.entry)).filterMap fun e => Line.include? ⟨0, e, none⟩ := by
  rw [List.filterMap_map]
  rfl

theorem requirements_eq (m : Manifest) :
    m.requirements = (m.lines.map (·.entry)).filterMap fun e => Line.requirement? ⟨0, e, none⟩ := by
  rw [List.filterMap_map]
  rfl

theorem editables_eq (m : Manifest) :
    m.editables = (m.lines.map (·.entry)).filterMap fun e => Line.editable? ⟨0, e, none⟩ := by
  rw [List.filterMap_map]
  rfl

/-- The parts of a manifest whose entries stand in the order of the normal layout. -/
theorem parts_of_entries {os : List InstallerOption} {is : List Include} {rs : List Requirement}
    {es : List Editable} (h : m.lines.map (·.entry) = os.map .option ++ is.map .includeFile ++
      rs.map .requirement ++ es.map .editable) :
    m.options = os ∧ m.includes = is ∧ m.requirements = rs ∧ m.editables = es := by
  rw [options_eq, includes_eq, requirements_eq, editables_eq, h]
  simp [List.filterMap_append, List.filterMap_map, Line.option?, Line.include?, Line.requirement?,
    Line.editable?]

/-! ## One of each specification -/

theorem sameSpec_iff {a b : Requirement} :
    sameSpec a b = true ↔ a.package = b.package ∧ a.specKey = b.specKey := by
  simp only [sameSpec, Bool.and_eq_true, beq_iff_eq]

theorem sameSpec_comm (a b : Requirement) : sameSpec a b = sameSpec b a := by
  simp only [sameSpec, Bool.beq_eq_decide_eq, eq_comm]

theorem distinctSpecs_sublist (rs : List Requirement) : (distinctSpecs rs).Sublist rs := by
  induction rs with
  | nil => exact .slnil
  | cons r rs ih => exact (List.filter_sublist.trans ih).cons_cons r

theorem pairwise_distinctSpecs (rs : List Requirement) :
    (distinctSpecs rs).Pairwise fun a b => sameSpec a b = false := by
  induction rs with
  | nil => exact .nil
  | cons r rs ih =>
    refine List.pairwise_cons.mpr ⟨fun b hb => ?_, ih.filter _⟩
    simpa using (List.mem_filter.mp hb).2

theorem distinctSpecs_of_pairwise {rs : List Requirement}
    (h : rs.Pairwise fun a b => sameSpec a b = false) : distinctSpecs rs = rs := by
  induction rs with
  | nil => rfl
  | cons r rs ih =>
    obtain ⟨hr, hrs⟩ := List.pairwise_cons.mp h
    unfold distinctSpecs
    rw [ih hrs, List.filter_eq_self.mpr fun b hb => by simp [hr b hb]]

/-- Every specification is kept. -/
theorem exists_mem_distinctSpecs {rs : List Requirement} {r : Requirement} (h : r ∈ rs) :
    ∃ r' ∈ distinctSpecs rs, sameSpec r' r = true := by
  induction rs with
  | nil => cases h
  | cons first rs ih =>
    unfold distinctSpecs
    by_cases hs : sameSpec first r = true
    · exact ⟨first, List.mem_cons_self, hs⟩
    · rcases List.mem_cons.mp h with rfl | h
      · exact absurd (by simp [sameSpec]) hs
      · obtain ⟨r', hm, hr⟩ := ih h
        have he : sameSpec first r' = sameSpec first r := by
          obtain ⟨hp, hk⟩ := Bool.and_eq_true_iff.mp hr
          rw [sameSpec, sameSpec, beq_iff_eq.mp hp, beq_iff_eq.mp hk]
        exact ⟨r', List.mem_cons_of_mem _ (List.mem_filter.mpr ⟨hm, by simpa [he] using hs⟩), hr⟩

/-! ## The order of requirements -/

theorem notAfter_total (a b : Requirement) : (notAfter a b || notAfter b a) = true := by
  simp only [notAfter, Bool.or_eq_true, Bool.and_eq_true, decide_eq_true_eq, beq_iff_eq]
  rcases lt_trichotomy a.package b.package with h | h | h
  · exact .inl (.inl h)
  · rcases String.le_total (a.marker.getD "") (b.marker.getD "") with hm | hm
    · exact .inl (.inr ⟨h, hm⟩)
    · exact .inr (.inr ⟨h.symm, hm⟩)
  · exact .inr (.inl h)

theorem notAfter_trans (a b c : Requirement) (hab : notAfter a b = true)
    (hbc : notAfter b c = true) : notAfter a c = true := by
  simp only [notAfter, Bool.or_eq_true, Bool.and_eq_true, decide_eq_true_eq, beq_iff_eq] at *
  rcases hab with hab | ⟨hab, hm⟩
  · rcases hbc with hbc | ⟨hbc, -⟩
    · exact .inl (String.lt_trans hab hbc)
    · exact .inl (hbc ▸ hab)
  · rcases hbc with hbc | ⟨hbc, hm'⟩
    · exact .inl (hab ▸ hbc)
    · exact .inr ⟨hab.trans hbc, String.le_trans hm hm'⟩

/-- The requirements of the normal layout. -/
def normalRequirements (m : Manifest) : List Requirement :=
  (distinctSpecs m.requirements).mergeSort notAfter

theorem pairwise_normalRequirements (m : Manifest) :
    m.normalRequirements.Pairwise fun a b => sameSpec a b = false := by
  refine (List.mergeSort_perm _ _).pairwise_iff ?_ |>.mpr (pairwise_distinctSpecs _)
  intro a b hab
  rw [sameSpec_comm, hab]

/-- Requirements in the normal layout stay as they are. -/
theorem normalRequirements_idem {m m' : Manifest} (h : m'.requirements = m.normalRequirements) :
    m'.normalRequirements = m.normalRequirements := by
  rw [normalRequirements, h, distinctSpecs_of_pairwise (pairwise_normalRequirements m)]
  exact List.mergeSort_of_pairwise (List.pairwise_mergeSort notAfter_trans notAfter_total _)

/-- A manifest that holds what the normal layout writes is written in the same way. -/
theorem normalizedEntries_idem {m m' : Manifest}
    (ho : m'.options.map InstallerOption.render = (m.options.map InstallerOption.render).eraseDups)
    (hi : m'.includes.map Include.render = (m.includes.map Include.render).eraseDups)
    (hr : m'.requirements = m.normalRequirements)
    (he : m'.editables.map Editable.render = (m.editables.map Editable.render).eraseDups) :
    m'.normalizedEntries = m.normalizedEntries := by
  have hn := normalRequirements_idem hr
  unfold normalRequirements at hn
  simp only [normalizedEntries, ho, hi, he, hn, eraseDups_of_nodup (nodup_eraseDups _)]

/-! ## Backslashes -/

def slashes (text : String) : Nat := text.toList.count '\\'

theorem slashes_entry_le (line : Line) : slashes line.entry.render ≤ slashes line.render := by
  rw [slashes, slashes, Line.render, String.toList_append, List.count_append]
  exact Nat.le_add_right _ _

theorem sum_slashes_parts_le (lines : List Line) :
    (((lines.filterMap Line.option?).map InstallerOption.render).map slashes).sum +
      (((lines.filterMap Line.include?).map Include.render).map slashes).sum +
      (((lines.filterMap Line.requirement?).map Requirement.render).map slashes).sum +
      (((lines.filterMap Line.editable?).map Editable.render).map slashes).sum ≤
    (lines.map fun line => slashes line.render).sum := by
  induction lines with
  | nil => exact Nat.le_refl 0
  | cons line lines ih =>
    have hl := slashes_entry_le line
    rw [List.map_cons, List.sum_cons]
    cases he : line.entry <;> rw [he] at hl <;>
      simp only [List.filterMap_cons, Line.option?, Line.include?, Line.requirement?,
        Line.editable?, he, List.map_cons, List.sum_cons, Entry.render] at hl ih ⊢ <;>
      omega

/-- The normal layout writes no backslash that is not in the lines. -/
theorem sum_slashes_normalizedEntries_le (m : Manifest) :
    (m.normalizedEntries.map slashes).sum ≤ (m.lines.map fun line => slashes line.render).sum := by
  have hd : ∀ xs : List String, (xs.eraseDups.map slashes).sum ≤ (xs.map slashes).sum := fun xs =>
    ((eraseDups_sublist xs).map slashes).sum_le_sum fun n _ => n.zero_le
  have hr : ((((distinctSpecs m.requirements).mergeSort notAfter).map Requirement.render).map
      slashes).sum ≤ ((m.requirements.map Requirement.render).map slashes).sum := by
    have hp := (((List.mergeSort_perm (distinctSpecs m.requirements) notAfter).map
      Requirement.render).map slashes).sum_nat
    rw [hp]
    exact (((distinctSpecs_sublist _).map _).map _).sum_le_sum fun n _ => n.zero_le
  have ho := hd (m.options.map InstallerOption.render)
  have hi := hd (m.includes.map Include.render)
  have he := hd (m.editables.map Editable.render)
  have hl := sum_slashes_parts_le m.lines
  simp only [normalizedEntries, List.map_append, List.sum_append]
  unfold options includes requirements editables at *
  omega

end PinFile.Manifest
