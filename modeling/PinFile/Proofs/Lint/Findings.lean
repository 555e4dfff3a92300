import PinFile.Manifest.Layout
import PinFile.Proofs.Lint.Groups

/-!
# Findings of each kind

A finding on a package is of the kind of the check that makes it, so a duplicate pin in a report
comes from the check for repetitions. It needs two requirements with one specification key
(`duplicates_eq_nil`), and an editable install that is not last needs a requirement with a greater
number (`editableOrder?_eq_none`).
-/

namespace PinFile.Lint

variable {source : Source} {s : Settings} {f : Finding} {package : String} {os : List Occurrence}

/-! ## What each check says -/

theorem conflict?_eq_some (h : conflict? package os = some f) : 1 < (byTarget os).length ∧
    f.severity = .error ∧ f.kind = .conflictingPin ∧ f.package = some package ∧
    f.locations =
      ((byTarget os).flatMap fun g => g.2.map (·.place)).mergeSort Location.notAfter := by
  unfold conflict? at h
  dsimp only at h
  split at h
  · cases h
  · rename_i hl
    cases h
    exact ⟨not_le.mp hl, rfl, rfl, rfl, rfl⟩

theorem duplicate?_eq_some (h : duplicate? package s os = some f) : 1 < os.length ∧
    f.severity = (if s.denyDuplicates then .error else .warning) ∧ f.kind = .duplicatePin ∧
    f.package = some package ∧ f.locations = os.map (·.place) := by
  unfold duplicate? at h
  split at h
  · cases h
    exact ⟨by simp, rfl, rfl, rfl, rfl⟩
  · cases h

theorem unpinned?_eq_some {o : Occurrence} (h : unpinned? package s o = some f) :
    s.allowUnpinned = false ∧ o.target? = none ∧ f.severity = .warning ∧ f.kind = .unpinned ∧
      f.package = some package ∧ f.locations = [o.place] := by
  unfold unpinned? at h
  split at h
  · cases h
  · rename_i hu
    cases h
    rw [Bool.or_eq_true, not_or] at hu
    exact ⟨by simpa using hu.1, by simpa using hu.2, rfl, rfl, rfl, rfl⟩

theorem missingHash?_eq_some {requireHashes : Bool} {o : Occurrence}
    (h : missingHash? package requireHashes o = some f) :
    requireHashes = true ∧ o.requirement.hashes = [] ∧ f.severity = .error ∧
      f.kind = .missingHash ∧ f.package = some package ∧ f.locations = [o.place] := by
  unfold missingHash? at h
  split at h
  · rename_i hm
    cases h
    rw [Bool.and_eq_true] at hm
    exact ⟨hm.1, List.isEmpty_iff.mp hm.2, rfl, rfl, rfl, rfl⟩
  · cases h

theorem editableOrder?_eq_some (h : editableOrder? source = some f) :
    f.severity = .info ∧ f.kind = .editableNotLast ∧ f.package = none := by
  obtain ⟨-, -, h⟩ := Option.bind_eq_some_iff.mp h
  obtain ⟨⟨line, editable⟩, -, h⟩ := Option.bind_eq_some_iff.mp h
  obtain ⟨-, -, h⟩ := Option.bind_eq_some_iff.mp h
  cases h
  exact ⟨rfl, rfl, rfl⟩

/-! ## Kinds -/

theorem kind_of_mem_conflicts (h : f ∈ conflicts package os) : f.kind = .conflictingPin := by
  obtain ⟨group, -, h⟩ := List.mem_filterMap.mp h
  exact (conflict?_eq_some h).2.2.1

theorem kind_of_mem_duplicates (h : f ∈ duplicates package s os) : f.kind = .duplicatePin := by
  obtain ⟨group, -, h⟩ := List.mem_filterMap.mp h
  exact (duplicate?_eq_some h).2.2.1

theorem mem_lineFindings {requireHashes : Bool} (h : f ∈ lineFindings package s requireHashes os) :
    ∃ o ∈ os, o.installs = true ∧
      (unpinned? package s o = some f ∨ missingHash? package requireHashes o = some f) := by
  obtain ⟨o, ho, h⟩ := List.mem_flatMap.mp h
  obtain ⟨ho, hi⟩ := List.mem_filter.mp ho
  rw [List.mem_append, Option.mem_toList, Option.mem_toList] at h
  exact ⟨o, ho, hi, h⟩

theorem kind_of_mem_lineFindings {requireHashes : Bool}
    (h : f ∈ lineFindings package s requireHashes os) :
    f.kind = .unpinned ∨ f.kind = .missingHash := by
  obtain ⟨o, -, -, h | h⟩ := mem_lineFindings h
  · exact .inl (unpinned?_eq_some h).2.2.2.1
  · exact .inr (missingHash?_eq_some h).2.2.2.1

/-- A duplicate pin is found by the check for repetitions alone. -/
theorem kind_of_mem_packageFindings {requireHashes : Bool} {group : String × List Occurrence}
    (h : f ∈ packageFindings s requireHashes group) :
    f ∈ duplicates group.1 s group.2 ∨
      f.kind = .conflictingPin ∨ f.kind = .unpinned ∨ f.kind = .missingHash := by
  rcases List.mem_append.mp h with h | h
  · rcases List.mem_append.mp h with h | h
    · exact .inr (.inl (kind_of_mem_conflicts h))
    · exact .inl h
  · exact .inr (.inr (kind_of_mem_lineFindings h))

/-- A finding on a group names the package of the group. -/
theorem package_of_mem_packageFindings {requireHashes : Bool} {group : String × List Occurrence}
    (h : f ∈ packageFindings s requireHashes group) : f.package = some group.1 := by
  rcases List.mem_append.mp h with h | h
  · rcases List.mem_append.mp h with h | h
    · obtain ⟨g, -, h⟩ := List.mem_filterMap.mp h
      exact (conflict?_eq_some h).2.2.2.1
    · obtain ⟨g, -, h⟩ := List.mem_filterMap.mp h
      exact (duplicate?_eq_some h).2.2.2.1
  · obtain ⟨o, -, -, h | h⟩ := mem_lineFindings h
    · exact (unpinned?_eq_some h).2.2.2.2.1
    · exact (missingHash?_eq_some h).2.2.2.2.1

/-! ## No repetitions -/

theorem duplicate?_eq_none (h : os.length ≤ 1) : duplicate? package s os = none := by
  unfold duplicate?
  split
  · rw [List.length_cons, List.length_cons] at h
    omega
  · rfl

theorem duplicates_eq_nil
    (h : os.Pairwise fun a b => a.requirement.specKey ≠ b.requirement.specKey) :
    duplicates package s os = [] := by
  refine List.filterMap_eq_nil_iff.mpr fun group hg => duplicate?_eq_none ?_
  rw [mem_groupBy hg]
  exact length_le_one_of_pairwise (h.filter _)

theorem map_requirement_occurrencesIn (source : Source) :
    (occurrencesIn source).map (·.requirement) = source.manifest.requirements := by
  simp [occurrencesIn, Manifest.declarations, Manifest.requirements, List.map_filterMap,
    Function.comp_def]

/-- A manifest whose requirements all ask for different things repeats none of them. -/
theorem duplicates_eq_nil_of_pairwise {group : String × List Occurrence}
    (h : source.manifest.requirements.Pairwise fun a b => Manifest.sameSpec a b = false)
    (hg : group ∈ groupBy (·.package) (occurrences [source] s)) :
    duplicates group.1 s group.2 = [] := by
  rw [← map_requirement_occurrencesIn, List.pairwise_map] at h
  have hos : occurrences [source] s =
      (occurrencesIn source).filter fun o => !s.isIgnored o.package := by
    rw [occurrences, allOccurrences, List.flatMap_singleton]
  rw [mem_groupBy hg, hos]
  refine duplicates_eq_nil (((h.filter _).filter _).imp_of_mem fun {a b} ha hb hab hk => ?_)
  have hp : a.package = b.package := by
    have ha := beq_iff_eq.mp (List.mem_filter.mp ha).2
    exact ha.trans (beq_iff_eq.mp (List.mem_filter.mp hb).2).symm
  have hs : Manifest.sameSpec a.requirement b.requirement = true :=
    Bool.and_eq_true_iff.mpr ⟨beq_iff_eq.mpr hp, beq_iff_eq.mpr hk⟩
  rw [hs] at hab
  cases hab

/-! ## Editable installs at the end -/

theorem firstEditable?_eq_some {m : Manifest} {n : Nat} {e : Editable}
    (h : firstEditable? m = some (n, e)) :
    ∃ line ∈ m.lines, line.number = n ∧ line.editable? = some e := by
  obtain ⟨line, hl, h⟩ := List.exists_of_findSome?_eq_some h
  obtain ⟨e', he, h⟩ := Option.map_eq_some_iff.mp h
  cases h
  exact ⟨line, hl, rfl, he⟩

/-- No requirement stands behind an editable install. -/
theorem editableOrder?_eq_none
    (h : ∀ a ∈ source.manifest.lines, ∀ b ∈ source.manifest.lines,
      a.editable?.isSome = true → b.requirement?.isSome = true → b.number ≤ a.number) :
    editableOrder? source = none := by
  unfold editableOrder?
  cases source.kind == .requirements with
  | false => rfl
  | true =>
    cases he : firstEditable? source.manifest with
    | none => rfl
    | some first =>
      obtain ⟨n, e⟩ := first
      obtain ⟨a, ha, rfl, hea⟩ := firstEditable?_eq_some he
      have hz : source.manifest.declarations.countP (a.number < ·.line) = 0 := by
        refine List.countP_eq_zero.mpr fun d hd => ?_
        obtain ⟨b, hb, hd⟩ := List.mem_filterMap.mp hd
        obtain ⟨r, hr, rfl⟩ := Option.map_eq_some_iff.mp hd
        have := h a ha b hb (by simp [hea]) (by simp [hr])
        simpa using this
      change (guard (source.manifest.declarations.countP (a.number < ·.line) != 0) >>= _) = none
      rw [hz]
      rfl

/-! ## Reports -/

theorem mem_findings_singleton (h : f ∈ (check [source] s).findings) :
    editableOrder? source = some f ∨ ∃ group ∈ groupBy (·.package) (occurrences [source] s),
      f ∈ packageFindings s (requireHashes [source]) group := by
  rcases List.mem_append.mp (List.mem_mergeSort.mp h) with h | h
  · obtain ⟨source', hm, h⟩ := List.mem_filterMap.mp h
    rw [List.mem_singleton.mp hm] at h
    exact .inl h
  · exact .inr (List.mem_flatMap.mp h)

section Report

variable (hr : source.manifest.requirements.Pairwise fun a b => Manifest.sameSpec a b = false)
  (he : editableOrder? source = none)
include hr he

theorem kind_of_mem_findings_singleton (h : f ∈ (check [source] s).findings) :
    f.kind = .conflictingPin ∨ f.kind = .unpinned ∨ f.kind = .missingHash := by
  rcases mem_findings_singleton h with h | ⟨group, hg, h⟩
  · rw [he] at h
    cases h
  · refine (kind_of_mem_packageFindings h).resolve_left fun hd => ?_
    rw [duplicates_eq_nil_of_pairwise hr hg] at hd
    cases hd

/-- Where the requirements all ask for different things and none stands behind an editable
install, no finding is a duplicate pin or an editable install that is not last. -/
theorem ofKind_eq_nil : (check [source] s).ofKind .duplicatePin = [] ∧
    (check [source] s).ofKind .editableNotLast = [] := by
  have hkind := fun f => kind_of_mem_findings_singleton (f := f) (s := s) hr he
  constructor
  · refine List.filter_eq_nil_iff.mpr fun f hf => ?_
    rcases hkind f hf with h | h | h <;> simp [h]
  · refine List.filter_eq_nil_iff.mpr fun f hf => ?_
    rcases hkind f hf with h | h | h <;> simp [h]

end Report

end PinFile.Lint
