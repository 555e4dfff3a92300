import PinFile.Proofs.Distinct
import PinFile.Proofs.Lint.Kinds

/-!
# Conflicts

A package and a marker conflict when the lines that declare them have two different targets. The
conflicting pins of a report are one for each such pair, and each of them tells the places of all
lines of its pair that have a target (`conflictingPin_correspond`).
-/

namespace PinFile.Lint

open Text

variable {sources : List Source} {s : Settings} {f : Finding} {package : String}
  {os : List Occurrence} {pair : String × String}

/-- The lines of one package with one marker. -/
def sharing (pair : String × String) (os : List Occurrence) : List Occurrence :=
  os.filter fun o => o.package == pair.1 && o.requirement.environment == pair.2

/-- The lines of one package with one marker that have a target. -/
def targeted (sources : List Source) (pair : String × String) : List Occurrence :=
  (sharing pair (allOccurrences sources)).filter (·.target?.isSome)

/-- Some lines of the package with the marker have different targets. -/
def IsConflict (sources : List Source) (pair : String × String) : Prop :=
  ∃ o ∈ targeted sources pair, ∃ o' ∈ targeted sources pair, o.target? ≠ o'.target?

/-- The finding is about the conflict of a package and a marker. -/
structure IsConflictFinding (sources : List Source) (pair : String × String) (f : Finding) :
    Prop where
  severity : f.severity = .error
  package : f.package = some pair.1
  places : f.locations.Perm ((targeted sources pair).map (·.place))
  sorted : f.locations.Pairwise (Location.notAfter · ·)

/-! ## One package with one marker -/

theorem isSome_conflict?_iff : (conflict? package os).isSome ↔
    ∃ o ∈ os.filter (·.target?.isSome), ∃ o' ∈ os.filter (·.target?.isSome),
      o.target? ≠ o'.target? := by
  have hsome : (conflict? package os).isSome ↔ 1 < (byTarget os).length := by
    unfold conflict?
    dsimp only
    split
    · rename_i hl
      simpa using hl
    · rename_i hl
      simpa using hl
  rw [hsome, byTarget, groupBy, List.length_map, one_lt_length_iff (nodup_ascending _)]
  constructor
  · rintro ⟨x, hx, y, hy, hne⟩
    obtain ⟨o, ho, rfl⟩ := List.mem_map.mp (mem_ascending.mp hx)
    obtain ⟨o', ho', rfl⟩ := List.mem_map.mp (mem_ascending.mp hy)
    exact ⟨o, ho, o', ho', fun he => hne (by rw [he])⟩
  · rintro ⟨o, ho, o', ho', hne⟩
    refine ⟨_, mem_ascending.mpr (List.mem_map_of_mem ho),
      _, mem_ascending.mpr (List.mem_map_of_mem ho'), fun he => hne ?_⟩
    obtain ⟨target, ht⟩ := Option.isSome_iff_exists.mp (List.mem_filter.mp ho).2
    obtain ⟨target', ht'⟩ := Option.isSome_iff_exists.mp (List.mem_filter.mp ho').2
    rw [ht, ht'] at he
    rw [ht, ht']
    exact congrArg some he

theorem locations_of_conflict? (h : conflict? package os = some f) :
    f.locations.Perm ((os.filter (·.target?.isSome)).map (·.place)) ∧
      f.locations.Pairwise (Location.notAfter · ·) := by
  obtain ⟨-, -, -, -, hl⟩ := conflict?_eq_some h
  rw [hl]
  refine ⟨(List.mergeSort_perm _ _).trans ?_,
    List.pairwise_mergeSort Location.notAfter_trans Location.notAfter_total _⟩
  rw [← List.map_flatMap]
  exact (perm_groupBy _ _).map _

/-! ## Packages that are left out -/

theorem mem_sharing {o : Occurrence} :
    o ∈ sharing pair os ↔ o ∈ os ∧ o.package = pair.1 ∧ o.requirement.environment = pair.2 := by
  simp [sharing]

theorem sharing_occurrences (s : Settings) (sources : List Source) (pair : String × String) :
    sharing pair (occurrences sources s) =
      if s.isIgnored pair.1 then [] else sharing pair (allOccurrences sources) :=
  filter_occurrences (fun _ ho => beq_iff_eq.mp (Bool.and_eq_true_iff.mp ho).1) sources s

/-- What a report says on one package with one marker. -/
def conflictOf? (sources : List Source) (s : Settings) (pair : String × String) : Option Finding :=
  conflict? pair.1 (sharing pair (occurrences sources s))

/-- The settings leave a conflict out or do not touch it. -/
theorem isSome_conflictOf?_iff : (conflictOf? sources s pair).isSome ↔
    s.isIgnored pair.1 = false ∧ IsConflict sources pair := by
  rw [conflictOf?, isSome_conflict?_iff, sharing_occurrences]
  cases s.isIgnored pair.1 with
  | true => simp
  | false => simp [IsConflict, targeted]

theorem isConflictFinding_of_conflictOf? (h : conflictOf? sources s pair = some f) :
    IsConflictFinding sources pair f := by
  have hi := (isSome_conflictOf?_iff.mp (Option.isSome_of_eq_some h)).1
  obtain ⟨-, hs, -, hp, -⟩ := conflict?_eq_some h
  obtain ⟨hperm, hsorted⟩ := locations_of_conflict? h
  rw [sharing_occurrences, hi] at hperm
  exact ⟨hs, hp, hperm, hsorted⟩

/-! ## Reports -/

/-- The packages that a report looks at, each with the markers that it is declared with. -/
def declaredPairs (sources : List Source) (s : Settings) : List (String × String) :=
  keyPairs (·.package) (·.requirement.environment) (occurrences sources s)

theorem filter_findings (sources : List Source) (s : Settings) :
    (findings sources s).filter (·.kind == .conflictingPin) =
      (declaredPairs sources s).filterMap (conflictOf? sources s) := by
  rw [filter_findings_kind]
  exact flatMap_groupBy_groupBy conflict? (occurrences sources s)

/-- The conflicting pins of a report correspond one to one to the packages and markers whose lines
have different targets, up to packages that the settings leave out. -/
theorem conflictingPin_correspond (sources : List Source) (s : Settings) :
    ∃ pairs : List (String × String), pairs.Nodup ∧
      (∀ pair, pair ∈ pairs ↔ s.isIgnored pair.1 = false ∧ IsConflict sources pair) ∧
      List.Forall₂ (IsConflictFinding sources) pairs
        ((check sources s).ofKind .conflictingPin) := by
  have hfound : List.Forall₂ (IsConflictFinding sources)
      ((declaredPairs sources s).filter fun pair => (conflictOf? sources s pair).isSome)
      ((findings sources s).filter (·.kind == .conflictingPin)) := by
    rw [filter_findings]
    exact forall₂_filterMap (fun _ _ => isConflictFinding_of_conflictOf?) (declaredPairs sources s)
  obtain ⟨pairs, hperm, hcorr⟩ := exists_forall₂_mergeSort hfound Finding.notAfter
  refine ⟨pairs, hperm.nodup ((nodup_keyPairs _ _ _).filter _), fun pair => ?_, ?_⟩
  · rw [← hperm.mem_iff, List.mem_filter, isSome_conflictOf?_iff]
    refine and_iff_right_of_imp fun ⟨hi, o, ho, _⟩ => ?_
    have hshare : o ∈ sharing pair (occurrences sources s) := by
      rw [sharing_occurrences, hi]
      exact (List.mem_filter.mp ho).1
    obtain ⟨ho, hkeys⟩ := mem_sharing.mp hshare
    exact mem_keyPairs.mpr ⟨o, ho, hkeys⟩
  · rw [ofKind_check]
    exact hcorr

end PinFile.Lint
