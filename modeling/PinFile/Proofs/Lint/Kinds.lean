import PinFile.Proofs.Lint.Findings
import PinFile.Proofs.Lint.Order
import PinFile.Proofs.Sorting

/-!
# Findings by kind

The findings of one kind in a report come from the one check that makes such findings
(`filter_findings_kind`), put into the order of the report. So where a check finds something for
some items of a list, the findings of its kind correspond to these items
(`exists_forall₂_ofKind`).
-/

namespace PinFile.Lint

variable {sources : List Source} {s : Settings} {kind : FindingKind} {fs : List Finding}

/-! ## The check behind a kind -/

theorem filter_kind {kind' : FindingKind} (h : ∀ f ∈ fs, f.kind = kind') (kind : FindingKind) :
    fs.filter (·.kind == kind) = if kind' = kind then fs else [] := by
  split
  · rename_i he
    exact List.filter_eq_self.mpr fun f hf => beq_iff_eq.mpr ((h f hf).trans he)
  · rename_i hne
    exact List.filter_eq_nil_iff.mpr fun f hf hk => hne ((h f hf).symm.trans (beq_iff_eq.mp hk))

/-- What the check of one kind finds in a package. -/
def packageFindingsOf (kind : FindingKind) (s : Settings) (requireHashes : Bool)
    (group : String × List Occurrence) : List Finding :=
  match kind with
  | .conflictingPin => conflicts group.1 group.2
  | .duplicatePin => duplicates group.1 s group.2
  | .unpinned => (group.2.filter (·.installs)).filterMap (unpinned? group.1 s)
  | .missingHash => (group.2.filter (·.installs)).filterMap (missingHash? group.1 requireHashes)
  | .editableNotLast => []

theorem filter_packageFindings_kind (kind : FindingKind) (s : Settings) (requireHashes : Bool)
    (group : String × List Occurrence) :
    (packageFindings s requireHashes group).filter (·.kind == kind) =
      packageFindingsOf kind s requireHashes group := by
  have hunpinned (o : Occurrence) : ∀ f ∈ (unpinned? group.1 s o).toList, f.kind = .unpinned :=
    fun f hf => (unpinned?_eq_some (Option.mem_toList.mp hf)).2.2.2.1
  have hmissing (o : Occurrence) :
      ∀ f ∈ (missingHash? group.1 requireHashes o).toList, f.kind = .missingHash :=
    fun f hf => (missingHash?_eq_some (Option.mem_toList.mp hf)).2.2.2.1
  unfold packageFindings lineFindings
  rw [List.filter_append, List.filter_append, filter_kind fun f => kind_of_mem_conflicts,
    filter_kind fun f => kind_of_mem_duplicates, List.filter_flatMap]
  simp only [List.filter_append, filter_kind (hunpinned _), filter_kind (hmissing _)]
  cases kind with
  | conflictingPin | duplicatePin | editableNotLast => simp [packageFindingsOf]
  | unpinned | missingHash => simp [packageFindingsOf, List.filterMap_eq_flatMap_toList]

theorem filter_findings_kind (sources : List Source) (s : Settings) (kind : FindingKind) :
    (findings sources s).filter (·.kind == kind) =
      (if .editableNotLast = kind then sources.filterMap editableOrder? else []) ++
        (groupBy (·.package) (occurrences sources s)).flatMap
          (packageFindingsOf kind s (requireHashes sources)) := by
  have heditable : ∀ f ∈ sources.filterMap editableOrder?, f.kind = .editableNotLast := by
    intro f hf
    obtain ⟨source, -, hf⟩ := List.mem_filterMap.mp hf
    exact (editableOrder?_eq_some hf).2.1
  unfold findings
  rw [List.filter_append, filter_kind heditable, List.filter_flatMap]
  simp only [filter_packageFindings_kind]

/-! ## Packages that are left out -/

/-- Of the lines of one package, the checks look at all or at none. -/
theorem filter_occurrences {package : String} {p : Occurrence → Bool}
    (hp : ∀ o, p o = true → o.package = package) (sources : List Source) (s : Settings) :
    (occurrences sources s).filter p =
      if s.isIgnored package then [] else (allOccurrences sources).filter p := by
  have hignored {o : Occurrence} (ho : p o = true) :
      (!s.isIgnored o.package) = !s.isIgnored package := by
    rw [hp o ho]
  unfold occurrences
  rw [List.filter_filter]
  split
  · rename_i hi
    refine List.filter_eq_nil_iff.mpr fun o _ => ?_
    by_cases ho : p o = true
    · simp [hignored ho, hi]
    · simp [ho]
  · rename_i hi
    refine List.filter_congr fun o _ => ?_
    by_cases ho : p o = true
    · simp [hignored ho, hi]
    · simp [ho]

/-! ## Reports -/

theorem ofKind_check (sources : List Source) (s : Settings) (kind : FindingKind) :
    (check sources s).ofKind kind =
      ((findings sources s).filter (·.kind == kind)).mergeSort Finding.notAfter :=
  filter_mergeSort Finding.notAfter_trans Finding.notAfter_total _ _

theorem mem_ofKind_check {f : Finding} : f ∈ (check sources s).ofKind kind ↔
    f ∈ (findings sources s).filter (·.kind == kind) := by
  rw [ofKind_check, List.mem_mergeSort]

/-- The findings of a kind correspond to the items that its check finds something for. -/
theorem exists_forall₂_ofKind {α : Type} {xs : List α} {find : α → Option Finding}
    {Tells : α → Finding → Prop}
    (hfind : ((findings sources s).filter (·.kind == kind)).Perm (xs.filterMap find))
    (htells : ∀ x f, find x = some f → Tells x f) :
    ∃ ys, ys.Perm (xs.filter fun x => (find x).isSome) ∧
      List.Forall₂ Tells ys ((check sources s).ofKind kind) := by
  have hsorted : (xs.filterMap find).Perm ((check sources s).ofKind kind) := by
    rw [ofKind_check]
    exact hfind.symm.trans (List.mergeSort_perm _ _).symm
  obtain ⟨ys, hp, hc⟩ := exists_forall₂_perm (forall₂_filterMap htells xs) hsorted
  exact ⟨ys, hp.symm, hc⟩

end PinFile.Lint
