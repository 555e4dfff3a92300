import PinFile.Proofs.Lint.Findings
import PinFile.Proofs.Lint.Order
import PinFile.Proofs.Sorting
import PinFile.Proofs.Text.Ascending

/-!
# What settings change

Settings leave findings out and grade them, and do nothing else: a report under any settings is
the report under the standard ones, filtered by `isWanted` and mapped by `grade`
(`check_eq_map_filter`). Packages are checked one by one, so leaving one out before the checks
comes to the same as leaving its findings out of the report.
-/

namespace PinFile.Lint

open Text

/-- The settings do not leave a finding out. -/
def isWanted (s : Settings) (f : Finding) : Bool :=
  !f.package.any s.isIgnored && !(s.allowUnpinned && f.kind == .unpinned)

/-- The finding with the severity that the settings give it. -/
def grade (s : Settings) (f : Finding) : Finding :=
  if s.denyDuplicates && f.kind == .duplicatePin then { f with severity := .error } else f

variable {s : Settings} {f : Finding} {package : String} {os : List Occurrence}

theorem grade_of_kind_ne (h : f.kind ≠ .duplicatePin) : grade s f = f := by
  simp [grade, h]

theorem notAfter_grade (s : Settings) (a b : Finding) :
    Finding.notAfter (grade s a) (grade s b) = Finding.notAfter a b := by
  have hkey (f : Finding) : (grade s f).key = f.key := by
    unfold grade
    split <;> rfl
  rw [Bool.eq_iff_iff, Finding.notAfter_iff, Finding.notAfter_iff, hkey, hkey]

/-- What the settings make of findings that come under the standard ones. -/
def adjust (s : Settings) (fs : List Finding) : List Finding :=
  (fs.filter (isWanted s)).map (grade s)

theorem adjust_append (s : Settings) (fs gs : List Finding) :
    adjust s (fs ++ gs) = adjust s fs ++ adjust s gs := by
  rw [adjust, List.filter_append, List.map_append]
  rfl

theorem adjust_flatMap {α : Type} (s : Settings) (xs : List α) (g : α → List Finding) :
    adjust s (xs.flatMap g) = xs.flatMap fun x => adjust s (g x) := by
  rw [adjust, List.filter_flatMap, List.map_flatMap]
  rfl

theorem adjust_mergeSort (s : Settings) (fs : List Finding) :
    adjust s (fs.mergeSort Finding.notAfter) = (adjust s fs).mergeSort Finding.notAfter := by
  unfold adjust
  rw [filter_mergeSort Finding.notAfter_trans Finding.notAfter_total]
  exact List.map_mergeSort fun a _ b _ => (notAfter_grade s a b).symm

theorem adjust_eq_self {fs : List Finding}
    (h : ∀ f ∈ fs, isWanted s f = true ∧ f.kind ≠ .duplicatePin) : adjust s fs = fs := by
  unfold adjust
  rw [List.filter_eq_self.mpr fun f hf => (h f hf).1]
  exact (List.map_congr_left fun f hf => grade_of_kind_ne (h f hf).2).trans (List.map_id fs)

theorem adjust_eq_nil {fs : List Finding} (h : ∀ f ∈ fs, isWanted s f = false) :
    adjust s fs = [] := by
  unfold adjust
  rw [List.filter_eq_nil_iff.mpr fun f hf => by simp [h f hf], List.map_nil]

/-! ## One package -/

theorem isWanted_of_isIgnored (hp : f.package = some package) (hi : s.isIgnored package = true) :
    isWanted s f = false := by
  simp [isWanted, hp, hi]

section

variable (hi : s.isIgnored package = false)
include hi

theorem isWanted_of_kind_ne (hp : f.package = some package) (hk : f.kind ≠ .unpinned) :
    isWanted s f = true := by
  simp [isWanted, hp, hi, hk]

theorem adjust_conflicts (os : List Occurrence) :
    adjust s (conflicts package os) = conflicts package os := by
  refine adjust_eq_self fun f hf => ?_
  obtain ⟨group, -, hc⟩ := List.mem_filterMap.mp hf
  obtain ⟨-, -, hk, hp, -⟩ := conflict?_eq_some hc
  exact ⟨isWanted_of_kind_ne hi hp (by simp [hk]), by simp [hk]⟩

omit hi in
theorem duplicate?_eq_map (s : Settings) (package : String) (os : List Occurrence) :
    duplicate? package s os = (duplicate? package .standard os).map (grade s) := by
  unfold duplicate?
  split
  · cases hd : s.denyDuplicates <;> simp [grade, hd, Settings.standard]
  · rfl

theorem adjust_duplicates (os : List Occurrence) :
    adjust s (duplicates package .standard os) = duplicates package s os := by
  have hwanted : (duplicates package .standard os).filter (isWanted s) =
      duplicates package .standard os := by
    refine List.filter_eq_self.mpr fun f hf => ?_
    obtain ⟨group, -, hd⟩ := List.mem_filterMap.mp hf
    obtain ⟨-, -, hk, hp, -⟩ := duplicate?_eq_some hd
    exact isWanted_of_kind_ne hi hp (by simp [hk])
  unfold adjust
  rw [hwanted, duplicates, duplicates, List.map_filterMap]
  exact List.filterMap_congr fun group _ => (duplicate?_eq_map s package group.2).symm

theorem adjust_unpinned? (o : Occurrence) :
    adjust s (unpinned? package .standard o).toList = (unpinned? package s o).toList := by
  cases hu : unpinned? package .standard o with
  | none =>
    have ht : o.target?.isSome = true := by
      by_contra hn
      simp [unpinned?, Settings.standard, hn] at hu
    have hnone : unpinned? package s o = none := by
      simp [unpinned?, ht]
    rw [hnone]
    rfl
  | some f =>
    obtain ⟨-, ht, -, hk, hp, -⟩ := unpinned?_eq_some hu
    have hw : isWanted s f = !s.allowUnpinned := by
      simp [isWanted, hp, hi, hk]
    have hs : unpinned? package s o = if s.allowUnpinned then none else some f := by
      rw [← hu]
      simp [unpinned?, ht, Settings.standard]
    rw [hs]
    cases ha : s.allowUnpinned with
    | true => exact adjust_eq_nil (by simp [hw, ha])
    | false => exact adjust_eq_self (by simp [hw, ha, hk])

theorem adjust_missingHash? (requireHashes : Bool) (o : Occurrence) :
    adjust s (missingHash? package requireHashes o).toList =
      (missingHash? package requireHashes o).toList := by
  refine adjust_eq_self fun f hf => ?_
  obtain ⟨-, -, -, hk, hp, -⟩ := missingHash?_eq_some (Option.mem_toList.mp hf)
  exact ⟨isWanted_of_kind_ne hi hp (by simp [hk]), by simp [hk]⟩

theorem adjust_lineFindings (requireHashes : Bool) (os : List Occurrence) :
    adjust s (lineFindings package .standard requireHashes os) =
      lineFindings package s requireHashes os := by
  unfold lineFindings
  rw [adjust_flatMap]
  refine List.flatMap_congr fun o _ => ?_
  rw [adjust_append, adjust_unpinned? hi, adjust_missingHash? hi]

end

/-- The findings on a package, or none if the package is left out. -/
theorem adjust_packageFindings (s : Settings) (requireHashes : Bool)
    (group : String × List Occurrence) :
    adjust s (packageFindings .standard requireHashes group) =
      if s.isIgnored group.1 then [] else packageFindings s requireHashes group := by
  cases hi : s.isIgnored group.1 with
  | true =>
    exact adjust_eq_nil fun f hf => isWanted_of_isIgnored (package_of_mem_packageFindings hf) hi
  | false =>
    unfold packageFindings
    rw [adjust_append, adjust_append, adjust_conflicts hi, adjust_duplicates hi,
      adjust_lineFindings hi]
    rfl

/-! ## Reports -/

theorem adjust_editableOrder? (s : Settings) (sources : List Source) :
    adjust s (sources.filterMap editableOrder?) = sources.filterMap editableOrder? := by
  refine adjust_eq_self fun f hf => ?_
  obtain ⟨source, -, he⟩ := List.mem_filterMap.mp hf
  obtain ⟨-, hk, hp⟩ := editableOrder?_eq_some he
  exact ⟨by simp [isWanted, hk, hp], by simp [hk]⟩

theorem groupBy_occurrences (s : Settings) (sources : List Source) :
    groupBy (·.package) (occurrences sources s) =
      (groupBy (·.package) (occurrences sources .standard)).filter fun group =>
        !s.isIgnored group.1 := by
  have hall : occurrences sources .standard = allOccurrences sources :=
    List.filter_eq_self.mpr fun _ _ => rfl
  rw [hall, ← groupBy_filter fun package => !s.isIgnored package]
  rfl

theorem adjust_findings (s : Settings) (sources : List Source) :
    adjust s (findings sources .standard) = findings sources s := by
  unfold findings
  rw [adjust_append, adjust_editableOrder?, adjust_flatMap, groupBy_occurrences s,
    flatMap_filter]
  refine congrArg _ (List.flatMap_congr fun group _ => ?_)
  rw [adjust_packageFindings]
  cases s.isIgnored group.1 <;> rfl

/-- A report under any settings is the report under the standard ones without the findings that
the settings leave out, and with repetitions taken as gravely as they say. The severity from which
on a check fails has no part in it. -/
theorem check_eq_map_filter (sources : List Source) (s : Settings) :
    (check sources s).findings =
        ((check sources .standard).findings.filter (isWanted s)).map (grade s) ∧
      ∀ failOn, check sources { s with failOn } = check sources s := by
  refine ⟨?_, fun _ => rfl⟩
  change (findings sources s).mergeSort Finding.notAfter =
    adjust s ((findings sources .standard).mergeSort Finding.notAfter)
  rw [adjust_mergeSort, adjust_findings]

/-- Two packages that are pinned twice, and one that is not pinned. -/
def repeated : List Source := [⟨none, .requirements, ⟨[
  ⟨1, .requirement ⟨"attrs", [], [⟨.equal, "22"⟩], none, none, []⟩, none⟩,
  ⟨2, .requirement ⟨"attrs", [], [⟨.equal, "22"⟩], none, none, []⟩, none⟩,
  ⟨3, .requirement ⟨"click", [], [], none, none, []⟩, none⟩,
  ⟨4, .requirement ⟨"Flask", [], [⟨.equal, "1"⟩], none, none, []⟩, none⟩,
  ⟨5, .requirement ⟨"flask", [], [⟨.equal, "1"⟩], none, none, []⟩, none⟩]⟩⟩]

def strict : Settings := ⟨true, true, .info, ["Attrs"]⟩

/-- What a finding is about, without its places and its message. -/
def topic (f : Finding) : Option String × FindingKind × Severity := (f.package, f.kind, f.severity)

theorem check_repeated : (check repeated .standard).findings.map topic =
    [(some "attrs", .duplicatePin, .warning), (some "click", .unpinned, .warning),
      (some "flask", .duplicatePin, .warning)] := by
  have hsorted : (check repeated .standard).findings = findings repeated .standard :=
    List.mergeSort_of_pairwise (by decide +kernel)
  rw [hsorted]
  decide +kernel

/-- One package is ignored, the unpinned one is allowed, and the last finding becomes an error. -/
theorem check_eq_map_filter_repeated :
    (check repeated .standard).findings.map topic =
      [(some "attrs", .duplicatePin, .warning), (some "click", .unpinned, .warning),
        (some "flask", .duplicatePin, .warning)] ∧
    (check repeated strict).findings =
      ((check repeated .standard).findings.filter (isWanted strict)).map (grade strict) ∧
    (check repeated strict).findings.map topic = [(some "flask", .duplicatePin, .error)] ∧
    check repeated { strict with failOn := .error } = check repeated strict :=
  ⟨check_repeated, (check_eq_map_filter repeated strict).1, by decide +kernel,
    (check_eq_map_filter repeated strict).2 .error⟩

end PinFile.Lint
