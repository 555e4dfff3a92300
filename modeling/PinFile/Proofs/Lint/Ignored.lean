import PinFile.Proofs.Json.Numbers
import PinFile.Proofs.Lint.Exact

/-!
# Packages that are left out

Requirements that the settings leave out can be taken out of the manifests, and the checks of
packages find the same (`packagesFindings_leaveOut`). The check for editable installs counts all
requirements behind the first one, so it finds the same only where none of those is left out.
Its finding tells the count (`toldCount_editableOrder?`), hence two reports are equal only where
the counts agree (`check_leaveOut`).
-/

namespace PinFile

/-- The manifest without the requirements that the settings leave out. -/
def Manifest.leaveOut (s : Settings) (m : Manifest) : Manifest where
  lines := m.lines.filter fun line => !line.requirement?.any fun r => s.isIgnored r.package

def Source.leaveOut (s : Settings) (source : Source) : Source :=
  { source with manifest := source.manifest.leaveOut s }

namespace Lint

open Text

variable {s : Settings} {source : Source} {sources : List Source} {f : Finding} {m : Manifest}

/-! ## What is left -/

/-- What is read from other lines than requirements is still there. -/
theorem filterMap_leaveOut {β : Type} {read : Line → Option β}
    (h : ∀ n r comment, read ⟨n, .requirement r, comment⟩ = none) (s : Settings) (m : Manifest) :
    (m.leaveOut s).lines.filterMap read = m.lines.filterMap read := by
  unfold Manifest.leaveOut
  rw [List.filterMap_filter]
  refine List.filterMap_congr fun ⟨n, entry, comment⟩ _ => ?_
  cases entry with
  | requirement r =>
    rw [h]
    exact ite_self none
  | editable | includeFile | option | comment | blank => rfl

theorem requiresHashes_leaveOut (s : Settings) (m : Manifest) :
    (m.leaveOut s).requiresHashes = m.requiresHashes := by
  have hoptions : (m.leaveOut s).options = m.options :=
    filterMap_leaveOut (fun _ _ _ => rfl) s m
  rw [Manifest.requiresHashes, hoptions, Manifest.requiresHashes]

theorem firstEditable?_leaveOut (s : Settings) (m : Manifest) :
    firstEditable? (m.leaveOut s) = firstEditable? m := by
  unfold firstEditable?
  rw [← List.head?_filterMap, ← List.head?_filterMap, filterMap_leaveOut fun _ _ _ => rfl]

theorem declarations_leaveOut (s : Settings) (m : Manifest) : (m.leaveOut s).declarations =
    m.declarations.filter fun d => !s.isIgnored d.requirement.package := by
  unfold Manifest.declarations Manifest.leaveOut
  rw [List.filterMap_filter, List.filter_filterMap]
  refine List.filterMap_congr fun line _ => ?_
  cases line.requirement? with
  | none => rfl
  | some r => cases hi : s.isIgnored r.package <;> simp [hi, Option.filter]

theorem occurrences_leaveOut (sources : List Source) (s : Settings) :
    occurrences (sources.map (·.leaveOut s)) s = occurrences sources s := by
  unfold occurrences allOccurrences
  rw [List.flatMap_map, List.filter_flatMap, List.filter_flatMap]
  refine List.flatMap_congr fun source _ => ?_
  unfold occurrencesIn
  rw [List.filter_map, List.filter_map]
  change ((source.manifest.leaveOut s).declarations.filter _).map _ = _
  rw [declarations_leaveOut, List.filter_filter]
  refine congrArg _ (List.filter_congr fun d _ => Bool.and_self _)

theorem requireHashes_leaveOut (sources : List Source) (s : Settings) :
    requireHashes (sources.map (·.leaveOut s)) = requireHashes sources := by
  unfold requireHashes
  rw [List.any_map]
  exact congrArg _ (funext fun source => requiresHashes_leaveOut s source.manifest)

/-- What is found in packages. -/
def packagesFindings (sources : List Source) (s : Settings) : List Finding :=
  (groupBy (·.package) (occurrences sources s)).flatMap (packageFindings s (requireHashes sources))

theorem findings_eq (sources : List Source) (s : Settings) :
    findings sources s = sources.filterMap editableOrder? ++ packagesFindings sources s := rfl

theorem packagesFindings_leaveOut (sources : List Source) (s : Settings) :
    packagesFindings (sources.map (·.leaveOut s)) s = packagesFindings sources s := by
  unfold packagesFindings
  rw [occurrences_leaveOut, requireHashes_leaveOut]

/-! ## Behind the first editable install -/

/-- The requirements that a source installs behind its first editable install. -/
def declarationsBehind (source : Source) : List Declaration :=
  match source.kind, firstEditable? source.manifest with
  | .requirements, some first => source.manifest.declarations.filter (first.1 < ·.line)
  | _, _ => []

def editableFinding (path : Option String) (first : Nat × Editable) (trailing : Nat) : Finding where
  severity := .info
  kind := .editableNotLast
  package := none
  locations := [⟨path, first.1⟩]
  message := "editable install `" ++ first.2.render ++ "` is followed by " ++ toString trailing
    ++ " requirement(s)"

theorem editableOrder?_eq (source : Source) : editableOrder? source =
    if (declarationsBehind source).length = 0 then none
    else (firstEditable? source.manifest).map fun first =>
      editableFinding source.path first (declarationsBehind source).length := by
  unfold editableOrder? declarationsBehind
  cases source.kind with
  | constraints => rfl
  | requirements =>
    cases firstEditable? source.manifest with
    | none => rfl
    | some first =>
      dsimp only
      rw [← List.countP_eq_length_filter]
      change (guard (source.manifest.declarations.countP (first.1 < ·.line) != 0) >>= fun _ =>
        some (editableFinding _ _ _)) = _
      cases source.manifest.declarations.countP (first.1 < ·.line) with
      | zero => rfl
      | succ n => rfl

theorem declarationsBehind_leaveOut (s : Settings) (source : Source) :
    declarationsBehind (source.leaveOut s) =
      (declarationsBehind source).filter fun d => !s.isIgnored d.requirement.package := by
  unfold declarationsBehind Source.leaveOut
  dsimp only
  rw [firstEditable?_leaveOut, declarations_leaveOut]
  cases source.kind with
  | constraints => rfl
  | requirements =>
    cases firstEditable? source.manifest with
    | none => rfl
    | some first => exact List.filter_comm _ _ _

/-- The number that a finding ends with, in front of ` requirement(s)`. -/
def toldCount (f : Finding) : Nat :=
  ofDecimal ((f.message.toList.reverse.drop 15).takeWhile Char.isDigit).reverse

theorem toldCount_editableFinding (path : Option String) (first : Nat × Editable) (n : Nat) :
    toldCount (editableFinding path first n) = n := by
  have hdigits : ∀ c ∈ (decimal n).reverse, c.isDigit = true := fun c hc =>
    Json.isDigit_of_mem_decimal c (List.mem_reverse.mp hc)
  have hmessage : (editableFinding path first n).message.toList.reverse.drop 15 =
      (decimal n).reverse ++ ' ' ::
        ("editable install `" ++ first.2.render ++ "` is followed by").toList.reverse := by
    simp [editableFinding, decimal]
  rw [toldCount, hmessage, List.takeWhile_append_of_pos hdigits,
    List.takeWhile_cons_of_neg (by decide), List.append_nil, List.reverse_reverse,
    ofDecimal_decimal]

theorem toldCount_editableOrder? (source : Source) :
    ((editableOrder? source).map toldCount).getD 0 = (declarationsBehind source).length := by
  rw [editableOrder?_eq]
  split
  · rename_i h
    exact h.symm
  · rename_i h
    cases hf : firstEditable? source.manifest with
    | none =>
      refine absurd ?_ h
      unfold declarationsBehind
      rw [hf]
      cases source.kind <;> rfl
    | some first => exact toldCount_editableFinding _ _ _

/-- All counts that are told come to all requirements behind editable installs. -/
theorem sum_toldCount (sources : List Source) :
    ((sources.filterMap editableOrder?).map toldCount).sum =
      (sources.flatMap declarationsBehind).length := by
  induction sources with
  | nil => rfl
  | cons source sources ih =>
    have hcount := toldCount_editableOrder? source
    rw [List.flatMap_cons, List.length_append, ← ih, ← hcount, List.filterMap_cons]
    cases editableOrder? source with
    | none => simp
    | some f => simp

/-- No requirement that the settings leave out stands behind the first editable install of a source
that is installed. -/
def NoneLeftOutBehind (s : Settings) (sources : List Source) : Prop :=
  ∀ source ∈ sources, ∀ d ∈ declarationsBehind source, s.isIgnored d.requirement.package = false

theorem editableOrder?_leaveOut
    (h : ∀ d ∈ declarationsBehind source, s.isIgnored d.requirement.package = false) :
    editableOrder? (source.leaveOut s) = editableOrder? source := by
  have hbehind : declarationsBehind (source.leaveOut s) = declarationsBehind source := by
    rw [declarationsBehind_leaveOut]
    exact List.filter_eq_self.mpr fun d hd => by rw [h d hd]; rfl
  rw [editableOrder?_eq, editableOrder?_eq, hbehind]
  change (if _ then none else (firstEditable? (source.manifest.leaveOut s)).map _) = _
  rw [firstEditable?_leaveOut]
  rfl

/-- The same counts are told only where nothing that counts is left out. -/
theorem noneLeftOutBehind_of_perm
    (h : ((sources.map (·.leaveOut s)).filterMap editableOrder?).Perm
      (sources.filterMap editableOrder?)) : NoneLeftOutBehind s sources := by
  have hsum := (h.map toldCount).sum_nat
  rw [sum_toldCount, sum_toldCount, List.flatMap_map,
    List.flatMap_congr fun source _ => declarationsBehind_leaveOut s source,
    ← List.filter_flatMap, List.length_filter_eq_length_iff] at hsum
  intro source hsource d hd
  simpa using hsum d (List.mem_flatMap.mpr ⟨source, hsource, hd⟩)

/-! ## Reports -/

theorem ofKind_leaveOut {kind : FindingKind} (hk : kind ≠ .editableNotLast)
    (sources : List Source) (s : Settings) :
    (check (sources.map (·.leaveOut s)) s).ofKind kind = (check sources s).ofKind kind := by
  rw [ofKind_check, ofKind_check, filter_findings_kind, filter_findings_kind, if_neg hk.symm,
    if_neg hk.symm, occurrences_leaveOut, requireHashes_leaveOut]

/-- An editable install that is not last is too light a fault to count. -/
theorem exceeds_check {threshold : Severity} (ht : threshold ≠ .info) (sources : List Source)
    (s : Settings) : (check sources s).exceeds threshold =
      (packagesFindings sources s).any fun f => threshold.rank ≤ f.severity.rank := by
  have hlight : (sources.filterMap editableOrder?).any
      (fun f => decide (threshold.rank ≤ f.severity.rank)) = false := by
    refine List.any_eq_false.mpr fun f hf => ?_
    obtain ⟨source, -, hf⟩ := List.mem_filterMap.mp hf
    rw [(editableOrder?_eq_some hf).1]
    cases threshold with
    | info => exact absurd rfl ht
    | warning | error => decide
  unfold Report.exceeds check
  rw [(List.mergeSort_perm _ _).any_eq, findings_eq, List.any_append, hlight, Bool.false_or]

/-- Without the requirements that the settings leave out, a report has the same findings of every
kind but one and is as grave above the least severity; and it is the same exactly where none of
these requirements is counted behind an editable install. -/
theorem check_leaveOut (sources : List Source) (s : Settings) :
    (∀ kind, kind ≠ .editableNotLast →
      (check (sources.map (·.leaveOut s)) s).ofKind kind = (check sources s).ofKind kind) ∧
    (∀ threshold, threshold ≠ .info →
      (check (sources.map (·.leaveOut s)) s).exceeds threshold =
        (check sources s).exceeds threshold) ∧
    (check (sources.map (·.leaveOut s)) s = check sources s ↔ NoneLeftOutBehind s sources) := by
  refine ⟨fun kind hk => ofKind_leaveOut hk sources s, fun threshold ht => ?_, fun h => ?_,
    fun h => ?_⟩
  · rw [exceeds_check ht, exceeds_check ht, packagesFindings_leaveOut]
  · have hperm : (findings (sources.map (·.leaveOut s)) s).Perm (findings sources s) := by
      have hsorted := List.Perm.of_eq (congrArg Report.findings h)
      exact (List.mergeSort_perm _ _).symm.trans (hsorted.trans (List.mergeSort_perm _ _))
    rw [findings_eq, findings_eq, packagesFindings_leaveOut] at hperm
    exact noneLeftOutBehind_of_perm ((List.perm_append_right_iff _).mp hperm)
  · have heditable : (sources.map (·.leaveOut s)).filterMap editableOrder? =
        sources.filterMap editableOrder? := by
      rw [List.filterMap_map]
      exact List.filterMap_congr fun source hs => editableOrder?_leaveOut (h source hs)
    unfold check
    rw [findings_eq, findings_eq, heditable, packagesFindings_leaveOut]

def followedText : String := "-e .\nclick==8.1.3\n"

/-- An editable install with one requirement behind it. -/
def followed : Manifest := ⟨[
  ⟨1, .editable ⟨"."⟩, none⟩,
  ⟨2, .requirement ⟨"click", [], [⟨.equal, "8.1.3"⟩], none, none, []⟩, none⟩]⟩

def withoutClick : Settings := ⟨false, false, .info, ["click"]⟩

/-- A package that is left out is counted behind an editable install. -/
theorem not_forall_check_leaveOut : ¬ ∀ (sources : List Source) (s : Settings),
    (∀ source ∈ sources, ∃ text, Manifest.parse text = .ok source.manifest) →
      check (sources.map (·.leaveOut s)) s = check sources s := by
  intro h
  have hread : ∀ source ∈ [Source.mk none .requirements followed], ∃ text,
      Manifest.parse text = .ok source.manifest := by
    intro source hs
    rw [List.mem_singleton.mp hs]
    exact ⟨followedText, by decide +kernel⟩
  have hsame := h _ withoutClick hread
  revert hsame
  decide +kernel

end Lint

end PinFile
