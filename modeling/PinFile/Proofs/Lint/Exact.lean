import PinFile.Proofs.Lint.Conflicts
import PinFile.Proofs.Lint.Duplicates
import PinFile.Proofs.Manifest.Invariant

/-!
# Exact reports

Besides conflicts and duplicate pins, a report has one missing digest for each line that installs
a requirement without a digest, where some source requires digests; one unpinned requirement for
each line that installs a requirement without a target, where targets are asked for; and one
editable install that is not last for each source with a requirement behind an editable install.
It has no other findings, and they ascend by first location and kind (`check_isExact`).
-/

namespace PinFile.Lint

variable {sources : List Source} {source : Source} {s : Settings} {f : Finding} {m : Manifest}

/-! ## What there is to find -/

/-- The line installs a package that the settings do not leave out. -/
def IsChecked (s : Settings) (o : Occurrence) : Prop :=
  o.kind = .requirements ∧ s.isIgnored o.package = false

/-- Some source, of whatever kind, requires digests. -/
def DigestsRequired (sources : List Source) : Prop :=
  ∃ source ∈ sources, ∃ option ∈ source.manifest.options, option.flag = "--require-hashes"

def LacksDigest (sources : List Source) (s : Settings) (o : Occurrence) : Prop :=
  IsChecked s o ∧ DigestsRequired sources ∧ o.requirement.hashes = []

def LacksTarget (s : Settings) (o : Occurrence) : Prop :=
  IsChecked s o ∧ s.allowUnpinned = false ∧
    o.requirement.url = none ∧ o.requirement.pinnedVersion = none

/-- Some requirement stands on a line behind some editable install. -/
def EditableFollowed (m : Manifest) : Prop :=
  ∃ a b, [a, b].Sublist m.lines ∧ a.editable?.isSome ∧ b.requirement?.isSome

def EditableNotLast (source : Source) : Prop :=
  source.kind = .requirements ∧ EditableFollowed source.manifest

theorem editableFollowed_iff : EditableFollowed m ↔
    ¬ m.lines.Pairwise fun a b => ¬ (a.editable?.isSome ∧ b.requirement?.isSome) := by
  rw [List.pairwise_iff_forall_sublist]
  push Not
  rfl

instance : DecidablePred (IsChecked s) := fun _ => inferInstanceAs (Decidable (_ ∧ _))

instance : Decidable (DigestsRequired sources) := inferInstanceAs (Decidable (∃ _ ∈ _, _))

instance : DecidablePred (LacksDigest sources s) := fun _ => inferInstanceAs (Decidable (_ ∧ _))

instance : DecidablePred (LacksTarget s) := fun _ => inferInstanceAs (Decidable (_ ∧ _))

instance : DecidablePred EditableNotLast := fun _ =>
  @instDecidableAnd _ _ _ (decidable_of_iff _ editableFollowed_iff.symm)

/-! ## What the findings say -/

/-- The finding is about one line. -/
structure IsLineFinding (severity : Severity) (o : Occurrence) (f : Finding) : Prop where
  severity : f.severity = severity
  package : f.package = some o.package
  place : f.locations = [o.place]

/-- The line is the first one with an editable install. -/
def IsFirstEditable (m : Manifest) (line : Line) : Prop :=
  ∃ before after, m.lines = before ++ line :: after ∧ line.editable?.isSome ∧
    ∀ other ∈ before, other.editable? = none

/-- The finding is about the first editable install of a source. -/
structure IsEditableFinding (source : Source) (f : Finding) : Prop where
  severity : f.severity = .info
  package : f.package = none
  place : ∃ line, IsFirstEditable source.manifest line ∧
    f.locations = [⟨source.path, line.number⟩]

/-- Each item with a property has one finding, and there are no others. -/
def OneForEach {α : Type} (p : α → Prop) [DecidablePred p] (Tells : α → Finding → Prop)
    (xs : List α) (fs : List Finding) : Prop :=
  ∃ ys, ys.Perm (xs.filter (p ·)) ∧ List.Forall₂ Tells ys fs

/-- Each fault is told once, nothing else is told, and the findings are in order. -/
structure IsExact (sources : List Source) (s : Settings) (r : Report) : Prop where
  missingHash : OneForEach (LacksDigest sources s) (IsLineFinding .error)
    (allOccurrences sources) (r.ofKind .missingHash)
  unpinned : OneForEach (LacksTarget s) (IsLineFinding .warning)
    (allOccurrences sources) (r.ofKind .unpinned)
  editable : OneForEach EditableNotLast IsEditableFinding sources (r.ofKind .editableNotLast)
  others : ∀ f ∈ r.findings,
    f.kind = .missingHash ∨ f.kind = .unpinned ∨ f.kind = .editableNotLast ∨
    (f.kind = .conflictingPin ∧ ∃ pair, s.isIgnored pair.1 = false ∧
      IsConflict sources pair ∧ IsConflictFinding sources pair f) ∨
    (f.kind = .duplicatePin ∧ ∃ pair, s.isIgnored pair.1 = false ∧
      IsRepeated sources pair ∧ IsRepetition sources s pair f)
  ascending : r.findings.Pairwise fun f g => f.key ≤ g.key

theorem oneForEach_ofKind {α : Type} {kind : FindingKind} {find : α → Option Finding}
    {p : α → Prop} [DecidablePred p] {Tells : α → Finding → Prop} {xs ys : List α}
    (hfind : ((findings sources s).filter (·.kind == kind)).Perm (ys.filterMap find))
    (hsome : (ys.filter fun y => (find y).isSome) = xs.filter (p ·))
    (htells : ∀ y f, find y = some f → Tells y f) :
    OneForEach p Tells xs ((check sources s).ofKind kind) := by
  rw [OneForEach, ← hsome]
  exact exists_forall₂_ofKind hfind htells

/-! ## Single lines -/

theorem filter_installs_occurrences (sources : List Source) (s : Settings) :
    (occurrences sources s).filter (·.installs) =
      (allOccurrences sources).filter (IsChecked s ·) := by
  rw [occurrences, List.filter_filter]
  refine List.filter_congr fun o _ => ?_
  rw [Bool.eq_iff_iff, decide_eq_true_iff]
  simp [Occurrence.installs, IsChecked]

/-- What is found line by line in each package is what is found line by line. -/
theorem perm_flatMap_lines (find : String → Occurrence → Option Finding) (sources : List Source)
    (s : Settings) :
    ((groupBy (·.package) (occurrences sources s)).flatMap fun group =>
      (group.2.filter (·.installs)).filterMap (find group.1)).Perm
      (((allOccurrences sources).filter (IsChecked s ·)).filterMap fun o =>
        find o.package o) := by
  have hinstalls := flatMap_groupBy_filter (·.package) (·.installs)
    (fun package os => os.filterMap (find package)) (fun _ => rfl) (occurrences sources s)
  rw [← filter_installs_occurrences]
  exact (List.Perm.of_eq hinstalls).trans (perm_filterMap_groupBy find _)

/-- A check of single lines finds something for each line that has its fault. -/
theorem lines_oneForEach {kind : FindingKind} {p : Occurrence → Prop} [DecidablePred p]
    {severity : Severity} (find : String → Occurrence → Option Finding)
    (hne : FindingKind.editableNotLast ≠ kind)
    (hkind : ∀ group, packageFindingsOf kind s (requireHashes sources) group =
      (group.2.filter (·.installs)).filterMap (find group.1))
    (hsome : ∀ o, p o ↔ IsChecked s o ∧ (find o.package o).isSome)
    (htells : ∀ o f, find o.package o = some f → IsLineFinding severity o f) :
    OneForEach p (IsLineFinding severity) (allOccurrences sources)
      ((check sources s).ofKind kind) := by
  have hfind : ((findings sources s).filter (·.kind == kind)).Perm
      (((allOccurrences sources).filter (IsChecked s ·)).filterMap fun o => find o.package o) := by
    rw [filter_findings_kind, if_neg hne, List.nil_append, List.flatMap_congr fun group _ =>
      hkind group]
    exact perm_flatMap_lines find sources s
  refine oneForEach_ofKind hfind ?_ htells
  rw [List.filter_filter]
  refine List.filter_congr fun o _ => ?_
  rw [Bool.eq_iff_iff, Bool.and_eq_true, decide_eq_true_iff, decide_eq_true_iff, hsome, and_comm]

theorem requireHashes_iff : requireHashes sources = true ↔ DigestsRequired sources := by
  simp [requireHashes, Manifest.requiresHashes, DigestsRequired]

theorem isSome_missingHash?_iff {package : String} {o : Occurrence} :
    (missingHash? package (requireHashes sources) o).isSome ↔
      DigestsRequired sources ∧ o.requirement.hashes = [] := by
  rw [← requireHashes_iff, ← List.isEmpty_iff, ← Bool.and_eq_true, missingHash?]
  split <;> simp [*]

theorem missingHash_oneForEach (sources : List Source) (s : Settings) :
    OneForEach (LacksDigest sources s) (IsLineFinding .error) (allOccurrences sources)
      ((check sources s).ofKind .missingHash) := by
  refine lines_oneForEach (missingHash? · (requireHashes sources)) nofun (fun _ => rfl)
    (fun o => ?_) fun o f h => ?_
  · rw [isSome_missingHash?_iff, LacksDigest]
  · obtain ⟨-, -, hs, -, hp, hl⟩ := missingHash?_eq_some h
    exact ⟨hs, hp, hl⟩

theorem isSome_unpinned?_iff {package : String} {o : Occurrence} :
    (unpinned? package s o).isSome ↔ s.allowUnpinned = false ∧
      o.requirement.url = none ∧ o.requirement.pinnedVersion = none := by
  have htarget : o.target? = none ↔
      o.requirement.url = none ∧ o.requirement.pinnedVersion = none := by
    unfold Occurrence.target?
    cases o.requirement.url <;> simp
  rw [← htarget, unpinned?]
  cases s.allowUnpinned <;> cases o.target? <;> simp

theorem unpinned_oneForEach (sources : List Source) (s : Settings) :
    OneForEach (LacksTarget s) (IsLineFinding .warning) (allOccurrences sources)
      ((check sources s).ofKind .unpinned) := by
  refine lines_oneForEach (unpinned? · s) nofun (fun _ => rfl) (fun o => ?_) fun o f h => ?_
  · rw [isSome_unpinned?_iff, LacksTarget]
  · obtain ⟨-, -, hs, -, hp, hl⟩ := unpinned?_eq_some h
    exact ⟨hs, hp, hl⟩

/-! ## Editable installs -/

theorem exists_isFirstEditable {first : Nat × Editable} (h : firstEditable? m = some first) :
    ∃ line, IsFirstEditable m line ∧ line.number = first.1 := by
  obtain ⟨before, line, after, hm, hline, hbefore⟩ := List.findSome?_eq_some_iff.mp h
  obtain ⟨e, he, rfl⟩ := Option.map_eq_some_iff.mp hline
  refine ⟨line, ⟨before, after, hm, Option.isSome_of_eq_some he, fun other ho => ?_⟩, rfl⟩
  exact Option.map_eq_none_iff.mp (hbefore other ho)

theorem mem_declarations {d : Declaration} : d ∈ m.declarations ↔
    ∃ line ∈ m.lines, line.number = d.line ∧ line.requirement? = some d.requirement := by
  unfold Manifest.declarations
  rw [List.mem_filterMap]
  refine exists_congr fun line => and_congr_right fun _ => ?_
  rw [Option.map_eq_some_iff]
  constructor
  · rintro ⟨r, hr, rfl⟩
    exact ⟨rfl, hr⟩
  · rintro ⟨hn, hr⟩
    exact ⟨d.requirement, hr, by rw [hn]⟩

/-- The numbers of the lines tell which of them stand behind the first editable install. -/
theorem editableFollowed_iff_exists {line : Line}
    (hnumbers : m.lines.Pairwise (·.number < ·.number))
    (hline : IsFirstEditable m line) :
    EditableFollowed m ↔ ∃ d ∈ m.declarations, line.number < d.line := by
  obtain ⟨before, after, hlines, heditable, hbefore⟩ := hline
  -- the check compares numbers where the statement looks at the order of the lines
  have hm := hnumbers
  rw [hlines] at hm
  obtain ⟨-, hm, hcross⟩ := List.pairwise_append.mp hm
  have hlater := (List.pairwise_cons.mp hm).1
  have hfirst : ∀ a ∈ m.lines, a.editable?.isSome → line.number ≤ a.number := by
    rw [hlines]
    intro a ha he
    rcases List.mem_append.mp ha with ha | ha
    · rw [hbefore a ha] at he
      cases he
    · rcases List.mem_cons.mp ha with rfl | ha
      · exact Nat.le_refl _
      · exact Nat.le_of_lt (hlater a ha)
  have hafter : ∀ b ∈ m.lines, line.number < b.number → b ∈ after := by
    rw [hlines]
    intro b hb hlt
    rcases List.mem_append.mp hb with hb | hb
    · exact absurd (hcross b hb line List.mem_cons_self) (Nat.lt_asymm hlt)
    · exact (List.mem_cons.mp hb).resolve_left fun he => Nat.lt_irrefl _ (he ▸ hlt)
  constructor
  · rintro ⟨a, b, hab, ha, hb⟩
    obtain ⟨r, hr⟩ := Option.isSome_iff_exists.mp hb
    have hlt : a.number < b.number := List.pairwise_iff_forall_sublist.mp hnumbers hab
    have hle := hfirst a (hab.subset (by simp)) ha
    refine ⟨⟨b.number, r⟩, mem_declarations.mpr ⟨b, hab.subset (by simp), rfl, hr⟩, ?_⟩
    exact Nat.lt_of_le_of_lt hle hlt
  · rintro ⟨d, hd, hlt⟩
    obtain ⟨b, hb, hn, hr⟩ := mem_declarations.mp hd
    rw [← hn] at hlt
    refine ⟨line, b, ?_, heditable, Option.isSome_of_eq_some hr⟩
    rw [hlines]
    have hsub := List.singleton_sublist.mpr (hafter b hb hlt)
    exact (hsub.cons_cons line).trans (List.sublist_append_right before _)

theorem isSome_editableOrder?_iff_exists : (editableOrder? source).isSome ↔
    source.kind = .requirements ∧ ∃ first, firstEditable? source.manifest = some first ∧
      ∃ d ∈ source.manifest.declarations, first.1 < d.line := by
  have htrailing (n : Nat) : (source.manifest.declarations.countP (n < ·.line) != 0) = true ↔
      ∃ d ∈ source.manifest.declarations, n < d.line := by
    rw [bne_iff_ne, ← Nat.pos_iff_ne_zero, List.countP_pos_iff]
    simp only [decide_eq_true_eq]
  unfold editableOrder?
  cases source.kind with
  | constraints => simp [guard]
  | requirements =>
    cases firstEditable? source.manifest with
    | none => simp
    | some first =>
      simp only [Option.some.injEq, exists_eq_left', true_and]
      rw [← htrailing]
      -- whatever the finding says, it is there when the guard holds
      change (guard (source.manifest.declarations.countP (first.1 < ·.line) != 0) >>=
        fun _ => some _).isSome = true ↔ _
      cases source.manifest.declarations.countP (first.1 < ·.line) != 0 with
      | true => exact iff_of_true rfl rfl
      | false => exact iff_of_false nofun nofun

theorem place_of_editableOrder? (h : editableOrder? source = some f) :
    ∃ line, IsFirstEditable source.manifest line ∧
      f.locations = [⟨source.path, line.number⟩] := by
  obtain ⟨-, -, h⟩ := Option.bind_eq_some_iff.mp h
  obtain ⟨first, hfirst, h⟩ := Option.bind_eq_some_iff.mp h
  obtain ⟨-, -, h⟩ := Option.bind_eq_some_iff.mp h
  cases h
  obtain ⟨line, hline, hn⟩ := exists_isFirstEditable hfirst
  exact ⟨line, hline, by rw [hn]⟩

theorem isSome_editableOrder?_iff
    (hnumbers : source.manifest.lines.Pairwise (·.number < ·.number)) :
    (editableOrder? source).isSome ↔ EditableNotLast source := by
  rw [isSome_editableOrder?_iff_exists, EditableNotLast]
  refine and_congr_right fun _ => ?_
  constructor
  · rintro ⟨first, hfirst, hd⟩
    obtain ⟨line, hline, hn⟩ := exists_isFirstEditable hfirst
    rw [editableFollowed_iff_exists hnumbers hline, hn]
    exact hd
  · intro h
    have hsome : (firstEditable? source.manifest).isSome := by
      obtain ⟨a, b, hab, ha, -⟩ := h
      rw [firstEditable?, List.findSome?_isSome_iff]
      exact ⟨a, hab.subset (by simp), by rwa [Option.isSome_map]⟩
    obtain ⟨first, hfirst⟩ := Option.isSome_iff_exists.mp hsome
    obtain ⟨line, hline, hn⟩ := exists_isFirstEditable hfirst
    rw [editableFollowed_iff_exists hnumbers hline, hn] at h
    exact ⟨first, hfirst, h⟩

theorem editable_oneForEach (s : Settings)
    (hnumbers : ∀ source ∈ sources, source.manifest.lines.Pairwise (·.number < ·.number)) :
    OneForEach EditableNotLast IsEditableFinding sources
      ((check sources s).ofKind .editableNotLast) := by
  have hfind : ((findings sources s).filter (·.kind == .editableNotLast)).Perm
      (sources.filterMap editableOrder?) := by
    have hnone : (groupBy (·.package) (occurrences sources s)).flatMap
        (packageFindingsOf .editableNotLast s (requireHashes sources)) = [] :=
      List.flatMap_eq_nil_iff.mpr fun _ _ => rfl
    rw [filter_findings_kind, if_pos rfl, hnone, List.append_nil]
  refine oneForEach_ofKind hfind ?_ fun source f h => ?_
  · refine List.filter_congr fun source hs => ?_
    rw [Bool.eq_iff_iff, decide_eq_true_iff, isSome_editableOrder?_iff (hnumbers source hs)]
  · obtain ⟨hs, -, hp⟩ := editableOrder?_eq_some h
    exact ⟨hs, hp, place_of_editableOrder? h⟩

/-! ## Reports -/

theorem conflict_of_mem_ofKind (h : f ∈ (check sources s).ofKind .conflictingPin) :
    ∃ pair, s.isIgnored pair.1 = false ∧ IsConflict sources pair ∧
      IsConflictFinding sources pair f := by
  rw [mem_ofKind_check, filter_findings] at h
  obtain ⟨pair, -, h⟩ := List.mem_filterMap.mp h
  obtain ⟨hi, hc⟩ := isSome_conflictOf?_iff.mp (Option.isSome_of_eq_some h)
  exact ⟨pair, hi, hc, isConflictFinding_of_conflictOf? h⟩

theorem repetition_of_mem_ofKind (h : f ∈ (check sources s).ofKind .duplicatePin) :
    ∃ pair, s.isIgnored pair.1 = false ∧ IsRepeated sources pair ∧
      IsRepetition sources s pair f := by
  rw [mem_ofKind_check, filter_findings_duplicatePin] at h
  obtain ⟨pair, -, h⟩ := List.mem_filterMap.mp h
  obtain ⟨hi, hr⟩ := isSome_duplicateOf?_iff.mp (Option.isSome_of_eq_some h)
  exact ⟨pair, hi, hr, isRepetition_of_duplicateOf? h⟩

theorem pairwise_key_check (sources : List Source) (s : Settings) :
    (check sources s).findings.Pairwise fun f g => f.key ≤ g.key :=
  (List.pairwise_mergeSort Finding.notAfter_trans Finding.notAfter_total _).imp
    Finding.notAfter_iff.mp

/-- A report on manifests that were read is exact. -/
theorem check_isExact (s : Settings)
    (h : ∀ source ∈ sources, ∃ text, Manifest.parse text = .ok source.manifest) :
    IsExact sources s (check sources s) where
  missingHash := missingHash_oneForEach sources s
  unpinned := unpinned_oneForEach sources s
  editable := editable_oneForEach s fun source hs => by
    obtain ⟨text, ht⟩ := h source hs
    exact Manifest.pairwise_number_of_readChars ht
  others := fun f hf => by
    have hk : f ∈ (check sources s).ofKind f.kind :=
      List.mem_filter.mpr ⟨hf, beq_self_eq_true _⟩
    cases hkind : f.kind with
    | missingHash => exact .inl rfl
    | unpinned => exact .inr (.inl rfl)
    | editableNotLast => exact .inr (.inr (.inl rfl))
    | conflictingPin =>
      rw [hkind] at hk
      exact .inr (.inr (.inr (.inl ⟨rfl, conflict_of_mem_ofKind hk⟩)))
    | duplicatePin =>
      rw [hkind] at hk
      exact .inr (.inr (.inr (.inr ⟨rfl, repetition_of_mem_ofKind hk⟩)))
  ascending := pairwise_key_check sources s

def installedText : String := "-e .\nflask==1.0 --hash=md5:0a\nidna\nRequests>=2 # any\n"

/-- An editable install in front of a line with a digest and two lines without. -/
def installed : Source where
  path := some "requirements.txt"
  kind := .requirements
  manifest := ⟨[
    ⟨1, .editable ⟨"."⟩, none⟩,
    ⟨2, .requirement ⟨"flask", [], [⟨.equal, "1.0"⟩], none, none, ["md5:0a"]⟩, none⟩,
    ⟨3, .requirement ⟨"idna", [], [], none, none, []⟩, none⟩,
    ⟨4, .requirement ⟨"Requests", [], [⟨.atLeast, "2"⟩], none, none, []⟩, some "any"⟩]⟩

def restrictedText : String := "--require-hashes\nrequests\n"

/-- Constraints that require digests. -/
def restricted : Source where
  path := some "constraints.txt"
  kind := .constraints
  manifest := ⟨[
    ⟨1, .option ⟨"--require-hashes", none⟩, none⟩,
    ⟨2, .requirement ⟨"requests", [], [], none, none, []⟩, none⟩]⟩

def withoutIdna : Settings := ⟨false, false, .error, ["IDNA"]⟩

/-- Of the three lines without a digest one is left out, and one installs nothing. -/
theorem check_isExact_withoutIdna :
    (∀ source ∈ [installed, restricted], ∃ text, Manifest.parse text = .ok source.manifest) ∧
    IsExact [installed, restricted] withoutIdna (check [installed, restricted] withoutIdna) ∧
    ∃ f, (check [installed, restricted] withoutIdna).ofKind .missingHash = [f] ∧
      f.locations = [⟨some "requirements.txt", 4⟩] := by
  have h : ∀ source ∈ [installed, restricted], ∃ text,
      Manifest.parse text = .ok source.manifest := by
    intro source hs
    rcases List.mem_pair.mp hs with rfl | rfl
    · exact ⟨installedText, by decide +kernel⟩
    · exact ⟨restrictedText, by decide +kernel⟩
  have hexact := check_isExact withoutIdna h
  obtain ⟨os, hperm, hcorr⟩ := hexact.missingHash
  have hone : (allOccurrences [installed, restricted]).filter
      (LacksDigest [installed, restricted] withoutIdna ·) =
        [⟨⟨some "requirements.txt", 4⟩, .requirements,
          ⟨"Requests", [], [⟨.atLeast, "2"⟩], none, none, []⟩⟩] := by
    decide +kernel
  rw [hone, List.perm_singleton] at hperm
  rw [hperm] at hcorr
  obtain ⟨f, fs, hf, hfs, hfound⟩ := List.forall₂_cons_left_iff.mp hcorr
  rw [List.forall₂_nil_left_iff.mp hfs] at hfound
  exact ⟨h, hexact, f, hfound, hf.place⟩

end PinFile.Lint
