import PinFile.Proofs.Lint.Kinds

/-!
# Duplicate pins

A specification is repeated when two lines or more install its package with its key; lines of
constraints install nothing. The duplicate pins of a report are one for each repeated
specification, and each of them tells the places of all these lines in the order of the sources
(`duplicatePin_correspond`).
-/

namespace PinFile.Lint

open Text

variable {sources : List Source} {s : Settings} {f : Finding} {pair : String × String}

/-- The line installs a package with a specification key. -/
def installsSpec (pair : String × String) (o : Occurrence) : Bool :=
  o.installs && (o.package == pair.1 && o.requirement.specKey == pair.2)

/-- The lines that install a package with a specification key. -/
def installing (sources : List Source) (pair : String × String) : List Occurrence :=
  (allOccurrences sources).filter (installsSpec pair)

def IsRepeated (sources : List Source) (pair : String × String) : Prop :=
  2 ≤ (installing sources pair).length

/-- The finding is about a repeated specification. -/
structure IsRepetition (sources : List Source) (s : Settings) (pair : String × String)
    (f : Finding) : Prop where
  severity : f.severity = if s.denyDuplicates then .error else .warning
  package : f.package = some pair.1
  places : f.locations = (installing sources pair).map (·.place)

theorem isSome_duplicate?_iff {package : String} {os : List Occurrence} :
    (duplicate? package s os).isSome ↔ 2 ≤ os.length := by
  unfold duplicate?
  split
  · simp
  · rename_i hne
    match os, hne with
    | [], _ | [_], _ => simp
    | first :: second :: rest, hne => exact absurd rfl (hne first second rest)

/-! ## Reports -/

/-- What a report says on one specification of a package. -/
def duplicateOf? (sources : List Source) (s : Settings) (pair : String × String) :
    Option Finding :=
  duplicate? pair.1 s ((occurrences sources s).filter (installsSpec pair))

theorem filter_installsSpec (sources : List Source) (s : Settings) (pair : String × String) :
    (occurrences sources s).filter (installsSpec pair) =
      if s.isIgnored pair.1 then [] else installing sources pair :=
  filter_occurrences (fun _ ho => beq_iff_eq.mp
    (Bool.and_eq_true_iff.mp (Bool.and_eq_true_iff.mp ho).2).1) sources s

/-- The settings leave a repetition out or do not touch it. -/
theorem isSome_duplicateOf?_iff : (duplicateOf? sources s pair).isSome ↔
    s.isIgnored pair.1 = false ∧ IsRepeated sources pair := by
  rw [duplicateOf?, isSome_duplicate?_iff, filter_installsSpec]
  cases s.isIgnored pair.1 with
  | true => simp
  | false => simp [IsRepeated]

theorem isRepetition_of_duplicateOf? (h : duplicateOf? sources s pair = some f) :
    IsRepetition sources s pair f := by
  have hi := (isSome_duplicateOf?_iff.mp (Option.isSome_of_eq_some h)).1
  obtain ⟨-, hs, -, hp, hl⟩ := duplicate?_eq_some h
  rw [filter_installsSpec, hi] at hl
  exact ⟨hs, hp, hl⟩

/-- The packages that a report looks at, each with the keys that it is installed with. -/
def installedPairs (sources : List Source) (s : Settings) : List (String × String) :=
  keyPairs (·.package) (·.requirement.specKey) ((occurrences sources s).filter (·.installs))

theorem filter_findings_duplicatePin (sources : List Source) (s : Settings) :
    (findings sources s).filter (·.kind == .duplicatePin) =
      (installedPairs sources s).filterMap (duplicateOf? sources s) := by
  -- the lines of constraints are left out before the packages are grouped, not in each group
  have hinstalls := flatMap_groupBy_filter (·.package) (·.installs)
    (fun package os => (groupBy (·.requirement.specKey) os).filterMap fun group =>
      duplicate? package s group.2) (fun _ => rfl) (occurrences sources s)
  have hpairs : ((groupBy (·.package) ((occurrences sources s).filter (·.installs))).flatMap
        fun group => (groupBy (·.requirement.specKey) group.2).filterMap fun specs =>
          duplicate? group.1 s specs.2) =
      (installedPairs sources s).filterMap fun pair =>
        duplicate? pair.1 s (((occurrences sources s).filter (·.installs)).filter fun o =>
          o.package == pair.1 && o.requirement.specKey == pair.2) :=
    flatMap_groupBy_groupBy (duplicate? · s) _
  rw [filter_findings_kind]
  refine (hinstalls.trans hpairs).trans (List.filterMap_congr fun pair _ => ?_)
  rw [duplicateOf?, List.filter_filter]
  refine congrArg _ (List.filter_congr fun o _ => ?_)
  exact Bool.and_comm _ _

/-- The duplicate pins of a report correspond one to one to the repeated specifications, up to
packages that the settings leave out. -/
theorem duplicatePin_correspond (sources : List Source) (s : Settings) :
    ∃ pairs : List (String × String), pairs.Nodup ∧
      (∀ pair, pair ∈ pairs ↔ s.isIgnored pair.1 = false ∧ IsRepeated sources pair) ∧
      List.Forall₂ (IsRepetition sources s) pairs ((check sources s).ofKind .duplicatePin) := by
  have hfind : ((findings sources s).filter (·.kind == .duplicatePin)).Perm
      ((installedPairs sources s).filterMap (duplicateOf? sources s)) := by
    rw [filter_findings_duplicatePin]
  obtain ⟨pairs, hperm, hcorr⟩ := exists_forall₂_ofKind hfind
    (fun _ _ => isRepetition_of_duplicateOf?)
  refine ⟨pairs, hperm.symm.nodup ((nodup_keyPairs _ _ _).filter _), fun pair => ?_, hcorr⟩
  rw [hperm.mem_iff, List.mem_filter, isSome_duplicateOf?_iff]
  refine and_iff_right_of_imp fun ⟨hi, hr⟩ => ?_
  have hlines := filter_installsSpec sources s pair
  rw [hi, if_neg Bool.false_ne_true] at hlines
  obtain ⟨o, ho⟩ := List.exists_mem_of_length_pos (Nat.lt_of_lt_of_le Nat.two_pos hr)
  rw [← hlines] at ho
  obtain ⟨ho, hspec⟩ := List.mem_filter.mp ho
  simp only [installsSpec, Bool.and_eq_true, beq_iff_eq] at hspec
  obtain ⟨hinstalls, hpackage, hkey⟩ := hspec
  exact mem_keyPairs.mpr ⟨o, List.mem_filter.mpr ⟨ho, hinstalls⟩, hpackage, hkey⟩

end PinFile.Lint
