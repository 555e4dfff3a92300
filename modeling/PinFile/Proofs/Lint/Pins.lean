import PinFile.Proofs.Lint.Exact

/-!
# Pins of one package

Two lines may pin a package in one environment with the same extras. When their constraints are the
same, the lines are told as duplicate pins, and when some line of the package and environment has
another target, they are told in a conflict. Otherwise no finding tells both of them
(`tellsBoth_pins`): the checks for conflicts compare versions in lower case and without the
operator, and the specification keys, by which duplicate pins are found, keep both.
-/

namespace PinFile

open Text

/-- The version as a target of an install. -/
def Constraint.target (c : Constraint) : String :=
  String.ofList (c.version.toList.map Char.toLower)

namespace Requirement

variable {r r' : Requirement} {c c' : Constraint}

/-- The requirement asks for one version, by one constraint. -/
structure PinsBy (r : Requirement) (c : Constraint) : Prop where
  url : r.url = none
  constraints : r.constraints = [c]
  operator : c.operator.isExact = true
  version : Constraint.hasWildcard c.version = false

/-- The requirements are for one package in one environment, with the same extras. -/
structure SameInstall (r r' : Requirement) : Prop where
  package : r.package = r'.package
  environment : r.environment = r'.environment
  extras : ∀ extra, extra ∈ r.extras.map Name.normalize ↔ extra ∈ r'.extras.map Name.normalize

theorem SameInstall.specKey_eq_iff_render_eq (h : r.SameInstall r') (hr : r.PinsBy c)
    (hr' : r'.PinsBy c') : r.specKey = r'.specKey ↔ c.render = c'.render := by
  unfold specKey
  rw [ascending_congr h.extras, h.environment, hr.url, hr'.url, hr.constraints, hr'.constraints]
  simp [sorted]

/-- Pins with the same text are the same, or one has an operator that goes on where the operator of
the other ends. -/
theorem PinsBy.eq_or_target_ne (hr : r.PinsBy c) (hr' : r'.PinsBy c') (h : c.render = c'.render) :
    c = c' ∨ c.target ≠ c'.target := by
  by_cases ht : c.target = c'.target
  · left
    have hversion : c.version.length = c'.version.length := by
      simpa [Constraint.target, String.length_toList] using congrArg String.length ht
    have hsymbol : c.operator.symbol.length = c'.operator.symbol.length := by
      have hlength := congrArg String.length h
      rw [Constraint.render, Constraint.render, String.length_append, String.length_append]
        at hlength
      omega
    have hoperator : c.operator = c'.operator := by
      have hc := hr.operator
      have hc' := hr'.operator
      revert hsymbol hc hc'
      cases c.operator <;> cases c'.operator <;> decide
    rw [Constraint.render, Constraint.render, hoperator, String.append_right_inj] at h
    cases c
    cases c'
    exact congrArg₂ Constraint.mk hoperator h
  · exact .inr ht

end Requirement

namespace Lint

open Requirement

variable {m : Manifest} {s : Settings} {sources : List Source} {pair : String × String}
  {a b : Declaration} {c c' : Constraint}

/-! ## What is there is told -/

theorem exists_conflict (hi : s.isIgnored pair.1 = false) (hc : IsConflict sources pair) :
    ∃ f ∈ (check sources s).ofKind .conflictingPin, IsConflictFinding sources pair f := by
  obtain ⟨f, hf⟩ := Option.isSome_iff_exists.mp (isSome_conflictOf?_iff.mpr ⟨hi, hc⟩)
  refine ⟨f, ?_, isConflictFinding_of_conflictOf? hf⟩
  obtain ⟨o, ho, -⟩ := hc
  have hshare : o ∈ sharing pair (occurrences sources s) := by
    rw [sharing_occurrences, hi]
    exact (List.mem_filter.mp ho).1
  obtain ⟨ho, hkeys⟩ := mem_sharing.mp hshare
  rw [mem_ofKind_check, filter_findings]
  exact List.mem_filterMap.mpr ⟨pair, mem_keyPairs.mpr ⟨o, ho, hkeys⟩, hf⟩

theorem exists_repetition (hi : s.isIgnored pair.1 = false) (hr : IsRepeated sources pair) :
    ∃ f ∈ (check sources s).ofKind .duplicatePin, IsRepetition sources s pair f := by
  obtain ⟨f, hf⟩ := Option.isSome_iff_exists.mp (isSome_duplicateOf?_iff.mpr ⟨hi, hr⟩)
  refine ⟨f, ?_, isRepetition_of_duplicateOf? hf⟩
  obtain ⟨o, ho⟩ := List.exists_mem_of_length_pos (Nat.lt_of_lt_of_le Nat.two_pos hr)
  have hlines := filter_installsSpec sources s pair
  rw [hi, if_neg Bool.false_ne_true] at hlines
  rw [← hlines] at ho
  obtain ⟨ho, hspec⟩ := List.mem_filter.mp ho
  simp only [installsSpec, Bool.and_eq_true, beq_iff_eq] at hspec
  obtain ⟨hinstalls, hkeys⟩ := hspec
  rw [mem_ofKind_check, filter_findings_duplicatePin]
  exact List.mem_filterMap.mpr
    ⟨pair, mem_keyPairs.mpr ⟨o, List.mem_filter.mpr ⟨ho, hinstalls⟩, hkeys⟩, hf⟩

/-! ## One manifest -/

/-- A line of the manifest as the checks look at it. -/
def occurrenceOf (d : Declaration) : Occurrence := ⟨⟨none, d.line⟩, .requirements, d.requirement⟩

def alone (m : Manifest) : List Source := [⟨none, .requirements, m⟩]

theorem allOccurrences_alone (m : Manifest) :
    allOccurrences (alone m) = m.declarations.map occurrenceOf :=
  List.flatMap_singleton _ _

/-- Some finding on conflicting or repeated pins tells the places of both lines. -/
def TellsBoth (r : Report) (a b : Declaration) : Prop :=
  ∃ f ∈ r.findings, (f.kind = .conflictingPin ∨ f.kind = .duplicatePin) ∧
    [(occurrenceOf a).place, (occurrenceOf b).place].Subperm f.locations

/-- Some line of the same package and environment has another target. -/
def HasRival (m : Manifest) (d : Declaration) : Prop :=
  ∃ rival ∈ m.declarations, rival.requirement.package = d.requirement.package ∧
    rival.requirement.environment = d.requirement.environment ∧
    (occurrenceOf rival).target?.isSome ∧ (occurrenceOf rival).target? ≠ (occurrenceOf d).target?

theorem target?_occurrenceOf (h : a.requirement.PinsBy c) :
    (occurrenceOf a).target? = some c.target := by
  simp [Occurrence.target?, occurrenceOf, h.url, pinnedVersion, h.constraints, h.operator,
    h.version, Constraint.target]

theorem sublist_filter {xs os : List Occurrence} {p : Occurrence → Bool} (h : xs.Sublist os)
    (hp : ∀ o ∈ xs, p o = true) : xs.Sublist (os.filter p) := by
  rw [← List.filter_eq_self.mpr hp]
  exact h.filter p

theorem tellsBoth_of_sublist {r : Report} {f : Finding} {os : List Occurrence}
    (hf : f ∈ r.findings) (hk : f.kind = .conflictingPin ∨ f.kind = .duplicatePin)
    (hos : [occurrenceOf a, occurrenceOf b].Sublist os)
    (hplaces : f.locations.Perm (os.map (·.place))) : TellsBoth r a b :=
  ⟨f, hf, hk, (hos.map Occurrence.place).subperm.trans hplaces.symm.subperm⟩

section Told

variable (hab : [a, b].Sublist m.declarations) (ha : a.requirement.PinsBy c)
  (hb : b.requirement.PinsBy c') (hsame : a.requirement.SameInstall b.requirement)

include hab hsame in
theorem tellsBoth_of_specKey (hi : s.isIgnored a.requirement.package = false)
    (hk : a.requirement.specKey = b.requirement.specKey) : TellsBoth (checkManifest m s) a b := by
  have hall : [occurrenceOf a, occurrenceOf b].Sublist (allOccurrences (alone m)) := by
    rw [allOccurrences_alone]
    exact hab.map occurrenceOf
  have hinstalling : [occurrenceOf a, occurrenceOf b].Sublist
      (installing (alone m) (a.requirement.package, a.requirement.specKey)) := by
    refine sublist_filter hall fun o ho => ?_
    rcases List.mem_pair.mp ho with rfl | rfl
    · simp [installsSpec, Occurrence.installs, occurrenceOf, Occurrence.package]
    · simp [installsSpec, Occurrence.installs, occurrenceOf, Occurrence.package, hsame.package, hk]
  obtain ⟨f, hf, hfound⟩ := exists_repetition hi hinstalling.length_le
  obtain ⟨hf, hkind⟩ := List.mem_filter.mp hf
  exact tellsBoth_of_sublist hf (.inr (beq_iff_eq.mp hkind)) hinstalling
    (List.Perm.of_eq hfound.places)

include hab ha hb hsame in
theorem tellsBoth_of_hasRival (hi : s.isIgnored a.requirement.package = false)
    (hr : HasRival m a) : TellsBoth (checkManifest m s) a b := by
  have hall : [occurrenceOf a, occurrenceOf b].Sublist (allOccurrences (alone m)) := by
    rw [allOccurrences_alone]
    exact hab.map occurrenceOf
  have htargeted : [occurrenceOf a, occurrenceOf b].Sublist
      (targeted (alone m) (a.requirement.package, a.requirement.environment)) := by
    refine sublist_filter (sublist_filter hall fun o ho => ?_) fun o ho => ?_
    · rcases List.mem_pair.mp ho with rfl | rfl
      · simp [occurrenceOf, Occurrence.package]
      · simp [occurrenceOf, Occurrence.package, hsame.package, hsame.environment]
    · rcases List.mem_pair.mp ho with rfl | rfl
      · rw [target?_occurrenceOf ha, Option.isSome_some]
      · rw [target?_occurrenceOf hb, Option.isSome_some]
  have hconflict :
      IsConflict (alone m) (a.requirement.package, a.requirement.environment) := by
    obtain ⟨rival, hrival, hpackage, henvironment, hsome, hne⟩ := hr
    refine ⟨occurrenceOf rival, List.mem_filter.mpr ⟨mem_sharing.mpr ⟨?_, hpackage, henvironment⟩,
      hsome⟩, occurrenceOf a, htargeted.subset List.mem_cons_self, hne⟩
    rw [allOccurrences_alone]
    exact List.mem_map_of_mem hrival
  obtain ⟨f, hf, hfound⟩ := exists_conflict hi hconflict
  obtain ⟨hf, hkind⟩ := List.mem_filter.mp hf
  exact tellsBoth_of_sublist hf (.inl (beq_iff_eq.mp hkind)) htargeted hfound.places

end Told

/-! ## What is told is there -/

section Lines

variable (hlines : (m.declarations.map (·.line)).Nodup)
include hlines

/-- Where no two lines have one number, a place is the place of one line. -/
theorem mem_of_place_mem {os : List Occurrence} {d : Declaration} (hd : d ∈ m.declarations)
    (hos : os ⊆ allOccurrences (alone m)) (h : (occurrenceOf d).place ∈ os.map (·.place)) :
    occurrenceOf d ∈ os := by
  obtain ⟨o, ho, hplace⟩ := List.mem_map.mp h
  have hall := hos ho
  rw [allOccurrences_alone] at hall
  obtain ⟨d', hd', rfl⟩ := List.mem_map.mp hall
  have hline : d'.line = d.line := congrArg Location.line hplace
  rwa [List.inj_on_of_nodup_map hlines hd' hd hline] at ho

theorem hasRival_of_conflict {pair : String × String} (ha : a ∈ m.declarations)
    (hc : IsConflict (alone m) pair)
    (h : (occurrenceOf a).place ∈ (targeted (alone m) pair).map (·.place)) : HasRival m a := by
  have htargeted := mem_of_place_mem hlines ha
    (fun o ho => (List.mem_filter.mp (List.mem_filter.mp ho).1).1) h
  obtain ⟨-, hpackage, henvironment⟩ := mem_sharing.mp (List.mem_filter.mp htargeted).1
  -- of two different targets one is not that of the line
  have hother : ∃ o ∈ targeted (alone m) pair, o.target? ≠ (occurrenceOf a).target? := by
    obtain ⟨o, ho, o', ho', hne⟩ := hc
    by_cases he : o.target? = (occurrenceOf a).target?
    · exact ⟨o', ho', fun he' => hne (he.trans he'.symm)⟩
    · exact ⟨o, ho, he⟩
  obtain ⟨o, ho, hne⟩ := hother
  obtain ⟨ho, hsome⟩ := List.mem_filter.mp ho
  obtain ⟨ho, hpackage', henvironment'⟩ := mem_sharing.mp ho
  rw [allOccurrences_alone] at ho
  obtain ⟨rival, hrival, rfl⟩ := List.mem_map.mp ho
  exact ⟨rival, hrival, hpackage'.trans hpackage.symm, henvironment'.trans henvironment.symm,
    hsome, hne⟩

theorem specKey_of_repetition {pair : String × String} {d : Declaration} (hd : d ∈ m.declarations)
    (h : (occurrenceOf d).place ∈ (installing (alone m) pair).map (·.place)) :
    d.requirement.specKey = pair.2 := by
  have hm := mem_of_place_mem hlines hd (fun o ho => (List.mem_filter.mp ho).1) h
  have hspec := (List.mem_filter.mp hm).2
  simp only [installsSpec, Bool.and_eq_true, beq_iff_eq] at hspec
  exact hspec.2.2

end Lines

/-- Two pins of one package in one environment, with the same extras, are told together when they
are the same or some line, the second one or a third, has another target than the first; and where
no two lines have one number, only then. -/
theorem tellsBoth_pins (hab : [a, b].Sublist m.declarations) (ha : a.requirement.PinsBy c)
    (hb : b.requirement.PinsBy c') (hsame : a.requirement.SameInstall b.requirement)
    (hi : s.isIgnored a.requirement.package = false) :
    (c = c' ∨ HasRival m a → TellsBoth (checkManifest m s) a b) ∧
      ((m.declarations.map (·.line)).Nodup → TellsBoth (checkManifest m s) a b →
        c = c' ∨ HasRival m a) := by
  have hkeys := hsame.specKey_eq_iff_render_eq ha hb
  refine ⟨?_, fun hlines htold => ?_⟩
  · rintro (rfl | hr)
    · exact tellsBoth_of_specKey hab hsame hi (hkeys.mpr rfl)
    · exact tellsBoth_of_hasRival hab ha hb hsame hi hr
  · have hma : a ∈ m.declarations := hab.subset (by simp)
    have hmb : b ∈ m.declarations := hab.subset (by simp)
    obtain ⟨f, hf, hkind, hplaces⟩ := htold
    have hpa := hplaces.subset (List.mem_cons_self)
    have hpb := hplaces.subset (List.mem_cons_of_mem _ List.mem_cons_self)
    have hof : f ∈ (checkManifest m s).ofKind f.kind :=
      List.mem_filter.mpr ⟨hf, beq_self_eq_true _⟩
    rcases hkind with hkind | hkind
    · rw [hkind] at hof
      obtain ⟨pair, -, hconflict, hfound⟩ := conflict_of_mem_ofKind hof
      exact .inr (hasRival_of_conflict hlines hma hconflict (hfound.places.mem_iff.mp hpa))
    · rw [hkind] at hof
      obtain ⟨pair, -, -, hfound⟩ := repetition_of_mem_ofKind hof
      rw [hfound.places] at hpa hpb
      have hkey : a.requirement.specKey = b.requirement.specKey :=
        (specKey_of_repetition hlines hma hpa).trans (specKey_of_repetition hlines hmb hpb).symm
      refine (ha.eq_or_target_ne hb (hkeys.mp hkey)).imp_right fun hne => ?_
      -- then the second line is the one with another target
      refine ⟨b, hmb, hsame.package.symm, hsame.environment.symm, ?_, ?_⟩
      · rw [target?_occurrenceOf hb, Option.isSome_some]
      · rw [target?_occurrenceOf hb, target?_occurrenceOf ha]
        exact fun he => hne (Option.some.inj he).symm

def candidateText : String := "a==1.0RC1\nA==1.0rc1\n"

/-- One version in two spellings. -/
def candidates : Manifest := ⟨[
  ⟨1, .requirement ⟨"a", [], [⟨.equal, "1.0RC1"⟩], none, none, []⟩, none⟩,
  ⟨2, .requirement ⟨"A", [], [⟨.equal, "1.0rc1"⟩], none, none, []⟩, none⟩]⟩

/-- The same with a line for another version. -/
def contested : Manifest :=
  ⟨candidates.lines ++ [⟨3, .requirement ⟨"a", [], [⟨.equal, "2"⟩], none, none, []⟩, none⟩]⟩

theorem parse_candidateText : Manifest.parse candidateText = .ok candidates := by
  decide +kernel

def upperPin : Declaration := ⟨1, ⟨"a", [], [⟨.equal, "1.0RC1"⟩], none, none, []⟩⟩

def lowerPin : Declaration := ⟨2, ⟨"A", [], [⟨.equal, "1.0rc1"⟩], none, none, []⟩⟩

theorem pinsBy_upperPin : upperPin.requirement.PinsBy ⟨.equal, "1.0RC1"⟩ :=
  ⟨rfl, rfl, rfl, by decide +kernel⟩

theorem pinsBy_lowerPin : lowerPin.requirement.PinsBy ⟨.equal, "1.0rc1"⟩ :=
  ⟨rfl, rfl, rfl, by decide +kernel⟩

theorem sameInstall_upperPin : upperPin.requirement.SameInstall lowerPin.requirement :=
  ⟨by decide +kernel, rfl, fun _ => Iff.rfl⟩

/-- The third line brings the first two into one finding; without it there is none. -/
theorem tellsBoth_pins_candidates :
    (¬ TellsBoth (checkManifest candidates .standard) upperPin lowerPin) ∧
      TellsBoth (checkManifest contested .standard) upperPin lowerPin := by
  have hi : Settings.standard.isIgnored upperPin.requirement.package = false := rfl
  constructor
  · have hab : [upperPin, lowerPin].Sublist candidates.declarations := by decide +kernel
    intro htold
    have hseen := (tellsBoth_pins hab pinsBy_upperPin pinsBy_lowerPin sameInstall_upperPin hi).2
      (by decide +kernel) htold
    rcases hseen with he | ⟨rival, hr, -, -, -, hne⟩
    · exact absurd he (by decide)
    · revert rival
      decide +kernel
  · have hab : [upperPin, lowerPin].Sublist contested.declarations := by decide +kernel
    refine (tellsBoth_pins hab pinsBy_upperPin pinsBy_lowerPin sameInstall_upperPin hi).1 (.inr ?_)
    exact ⟨⟨3, ⟨"a", [], [⟨.equal, "2"⟩], none, none, []⟩⟩, by decide +kernel, by decide +kernel,
      rfl, by decide +kernel, by decide +kernel⟩

/-- Two pins of one package that no finding tells together. -/
theorem not_forall_tellsBoth : ¬ ∀ (text : String) (m : Manifest) (s : Settings)
    (a b : Declaration) (c c' : Constraint), Manifest.parse text = .ok m →
      [a, b].Sublist m.declarations → a.requirement.PinsBy c → b.requirement.PinsBy c' →
        a.requirement.SameInstall b.requirement → s.isIgnored a.requirement.package = false →
          TellsBoth (checkManifest m s) a b := by
  intro h
  obtain ⟨f, hf, -⟩ := h candidateText candidates .standard upperPin lowerPin _ _
    parse_candidateText (by decide +kernel) pinsBy_upperPin pinsBy_lowerPin sameInstall_upperPin rfl
  have hnone : (checkManifest candidates .standard).findings = [] := by decide +kernel
  rw [hnone] at hf
  cases hf

end Lint

end PinFile
