import PinFile.Change
import PinFile.Proofs.Results
import PinFile.Proofs.Text.Ascending

/-!
# Changes between manifests

Between two manifests a package has one of four fates: it is removed, added, changed or kept
(`existsUnique_hasFate`). `IsBetween old new c` says what a change has to list for each fate, in
which order, and in whose spelling; it is so only for the change that is computed
(`isBetween_iff`). Manifests with the same specifications for every package do not differ, and no
others (`isEmpty_between_iff`). The relation looks the same from both sides, so exchanging the
manifests exchanges the two sides of the change (`between_comm`).
-/

namespace PinFile

open Text

namespace Manifest

variable {m m' : Manifest} {package key text : String} {texts : List String}

/-! ## Specifications -/

def Declares (m : Manifest) (package : String) : Prop :=
  ∃ r ∈ m.requirements, r.package = package

def HasSpec (m : Manifest) (package key : String) : Prop :=
  ∃ r ∈ m.requirements, r.package = package ∧ r.specKey = key

theorem mem_specKeys : key ∈ m.specKeys package ↔ m.HasSpec package key := by
  simp [HasSpec, specKeys, requirementsOf, and_assoc]

theorem names_iff : m.names package = true ↔ m.Declares package := by
  simp [Declares, names]

theorem declares_iff_exists_hasSpec : m.Declares package ↔ ∃ key, m.HasSpec package key := by
  constructor
  · rintro ⟨r, hr, hp⟩
    exact ⟨r.specKey, r, hr, hp, rfl⟩
  · rintro ⟨-, r, hr, hp, -⟩
    exact ⟨r, hr, hp⟩

theorem mem_sortedPackages : package ∈ m.sortedPackages ↔ m.Declares package := by
  rw [sortedPackages, mem_ascending, packages, List.mem_eraseDups, List.mem_map]
  rfl

theorem specKeys_eq_iff : m.specKeys package = m'.specKeys package ↔
    ∀ key, m.HasSpec package key ↔ m'.HasSpec package key := by
  constructor
  · intro h key
    rw [← mem_specKeys, h, mem_specKeys]
  · intro h
    refine eq_of_pairwise_lt (pairwise_ascending _) (pairwise_ascending _) fun key => ?_
    exact mem_specKeys.trans ((h key).trans mem_specKeys.symm)

/-! ## Requirements that ask for a specification -/

/-- One of the requirements asks for a specification of a package. -/
def Asks (rs : List Requirement) (package key : String) : Prop :=
  ∃ r ∈ rs, r.package = package ∧ r.specKey = key

variable {rs rs' : List Requirement}

theorem hasSpec_iff_asks : m.HasSpec package key ↔ Asks m.requirements package key := Iff.rfl

theorem asks_append :
    Asks (rs ++ rs') package key ↔ Asks rs package key ∨ Asks rs' package key := by
  simp only [Asks, List.mem_append, or_and_right, exists_or]

theorem asks_filter (keeps : String → Bool) :
    Asks (rs.filter fun r => keeps r.package) package key ↔
      keeps package = true ∧ Asks rs package key := by
  constructor
  · rintro ⟨r, hr, rfl, hk⟩
    obtain ⟨hr, hkeeps⟩ := List.mem_filter.mp hr
    exact ⟨hkeeps, r, hr, rfl, hk⟩
  · rintro ⟨hkeeps, r, hr, rfl, hk⟩
    exact ⟨r, List.mem_filter.mpr ⟨hr, hkeeps⟩, rfl, hk⟩

theorem asks_subset (h : rs ⊆ rs') (ha : Asks rs package key) : Asks rs' package key := by
  obtain ⟨r, hr, hs⟩ := ha
  exact ⟨r, h hr, hs⟩

theorem asks_perm (h : rs.Perm rs') : Asks rs package key ↔ Asks rs' package key :=
  ⟨asks_subset h.subset, asks_subset h.symm.subset⟩

/-! ## Texts of a package -/

/-- The text of the first requirement with a specification. -/
def FirstText (m : Manifest) (package key text : String) : Prop :=
  ∃ before r after, m.requirements = before ++ r :: after ∧
    (r.package = package ∧ r.specKey = key) ∧
    (∀ q ∈ before, ¬ (q.package = package ∧ q.specKey = key)) ∧ r.render = text

/-- The texts of a package, one for each of its specifications, by ascending keys. -/
def Shows (m : Manifest) (package : String) (texts : List String) : Prop :=
  ∃ keys : List String, keys.Pairwise (· < ·) ∧ (∀ key, key ∈ keys ↔ m.HasSpec package key) ∧
    List.Forall₂ (m.FirstText package) keys texts

/-- The text that a package shows for a key. -/
def specText (m : Manifest) (package key : String) : Option String :=
  ((m.requirementsOf package).find? (·.specKey == key)).map Requirement.render

theorem specs_eq (m : Manifest) (package : String) :
    m.specs package = (m.specKeys package).filterMap (m.specText package) := rfl

theorem specText_eq_some_iff :
    m.specText package key = some text ↔ m.FirstText package key text := by
  have hfind : (m.requirementsOf package).find? (·.specKey == key) =
      m.requirements.find? fun r => decide (r.package = package ∧ r.specKey = key) := by
    rw [requirementsOf, List.find?_filter]
    congr 1
    funext r
    simp
  simp only [specText, hfind, Option.map_eq_some_iff, List.find?_eq_some_iff_append,
    Bool.not_eq_true', decide_eq_true_eq, decide_eq_false_iff_not]
  constructor
  · rintro ⟨r, ⟨hr, before, after, he, hb⟩, rfl⟩
    exact ⟨before, r, after, he, hr, hb, rfl⟩
  · rintro ⟨before, r, after, he, hr, hb, rfl⟩
    exact ⟨r, ⟨hr, before, after, he, hb⟩, rfl⟩

theorem isSome_specText (h : m.HasSpec package key) : (m.specText package key).isSome = true := by
  obtain ⟨r, hr, hp, hk⟩ := h
  simp only [specText, Option.isSome_map, List.find?_isSome]
  exact ⟨r, by simp [requirementsOf, hr, hp], by simp [hk]⟩

theorem shows_iff : m.Shows package texts ↔ texts = m.specs package := by
  constructor
  · rintro ⟨keys, ha, hk, ht⟩
    have hkeys : keys = m.specKeys package :=
      eq_ascending ha fun key => (hk key).trans (mem_specKeys.symm.trans mem_ascending)
    have ht' := ht.imp fun _ _ h => specText_eq_some_iff.mpr h
    rw [specs_eq, ← hkeys]
    exact (forall₂_eq_some_iff.mp ht').2.symm
  · rintro rfl
    refine ⟨m.specKeys package, pairwise_ascending _, fun key => mem_specKeys, ?_⟩
    have ht := forall₂_eq_some_iff.mpr
      ⟨fun key hk => isSome_specText (mem_specKeys.mp hk), (m.specs_eq package).symm⟩
    exact ht.imp fun _ _ h => specText_eq_some_iff.mp h

theorem specs_eq_nil_iff : m.specs package = [] ↔ ¬ m.Declares package := by
  rw [specs_eq, List.filterMap_eq_nil_iff, declares_iff_exists_hasSpec]
  constructor
  · rintro h ⟨key, hs⟩
    have hsome := isSome_specText hs
    rw [h key (mem_specKeys.mpr hs)] at hsome
    cases hsome
  · intro h key hk
    exact absurd ⟨key, mem_specKeys.mp hk⟩ h

/-! ## Texts of a sort of packages -/

variable {sort : String → Prop} {packages : List String}

/-- The texts of all packages of a sort, by ascending names. -/
def Lists (m : Manifest) (sort : String → Prop) (texts : List String) : Prop :=
  ∃ packages : List String, packages.Pairwise (· < ·) ∧ (∀ p, p ∈ packages ↔ sort p) ∧
    ∃ groups, List.Forall₂ m.Shows packages groups ∧ texts = groups.flatten

theorem lists_iff (ha : packages.Pairwise (· < ·)) (hp : ∀ p, p ∈ packages ↔ sort p) :
    m.Lists sort texts ↔ texts = packages.flatMap m.specs := by
  constructor
  · rintro ⟨packages', ha', hp', groups, hg, rfl⟩
    have hpackages : packages' = packages :=
      eq_of_pairwise_lt ha' ha fun p => (hp' p).trans (hp p).symm
    have hgroups : packages'.map m.specs = groups := by
      rw [← List.forall₂_eq_eq_eq, List.forall₂_map_left_iff]
      exact hg.imp fun _ _ h => (shows_iff.mp h).symm
    rw [← hgroups, hpackages, List.flatMap_def]
  · rintro rfl
    refine ⟨packages, ha, hp, packages.map m.specs, ?_, List.flatMap_def⟩
    rw [List.forall₂_map_right_iff, List.forall₂_same]
    exact fun p _ => shows_iff.mpr rfl

theorem Lists.unique {texts' : List String} (h : m.Lists sort texts) (h' : m.Lists sort texts') :
    texts = texts' := by
  obtain ⟨packages, ha, hp, -⟩ := id h
  exact ((lists_iff ha hp).mp h).trans ((lists_iff ha hp).mp h').symm

theorem lists_congr {sort' : String → Prop} (h : ∀ p, sort p ↔ sort' p) :
    m.Lists sort texts ↔ m.Lists sort' texts := by
  rw [show sort = sort' from funext fun p => propext (h p)]

/-- No text is listed exactly when no package is of the sort. -/
theorem Lists.eq_nil_iff (h : m.Lists sort texts) (hs : ∀ p, sort p → m.Declares p) :
    texts = [] ↔ ∀ p, ¬ sort p := by
  obtain ⟨packages, ha, hp, -⟩ := id h
  rw [(lists_iff ha hp).mp h, List.flatMap_eq_nil_iff]
  constructor
  · intro hn p hsort
    exact specs_eq_nil_iff.mp (hn p ((hp p).mpr hsort)) (hs p hsort)
  · intro hn p hm
    exact absurd ((hp p).mp hm) (hn p)

end Manifest

/-! ## Fates -/

/-- What becomes of a package from one manifest to another. -/
inductive Fate where
  | removed
  | added
  | changed
  | kept
  deriving DecidableEq, Repr

/-- The fate as it looks from the other side. -/
def Fate.mirror : Fate → Fate
  | removed => added
  | added => removed
  | changed => changed
  | kept => kept

def HasFate (old new : Manifest) (package : String) : Fate → Prop
  | .removed => old.Declares package ∧ ¬ new.Declares package
  | .added => ¬ old.Declares package ∧ new.Declares package
  | .changed => (old.Declares package ∧ new.Declares package) ∧
      ¬ ∀ key, old.HasSpec package key ↔ new.HasSpec package key
  | .kept => (old.Declares package ∧ new.Declares package) ∧
      ∀ key, old.HasSpec package key ↔ new.HasSpec package key

section Fates

open Manifest

variable {old new : Manifest} {package : String} {fate : Fate}

theorem hasFate_mirror (fate : Fate) :
    HasFate new old package fate.mirror ↔ HasFate old new package fate := by
  cases fate with
  | removed | added => exact and_comm
  | changed | kept => simp only [Fate.mirror, HasFate, and_comm, iff_comm]

theorem HasFate.declares (h : HasFate old new package fate) :
    old.Declares package ∨ new.Declares package := by
  cases fate with
  | removed => exact .inl h.1
  | added => exact .inr h.2
  | changed | kept => exact .inl h.1.1

theorem HasFate.unique {fate' : Fate} (h : HasFate old new package fate)
    (h' : HasFate old new package fate') : fate = fate' := by
  cases fate <;> cases fate' <;> simp_all [HasFate]

theorem exists_hasFate (h : old.Declares package ∨ new.Declares package) :
    ∃ fate, HasFate old new package fate := by
  by_cases hold : old.Declares package
  · by_cases hnew : new.Declares package
    · by_cases hkeys : ∀ key, old.HasSpec package key ↔ new.HasSpec package key
      · exact ⟨.kept, ⟨hold, hnew⟩, hkeys⟩
      · exact ⟨.changed, ⟨hold, hnew⟩, hkeys⟩
    · exact ⟨.removed, hold, hnew⟩
  · exact ⟨.added, hold, h.resolve_left hold⟩

/-- A package that one of the manifests names has exactly one fate, and no other package has one. -/
theorem existsUnique_hasFate :
    (∃! fate, HasFate old new package fate) ↔ old.Declares package ∨ new.Declares package := by
  constructor
  · rintro ⟨fate, h, -⟩
    exact h.declares
  · intro h
    obtain ⟨fate, hf⟩ := exists_hasFate h
    exact ⟨fate, hf, fun fate' hf' => hf'.unique hf⟩

/-- Every package is kept exactly when the manifests ask for the same specifications. -/
theorem forall_kept_iff : (∀ p fate, HasFate old new p fate → fate = .kept) ↔
    ∀ p key, old.HasSpec p key ↔ new.HasSpec p key := by
  constructor
  · intro h p key
    have hkept (hd : old.Declares p ∨ new.Declares p) : HasFate old new p .kept := by
      obtain ⟨fate, hf⟩ := exists_hasFate hd
      exact h p fate hf ▸ hf
    constructor
    · intro hs
      have hd : old.Declares p := declares_iff_exists_hasSpec.mpr ⟨key, hs⟩
      exact ((hkept (.inl hd)).2 key).mp hs
    · intro hs
      have hd : new.Declares p := declares_iff_exists_hasSpec.mpr ⟨key, hs⟩
      exact ((hkept (.inr hd)).2 key).mpr hs
  · intro h p fate hf
    have hd : old.Declares p ↔ new.Declares p := by
      rw [declares_iff_exists_hasSpec, declares_iff_exists_hasSpec]
      exact exists_congr (h p)
    cases fate with
    | removed => exact absurd (hd.mp hf.1) hf.2
    | added => exact absurd (hd.mpr hf.2) hf.1
    | changed => exact absurd (h p) hf.2
    | kept => rfl

end Fates

/-! ## Changes -/

def PackageChange.mirror (c : PackageChange) : PackageChange :=
  ⟨c.package, c.after, c.before⟩

namespace Change

open Manifest

/-- The change as it looks from the other side. -/
def mirror (c : Change) : Change := ⟨c.removed, c.added, c.changed.map PackageChange.mirror⟩

/-- What a change says of each package: a removed or added package is shown with its
specifications, a changed one with those before and after, and a kept one not at all. -/
structure IsBetween (old new : Manifest) (c : Change) : Prop where
  removed : old.Lists (HasFate old new · .removed) c.removed
  added : new.Lists (HasFate old new · .added) c.added
  ascending : (c.changed.map (·.package)).Pairwise (· < ·)
  changed : ∀ p, p ∈ c.changed.map (·.package) ↔ HasFate old new p .changed
  shows : ∀ x ∈ c.changed, old.Shows x.package x.before ∧ new.Shows x.package x.after

variable {old new : Manifest} {c : Change}

theorem IsBetween.mirror (h : IsBetween old new c) : IsBetween new old c.mirror where
  removed := (lists_congr fun _ => (hasFate_mirror .added).symm).mp h.added
  added := (lists_congr fun _ => (hasFate_mirror .removed).symm).mp h.removed
  ascending := by
    rw [Change.mirror, List.map_map]
    exact h.ascending
  changed p := by
    rw [Change.mirror, List.map_map]
    exact (h.changed p).trans (hasFate_mirror .changed).symm
  shows := by
    rw [Change.mirror, List.forall_mem_map]
    exact fun x hx => (h.shows x hx).symm

theorem mem_filter_sortedPackages {m : Manifest} {p : String} {f : String → Bool} :
    p ∈ m.sortedPackages.filter f ↔ m.Declares p ∧ f p = true := by
  rw [List.mem_filter, mem_sortedPackages]

theorem not_names_iff {m : Manifest} {p : String} : (!m.names p) = true ↔ ¬ m.Declares p := by
  rw [Bool.not_eq_true', ← Bool.not_eq_true, names_iff]

theorem mem_changedPackages {p : String} :
    p ∈ (old.sortedPackages.filter fun p => new.names p && old.specKeys p != new.specKeys p) ↔
      HasFate old new p .changed := by
  rw [mem_filter_sortedPackages, Bool.and_eq_true, names_iff, bne_iff_ne, ne_eq, specKeys_eq_iff,
    ← and_assoc]
  rfl

/-- Such a package is shown as both manifests show it. -/
def ofPackage (old new : Manifest) (p : String) : PackageChange := ⟨p, old.specs p, new.specs p⟩

theorem map_package_ofPackage (ps : List String) :
    (ps.map (ofPackage old new)).map (·.package) = ps := by
  rw [List.map_map]
  exact List.map_id ps

theorem isBetween_between (old new : Manifest) : IsBetween old new (between old new) where
  removed := (lists_iff ((pairwise_ascending _).filter _) fun p =>
    mem_filter_sortedPackages.trans (and_congr_right fun _ => not_names_iff)).mpr rfl
  added := (lists_iff ((pairwise_ascending _).filter _) fun p =>
    mem_filter_sortedPackages.trans ((and_congr_right fun _ => not_names_iff).trans
      and_comm)).mpr rfl
  ascending := (map_package_ofPackage _).symm ▸ (pairwise_ascending _).filter _
  changed p := (map_package_ofPackage _).symm ▸ mem_changedPackages
  shows x hx := by
    obtain ⟨p, -, rfl⟩ := List.mem_map.mp hx
    exact ⟨shows_iff.mpr rfl, shows_iff.mpr rfl⟩

theorem IsBetween.changed_eq (h : IsBetween old new c) :
    c.changed = (c.changed.map (·.package)).map (ofPackage old new) := by
  rw [List.map_map]
  refine ((List.map_congr_left fun x hx => ?_).trans (List.map_id _)).symm
  obtain ⟨hb, ha⟩ := h.shows x hx
  simp only [Function.comp_apply, ofPackage, ← shows_iff.mp hb, ← shows_iff.mp ha, id]

/-- Only the change that is computed says this of the packages. -/
theorem isBetween_iff : IsBetween old new c ↔ c = between old new := by
  constructor
  · intro h
    have hb := isBetween_between old new
    have hpackages : c.changed.map (·.package) = (between old new).changed.map (·.package) :=
      eq_of_pairwise_lt h.ascending hb.ascending fun p => (h.changed p).trans (hb.changed p).symm
    have hchanged : c.changed = (between old new).changed := by
      rw [h.changed_eq, hb.changed_eq, hpackages]
    have hadded := h.added.unique hb.added
    have hremoved := h.removed.unique hb.removed
    cases c
    cases hadded
    cases hremoved
    cases hchanged
    rfl
  · rintro rfl
    exact isBetween_between old new

theorem between_comm (old new : Manifest) : between new old = (between old new).mirror :=
  (isBetween_iff.mp (isBetween_between old new).mirror).symm

theorem IsBetween.isEmpty_iff (h : IsBetween old new c) :
    c.isEmpty = true ↔ ∀ p fate, HasFate old new p fate → fate = .kept := by
  have hremoved := h.removed.eq_nil_iff fun _ hf => hf.1
  have hadded := h.added.eq_nil_iff fun _ hf => hf.2
  have hchanged : c.changed = [] ↔ ∀ p, ¬ HasFate old new p .changed := by
    rw [← List.map_eq_nil_iff (f := (·.package)), List.eq_nil_iff_forall_not_mem]
    exact forall_congr' fun p => not_congr (h.changed p)
  simp only [isEmpty, Bool.and_eq_true, List.isEmpty_iff, hremoved, hadded, hchanged]
  constructor
  · rintro ⟨⟨ha, hr⟩, hc⟩ p fate hf
    cases fate with
    | removed => exact absurd hf (hr p)
    | added => exact absurd hf (ha p)
    | changed => exact absurd hf (hc p)
    | kept => rfl
  · intro hk
    exact ⟨⟨fun p hf => (nomatch hk p _ hf), fun p hf => (nomatch hk p _ hf)⟩,
      fun p hf => (nomatch hk p _ hf)⟩

/-- Manifests do not differ exactly when they ask for the same specifications. -/
theorem isEmpty_between_iff : (between old new).isEmpty = true ↔
    ∀ p key, old.HasSpec p key ↔ new.HasSpec p key :=
  (isBetween_between old new).isEmpty_iff.trans forall_kept_iff

theorem isEmpty_between (h : ∀ package, old.specKeys package = new.specKeys package) :
    (between old new).isEmpty = true :=
  isEmpty_between_iff.mpr fun p => specKeys_eq_iff.mp (h p)

/-- For every two manifests: a package has exactly one fate if one of them names it, and else none;
the change is the one that lists each package as its fate asks, and no other; it is empty exactly
when both manifests ask for the same specifications of the same packages; and the change back is
its mirror image. -/
theorem between_classifies (old new : Manifest) :
    (∀ p, (∃! fate, HasFate old new p fate) ↔ old.Declares p ∨ new.Declares p) ∧
    (∀ c, IsBetween old new c ↔ c = between old new) ∧
    ((between old new).isEmpty = true ↔ ∀ p key, old.HasSpec p key ↔ new.HasSpec p key) ∧
    between new old = (between old new).mirror :=
  ⟨fun _ => existsUnique_hasFate, fun _ => isBetween_iff, isEmpty_between_iff,
    between_comm old new⟩

end Change

end PinFile
