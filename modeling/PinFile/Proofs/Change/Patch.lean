import PinFile.Proofs.Change
import PinFile.Requirement.Reader

/-!
# Changes as patches

What a change lists is enough to make the old manifest ask for what the new one asks for. The
packages that are removed or changed are dropped, and the texts that are added or stand after a
change are read (`Change.patch`). Where every requirement is read from its own text as one that
asks for the same, the patched manifest does not differ from the new one (`patch_between`).
-/

namespace PinFile

/-! ## Reading what is shown -/

/-- The requirement is read from its own text as one of the same package and specification. -/
def Requirement.ReadsBack (r : Requirement) : Prop :=
  ∃ r', Requirement.parse r.render = .ok r' ∧ r'.package = r.package ∧ r'.specKey = r.specKey

instance (r : Requirement) : Decidable r.ReadsBack :=
  match h : Requirement.parse r.render with
  | .error _ => isFalse fun ⟨_, hr, _⟩ => nomatch h.symm.trans hr
  | .ok r' => decidable_of_iff (r'.package = r.package ∧ r'.specKey = r.specKey)
    ⟨fun hs => ⟨r', h, hs⟩, fun ⟨_, hr, hs⟩ => Except.ok.inj (h.symm.trans hr) ▸ hs⟩

namespace Manifest

variable {m : Manifest} {package key text : String} {texts : List String} {sort : String → Prop}

def ReadsBack (m : Manifest) : Prop := ∀ r ∈ m.requirements, r.ReadsBack

instance (m : Manifest) : Decidable m.ReadsBack :=
  inferInstanceAs (Decidable (∀ r ∈ m.requirements, r.ReadsBack))

theorem FirstText.hasSpec (h : m.FirstText package key text) : m.HasSpec package key := by
  obtain ⟨before, r, after, he, hr, -, -⟩ := h
  exact ⟨r, by simp [he], hr⟩

theorem exists_firstText (h : m.HasSpec package key) : ∃ text, m.FirstText package key text := by
  obtain ⟨text, ht⟩ := Option.isSome_iff_exists.mp (isSome_specText h)
  exact ⟨text, specText_eq_some_iff.mp ht⟩

theorem mem_specs : text ∈ m.specs package ↔ ∃ key, m.FirstText package key text := by
  rw [specs_eq, List.mem_filterMap]
  constructor
  · rintro ⟨key, -, ht⟩
    exact ⟨key, specText_eq_some_iff.mp ht⟩
  · rintro ⟨key, ht⟩
    exact ⟨key, mem_specKeys.mpr ht.hasSpec, specText_eq_some_iff.mpr ht⟩

namespace ReadsBack

theorem parse_of_firstText (h : m.ReadsBack) (ht : m.FirstText package key text) :
    ∃ r, Requirement.parse text = .ok r ∧ r.package = package ∧ r.specKey = key := by
  obtain ⟨before, r, after, he, ⟨rfl, rfl⟩, -, rfl⟩ := ht
  exact h r (by simp [he])

/-- The texts of some packages are read as requirements for the specifications of just these. -/
theorem read_specs (h : m.ReadsBack) (packages : List String) :
    ∃ rs, (packages.flatMap m.specs).mapM Requirement.parse = .ok rs ∧
      ∀ p key, Asks rs p key ↔ p ∈ packages ∧ m.HasSpec p key := by
  have hread : ∀ text ∈ packages.flatMap m.specs, ∃ r, Requirement.parse text = .ok r := by
    intro text ht
    obtain ⟨p, -, ht⟩ := List.mem_flatMap.mp ht
    obtain ⟨key, ht⟩ := mem_specs.mp ht
    obtain ⟨r, hr, -⟩ := h.parse_of_firstText ht
    exact ⟨r, hr⟩
  obtain ⟨rs, hrs, hm⟩ := exists_mapM_eq_ok hread
  refine ⟨rs, hrs, fun p key => ⟨?_, ?_⟩⟩
  · rintro ⟨r, hr, rfl, rfl⟩
    obtain ⟨text, ht, hr⟩ := (hm r).mp hr
    obtain ⟨p, hp, ht⟩ := List.mem_flatMap.mp ht
    obtain ⟨key, ht⟩ := mem_specs.mp ht
    obtain ⟨r', hr', rfl, rfl⟩ := h.parse_of_firstText ht
    cases hr.symm.trans hr'
    exact ⟨hp, ht.hasSpec⟩
  · rintro ⟨hp, hs⟩
    obtain ⟨text, ht⟩ := exists_firstText hs
    obtain ⟨r, hr, hrp, hrk⟩ := h.parse_of_firstText ht
    have hshown : text ∈ packages.flatMap m.specs :=
      List.mem_flatMap.mpr ⟨p, hp, mem_specs.mpr ⟨key, ht⟩⟩
    exact ⟨r, (hm r).mpr ⟨text, hshown, hr⟩, hrp, hrk⟩

theorem read_lists (h : m.ReadsBack) (hl : m.Lists sort texts) :
    ∃ rs, texts.mapM Requirement.parse = .ok rs ∧
      ∀ p key, Asks rs p key ↔ sort p ∧ m.HasSpec p key := by
  obtain ⟨packages, ha, hp, -⟩ := id hl
  rw [(lists_iff ha hp).mp hl]
  simpa only [hp] using h.read_specs packages

end ReadsBack

end Manifest

/-! ## Patches -/

namespace Change

open Manifest

variable {old new : Manifest} {c : Change}

/-- A package whose requirements are taken away: those that were removed name it, or it is
changed. -/
def drops (c : Change) (removed : List Requirement) (package : String) : Bool :=
  removed.any (·.package == package) || c.changed.any (·.package == package)

/-- The requirements after a change: those of the packages that are not dropped, and what the
texts are read as that are added or stand after a change. -/
def patch (c : Change) (rs : List Requirement) : Except LineError (List Requirement) := do
  let removed ← c.removed.mapM Requirement.parse
  let added ← c.added.mapM Requirement.parse
  let after ← (c.changed.flatMap (·.after)).mapM Requirement.parse
  return rs.filter (fun r => !c.drops removed r.package) ++ added ++ after

theorem IsBetween.lists_after (h : IsBetween old new c) :
    new.Lists (HasFate old new · .changed) (c.changed.flatMap (·.after)) := by
  refine ⟨c.changed.map (·.package), h.ascending, h.changed, c.changed.map (·.after), ?_,
    List.flatMap_def⟩
  rw [List.forall₂_map_left_iff, List.forall₂_map_right_iff, List.forall₂_same]
  exact fun x hx => (h.shows x hx).2

theorem IsBetween.drops_iff (h : IsBetween old new c) {removed : List Requirement} {p : String}
    (hr : ∀ key, Asks removed p key ↔ HasFate old new p .removed ∧ old.HasSpec p key) :
    c.drops removed p = true ↔ HasFate old new p .removed ∨ HasFate old new p .changed := by
  have hnamed : (∃ r ∈ removed, r.package = p) ↔ HasFate old new p .removed := by
    constructor
    · rintro ⟨r, hm, hp⟩
      exact ((hr r.specKey).mp ⟨r, hm, hp, rfl⟩).1
    · intro hf
      obtain ⟨key, hs⟩ := declares_iff_exists_hasSpec.mp hf.1
      obtain ⟨r, hm, hp, -⟩ := (hr key).mpr ⟨hf, hs⟩
      exact ⟨r, hm, hp⟩
  rw [← hnamed, ← h.changed]
  simp [drops]

/-- Each specification of the new manifest comes from a package that is kept, added or changed, as
its fate is, and a removed package has none. -/
theorem IsBetween.exists_patch (h : IsBetween old new c) (ho : old.ReadsBack)
    (hn : new.ReadsBack) :
    ∃ rs, c.patch old.requirements = .ok rs ∧ ∀ p key, Asks rs p key ↔ new.HasSpec p key := by
  obtain ⟨removed, hr, hremoved⟩ := ho.read_lists h.removed
  obtain ⟨added, ha, hadded⟩ := hn.read_lists h.added
  obtain ⟨after, hc, hafter⟩ := hn.read_lists h.lists_after
  have hpatch : c.patch old.requirements = .ok
      (old.requirements.filter (fun r => !c.drops removed r.package) ++ added ++ after) := by
    unfold patch
    rw [hr, ha, hc]
    rfl
  refine ⟨_, hpatch, fun p key => ?_⟩
  rw [asks_append, asks_append, asks_filter (!c.drops removed ·), hadded, hafter,
    Bool.not_eq_true', ← Bool.not_eq_true, h.drops_iff (hremoved p), not_or]
  constructor
  · rintro ((⟨⟨hnr, hnc⟩, hs⟩ | ⟨-, hs⟩) | ⟨-, hs⟩)
    · -- what is left of the old manifest belongs to packages that are kept
      have hold : old.Declares p := declares_iff_exists_hasSpec.mpr ⟨key, hs⟩
      have hd : old.Declares p ∨ new.Declares p := .inl hold
      obtain ⟨fate, hf⟩ := exists_hasFate hd
      cases fate with
      | removed => exact absurd hf hnr
      | added => exact absurd hold hf.1
      | changed => exact absurd hf hnc
      | kept => exact (hf.2 key).mp hs
    · exact hs
    · exact hs
  · intro hs
    have hnew : new.Declares p := declares_iff_exists_hasSpec.mpr ⟨key, hs⟩
    have hd : old.Declares p ∨ new.Declares p := .inr hnew
    obtain ⟨fate, hf⟩ := exists_hasFate hd
    cases fate with
    | removed => exact absurd hnew hf.2
    | added => exact .inl (.inr ⟨hf, hs⟩)
    | changed => exact .inr ⟨hf, hs⟩
    | kept =>
      refine .inl (.inl ⟨⟨fun hr => ?_, fun hc => ?_⟩, (hf.2 key).mpr hs⟩)
      · cases hr.unique hf
      · cases hc.unique hf

/-- Where every requirement of both manifests is read from its own text as one that asks for the
same, the change between them makes the old manifest into one that does not differ from the new
one, wherever the requirements that it adds are put. -/
theorem patch_between (ho : old.ReadsBack) (hn : new.ReadsBack) :
    ∃ rs, (between old new).patch old.requirements = .ok rs ∧
      ∀ m : Manifest, m.requirements.Perm rs →
        (∀ p key, m.HasSpec p key ↔ new.HasSpec p key) ∧
          (between m new).isEmpty = true ∧ (between new m).isEmpty = true := by
  obtain ⟨rs, hrs, hasks⟩ := (isBetween_between old new).exists_patch ho hn
  refine ⟨rs, hrs, fun m hm => ?_⟩
  have hspecs : ∀ p key, m.HasSpec p key ↔ new.HasSpec p key :=
    fun p key => (asks_perm hm).trans (hasks p key)
  exact ⟨hspecs, isEmpty_between_iff.mpr hspecs,
    isEmpty_between_iff.mpr fun p key => (hspecs p key).symm⟩

/-- One package with two specifications, one that goes, and one that stays in another spelling. -/
def beforeUpgrade : Manifest := ⟨[
  ⟨1, .requirement ⟨"Flask", [], [⟨.equal, "1.0"⟩], none, none, []⟩, some "web"⟩,
  ⟨2, .requirement ⟨"redis", [], [⟨.equal, "4.3.1"⟩], none, none, []⟩, none⟩,
  ⟨3, .editable ⟨"."⟩, none⟩,
  ⟨4, .requirement ⟨"flask", ["async", "dotenv"], [], none, none, []⟩, none⟩,
  ⟨5, .requirement ⟨"click", [], [⟨.atLeast, "8"⟩], none, none, []⟩, none⟩]⟩

/-- The marker is not trimmed, so its text is read as a requirement with another marker. -/
def afterUpgrade : Manifest := ⟨[
  ⟨1, .requirement ⟨"Click", [], [⟨.atLeast, "8"⟩], none, none, ["md5:0a"]⟩, none⟩,
  ⟨2, .requirement ⟨"httpx", [], [], some "https://example.org/httpx.zip", none, []⟩, none⟩,
  ⟨3, .requirement ⟨"flask", [], [⟨.equal, "2.0"⟩], none, some " os_name == 'nt' ", []⟩, none⟩,
  ⟨4, .requirement ⟨"flask", ["DotEnv", "async"], [], none, none, []⟩, none⟩]⟩

def upgraded : Manifest := ⟨[
  ⟨3, .editable ⟨"."⟩, none⟩,
  ⟨5, .requirement ⟨"click", [], [⟨.atLeast, "8"⟩], none, none, []⟩, none⟩,
  ⟨6, .requirement ⟨"httpx", [], [], some "https://example.org/httpx.zip", none, []⟩, none⟩,
  ⟨7, .requirement ⟨"flask", [], [⟨.equal, "2.0"⟩], none, some "os_name == 'nt'", []⟩, none⟩,
  ⟨8, .requirement ⟨"flask", ["DotEnv", "async"], [], none, none, []⟩, none⟩]⟩

theorem patch_between_upgrade : beforeUpgrade.ReadsBack ∧ afterUpgrade.ReadsBack ∧
    (between beforeUpgrade afterUpgrade).patch beforeUpgrade.requirements =
      .ok upgraded.requirements ∧
    (between upgraded afterUpgrade).isEmpty = true ∧
    (between afterUpgrade upgraded).isEmpty = true := by
  have ho : beforeUpgrade.ReadsBack := by decide +kernel
  have hn : afterUpgrade.ReadsBack := by decide +kernel
  have hpatch : (between beforeUpgrade afterUpgrade).patch beforeUpgrade.requirements =
      .ok upgraded.requirements := by
    decide +kernel
  obtain ⟨rs, hrs, hm⟩ := patch_between ho hn
  cases hpatch.symm.trans hrs
  exact ⟨ho, hn, hpatch, (hm upgraded (.refl _)).2⟩

end Change

end PinFile
