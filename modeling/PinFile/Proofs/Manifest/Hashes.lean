import Mathlib.Data.List.Pairwise
import PinFile.Manifest.Reader
import PinFile.Proofs.Manifest.Normal
import PinFile.Proofs.Results

/-!
# The digests in the normal layout

Of the requirements that ask for the same, the normal layout writes the first one, with the digests
of that one and no others (`normalize_hashes`): the specification key leaves the digests out, so a
later line is dropped whether or not it repeats them.
-/

namespace PinFile.Manifest

variable {m : Manifest} {r first : Requirement} {rs : List Requirement} {hash : String}

/-- What is dropped asks for the same as what stands in front of it, so the first requirement of a
specification is the same before and after. -/
theorem find?_distinctSpecs (r : Requirement) (rs : List Requirement) :
    (distinctSpecs rs).find? (sameSpec r) = rs.find? (sameSpec r) := by
  induction rs with
  | nil => rfl
  | cons a rs ih =>
    rw [distinctSpecs, List.find?_cons, List.find?_cons]
    cases ha : sameSpec r a with
    | true => rfl
    | false =>
      have hp : (fun b => decide ((!sameSpec a b) = true ∧ sameSpec r b = true)) = sameSpec r := by
        funext b
        cases hb : sameSpec r b with
        | false => simp
        | true =>
          obtain ⟨hp, hk⟩ := sameSpec_iff.mp hb
          rw [sameSpec_comm a b, sameSpec, ← hp, ← hk, ← sameSpec, ha]
          rfl
      dsimp only
      rw [List.find?_filter, hp, ih]

theorem mem_normalRequirements : r ∈ m.normalRequirements ↔ r ∈ distinctSpecs m.requirements :=
  List.mem_mergeSort

/-- The normal layout writes one requirement of a specification: the first one. -/
theorem eq_first_iff (h : m.requirements.find? (sameSpec r) = some first) {kept : Requirement} :
    kept ∈ m.normalRequirements ∧ sameSpec r kept = true ↔ kept = first := by
  rw [← find?_distinctSpecs] at h
  have hf : first ∈ m.normalRequirements := mem_normalRequirements.mpr (List.mem_of_find?_eq_some h)
  have hs : sameSpec r first = true := List.find?_some h
  constructor
  · rintro ⟨hk, hr⟩
    by_contra hne
    have hsymm : Std.Symm fun a b => sameSpec a b = false :=
      ⟨fun a b hab => (sameSpec_comm b a).trans hab⟩
    have hd : sameSpec kept first = false := m.pairwise_normalRequirements.forall hk hf hne
    obtain ⟨hp, hk⟩ := sameSpec_iff.mp hr
    rw [sameSpec, ← hp, ← hk, ← sameSpec, hs] at hd
    cases hd
  · rintro rfl
    exact ⟨hf, hs⟩

/-- The normal layout writes a digest beside a requirement that asks for the same as `r`. -/
def ListsHash (m : Manifest) (r : Requirement) (hash : String) : Prop :=
  ∃ kept ∈ m.normalRequirements,
    kept.package = r.package ∧ kept.specKey = r.specKey ∧ hash ∈ kept.hashes

theorem listsHash_iff (h : m.requirements.find? (sameSpec r) = some first) :
    m.ListsHash r hash ↔ hash ∈ first.hashes := by
  constructor
  · rintro ⟨kept, hk, hp, hs, hm⟩
    rwa [← (eq_first_iff h).mp ⟨hk, sameSpec_iff.mpr ⟨hp.symm, hs.symm⟩⟩]
  · intro hm
    obtain ⟨hf, hs⟩ := (eq_first_iff h).mpr rfl
    obtain ⟨hp, hk⟩ := sameSpec_iff.mp hs
    exact ⟨first, hf, hp.symm, hk.symm, hm⟩

theorem exists_find?_sameSpec (h : r ∈ rs) : ∃ first, rs.find? (sameSpec r) = some first :=
  Option.isSome_iff_exists.mp
    (List.find?_isSome.mpr ⟨r, h, sameSpec_iff.mpr ⟨rfl, rfl⟩⟩)

/-- The digests that are written for a requirement are those of the first line that asks for the
same. So none is lost exactly when that line has all digests of the lines dropped for it. -/
theorem normalize_hashes (m : Manifest) :
    m.renderedLines .normalize = (m.options.map InstallerOption.render).eraseDups ++
      (m.includes.map Include.render).eraseDups ++ m.normalRequirements.map Requirement.render ++
      (m.editables.map Editable.render).eraseDups ∧
    (∀ r ∈ m.requirements, ∃ first, m.requirements.find? (sameSpec r) = some first ∧
      ∀ hash, m.ListsHash r hash ↔ hash ∈ first.hashes) ∧
    ((∀ r ∈ m.requirements, ∀ hash ∈ r.hashes, m.ListsHash r hash) ↔
      ∀ r ∈ m.requirements, ∀ first, m.requirements.find? (sameSpec r) = some first →
        r.hashes ⊆ first.hashes) := by
  refine ⟨rfl, fun r hr => ?_, fun h r hr first hf hash hm => ?_, fun h r hr hash hm => ?_⟩
  · obtain ⟨first, hf⟩ := exists_find?_sameSpec hr
    exact ⟨first, hf, fun hash => listsHash_iff hf⟩
  · exact (listsHash_iff hf).mp (h r hr hash hm)
  · obtain ⟨first, hf⟩ := exists_find?_sameSpec hr
    exact (listsHash_iff hf).mpr (h r hr first hf hm)

/-- One package, pinned twice, with a digest each time. -/
def twoHashes : Manifest := ⟨[
  ⟨1, .requirement ⟨"a", [], [⟨.equal, "1"⟩], none, none, ["sha256:aa"]⟩, none⟩,
  ⟨2, .requirement ⟨"a", [], [⟨.equal, "1"⟩], none, none, ["sha256:bb"]⟩, none⟩]⟩

theorem parse_twoHashes :
    parse "a==1 --hash=sha256:aa\na==1 --hash=sha256:bb\n" = .ok twoHashes := by
  decide +kernel

theorem normalize_hashes_twoHashes :
    twoHashes.render .normalize = "a==1 --hash=sha256:aa\n" ∧
      ∀ r ∈ twoHashes.requirements,
        twoHashes.ListsHash r "sha256:aa" ∧ ¬ twoHashes.ListsHash r "sha256:bb" := by
  have hh : ∀ r ∈ twoHashes.requirements,
      (twoHashes.requirements.find? (sameSpec r)).map (·.hashes) = some ["sha256:aa"] := by
    decide +kernel
  refine ⟨by decide +kernel, fun r hr => ?_⟩
  obtain ⟨first, hf, hl⟩ := twoHashes.normalize_hashes.2.1 r hr
  have he : some first.hashes = some ["sha256:aa"] :=
    (congrArg (Option.map Requirement.hashes) hf).symm.trans (hh r hr)
  rw [hl, hl, Option.some.inj he]
  decide

/-- The digest of the second line is lost. -/
theorem not_forall_listsHash : ¬ ∀ (text : String) (m : Manifest), parse text = .ok m →
    ∀ r ∈ m.requirements, ∀ hash ∈ r.hashes, m.ListsHash r hash := by
  intro h
  obtain ⟨kept, hk, -, -, hm⟩ := h _ _ parse_twoHashes
    ⟨"a", [], [⟨.equal, "1"⟩], none, none, ["sha256:bb"]⟩ (by decide) "sha256:bb" (by decide)
  have hn : ∀ kept ∈ distinctSpecs twoHashes.requirements, "sha256:bb" ∉ kept.hashes := by
    decide +kernel
  exact hn kept (mem_normalRequirements.mp hk) hm

end PinFile.Manifest
