import PinFile.Proofs.Firsts
import PinFile.Proofs.Manifest.Normal

/-!
# The shape of the normal layout

The normal layout writes each option, each inclusion and each editable install once, in the order
in which they first appear, and between inclusions and editable installs the first requirement of
each specification, by package and marker and then by place. There is one list of texts of this
shape, and it is what is written (`render_normalize_shape`).
-/

namespace PinFile.Manifest

variable {r : Requirement} {rs : List Requirement} {i j : Nat}

/-- What tells two requirements apart: the package and what is asked of it. -/
def spec (r : Requirement) : String × String := (r.package, r.specKey)

/-- The requirement at `i` is written in front of the one at `j`: its package comes first, or its
marker does for the same package, or else it stands first in the file. -/
def IsWrittenBefore (rs : List Requirement) (i j : Nat) : Prop :=
  ∃ a b, rs[i]? = some a ∧ rs[j]? = some b ∧
    (a.package < b.package ∨ a.package = b.package ∧
      (a.marker.getD "" < b.marker.getD "" ∨ a.marker.getD "" = b.marker.getD "" ∧ i < j))

/-- Each text once, in the order in which they first appear. -/
def ListsDistinct (texts distinct : List String) : Prop :=
  ListsFirsts (fun text => text) (· < ·) texts distinct

def HasNormalShape (m : Manifest) (texts : List String) : Prop :=
  ∃ options includes requirements editables,
    texts = options ++ includes ++ requirements.map Requirement.render ++ editables ∧
    ListsDistinct (m.options.map InstallerOption.render) options ∧
    ListsDistinct (m.includes.map Include.render) includes ∧
    ListsFirsts spec (IsWrittenBefore m.requirements) m.requirements requirements ∧
    ListsDistinct (m.editables.map Editable.render) editables

/-! ## Requirements -/

theorem sameSpec_iff_spec_eq {a b : Requirement} : sameSpec a b = true ↔ spec a = spec b :=
  sameSpec_iff.trans Prod.mk_inj.symm

/-- A further requirement is kept when no one in front of it asks for the same. -/
theorem distinctSpecs_concat (rs : List Requirement) (r : Requirement) :
    distinctSpecs (rs ++ [r]) =
      distinctSpecs rs ++ if spec r ∈ rs.map spec then [] else [r] := by
  induction rs with
  | nil => rfl
  | cons a rs ih =>
    rw [List.cons_append, distinctSpecs, distinctSpecs, ih, List.filter_append, List.cons_append,
      List.map_cons]
    congr 2
    by_cases hr : spec r ∈ rs.map spec
    · rw [if_pos hr, if_pos (List.mem_cons_of_mem _ hr), List.filter_nil]
    · by_cases ha : spec a = spec r
      · rw [if_neg hr, if_pos (ha ▸ List.mem_cons_self),
          List.filter_cons_of_neg (by simp [sameSpec_iff_spec_eq.mpr ha]), List.filter_nil]
      · have hnot : spec r ∉ spec a :: rs.map spec :=
          fun h => (List.mem_cons.mp h).elim (fun he => ha he.symm) hr
        rw [if_neg hr, if_neg hnot,
          List.filter_cons_of_pos (by simp [mt sameSpec_iff_spec_eq.mp ha]), List.filter_nil]

theorem isWrittenBefore_iff : IsWrittenBefore rs i j ↔ ∃ a b, rs[i]? = some a ∧ rs[j]? = some b ∧
    notAfter a b = true ∧ (notAfter b a = true → i < j) := by
  refine exists₂_congr fun a b => and_congr_right fun _ => and_congr_right fun _ => ?_
  simp only [notAfter, Bool.or_eq_true, Bool.and_eq_true, decide_eq_true_eq, beq_iff_eq]
  rcases lt_trichotomy a.package b.package with h | h | h
  · simp [h, h.asymm, h.ne']
  · rcases lt_trichotomy (a.marker.getD "") (b.marker.getD "") with hm | hm | hm
    · simp [h, hm, hm.le, hm.not_ge]
    · simp [h, hm]
    · simp [h, hm.not_ge, hm.asymm, hm.ne']
  · simp [h.asymm, h.ne']

theorem IsWrittenBefore.asymm (h : IsWrittenBefore rs i j) : ¬ IsWrittenBefore rs j i := by
  intro h'
  obtain ⟨a, b, ha, hb, hab, hij⟩ := isWrittenBefore_iff.mp h
  obtain ⟨b', a', hb', ha', hba, hji⟩ := isWrittenBefore_iff.mp h'
  cases ha.symm.trans ha'
  cases hb.symm.trans hb'
  exact Nat.lt_asymm (hij hba) (hji hab)

theorem listsFirsts_normalRequirements (m : Manifest) :
    ListsFirsts spec (IsWrittenBefore m.requirements) m.requirements m.normalRequirements := by
  have hfirsts : ListsFirsts spec (· < ·) m.requirements (distinctSpecs m.requirements) :=
    listsFirsts_of_concat rfl distinctSpecs_concat m.requirements
  obtain ⟨places, hfirst, hsorted, hold⟩ := hfirsts.mergeSort notAfter_trans notAfter_total
  exact ⟨places, hfirst, hsorted.imp isWrittenBefore_iff.mpr, hold⟩

/-! ## The layout -/

theorem ListsDistinct.unique {texts distinct distinct' : List String}
    (h : ListsDistinct texts distinct) (h' : ListsDistinct texts distinct') :
    distinct = distinct' :=
  ListsFirsts.unique (fun _ _ => Nat.lt_asymm) h h'

theorem hasNormalShape_normalizedEntries (m : Manifest) : m.HasNormalShape m.normalizedEntries :=
  ⟨_, _, m.normalRequirements, _, rfl, listsFirsts_eraseDups _, listsFirsts_eraseDups _,
    listsFirsts_normalRequirements m, listsFirsts_eraseDups _⟩

theorem HasNormalShape.unique {m : Manifest} {texts texts' : List String}
    (h : m.HasNormalShape texts) (h' : m.HasNormalShape texts') : texts = texts' := by
  obtain ⟨options, includes, requirements, editables, rfl, ho, hi, hr, he⟩ := h
  obtain ⟨options', includes', requirements', editables', rfl, ho', hi', hr', he'⟩ := h'
  rw [ho.unique ho', hi.unique hi', hr.unique (fun _ _ => IsWrittenBefore.asymm) hr',
    he.unique he']

/-- What the normal layout writes, each text with an end of line, is the one list of texts of its
shape. -/
theorem render_normalize_shape (m : Manifest) : ∃ texts,
    m.render .normalize = String.join (texts.map (· ++ "\n")) ∧
      ∀ texts', m.HasNormalShape texts' ↔ texts' = texts := by
  refine ⟨m.normalizedEntries, rfl, fun texts' => ⟨fun h => ?_, ?_⟩⟩
  · exact h.unique m.hasNormalShape_normalizedEntries
  · rintro rfl
    exact m.hasNormalShape_normalizedEntries

end PinFile.Manifest
