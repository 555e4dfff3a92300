import PinFile.Proofs.Requirement.Target

/-!
# Layouts of a requirement

A requirement can be written in many ways: blanks may stand around its parts, empty items between
the commas of its extras, and parentheses around its constraints. `IsLayout r cs` says that `cs` is
one of these ways. A bracket group is read as the extras and a list as the constraints that it
holds (`ExtrasGroup.readExtras_eq`, `ListText.readConstraints_eq`).
-/

namespace PinFile.Requirement

open Text Constraint

/-! ## Ways of writing -/

/-- Blanks inside a line. -/
structure Gap (cs : List Char) : Prop where
  blanks : Blanks cs
  oneLine : '\n' ∉ cs

/-- A text with blanks around it. -/
def Padded (x cs : List Char) : Prop := ∃ w w', Gap w ∧ Gap w' ∧ cs = w ++ x ++ w'

/-- Items between commas: each extra stands in one of them, and the others are empty. -/
inductive ExtrasItems : List String → List (List Char) → Prop
  | nil : ExtrasItems [] []
  | empty {extras : List String} {w : List Char} {items : List (List Char)} :
      Gap w → ExtrasItems extras items → ExtrasItems extras (w :: items)
  | extra {e : String} {extras : List String} {x : List Char} {items : List (List Char)} :
      Padded e.toList x → ExtrasItems extras items → ExtrasItems (e :: extras) (x :: items)

/-- The text between the brackets, which may be missing where there are no extras. -/
inductive ExtrasGroup : List String → Option (List Char) → Prop
  | absent : ExtrasGroup [] none
  | present {extras : List String} {items : List (List Char)} :
      ExtrasItems extras items → ExtrasGroup extras (some ([','].intercalate items))

/-- An operator and a version, with blanks around both. -/
def ConstraintText (c : Constraint) (cs : List Char) : Prop :=
  ∃ w, Gap w ∧ Padded (c.operator.symbol.toList ++ (w ++ c.version.toList)) cs

/-- Constraints with commas in between, perhaps in parentheses. -/
inductive ListText : List Constraint → List Char → Prop
  | empty {w : List Char} : Gap w → ListText [] w
  | bare {xs : List Constraint} {pieces : List (List Char)} : xs ≠ [] →
      List.Forall₂ ConstraintText xs pieces → ListText xs ([','].intercalate pieces)
  | parens {xs : List Constraint} {pieces : List (List Char)} {cs : List Char} : xs ≠ [] →
      List.Forall₂ ConstraintText xs pieces →
      Padded ('(' :: ([','].intercalate pieces ++ [')'])) cs → ListText xs cs

/-- A marker behind `;`, or nothing. -/
inductive MarkerText : Option String → List Char → Prop
  | absent : MarkerText none []
  | present {m : String} {cs : List Char} : Padded m.toList cs → MarkerText (some m) (';' :: cs)

/-- What stands behind the brackets. A blank ends a URL, so there is one in front of `;`. -/
inductive TargetText (r : Requirement) : List Char → Prop
  | versions {cs tail : List Char} : r.url = none → ListText r.constraints cs →
      MarkerText r.marker tail → TargetText r (cs ++ tail)
  | reference {url : String} {w w₁ w₂ tail : List Char} : r.url = some url → Gap w → Gap w₁ →
      Gap w₂ → (r.marker ≠ none → w₂ ≠ []) → MarkerText r.marker tail →
      TargetText r (w ++ '@' :: (w₁ ++ (url.toList ++ (w₂ ++ tail))))

/-- A way to write a requirement that has no digests. -/
inductive IsLayout (r : Requirement) : List Char → Prop
  | intro {w w' target : List Char} {group : Option (List Char)} : Gap w → Gap w' →
      ExtrasGroup r.extras group → TargetText r target →
      IsLayout r (w ++ (r.name.toList ++ (w' ++ (headChars [] group ++ target))))

/-- The requirements that have layouts: each part has the form of its kind, and there are no
digests. -/
structure WellFormed (r : Requirement) : Prop where
  name : Name.isValid r.name = true
  extras : ∀ extra ∈ r.extras, Name.isValid extra = true
  constraints : ∀ c ∈ r.constraints, c.IsValid
  exclusive : r.url = none ∨ r.constraints = []
  url : ∀ url ∈ r.url, IsUrl url.toList
  marker : ∀ m ∈ r.marker, m.toList ≠ [] ∧ IsLineText m.toList
  hashes : r.hashes = []

instance (r : Requirement) : Decidable r.WellFormed :=
  decidable_of_iff (Name.isValid r.name = true ∧ (∀ extra ∈ r.extras, Name.isValid extra = true) ∧
      (∀ c ∈ r.constraints, c.IsValid) ∧ (r.url = none ∨ r.constraints = []) ∧
      (∀ url ∈ r.url, IsUrl url.toList) ∧
      (∀ m ∈ r.marker, m.toList ≠ [] ∧ IsLineText m.toList) ∧ r.hashes = [])
    ⟨fun ⟨h1, h2, h3, h4, h5, h6, h7⟩ => ⟨h1, h2, h3, h4, h5, h6, h7⟩,
      fun ⟨h1, h2, h3, h4, h5, h6, h7⟩ => ⟨h1, h2, h3, h4, h5, h6, h7⟩⟩

/-! ## Gaps -/

instance (cs : List Char) : Decidable (Gap cs) :=
  decidable_of_iff (cs.all isBlank = true ∧ '\n' ∉ cs)
    ⟨fun h => ⟨List.all_eq_true.mp h.1, h.2⟩, fun h => ⟨List.all_eq_true.mpr h.blanks, h.oneLine⟩⟩

variable {w x cs tail target : List Char} {d : Char}

theorem Gap.nil : Gap [] := ⟨Blanks.nil, by simp⟩

/-- Gaps hold neither visible signs nor ends of lines. -/
theorem Gap.not_mem (h : Gap w) (hd : d = '\n' ∨ isBlank d = false) : d ∉ w := by
  intro hm
  rcases hd with rfl | hd
  · exact h.oneLine hm
  · rw [h.blanks d hm] at hd
    cases hd

theorem Padded.not_mem (h : Padded x cs) (hd : d = '\n' ∨ isBlank d = false) (hx : d ∉ x) :
    d ∉ cs := by
  obtain ⟨w, w', hw, hw', rfl⟩ := h
  simp only [List.mem_append, not_or]
  exact ⟨⟨hw.not_mem hd, hx⟩, hw'.not_mem hd⟩

theorem Padded.trim_eq (h : Padded x cs) (hx : IsTrimmed x) : trim cs = x := by
  obtain ⟨w, w', hw, hw', rfl⟩ := h
  exact trim_surround hw.blanks hw'.blanks hx

/-! ## Extras -/

section Extras

variable {extras : List String} {items : List (List Char)} {group : Option (List Char)}

theorem ExtrasItems.not_mem (h : ExtrasItems extras items)
    (hv : ∀ e ∈ extras, Name.isValid e = true) (hd : d = '\n' ∨ isBlank d = false)
    (hn : isNameChar d = false) : ∀ item ∈ items, d ∉ item := by
  induction h with
  | nil => simp
  | empty hw _ ih => exact List.forall_mem_cons.mpr ⟨hw.not_mem hd, ih hv⟩
  | extra hx _ ih =>
    obtain ⟨he, hv⟩ := List.forall_mem_cons.mp hv
    exact List.forall_mem_cons.mpr ⟨hx.not_mem hd (Name.not_mem_of_isValid he hn), ih hv⟩

/-- The items that are not empty are the extras. -/
theorem ExtrasItems.filter_trim (h : ExtrasItems extras items)
    (hv : ∀ e ∈ extras, Name.isValid e = true) :
    (items.map trim).filter (!·.isEmpty) = extras.map String.toList := by
  induction h with
  | nil => rfl
  | empty hw _ ih =>
    rw [List.map_cons, trim_eq_nil_iff.mpr hw.blanks]
    exact ih hv
  | extra hx _ ih =>
    obtain ⟨he, hv⟩ := List.forall_mem_cons.mp hv
    rw [List.map_cons, hx.trim_eq (isTrimmed_of_forall (Name.isBlank_of_isValid he)),
      List.filter_cons_of_pos (by simpa using Name.ne_nil_of_isValid he), ih hv, List.map_cons]

theorem ExtrasGroup.not_mem (h : ExtrasGroup extras group)
    (hv : ∀ e ∈ extras, Name.isValid e = true) : ∀ cs ∈ group, ']' ∉ cs := by
  cases h with
  | absent => simp
  | present hi =>
    rintro _ ⟨⟩ hm
    obtain ⟨item, hitem, hm⟩ := (mem_intercalate_iff (by decide)).mp hm
    exact hi.not_mem hv (by decide) (by decide) item hitem hm

/-- The extras are read from any bracket group that holds them. -/
theorem ExtrasGroup.readExtras_eq (h : ExtrasGroup extras group)
    (hv : ∀ e ∈ extras, Name.isValid e = true) (r : Requirement) :
    readExtras r (group.getD []) = .ok { r with extras := r.extras ++ extras } := by
  cases h with
  | absent => exact readExtras_intercalate hv (List.forall_mem_nil (',' ∉ ·)) rfl r
  | present hi =>
    exact readExtras_intercalate hv (hi.not_mem hv (by decide) (by decide)) (hi.filter_trim hv) r

end Extras

/-! ## Constraints -/

section Constraints

variable {c : Constraint} {xs : List Constraint} {pieces : List (List Char)}

theorem ConstraintText.not_mem (h : ConstraintText c cs) (hv : c.IsValid)
    (hd : d = '\n' ∨ isBlank d = false) (hs : isSpecChar d = false) : d ∉ cs := by
  obtain ⟨w, hw, hp⟩ := h
  have hc : d ∉ c.chars := fun hm => by
    rw [hv.isSpecChar hm] at hs
    cases hs
  rw [chars, List.mem_append, not_or] at hc
  refine hp.not_mem hd ?_
  simp only [List.mem_append, not_or]
  exact ⟨hc.1, hw.not_mem hd, hc.2⟩

theorem ConstraintText.readConstraint_eq (h : ConstraintText c cs) (hv : c.IsValid) :
    readConstraint (trim cs) = .ok c := by
  obtain ⟨w, hw, hp⟩ := h
  have hb : ∀ d ∈ c.chars, isBlank d = false := fun d hd => isBlank_of_isSpecChar (hv.isSpecChar hd)
  obtain ⟨hs, hn⟩ := List.forall_mem_append.mp hb
  have ht : IsTrimmed (c.operator.symbol.toList ++ (w ++ c.version.toList)) := by
    refine isTrimmed_iff.mpr ⟨(bareStart_of_forall hs).append ?_, ?_⟩
    · obtain ⟨x, s, hx, -⟩ := exists_symbol_cons c.operator
      simp [hx]
    · rw [← List.append_assoc]
      exact (bareEnd_of_forall hn).append hv.version_ne_nil
  rw [hp.trim_eq ht]
  exact readConstraint_append hv hw.blanks

theorem not_mem_of_pieces (h : List.Forall₂ ConstraintText xs pieces)
    (hv : ∀ c ∈ xs, c.IsValid) (hd : d = '\n' ∨ isBlank d = false) (hs : isSpecChar d = false) :
    ∀ piece ∈ pieces, d ∉ piece := by
  induction h with
  | nil => simp
  | cons hc _ ih =>
    obtain ⟨hx, hv⟩ := List.forall_mem_cons.mp hv
    exact List.forall_mem_cons.mpr ⟨hc.not_mem hx hd hs, ih hv⟩

theorem readConstraint_of_pieces (h : List.Forall₂ ConstraintText xs pieces)
    (hv : ∀ c ∈ xs, c.IsValid) :
    List.Forall₂ (fun piece c => readConstraint (trim piece) = .ok c) pieces xs := by
  induction h with
  | nil => exact .nil
  | cons hc _ ih =>
    obtain ⟨hx, hv⟩ := List.forall_mem_cons.mp hv
    exact .cons (hc.readConstraint_eq hx) (ih hv)

theorem ListText.not_mem (h : ListText xs cs) (hv : ∀ c ∈ xs, c.IsValid)
    (hd : d = '\n' ∨ isBlank d = false) (hs : isSpecChar d = false)
    (hne : d ≠ ',' ∧ d ≠ '(' ∧ d ≠ ')') : d ∉ cs := by
  have hi {pieces : List (List Char)} (hp : List.Forall₂ ConstraintText xs pieces) :
      d ∉ [','].intercalate pieces := by
    rw [mem_intercalate_iff hne.1]
    rintro ⟨piece, hm, hdp⟩
    exact not_mem_of_pieces hp hv hd hs piece hm hdp
  cases h with
  | empty hw => exact hw.not_mem hd
  | bare _ hp => exact hi hp
  | parens _ hp hc =>
    refine hc.not_mem hd ?_
    simpa [hne.2] using hi hp

/-- The constraints are read from any list that holds them. -/
theorem ListText.readConstraints_eq (h : ListText xs cs) (hv : ∀ c ∈ xs, c.IsValid) :
    readConstraints cs = .ok xs := by
  have hne {pieces : List (List Char)} (hp : List.Forall₂ ConstraintText xs pieces)
      (hx : xs ≠ []) : pieces ≠ [] := by
    rintro rfl
    exact hx (List.forall₂_nil_right_iff.mp hp)
  cases h with
  | empty hw =>
    rw [readConstraints, trim_eq_nil_iff.mpr hw.blanks]
    rfl
  | bare hx hp =>
    refine readConstraints_intercalate (hne hp hx) (not_mem_of_pieces hp hv (by decide) (by decide))
      (readConstraint_of_pieces hp hv) fun hm => ?_
    obtain ⟨piece, hpm, hm⟩ := (mem_intercalate_iff (by decide)).mp hm
    exact not_mem_of_pieces hp hv (by decide) (by decide) piece hpm hm
  | parens hx hp hc =>
    obtain ⟨w, w', hw, hw', rfl⟩ := hc
    exact readConstraints_parens (hne hp hx) (not_mem_of_pieces hp hv (by decide) (by decide))
      (readConstraint_of_pieces hp hv) hw.blanks hw'.blanks

end Constraints

end PinFile.Requirement
