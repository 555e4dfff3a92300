import PinFile.Proofs.Requirement.Accepted
import PinFile.Proofs.Text.Ascending

/-!
# Specification keys

The key of a requirement that was read falls apart into its extras, its constraints, and the rest
in one way only (`specKey_eq_iff_parts`). The rest is the URL and the marker with a semicolon in
between, and there the key is ambiguous: a URL may hold a semicolon itself. So two requirements
have the same key exactly when they ask for the same, or one has in its URL what the other has at
the start of its marker (`specKey_eq_iff`).
-/

namespace PinFile.Requirement

open Text

variable {r r' : Requirement} {text text' : String}

/-! ## Requirements that were read -/

/-- What the parts of a key are made of. -/
structure IsRead (r : Requirement) : Prop where
  extras : ∀ extra ∈ r.extras, Name.isValid extra = true
  constraints : ∀ c ∈ r.constraints, c.IsValid
  url : ∀ url ∈ r.url, IsUrl url.toList
  marker : ∀ marker ∈ r.marker, marker.toList ≠ [] ∧ IsTrimmed marker.toList

theorem isRead_of_readSpec {cs : List Char} (h : readSpec cs = .ok r) : r.IsRead := by
  obtain ⟨name, extras, _, rest, _, -, hx, -, -, -, -, -, h⟩ := readSpec_cases h
  rcases h with ⟨reference, -, h⟩ | h
  · obtain ⟨url, hu, ⟨rfl, -⟩ | ⟨m, _, _, _, rfl, hne, ht, -⟩⟩ := readReference_eq_ok h
    · exact ⟨hx, by simp [bare], by simpa using hu, by simp [bare]⟩
    · exact ⟨hx, by simp [bare], by simpa using hu,
        by simpa using And.intro (by simpa using hne) ht⟩
  · obtain ⟨xs, ⟨rfl, hv, -⟩ | ⟨_, m, _, _, rfl, ⟨hv, -⟩, hne, ht, -⟩⟩ := readVersions_eq_ok h
    · exact ⟨hx, hv, by simp [bare], by simp [bare]⟩
    · exact ⟨hx, hv, by simp [bare], by simpa using And.intro (by simpa using hne) ht⟩

theorem isRead_of_parse (h : parse text = .ok r) : r.IsRead := by
  unfold parse readChars at h
  dsimp only at h
  split at h
  · exact isRead_of_readSpec h
  · obtain ⟨spec, hs, h⟩ := bind_eq_ok_iff.mp h
    obtain ⟨hashes, -, h⟩ := bind_eq_ok_iff.mp h
    cases h
    obtain ⟨hx, hc, hu, hm⟩ := isRead_of_readSpec hs
    exact ⟨hx, hc, hu, hm⟩

/-! ## The text of a key -/

def keyedExtras (r : Requirement) : List String := ascending (r.extras.map Name.normalize)

def keyedConstraints (r : Requirement) : List String := sorted (r.constraints.map Constraint.render)

/-- What a key says about the URL and the marker. -/
def keyedTarget (r : Requirement) : List Char :=
  (r.url.getD "").toList ++ ';' :: r.environment.toList

theorem toList_specKey (r : Requirement) : r.specKey.toList =
    '[' :: ([','].intercalate (r.keyedExtras.map String.toList) ++
      ']' :: ([','].intercalate (r.keyedConstraints.map String.toList) ++
        '@' :: r.keyedTarget)) := by
  simp [specKey, keyedExtras, keyedConstraints, keyedTarget, String.toList_intercalate]

/-- Texts that are not empty, made of one class of characters. -/
def AreItems (p : Char → Bool) (xs : List (List Char)) : Prop :=
  ∀ cs ∈ xs, cs ≠ [] ∧ ∀ c ∈ cs, p c = true

namespace AreItems

variable {p : Char → Bool} {xs : List (List Char)} {c d : Char}

theorem not_mem (h : AreItems p xs) (hd : p d = false) : ∀ cs ∈ xs, d ∉ cs ∧ cs ≠ [] := by
  intro cs hcs
  obtain ⟨hne, hp⟩ := h cs hcs
  exact ⟨fun hm => Bool.false_ne_true (hd.symm.trans (hp d hm)), hne⟩

theorem not_mem_intercalate (h : AreItems p xs) (hc : d ≠ c) (hd : p d = false) :
    d ∉ [c].intercalate xs := by
  rw [mem_intercalate_iff hc]
  rintro ⟨cs, hcs, hm⟩
  exact (h.not_mem hd cs hcs).1 hm

end AreItems

theorem IsRead.areItems_extras (h : r.IsRead) :
    AreItems isNameChar (r.keyedExtras.map String.toList) := by
  intro cs hcs
  obtain ⟨extra, he, rfl⟩ := List.mem_map.mp hcs
  obtain ⟨name, hn, rfl⟩ := List.mem_map.mp (mem_ascending.mp he)
  have hv := h.extras name hn
  exact ⟨Name.normalize_ne_nil hv, Name.isNameChar_of_mem_normalize hv⟩

theorem IsRead.areItems_constraints (h : r.IsRead) :
    AreItems isSpecChar (r.keyedConstraints.map String.toList) := by
  intro cs hcs
  obtain ⟨text, ht, rfl⟩ := List.mem_map.mp hcs
  obtain ⟨c, hc, rfl⟩ := List.mem_map.mp ((sorted_perm _).mem_iff.mp ht)
  rw [Constraint.toList_render]
  exact ⟨c.chars_ne_nil, fun _ hd => (h.constraints c hc).isSpecChar hd⟩

/-- A key falls apart at the first closing bracket and the first `@`: neither stands in an extra
or a constraint. -/
theorem specKey_eq_iff_parts (h : r.IsRead) (h' : r'.IsRead) : r.specKey = r'.specKey ↔
    r.keyedExtras = r'.keyedExtras ∧ r.keyedConstraints = r'.keyedConstraints ∧
      r.keyedTarget = r'.keyedTarget := by
  rw [← String.toList_inj, toList_specKey, toList_specKey]
  constructor
  · intro heq
    have hx := h.areItems_extras
    have hx' := h'.areItems_extras
    have hc := h.areItems_constraints
    have hc' := h'.areItems_constraints
    obtain ⟨hextras, heq⟩ := append_cons_inj (hx.not_mem_intercalate (by decide) (by decide))
      (hx'.not_mem_intercalate (by decide) (by decide)) (List.cons.inj heq).2
    obtain ⟨hconstraints, heq⟩ := append_cons_inj (hc.not_mem_intercalate (by decide) (by decide))
      (hc'.not_mem_intercalate (by decide) (by decide)) heq
    have hinj := List.map_injective_iff.mpr fun _ _ => String.toList_inj.mp
    exact ⟨hinj (intercalate_inj (hx.not_mem (by decide)) (hx'.not_mem (by decide)) hextras),
      hinj (intercalate_inj (hc.not_mem (by decide)) (hc'.not_mem (by decide)) hconstraints), heq⟩
  · rintro ⟨hextras, hconstraints, heq⟩
    rw [hextras, hconstraints, heq]

/-! ## Extras and constraints -/

theorem keyedExtras_eq_iff : r.keyedExtras = r'.keyedExtras ↔
    ∀ extra, extra ∈ r.extras.map Name.normalize ↔ extra ∈ r'.extras.map Name.normalize :=
  ascending_eq_iff

theorem keyedConstraints_eq_iff (h : r.IsRead) (h' : r'.IsRead) :
    r.keyedConstraints = r'.keyedConstraints ↔ r.constraints.Perm r'.constraints := by
  have hread {xs : List Constraint} (hx : ∀ c ∈ xs, c.IsValid) :
      (xs.map Constraint.render).filterMap (fun s => (readConstraint s.toList).toOption) = xs := by
    rw [List.filterMap_map]
    refine (List.filterMap_congr fun c hc => ?_).trans List.filterMap_some
    rw [Function.comp_apply, Constraint.toList_render, readConstraint_chars (hx c hc)]
    rfl
  refine sorted_eq_iff.trans ⟨fun hp => ?_, fun hp => hp.map _⟩
  have hf := hp.filterMap fun s => (readConstraint s.toList).toOption
  rwa [hread h.constraints, hread h'.constraints] at hf

/-! ## URLs and markers -/

/-- The URL of the second holds a semicolon, and what follows it there stands at the start of the
marker of the first. -/
def RunsInto (r r' : Requirement) : Prop :=
  ∃ url more, r.url = some url ∧ r'.url = some (url ++ ";" ++ more) ∧
    r.marker = some (more ++ ";" ++ r'.marker.getD "")

theorem eq_some_getD {o : Option String} (h : o.getD "" ≠ "") : o = some (o.getD "") := by
  cases o with
  | none => exact absurd rfl h
  | some text => rfl

theorem eq_of_getD_eq {o o' : Option String} (h : ∀ text ∈ o, text ≠ "")
    (h' : ∀ text ∈ o', text ≠ "") (he : o.getD "" = o'.getD "") : o = o' := by
  cases o <;> cases o' <;> simp_all

namespace IsRead

theorem environment (h : r.IsRead) : r.environment = r.marker.getD "" := by
  unfold Requirement.environment
  cases hm : r.marker with
  | none => rfl
  | some marker => exact (congrArg String.ofList (h.marker marker hm).2).trans String.ofList_toList

theorem runsInto (h : r.IsRead) (h' : r'.IsRead) {more : List Char}
    (hu : (r'.url.getD "").toList = (r.url.getD "").toList ++ ';' :: more)
    (he : r.environment.toList = more ++ ';' :: r'.environment.toList) : RunsInto r r' := by
  have hu' : r'.url.getD "" = r.url.getD "" ++ ";" ++ String.ofList more := by
    rw [← String.toList_inj, hu]
    simp
  have hm : r.marker.getD "" = String.ofList more ++ ";" ++ r'.marker.getD "" := by
    rw [← h.environment, ← h'.environment, ← String.toList_inj, he]
    simp
  have hsome' : r'.url = some (r'.url.getD "") := eq_some_getD (by simp [hu'])
  -- An empty URL would leave a semicolon at the start of the other one.
  have hne : r.url.getD "" ≠ "" := by
    intro hn
    refine (h'.url _ hsome').head ?_
    rw [hu, hn]
    rfl
  exact ⟨r.url.getD "", String.ofList more, eq_some_getD hne, hu' ▸ hsome',
    hm ▸ eq_some_getD (by simp [hm])⟩

theorem keyedTarget_of_runsInto (h : r.IsRead) (h' : r'.IsRead) (hr : RunsInto r r') :
    r.keyedTarget = r'.keyedTarget := by
  obtain ⟨url, more, hu, hu', hm⟩ := hr
  rw [keyedTarget, keyedTarget, h.environment, h'.environment, hu, hu', hm]
  simp

theorem target_cases (h : r.IsRead) (h' : r'.IsRead) {more : List Char}
    (hu : (r'.url.getD "").toList = (r.url.getD "").toList ++ more)
    (he : ';' :: r.environment.toList = more ++ ';' :: r'.environment.toList) :
    r.url = r'.url ∧ r.marker = r'.marker ∨ RunsInto r r' := by
  rcases more with - | ⟨c, more⟩
  · left
    have hu' : r'.url.getD "" = r.url.getD "" := String.toList_inj.mp (by simpa using hu)
    have he' : r.environment = r'.environment := String.toList_inj.mp (List.cons.inj he).2
    rw [h.environment, h'.environment] at he'
    exact ⟨eq_of_getD_eq (fun _ ht => by simpa using (h.url _ ht).ne_nil)
        (fun _ ht => by simpa using (h'.url _ ht).ne_nil) hu'.symm,
      eq_of_getD_eq (fun _ ht => by simpa using (h.marker _ ht).1)
        (fun _ ht => by simpa using (h'.marker _ ht).1) he'⟩
  · right
    obtain ⟨rfl, hm⟩ := List.cons.inj he
    exact h.runsInto h' hu hm

theorem keyedTarget_eq_iff (h : r.IsRead) (h' : r'.IsRead) : r.keyedTarget = r'.keyedTarget ↔
    r.url = r'.url ∧ r.marker = r'.marker ∨ RunsInto r r' ∨ RunsInto r' r := by
  constructor
  · intro heq
    rcases List.append_eq_append_iff.mp heq with ⟨more, hu, he⟩ | ⟨more, hu, he⟩
    · exact (h.target_cases h' hu he).imp_right .inl
    · exact (h'.target_cases h hu he).imp (fun hs => ⟨hs.1.symm, hs.2.symm⟩) .inr
  · rintro (⟨hu, hm⟩ | hr | hr)
    · rw [keyedTarget, keyedTarget, h.environment, h'.environment, hu, hm]
    · exact h.keyedTarget_of_runsInto h' hr
    · exact (h'.keyedTarget_of_runsInto h hr).symm

end IsRead

/-! ## Equal keys -/

/-- Requirements that were read have the same key exactly when their extras are the same up to
spelling, order and repetitions, their constraints up to order, and either their URLs and markers
are the same or a semicolon in one URL stands where the other one ends. -/
theorem specKey_eq_iff (h : parse text = .ok r) (h' : parse text' = .ok r') :
    r.specKey = r'.specKey ↔
      (∀ extra, extra ∈ r.extras.map Name.normalize ↔ extra ∈ r'.extras.map Name.normalize) ∧
        r.constraints.Perm r'.constraints ∧
          (r.url = r'.url ∧ r.marker = r'.marker ∨ RunsInto r r' ∨ RunsInto r' r) := by
  have hr := isRead_of_parse h
  have hr' := isRead_of_parse h'
  rw [specKey_eq_iff_parts hr hr', keyedExtras_eq_iff, keyedConstraints_eq_iff hr hr',
    hr.keyedTarget_eq_iff hr']

/-- A URL with a semicolon in it, and the same text as a URL and a marker. -/
theorem specKey_eq_semicolon :
    (∃ r r', parse "a @ x;y" = .ok r ∧ parse "A @ x ; y;" = .ok r' ∧ r.url ≠ r'.url ∧
      r.specKey = r'.specKey) ∧
    ∃ r r', parse "a[X,y]>=1,<2" = .ok r ∧ parse "a[y,x,y]<2, >=1" = .ok r' ∧ r ≠ r' ∧
      r.specKey = r'.specKey := by
  have h₁ : parse "a @ x;y" = .ok ⟨"a", [], [], some "x;y", none, []⟩ := by decide +kernel
  have h₂ : parse "A @ x ; y;" = .ok ⟨"A", [], [], some "x", some "y;", []⟩ := by decide +kernel
  have h₃ : parse "a[X,y]>=1,<2" =
      .ok ⟨"a", ["X", "y"], [⟨.atLeast, "1"⟩, ⟨.less, "2"⟩], none, none, []⟩ := by
    decide +kernel
  have h₄ : parse "a[y,x,y]<2, >=1" =
      .ok ⟨"a", ["y", "x", "y"], [⟨.less, "2"⟩, ⟨.atLeast, "1"⟩], none, none, []⟩ := by
    decide +kernel
  refine ⟨⟨_, _, h₁, h₂, by decide, (specKey_eq_iff h₁ h₂).mpr ⟨by simp, by simp, ?_⟩⟩,
    _, _, h₃, h₄, by decide, (specKey_eq_iff h₃ h₄).mpr ⟨fun extra => ?_, by decide, ?_⟩⟩
  · exact .inr (.inr ⟨"x", "y", rfl, rfl, rfl⟩)
  · have hx : Name.normalize "X" = "x" ∧ Name.normalize "x" = "x" ∧
        Name.normalize "y" = "y" := by decide +kernel
    simp only [List.map_cons, List.map_nil, hx, List.mem_cons, List.not_mem_nil]
    tauto
  · exact .inl ⟨rfl, rfl⟩

/-- Equal keys do not mean equal specifications. -/
theorem not_forall_specKey_eq_iff : ¬ ∀ (text text' : String) (r r' : Requirement),
    parse text = .ok r → parse text' = .ok r' →
      (r.specKey = r'.specKey ↔
        (∀ extra, extra ∈ r.extras.map Name.normalize ↔ extra ∈ r'.extras.map Name.normalize) ∧
          r.constraints.Perm r'.constraints ∧ r.url = r'.url ∧ r.marker = r'.marker) := by
  intro h
  have h₁ : parse "a @ x;y" = .ok ⟨"a", [], [], some "x;y", none, []⟩ := by decide +kernel
  have h₂ : parse "a @ x ; y;" = .ok ⟨"a", [], [], some "x", some "y;", []⟩ := by decide +kernel
  obtain ⟨-, -, hu, -⟩ := (h _ _ _ _ h₁ h₂).mp (by decide +kernel)
  exact absurd hu (by decide)

end PinFile.Requirement
