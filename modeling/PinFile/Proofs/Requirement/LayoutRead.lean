import PinFile.Proofs.Requirement.Layout
import PinFile.Proofs.Requirement.OptionTail

/-!
# Reading layouts

A layout is read part by part: the name, the bracket group, and what stands behind it. A well-formed
requirement is read from each of its layouts in which no option tail starts (`IsLayout.parse_eq`).
-/

namespace PinFile.Requirement

open Text Constraint

variable {r : Requirement} {w cs tail target : List Char} {group : Option (List Char)}

/-! ## The first sign behind the brackets -/

theorem ListText.start {xs : List Constraint} (h : ListText xs cs) :
    Blanks cs ∨ ∃ w d t, Blanks w ∧ d ∈ '(' :: operatorStarts ∧ cs = w ++ d :: t := by
  cases h with
  | empty hw => exact .inl hw.blanks
  | bare hx hp =>
    obtain ⟨c, xs, rfl⟩ := List.exists_cons_of_ne_nil hx
    obtain ⟨piece, pieces, ⟨w, -, a, b, ha, -, rfl⟩, -, rfl⟩ := List.forall₂_cons_left_iff.mp hp
    obtain ⟨d, s, hs, hd⟩ := exists_symbol_cons c.operator
    obtain ⟨t, ht⟩ := exists_intercalate_cons [',']
      (a ++ (c.operator.symbol.toList ++ (w ++ c.version.toList)) ++ b) pieces
    refine .inr ⟨a, d, s ++ (w ++ c.version.toList) ++ b ++ t, ha.blanks,
      List.mem_cons_of_mem _ hd, ?_⟩
    rw [ht, hs]
    simp
  | parens _ _ hc =>
    obtain ⟨w, w', hw, -, rfl⟩ := hc
    exact .inr ⟨w, '(', _, hw.blanks, List.mem_cons_self, List.append_assoc _ _ _⟩

theorem head?_trim_versions {xs : List Constraint} {m : Option String} (hx : ListText xs cs)
    (hm : MarkerText m tail) :
    ∀ d ∈ (trim (cs ++ tail)).head?, d ∈ ';' :: '(' :: operatorStarts := by
  intro d hd
  rcases hx.start with hb | ⟨w, s, t, hw, hs, rfl⟩
  · cases hm with
    | absent =>
      rw [List.append_nil, trim_eq_nil_iff.mpr hb] at hd
      cases hd
    | present _ =>
      rw [trim_blanks_append_cons hb (by decide)] at hd
      cases hd
      exact List.mem_cons_self
  · have hall : ∀ s ∈ '(' :: operatorStarts, isBlank s = false := forall_mem_of_all (by decide)
    rw [List.append_assoc, List.cons_append, trim_blanks_append_cons hw (hall s hs)] at hd
    cases hd
    exact List.mem_cons_of_mem _ hs

namespace TargetText

/-- What stands behind the brackets carries on neither the name nor the brackets. -/
theorem head?_trim (h : TargetText r target) :
    ∀ d ∈ (trim target).head?, isNameChar d = false ∧ d ≠ '[' := by
  have hall : ∀ d ∈ '@' :: ';' :: '(' :: operatorStarts, isNameChar d = false ∧ d ≠ '[' :=
    forall_mem_of_all (by decide)
  intro d hd
  apply hall
  cases h with
  | versions _ hx hm => exact List.mem_cons_of_mem _ (head?_trim_versions hx hm d hd)
  | reference _ hw _ _ _ _ =>
    rw [trim_blanks_append_cons hw.blanks (by decide)] at hd
    cases hd
    exact List.mem_cons_self

theorem oneLine (hr : r.WellFormed) (h : TargetText r target) : '\n' ∉ target := by
  have htail : ∀ {tail}, MarkerText r.marker tail → '\n' ∉ tail := by
    intro tail hm
    generalize hmr : r.marker = marker at hm
    cases hm with
    | absent => simp
    | present hp =>
      rw [List.mem_cons, not_or]
      exact ⟨by decide, hp.not_mem (.inl rfl) (hr.marker _ hmr).2.oneLine⟩
  cases h with
  | versions _ hx hm =>
    rw [List.mem_append, not_or]
    exact ⟨hx.not_mem hr.constraints (.inl rfl) (by decide) (by decide), htail hm⟩
  | reference hu hw hw₁ hw₂ _ hm =>
    simp only [List.mem_append, List.mem_cons, not_or]
    exact ⟨hw.oneLine, by decide, hw₁.oneLine, (hr.url _ hu).oneLine, hw₂.oneLine, htail hm⟩

end TargetText

/-! ## Targets -/

theorem readMarker_of_padded {m : String} (hne : m.toList ≠ []) (ht : IsTrimmed m.toList)
    (h : Padded m.toList cs) : readMarker cs = .ok m := by
  obtain ⟨w, w', hw, hw', rfl⟩ := h
  rw [readMarker_append hne ht hw.blanks hw'.blanks, String.ofList_toList]

/-- Blanks around constraints do not count. -/
theorem readConstraints_congr {cs' : List Char} (h : trim cs = trim cs') :
    readConstraints cs = readConstraints cs' := by
  unfold readConstraints
  rw [h]

namespace TargetText

/-- Constraints and perhaps a marker are read from the target of a well-formed requirement. -/
theorem readVersions_eq (hr : r.WellFormed) (hu : r.url = none) (hx : ListText r.constraints cs)
    (hm : MarkerText r.marker tail) :
    readVersions { bare r.name with extras := r.extras } (trim (cs ++ tail)) = .ok r := by
  have hs : ';' ∉ cs := hx.not_mem hr.constraints (by decide) (by decide) (by decide)
  have hc := hx.readConstraints_eq hr.constraints
  obtain ⟨name, extras, constraints, url, marker, hashes⟩ := r
  obtain rfl : url = none := hu
  obtain rfl : hashes = [] := hr.hashes
  cases hm with
  | absent =>
    rw [List.append_nil, readVersions_of_not_mem fun h => hs (mem_of_mem_trim h),
      readConstraints_congr (isTrimmed_trim cs), hc]
    rfl
  | present hp =>
    obtain ⟨hne, hl⟩ := hr.marker _ rfl
    obtain ⟨a, -, ha⟩ := exists_trimStart cs
    have hs' : ';' ∉ trimStart cs := fun h => hs (ha ▸ List.mem_append_right a h)
    rw [trim_append_cons (by decide), readVersions_append hs', readMarker_congr (trim_trimEnd _),
      readMarker_of_padded hne hl.trimmed hp, readConstraints_congr (trim_trimStart cs), hc]
    rfl

/-- A URL and perhaps a marker are read from the target of a well-formed requirement. -/
theorem readReference_eq (hr : r.WellFormed) {url : String} {w₁ w₂ : List Char}
    (hu : r.url = some url) (hw₁ : Blanks w₁) (hw₂ : Blanks w₂) (hne : r.marker ≠ none → w₂ ≠ [])
    (hm : MarkerText r.marker tail) :
    readReference { bare r.name with extras := r.extras }
      (trim (w₁ ++ (url.toList ++ (w₂ ++ tail)))) = .ok r := by
  have hurl := hr.url url hu
  rw [trim_word_append hw₁ hurl.noBlank hurl.ne_nil]
  obtain ⟨name, extras, constraints, url', marker, hashes⟩ := r
  obtain rfl : url' = some url := hu
  obtain rfl : hashes = [] := hr.hashes
  obtain rfl : constraints = [] := hr.exclusive.resolve_left (by simp)
  cases hm with
  | absent =>
    have ht : trimEnd (w₂ ++ []) = [] := by
      rw [List.append_nil, ← List.nil_append w₂, trimEnd_append [] hw₂]
      rfl
    rw [ht, List.append_nil, readReference_url hurl, String.ofList_toList]
    rfl
  | present hp =>
    obtain ⟨hmn, hl⟩ := hr.marker _ rfl
    have ht : ∀ x, trimEnd (w₂ ++ ';' :: x) = w₂ ++ ';' :: trimEnd x := by
      intro x
      have := trimEnd_append_of_bareEnd (a := w₂ ++ [';']) (bareEnd_concat.mpr (by decide)) x
      simpa using this
    rw [ht, readReference_append hurl hw₂ (hne (by simp)), readMarker_congr (trim_trimEnd _),
      readMarker_of_padded hmn hl.trimmed hp, String.ofList_toList]
    rfl

/-- The target decides between the two readers, and is read by the right one. -/
theorem read (hr : r.WellFormed) (h : TargetText r target) :
    (match trim target with
      | '@' :: cs => readReference { bare r.name with extras := r.extras } (trim cs)
      | rest => readVersions { bare r.name with extras := r.extras } rest) = .ok r := by
  cases h with
  | versions hu hx hm =>
    split
    · rename_i ht
      exact absurd (head?_trim_versions hx hm '@' (by rw [ht]; rfl)) (by decide)
    · exact readVersions_eq hr hu hx hm
  | reference hu hw hw₁ hw₂ hne hm =>
    rw [trim_blanks_append_cons hw.blanks (by decide)]
    exact (congrArg _ (trim_trimEnd _)).trans
      (readReference_eq hr hu hw₁.blanks hw₂.blanks hne hm)

end TargetText

/-! ## Heads -/

theorem head?_trimEnd {name : String} (hn : Name.isValid name = true) (hw : Blanks w)
    (hg : ∀ cs ∈ group, ']' ∉ cs)
    (hs : ∀ d ∈ (trim target).head?, isNameChar d = false ∧ d ≠ '[') (hl : '\n' ∉ target) :
    head? (name.toList ++ trimEnd (w ++ (headChars [] group ++ target))) =
      some ⟨name.toList, group, trim target⟩ := by
  obtain ⟨rest, hr, ht, hc⟩ : ∃ rest, trim (headChars [] group ++ target) =
      headChars [] group ++ rest ∧ trimStart rest = trim target ∧
      ∀ d ∈ (headChars [] group ++ rest).head?, isNameChar d = false := by
    cases group with
    | none =>
      exact ⟨trim target, rfl, trimStart_eq_self (isTrimmed_iff.mp (isTrimmed_trim target)).1,
        fun d hd => (hs d hd).1⟩
    | some cs =>
      refine ⟨trimEnd target, ?_, trimStart_trimEnd target, fun d hd => ?_⟩
      · have hb : BareEnd (('[' :: cs) ++ [']']) := bareEnd_concat.mpr (by decide)
        rw [trim, headChars, List.nil_append, List.cons_append, trimStart_of_head (by decide)]
        exact trimEnd_append_of_bareEnd hb target
      · cases hd
        decide
  have ha : trimStart (trimEnd (w ++ (headChars [] group ++ target))) =
      headChars [] group ++ rest := by
    rw [trimStart_trimEnd, trim_append hw, hr]
  rw [← ht] at hs ⊢
  obtain ⟨c, cs, hcs, hl'⟩ := Name.head_of_isValid hn
  refine head?_append (Name.isNameChar_of_isValid hn) (by simpa [hcs] using hl') (fun d hd => ?_)
    ha hg (fun d hd => (hs d hd).2) fun hm => hl (mem_of_mem_trim (ht ▸ hm))
  cases hb : isBlank d with
  | true =>
    cases hn : isNameChar d with
    | false => rfl
    | true =>
      rw [isBlank_of_isNameChar hn] at hb
      cases hb
  | false =>
    -- Without a blank in front, the text starts as its trimmed text does.
    have hs : BareStart (trimEnd (w ++ (headChars [] group ++ target))) := by
      intro e he
      rwa [Option.mem_unique he hd]
    exact hc d (by rwa [← ha, trimStart_eq_self hs])

/-! ## Whole requirements -/

/-- A specifier is read part by part: its head, and then what stands behind the brackets. -/
theorem readSpec_append {name : String} {extras : List String} (hn : Name.isValid name = true)
    (hx : ∀ e ∈ extras, Name.isValid e = true) (hw : Blanks w) (hg : ExtrasGroup extras group)
    (hs : ∀ d ∈ (trim target).head?, isNameChar d = false ∧ d ≠ '[') (hl : '\n' ∉ target) :
    readSpec (name.toList ++ trimEnd (w ++ (headChars [] group ++ target))) =
      match trim target with
      | '@' :: cs => readReference { bare name with extras } (trim cs)
      | rest => readVersions { bare name with extras } rest := by
  rw [readSpec_of_head? (head?_trimEnd hn hw (hg.not_mem hx) hs hl) hn
    (hg.readExtras_eq hx (bare name)), isTrimmed_trim]
  rfl

theorem IsLayout.readSpec_trim (hr : r.WellFormed) (h : r.IsLayout cs) :
    readSpec (trim cs) = .ok r := by
  obtain ⟨hw, hw', hg, ht⟩ := h
  rw [trim_word_append hw.blanks (Name.isBlank_of_isValid hr.name) (Name.ne_nil_of_isValid hr.name),
    readSpec_append hr.name hr.extras hw'.blanks hg ht.head?_trim (ht.oneLine hr)]
  exact ht.read hr

theorem IsLayout.parse_eq {text : String} (hr : r.WellFormed) (h : r.IsLayout text.toList)
    (hn : NoOptions none text.toList) : parse text = .ok r := by
  rw [parse, readChars, splitOptions_of_noOptions hn]
  exact h.readSpec_trim hr

end PinFile.Requirement
