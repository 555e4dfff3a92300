import PinFile.Proofs.Requirement.HashTail
import PinFile.Proofs.Requirement.LayoutRead
import PinFile.Proofs.Requirement.Sound

/-!
# Reading back requirements

The text of a requirement is one of its layouts (`isLayout_specChars`). So a sound requirement is
read back from its own text (`readSpec_specChars`, `readChars_append_hashesChars`), when no tail of
options starts in the text before the digests, and every quote is closed in front of them.
-/

namespace PinFile.Requirement

open Text Constraint

theorem head?_listChars (xs : List Constraint) :
    ∀ d ∈ (listChars xs).head?, d ∈ operatorStarts := by
  intro d hd
  cases xs with
  | nil => cases hd
  | cons c xs =>
    obtain ⟨x, s, hs, hx⟩ := exists_symbol_cons c.operator
    obtain ⟨t, ht⟩ := exists_intercalate_cons [','] c.chars (xs.map chars)
    rw [listChars, List.map_cons, ht, chars, hs] at hd
    obtain rfl : x = d := by simpa using hd
    exact hx

/-! ## The text of a requirement is a layout -/

theorem padded_self (x : List Char) : Padded x x := ⟨[], [], .nil, .nil, by simp⟩

theorem padded_space_cons (x : List Char) : Padded x (' ' :: x) :=
  ⟨[' '], [], ⟨blanks_space, by decide⟩, .nil, by simp⟩

theorem extrasGroup_isLayout (r : Requirement) : ExtrasGroup r.extras r.extrasGroup := by
  have hi (extras : List String) : ExtrasItems extras (extras.map String.toList) := by
    induction extras with
    | nil => exact .nil
    | cons e extras ih => exact .extra (padded_self _) ih
  unfold extrasGroup
  split
  · rename_i h
    rw [h]
    exact .absent
  · exact .present (hi r.extras)

theorem listText_listChars (xs : List Constraint) : ListText xs (listChars xs) := by
  by_cases h : xs = []
  · subst h
    exact .empty .nil
  · refine .bare h (List.forall₂_map_right_iff.mpr (List.forall₂_same.mpr fun c _ => ?_))
    exact ⟨[], .nil, padded_self _⟩

/-- The text of a requirement is one of its ways to be written. -/
theorem isLayout_specChars {r : Requirement} (h : r.url = none ∨ r.constraints = []) :
    r.IsLayout r.specChars := by
  have ht : TargetText r (listChars r.constraints ++ r.targetChars) := by
    have hs : Gap [' '] := ⟨blanks_space, by decide⟩
    unfold targetChars
    cases hu : r.url with
    | none =>
      refine .versions hu (listText_listChars r.constraints) ?_
      cases r.marker with
      | none => exact .absent
      | some m => exact .present (padded_space_cons _)
    | some url =>
      rw [listChars_eq_nil_iff.mpr (h.resolve_left (by simp [hu])), List.nil_append]
      cases hm : r.marker with
      | none =>
        have hm' : MarkerText r.marker [] := hm ▸ .absent
        simpa using TargetText.reference hu hs hs .nil (by simp [hm]) hm'
      | some m => exact .reference hu hs hs hs (by simp) (hm ▸ .present (padded_space_cons _))
  have := IsLayout.intro .nil .nil (extrasGroup_isLayout r) ht
  rwa [List.nil_append, List.nil_append, ← List.append_assoc, ← List.append_assoc,
    ← headChars_append, ← coreChars] at this

namespace Sound

variable {r : Requirement} {rest cs : List Char}

theorem wellFormed (h : r.Sound) : WellFormed { r with hashes := [] } where
  name := h.name
  extras := h.extras
  constraints := h.constraints
  exclusive := h.exclusive
  url := h.url
  marker m hm := ⟨(h.marker m hm).ne_nil, (h.marker m hm).toIsLineText⟩
  hashes := rfl

/-! ## Reading it -/

/-- A specifier is read part by part: its head, and then what stands behind the brackets. -/
theorem readSpec_append (h : r.Sound) (hne : rest ≠ []) (he : BareEnd rest)
    (hs : ∀ d ∈ (trim rest).head?, isNameChar d = false ∧ d ≠ '[') (hl : '\n' ∉ rest) :
    readSpec (headChars r.name.toList r.extrasGroup ++ rest) =
      match trim rest with
      | '@' :: cs => readReference { bare r.name with extras := r.extras } (trim cs)
      | rest => readVersions { bare r.name with extras := r.extras } rest := by
  have hb : trimEnd ([] ++ (headChars [] r.extrasGroup ++ rest)) =
      headChars [] r.extrasGroup ++ rest := trimEnd_eq_self (he.append hne)
  rw [headChars_append, List.append_assoc, ← hb]
  exact Requirement.readSpec_append h.name h.extras Blanks.nil (extrasGroup_isLayout r) hs hl

/-- A URL and perhaps a marker are read from the text behind `@`. -/
theorem readSpec_at (h : r.Sound) (he : BareEnd ('@' :: cs)) (hl : '\n' ∉ cs) :
    readSpec (headChars r.name.toList r.extrasGroup ++ ' ' :: '@' :: cs) =
      readReference { bare r.name with extras := r.extras } (trim cs) := by
  have ht : trim (' ' :: '@' :: cs) = '@' :: cs :=
    trim_space_cons (isTrimmed_iff.mpr ⟨bareStart_cons.mpr (by decide), he⟩)
  have hb : BareEnd (' ' :: '@' :: cs) := he.append (a := [' ']) (by simp)
  have hs : ∀ d ∈ (trim (' ' :: '@' :: cs)).head?, isNameChar d = false ∧ d ≠ '[' := by
    intro d hd
    rw [ht] at hd
    cases hd
    decide
  rw [h.readSpec_append (by simp) hb hs (by simpa using hl), ht]
  rfl

/-- Constraints and perhaps a marker are read from the text behind the brackets. -/
theorem readSpec_versions (h : r.Sound) (hne : rest ≠ [])
    (hs : ∀ c ∈ rest.head?, c ∈ operatorStarts ++ [';']) (he : BareEnd rest) (hl : '\n' ∉ rest) :
    readSpec (headChars r.name.toList r.extrasGroup ++ rest) =
      readVersions { bare r.name with extras := r.extras } rest := by
  have hc : ∀ c ∈ rest.head?, isBlank c = false ∧ c ≠ '@' ∧ isNameChar c = false ∧ c ≠ '[' := by
    have hall : ∀ c ∈ operatorStarts ++ [';'],
        isBlank c = false ∧ c ≠ '@' ∧ isNameChar c = false ∧ c ≠ '[' :=
      forall_mem_of_all (by decide)
    exact fun c hc => hall c (hs c hc)
  have ht : trim rest = rest := isTrimmed_iff.mpr ⟨fun c h => (hc c h).1, he⟩
  rw [h.readSpec_append hne he (by rw [ht]; exact fun c h => (hc c h).2.2) hl, ht]
  split
  · exact absurd rfl (hc '@' rfl).2.1
  · rfl

/-- The specifier is read back without its digests. -/
theorem readSpec_specChars (h : r.Sound) :
    readSpec r.specChars = .ok { r with hashes := [] } := by
  have hl : IsLayout { r with hashes := [] } r.specChars := isLayout_specChars h.exclusive
  have := hl.readSpec_trim h.wellFormed
  rwa [h.isTrimmed_specChars] at this

/-- A requirement is read back from its text when no option tail starts before its digests. -/
theorem readChars_append_hashesChars (h : r.Sound) (hn : NoOptions none r.specChars)
    (hq : r.hashes ≠ [] → r.openQuote = none) :
    readChars (r.specChars ++ hashesChars r.hashes) = .ok r := by
  have hspec : readChars r.specChars = .ok { r with hashes := [] } := by
    rw [readChars, splitOptions_of_noOptions hn]
    dsimp only
    rw [h.isTrimmed_specChars, h.readSpec_specChars]
  by_cases hh : r.hashes = []
  · rw [hh, show hashesChars [] = [] from rfl, List.append_nil, hspec, ← hh]
  · have hc : quoteAt none r.specChars = none := h.quoteAt_specChars.trans (hq hh)
    rw [readChars_append_hashTail hc hn hh (hashTail_hashesChars h.hashes), hspec]
    rfl

end Sound

end PinFile.Requirement
