import PinFile.Proofs.Requirement.Accepted
import PinFile.Proofs.Requirement.Written

/-!
# Stable requirements

The text of a requirement has a space in front of its URL and one in front of its marker. When one
of the two starts with `#` or with two hyphens, a comment or a tail of options starts there
(`exists_stem`), and what is left in front of it is refused. A requirement without such a part
is stable, and it is read back when it was read from a line (`Accepted.readChars_eq`).
-/

namespace PinFile.Requirement

open Text Constraint

structure IsStable (r : Requirement) : Prop where
  url : ∀ url ∈ r.url, url.toList.head? ≠ some '#' ∧ ¬ ['-', '-'] <+: url.toList
  marker : ∀ m ∈ r.marker, m.toList.head? ≠ some '#' ∧
    ¬ (r.urlQuote = none ∧ ['-', '-'] <+: m.toList)

instance (r : Requirement) : Decidable r.IsStable :=
  decidable_of_iff ((∀ url ∈ r.url, url.toList.head? ≠ some '#' ∧ ¬ ['-', '-'] <+: url.toList) ∧
    ∀ m ∈ r.marker, m.toList.head? ≠ some '#' ∧ ¬ (r.urlQuote = none ∧ ['-', '-'] <+: m.toList))
    ⟨fun h => ⟨h.1, h.2⟩, fun h => ⟨h.1, h.2⟩⟩

variable {r : Requirement}

theorem Accepted.readChars_eq (h : r.Accepted) (hs : r.IsStable) :
    readChars r.render.toList = .ok r := by
  have hn : NoOptions none r.specChars := by
    refine h.noOptions_specChars_iff.mpr ⟨fun url hu => (hs.url url hu).2, fun m hm => ?_⟩
    have := h.marker_noOptions
    rw [hm, Option.getD_some] at this
    exact ⟨(hs.marker m hm).2, this⟩
  rw [toList_render]
  exact h.readChars_append_hashesChars hn h.closed

/-! ## Stems -/

/-- The text in front of a URL, or in front of a marker, which no specifier ends with. -/
structure IsStem (stem : List Char) : Prop where
  bareStart : BareStart stem
  bareEnd : BareEnd stem
  noOptions : NoOptions none stem
  noMark : hasMark stem = false
  refused : ∃ e, readSpec stem = .error e

theorem IsStem.readChars {stem : List Char} (h : IsStem stem) :
    ∃ e, readChars stem = .error e := by
  obtain ⟨e, he⟩ := h.refused
  have ht : IsTrimmed stem := isTrimmed_iff.mpr ⟨h.bareStart, h.bareEnd⟩
  refine ⟨e, ?_⟩
  unfold Requirement.readChars
  rw [splitOptions_of_noOptions h.noOptions]
  dsimp only
  rw [ht, he]

theorem IsStem.readChars_append {stem : List Char} (h : IsStem stem) (rest : List Char)
    (hq : quoteAt none stem = none) :
    ∃ e, Requirement.readChars (stem ++ ' ' :: '-' :: '-' :: rest) = .error e := by
  obtain ⟨e, he⟩ := h.refused
  have ht : IsTrimmed stem := isTrimmed_iff.mpr ⟨h.bareStart, h.bareEnd⟩
  have hs : startsOptions none ' ' ('-' :: '-' :: rest) = true := by
    unfold startsOptions
    rw [trimStart_of_head (by decide)]
    rfl
  refine ⟨e, ?_⟩
  unfold Requirement.readChars
  rw [splitOptions_append_cons h.noOptions hq h.bareEnd hs]
  dsimp only
  rw [ht, he]
  rfl

/-- The text between the core and the space in front of a marker. -/
def markerLead (r : Requirement) : List Char :=
  match r.url with
  | some url => ' ' :: '@' :: ' ' :: (url.toList ++ [' ', ';'])
  | none => [';']

namespace Sound

theorem coreChars_eq_of_url (h : r.Sound) {url : String} (hu : r.url = some url) :
    r.coreChars = headChars r.name.toList r.extrasGroup := by
  have hx : r.constraints = [] := h.exclusive.resolve_left (by simp [hu])
  unfold coreChars
  rw [hx]
  exact List.append_nil _

theorem hasMark_coreChars (h : r.Sound) : hasMark r.coreChars = false :=
  hasMark_of_forall h.isBlank_of_mem_coreChars

theorem bareStart_coreChars_append (h : r.Sound) (cs : List Char) : BareStart (r.coreChars ++ cs) :=
  (bareStart_of_forall h.isBlank_of_mem_coreChars).append h.coreChars_ne_nil

/-- Nothing is left to be the URL. -/
theorem isStem_url (h : r.Sound) {url : String} (hu : r.url = some url) :
    IsStem (r.coreChars ++ [' ', '@']) where
  bareStart := h.bareStart_coreChars_append _
  bareEnd := .append (by decide) (by simp)
  noOptions := by
    rw [noOptions_append_of_forall h.isBlank_of_mem_coreChars, h.quoteAt_coreChars]
    decide
  noMark := hasMark_append h.hasMark_coreChars (by decide) (.inr (by simp))
  refused := by
    rw [h.coreChars_eq_of_url hu, h.readSpec_at (by decide) (by simp)]
    exact ⟨.missingUrl, rfl⟩

theorem hasMark_markerLead (h : r.Sound)
    (hu : ∀ url ∈ r.url, url.toList.head? ≠ some '#') : hasMark r.markerLead = false := by
  unfold markerLead
  split
  · rename_i url hurl
    have hv := h.url url hurl
    have he : hasMark (url.toList ++ [' ', ';']) = false :=
      hasMark_append (hasMark_of_forall hv.noBlank) (by decide) (.inr (by simp))
    refine hasMark_append (a := [' ', '@', ' ']) (by decide) he (.inr ?_)
    show (url.toList ++ [' ', ';']).head? ≠ _
    rw [List.head?_append_of_ne_nil _ hv.ne_nil]
    exact hu url hurl
  · decide

theorem noOptions_markerLead (h : r.Sound) (hu : ∀ url ∈ r.url, ¬ ['-', '-'] <+: url.toList) :
    NoOptions none r.markerLead := by
  unfold markerLead
  split
  · rename_i url hurl
    have hq : ∀ q ∈ quoteAt none url.toList, isQuote q = true := isQuote_of_quoteAt (by simp)
    rw [noOptions_url_append (h.url url hurl), noOptions_space_cons hq
      (bareStart_cons.mpr (by decide))]
    exact ⟨hu url hurl, by simp, noOptions_of_forall (forall_mem_of_all (by decide))⟩
  · decide

/-- Nothing is left to be the marker. -/
theorem readSpec_markerLead (h : r.Sound) :
    readSpec (r.coreChars ++ r.markerLead) = .error .emptyMarker := by
  unfold markerLead
  split
  · rename_i url hurl
    have hv := h.url url hurl
    have hb : BareEnd (url.toList ++ [' ', ';']) := .append (by decide) (by simp)
    have hb' : BareEnd ('@' :: ' ' :: (url.toList ++ [' ', ';'])) :=
      hb.append (a := ['@', ' ']) (by simp)
    have ht : IsTrimmed (url.toList ++ [' ', ';']) :=
      isTrimmed_iff.mpr ⟨hv.bareStart.append hv.ne_nil, hb⟩
    rw [h.coreChars_eq_of_url hurl, h.readSpec_at hb' (by simp [hv.oneLine]), trim_space_cons ht,
      readReference_semicolon hv]
  · have hs : ∀ c ∈ (listChars r.constraints ++ [';']).head?, c ∈ operatorStarts ++ [';'] := by
      intro c hc
      rw [List.head?_append] at hc
      cases hl : (listChars r.constraints).head? with
      | none =>
        rw [hl] at hc
        cases hc
        decide
      | some d =>
        rw [hl] at hc
        cases hc
        exact List.mem_append_left _ (head?_listChars _ c hl)
    have hn : '\n' ∉ listChars r.constraints := fun hm =>
      absurd (isBlank_of_mem_listChars h.constraints _ hm) (by decide)
    have he : BareEnd (listChars r.constraints ++ [';']) := bareEnd_concat.mpr (by decide)
    rw [coreChars, List.append_assoc, h.readSpec_versions (by simp) hs he (by simp [hn]),
      readVersions_semicolon h.constraints]

theorem isStem_marker (h : r.Sound) (hu : ∀ url ∈ r.url, url.toList.head? ≠ some '#' ∧
    ¬ ['-', '-'] <+: url.toList) : IsStem (r.coreChars ++ r.markerLead) where
  bareStart := h.bareStart_coreChars_append _
  bareEnd := by
    unfold markerLead
    split
    · rename_i url _
      have hb : BareEnd [' ', ';'] := by decide
      exact (hb.append (a := ' ' :: '@' :: ' ' :: url.toList) (by simp)).append (by simp)
    · exact .append (by decide) (by simp)
  noOptions := by
    rw [noOptions_append_of_forall h.isBlank_of_mem_coreChars, h.quoteAt_coreChars]
    exact h.noOptions_markerLead fun url hm => (hu url hm).2
  noMark := by
    refine hasMark_append h.hasMark_coreChars (h.hasMark_markerLead fun url hm => (hu url hm).1) ?_
    unfold markerLead
    split <;> simp
  refused := ⟨_, h.readSpec_markerLead⟩

theorem quoteAt_markerLead (r : Requirement) : quoteAt none r.markerLead = r.urlQuote := by
  unfold markerLead urlQuote
  split
  · rename_i url hurl
    have hq : ∀ q ∈ quoteAt none url.toList, isQuote q = true := isQuote_of_quoteAt (by simp)
    show quoteAt none ([' ', '@', ' '] ++ (url.toList ++ [' ', ';'])) = _
    rw [quoteAt_append, quoteAt_append, hurl, Option.getD_some]
    exact quoteAt_of_forall hq (forall_mem_of_all (by decide))
  · rename_i hurl
    rw [hurl]
    rfl

/-- A comment or a tail of options starts in the text of an unstable requirement, and what is left
in front of it is refused. -/
theorem exists_stem (h : r.Sound) (hs : ¬ r.IsStable) : ∃ stem rest, IsStem stem ∧
    (r.specChars = stem ++ ' ' :: '#' :: rest ∨
      quoteAt none stem = none ∧ r.specChars = stem ++ ' ' :: '-' :: '-' :: rest) := by
  have hq := h.quoteAt_coreChars
  by_cases hu : ∀ url ∈ r.url, url.toList.head? ≠ some '#' ∧ ¬ ['-', '-'] <+: url.toList
  · have hm : ∃ m ∈ r.marker, m.toList.head? = some '#' ∨
        r.urlQuote = none ∧ ['-', '-'] <+: m.toList := by
      by_contra hc
      push Not at hc
      exact hs ⟨hu, fun m hm => ⟨(hc m hm).1, fun ⟨h1, h2⟩ => (hc m hm).2 h1 h2⟩⟩
    obtain ⟨m, hm, hc⟩ := hm
    have ht : r.specChars = r.coreChars ++ r.markerLead ++ ' ' :: m.toList := by
      unfold specChars targetChars markerLead
      rw [Option.mem_def.mp hm]
      cases r.url <;> simp
    rcases hc with hc | ⟨hn, rest, hc⟩
    · obtain ⟨rest, hc⟩ := List.head?_eq_some_iff.mp hc
      exact ⟨_, rest, h.isStem_marker hu, .inl (hc ▸ ht)⟩
    · refine ⟨_, rest, h.isStem_marker hu, .inr ⟨?_, ?_⟩⟩
      · rw [quoteAt_append, hq, quoteAt_markerLead, hn]
      · rw [ht, ← hc]
        rfl
  · push Not at hu
    obtain ⟨url, hu, hc⟩ := hu
    obtain ⟨rest, ht⟩ : ∃ rest,
        r.specChars = r.coreChars ++ [' ', '@'] ++ ' ' :: (url.toList ++ rest) := by
      unfold specChars targetChars
      rw [Option.mem_def.mp hu]
      cases r.marker with
      | none => exact ⟨[], by simp⟩
      | some m => exact ⟨_, by simp; rfl⟩
    by_cases hd : url.toList.head? = some '#'
    · obtain ⟨cs, hd⟩ := List.head?_eq_some_iff.mp hd
      exact ⟨_, cs ++ rest, h.isStem_url hu, .inl (by rw [ht, hd]; rfl)⟩
    · obtain ⟨cs, hd⟩ := hc hd
      refine ⟨_, cs ++ rest, h.isStem_url hu, .inr ⟨?_, by rw [ht, ← hd]; rfl⟩⟩
      rw [quoteAt_append, hq]
      rfl

end Sound

end PinFile.Requirement
