import PinFile.Proofs.Requirement.Hashes
import PinFile.Proofs.Requirement.Head
import PinFile.Proofs.Requirement.Target

/-!
# Sound requirements

`Sound` is what every requirement that is read satisfies: each part has the form of its kind, and
a URL excludes constraints. The text of a sound requirement, part by part, is a core without
blanks and quotes (`mem_coreChars`), the target, and the digests. A tail of options starts in it
exactly where a URL or a marker starts with two hyphens or holds a tail of its own
(`noOptions_specChars_iff`).
-/

namespace PinFile.Requirement

open Text Constraint

structure Sound (r : Requirement) : Prop where
  name : Name.isValid r.name = true
  extras : ∀ extra ∈ r.extras, Name.isValid extra = true
  constraints : ∀ c ∈ r.constraints, c.IsValid
  exclusive : r.url = none ∨ r.constraints = []
  url : ∀ url ∈ r.url, IsUrl url.toList
  marker : ∀ marker ∈ r.marker, IsValue marker.toList
  hashes : ∀ hash ∈ r.hashes, isHash hash.toList = true

instance (r : Requirement) : Decidable r.Sound :=
  decidable_of_iff (Name.isValid r.name = true ∧ (∀ extra ∈ r.extras, Name.isValid extra = true) ∧
      (∀ c ∈ r.constraints, c.IsValid) ∧ (r.url = none ∨ r.constraints = []) ∧
      (∀ url ∈ r.url, IsUrl url.toList) ∧ (∀ marker ∈ r.marker, IsValue marker.toList) ∧
      ∀ hash ∈ r.hashes, isHash hash.toList = true)
    ⟨fun ⟨h1, h2, h3, h4, h5, h6, h7⟩ => ⟨h1, h2, h3, h4, h5, h6, h7⟩,
      fun ⟨h1, h2, h3, h4, h5, h6, h7⟩ => ⟨h1, h2, h3, h4, h5, h6, h7⟩⟩

/-! ## The text of a requirement -/

def extrasGroup (r : Requirement) : Option (List Char) :=
  if r.extras = [] then none else some (extrasChars r.extras)

/-- The text in front of a URL or a marker. -/
def coreChars (r : Requirement) : List Char :=
  headChars r.name.toList r.extrasGroup ++ listChars r.constraints

def targetChars (r : Requirement) : List Char :=
  match r.url, r.marker with
  | some url, some m => ' ' :: '@' :: ' ' :: (url.toList ++ (' ' :: ';' :: ' ' :: m.toList))
  | some url, none => ' ' :: '@' :: ' ' :: url.toList
  | none, some m => ';' :: ' ' :: m.toList
  | none, none => []

def specChars (r : Requirement) : List Char := r.coreChars ++ r.targetChars

/-- The quote that is open behind the URL. -/
def urlQuote (r : Requirement) : Option Char := quoteAt none (r.url.getD "").toList

/-- The quote that is open behind the URL and the marker. -/
def openQuote (r : Requirement) : Option Char := quoteAt r.urlQuote (r.marker.getD "").toList

theorem toList_renderExtras (r : Requirement) :
    r.renderExtras.toList = headChars [] r.extrasGroup := by
  unfold renderExtras extrasGroup
  by_cases h : r.extras = []
  · simp [h, headChars]
  · simp [h, headChars, extrasChars]

theorem toList_renderTarget (r : Requirement) : r.renderTarget.toList = r.targetChars := by
  unfold renderTarget targetChars
  cases r.url <;> cases r.marker <;> simp

theorem toList_renderSpec (r : Requirement) : r.renderSpec.toList = r.specChars := by
  have hc : String.toList ∘ Constraint.render = Constraint.chars := funext Constraint.toList_render
  rw [renderSpec, String.toList_append, String.toList_append, String.toList_append,
    toList_renderExtras, toList_renderTarget, specChars, coreChars,
    headChars_append r.name.toList, String.toList_intercalate, List.map_map, hc, listChars]
  rfl

theorem toList_render (r : Requirement) :
    r.render.toList = r.specChars ++ hashesChars r.hashes := by
  unfold render
  rw [String.toList_append, toList_renderSpec, toList_renderHashes]

theorem isQuote_of_isSpecChar {c : Char} (h : isSpecChar c = true) : isQuote c = false := by
  have h1 : c ≠ '"' := ne_of_class h (by decide)
  have h2 : c ≠ '\'' := ne_of_class h (by decide)
  simp [isQuote, h1, h2]

namespace Sound

variable {r : Requirement}

/-! ## The core -/

theorem mem_coreChars (h : r.Sound) :
    ∀ c ∈ r.coreChars, isSpecChar c = true ∨ c ∈ [',', '[', ']'] := by
  intro c hc
  unfold coreChars at hc
  rw [headChars_append] at hc
  simp only [List.mem_append] at hc
  rcases hc with (hc | hc) | hc
  · exact .inl (isSpecChar_of_isNameChar (Name.isNameChar_of_isValid h.name c hc))
  · unfold extrasGroup at hc
    split at hc
    · simp [headChars] at hc
    · simp only [headChars, List.nil_append, List.mem_cons, List.mem_append, List.not_mem_nil,
        or_false] at hc
      rcases hc with rfl | hc | rfl
      · exact .inr (by decide)
      · rcases mem_extrasChars h.extras c hc with hc | rfl
        · exact .inl (isSpecChar_of_isNameChar hc)
        · exact .inr (by decide)
      · exact .inr (by decide)
  · rcases mem_listChars h.constraints c hc with hc | rfl
    · exact .inl hc
    · exact .inr (by decide)

/-- Characters outside those of the core are not in it. -/
theorem forall_coreChars (h : r.Sound) {p : Char → Bool}
    (hs : ∀ c, isSpecChar c = true → p c = true)
    (hp : p ',' = true ∧ p '[' = true ∧ p ']' = true) : ∀ c ∈ r.coreChars, p c = true := by
  intro c hc
  rcases h.mem_coreChars c hc with hc | hc
  · exact hs c hc
  · simp only [List.mem_cons, List.not_mem_nil, or_false] at hc
    rcases hc with rfl | rfl | rfl
    · exact hp.1
    · exact hp.2.1
    · exact hp.2.2

theorem isBlank_of_mem_coreChars (h : r.Sound) : ∀ c ∈ r.coreChars, isBlank c = false := by
  have := h.forall_coreChars (p := (!isBlank ·)) (fun c hc => by simp [isBlank_of_isSpecChar hc])
    (by decide)
  simpa using this

theorem isQuote_of_mem_coreChars (h : r.Sound) : ∀ c ∈ r.coreChars, isQuote c = false := by
  have := h.forall_coreChars (p := (!isQuote ·)) (fun c hc => by simp [isQuote_of_isSpecChar hc])
    (by decide)
  simpa using this

theorem coreChars_ne_nil (h : r.Sound) : r.coreChars ≠ [] := by
  unfold coreChars
  rw [headChars_append]
  simp [Name.ne_nil_of_isValid h.name]

/-- The text starts with a letter or a digit. -/
theorem head_specChars (h : r.Sound) :
    ∃ c cs, r.specChars = c :: cs ∧ isLetterOrDigit c = true := by
  obtain ⟨c, cs, hn, hc⟩ := Name.head_of_isValid h.name
  unfold specChars coreChars
  rw [headChars_append, hn]
  exact ⟨c, _, rfl, hc⟩

theorem bareStart_specChars (h : r.Sound) : BareStart r.specChars := by
  obtain ⟨c, cs, hs, hc⟩ := h.head_specChars
  rw [hs]
  exact bareStart_cons.mpr (isBlank_of_isNameChar (isNameChar_of_isLetterOrDigit hc))

theorem bareEnd_specChars (h : r.Sound) : BareEnd r.specChars := by
  unfold specChars targetChars
  cases hu : r.url with
  | none =>
    cases hm : r.marker with
    | none => simpa using bareEnd_of_forall h.isBlank_of_mem_coreChars
    | some m =>
      have hv := h.marker m hm
      have := hv.bareEnd.append (a := r.coreChars ++ [';', ' ']) hv.ne_nil
      simpa using this
  | some url =>
    have hv := h.url url hu
    cases hm : r.marker with
    | none =>
      have := hv.bareEnd.append (a := r.coreChars ++ [' ', '@', ' ']) hv.ne_nil
      simpa using this
    | some m =>
      have hw := h.marker m hm
      have := hw.bareEnd.append
        (a := r.coreChars ++ [' ', '@', ' '] ++ url.toList ++ [' ', ';', ' ']) hw.ne_nil
      simpa using this

theorem isTrimmed_specChars (h : r.Sound) : IsTrimmed r.specChars :=
  isTrimmed_iff.mpr ⟨h.bareStart_specChars, h.bareEnd_specChars⟩

theorem oneLine_targetChars (h : r.Sound) : '\n' ∉ r.targetChars := by
  intro hm
  unfold targetChars at hm
  split at hm
  · rename_i url m hu hv
    have := (h.url url hu).oneLine
    have := (h.marker m hv).oneLine
    simp_all
  · rename_i url hu hv
    have := (h.url url hu).oneLine
    simp_all
  · rename_i m hu hv
    have := (h.marker m hv).oneLine
    simp_all
  · cases hm

/-- The whole text, digests included, is a line. -/
theorem isLineText_render (h : r.Sound) : IsLineText r.render.toList := by
  obtain ⟨c, cs, hs, hc⟩ := h.head_specChars
  rw [toList_render]
  refine ⟨isTrimmed_iff.mpr ⟨h.bareStart_specChars.append (by simp [hs]),
    bareEnd_append_hashesChars h.hashes h.bareEnd_specChars⟩, ?_⟩
  unfold specChars
  rw [List.mem_append, List.mem_append, not_or, not_or]
  exact ⟨⟨fun hm => absurd (h.isBlank_of_mem_coreChars _ hm) (by decide), h.oneLine_targetChars⟩,
    not_mem_hashesChars h.hashes (by decide) (by decide) (by decide)⟩

/-- A mark in the text can only stand at the start of the URL or of the marker. -/
theorem hasMark_render (h : r.Sound) (hu : ∀ url ∈ r.url, url.toList.head? ≠ some '#')
    (hm : ∀ m ∈ r.marker, m.toList.head? ≠ some '#') : hasMark r.render.toList = false := by
  have hh : '#' ∉ hashesChars r.hashes :=
    not_mem_hashesChars h.hashes (by decide) (by decide) (by decide)
  have hgap : ∀ m ∈ r.marker, hasMark (';' :: ' ' :: m.toList) = false := fun m hm' =>
    hasMark_append (a := [';', ' ']) (by decide) (h.marker m hm').noMark (.inr (hm m hm'))
  have ht : hasMark r.targetChars = false := by
    unfold targetChars
    cases hurl : r.url with
    | none =>
      cases hmark : r.marker with
      | none => rfl
      | some m => exact hgap m hmark
    | some url =>
      have hv := h.url url hurl
      have hat : ∀ cs, hasMark cs = false → cs.head? ≠ some '#' →
          hasMark (' ' :: '@' :: ' ' :: cs) = false := fun cs h1 h2 =>
        hasMark_append (a := [' ', '@', ' ']) (by decide) h1 (.inr h2)
      cases hmark : r.marker with
      | none => exact hat _ (hasMark_of_forall hv.noBlank) (hu url hurl)
      | some m =>
        have hm' : hasMark (' ' :: ';' :: ' ' :: m.toList) = false :=
          hasMark_append (a := [' ']) (by decide) (hgap m hmark) (.inr (by simp))
        apply hat _ (hasMark_append (hasMark_of_forall hv.noBlank) hm' (.inr (by simp)))
        rw [List.head?_append_of_ne_nil _ hv.ne_nil]
        exact hu url hurl
  have hne : ∀ cs : List Char, '#' ∉ cs → cs.head? ≠ some '#' := fun cs hc he =>
    hc (List.mem_of_mem_head? he)
  rw [toList_render, specChars]
  refine hasMark_append (hasMark_append (hasMark_of_forall h.isBlank_of_mem_coreChars) ht (.inl ?_))
    (hasMark_of_not_mem hh) (.inr (hne _ hh))
  exact bareEnd_of_forall h.isBlank_of_mem_coreChars

/-! ## Quotes and tails in the text -/

theorem isQuote_urlQuote (r : Requirement) : ∀ q ∈ r.urlQuote, isQuote q = true :=
  isQuote_of_quoteAt (by simp)

theorem quoteAt_coreChars (h : r.Sound) : quoteAt none r.coreChars = none :=
  quoteAt_of_forall (by simp) h.isQuote_of_mem_coreChars

theorem quoteAt_specChars (h : r.Sound) : quoteAt none r.specChars = r.openQuote := by
  unfold specChars
  rw [quoteAt_append, h.quoteAt_coreChars]
  unfold targetChars openQuote urlQuote
  cases r.url with
  | none => cases r.marker <;> rfl
  | some url =>
    have hq : ∀ q ∈ quoteAt none url.toList, isQuote q = true := isQuote_of_quoteAt (by simp)
    have hs : quoteAt none [' ', '@', ' '] = none := by decide
    have hm : quoteAt (quoteAt none url.toList) [' ', ';', ' '] = quoteAt none url.toList :=
      quoteAt_of_forall hq (forall_mem_of_all (by decide))
    cases r.marker with
    | none =>
      show quoteAt none ([' ', '@', ' '] ++ url.toList) = _
      rw [quoteAt_append, hs]
      rfl
    | some m =>
      show quoteAt none ([' ', '@', ' '] ++ (url.toList ++ ([' ', ';', ' '] ++ m.toList))) = _
      rw [quoteAt_append, hs, quoteAt_append, quoteAt_append, hm]
      rfl

/-- A space behind a URL does not add to the hyphens that it starts with. -/
theorem prefix_append_space {url rest : List Char} (h : url ≠ []) :
    ['-', '-'] <+: url ++ ' ' :: rest ↔ ['-', '-'] <+: url := by
  obtain ⟨c, cs, rfl⟩ := List.exists_cons_of_ne_nil h
  cases cs <;> simp

theorem noOptions_at {cs : List Char} (h : BareStart cs) :
    NoOptions none (' ' :: '@' :: ' ' :: cs) ↔ ¬ ['-', '-'] <+: cs ∧ NoOptions none cs := by
  rw [noOptions_space_cons (by simp) (bareStart_cons.mpr (by decide)),
    noOptions_sign_cons (by simp) (by decide) (by decide), noOptions_space_cons (by simp) h]
  simp

theorem noOptions_url_append {url rest : List Char} (h : IsUrl url) :
    NoOptions none (' ' :: '@' :: ' ' :: (url ++ ' ' :: rest)) ↔
      ¬ ['-', '-'] <+: url ∧ NoOptions (quoteAt none url) (' ' :: rest) := by
  rw [noOptions_at (h.bareStart.append h.ne_nil), prefix_append_space h.ne_nil,
    noOptions_append_of_forall h.noBlank]

/-- Where a tail of options can start in the text of a requirement. -/
theorem noOptions_specChars_iff (h : r.Sound) : NoOptions none r.specChars ↔
    (∀ url ∈ r.url, ¬ ['-', '-'] <+: url.toList) ∧
      ∀ m ∈ r.marker, ¬ (r.urlQuote = none ∧ ['-', '-'] <+: m.toList) ∧
        NoOptions r.urlQuote m.toList := by
  unfold specChars
  rw [noOptions_append_of_forall h.isBlank_of_mem_coreChars, h.quoteAt_coreChars]
  -- The gap in front of a marker, from the quote that is open behind the URL.
  have hgap : ∀ m ∈ r.marker, NoOptions r.urlQuote (';' :: ' ' :: m.toList) ↔
      ¬ (r.urlQuote = none ∧ ['-', '-'] <+: m.toList) ∧ NoOptions r.urlQuote m.toList := by
    intro m hm
    rw [noOptions_sign_cons (isQuote_urlQuote r) (by decide) (by decide),
      noOptions_space_cons (isQuote_urlQuote r) (h.marker m hm).bareStart]
  unfold targetChars
  cases hu : r.url with
  | none =>
    have hq : r.urlQuote = none := by simp [urlQuote, hu, quoteAt]
    cases hm : r.marker with
    | none => simp [noOptions_nil]
    | some m =>
      have := hgap m hm
      rw [hq] at this
      simpa [hq] using this
  | some url =>
    have hv := h.url url hu
    have hq : quoteAt none url.toList = r.urlQuote := by simp [urlQuote, hu]
    cases hm : r.marker with
    | none =>
      rw [noOptions_at hv.bareStart]
      simp [noOptions_of_forall hv.noBlank]
    | some m =>
      rw [noOptions_url_append hv, hq, noOptions_space_cons (isQuote_urlQuote r)
        (bareStart_cons.mpr (by decide)), hgap m hm]
      simp

end Sound

end PinFile.Requirement
