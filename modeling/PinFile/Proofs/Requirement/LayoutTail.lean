import PinFile.Proofs.Requirement.LayoutRead
import PinFile.Proofs.Requirement.Sound

/-!
# Option tails in layouts

The blanks of a layout start no option tail, unless they stand in front of a part that starts with
two hyphens. A requirement is plain when none of its parts does. Then a tail starts in a layout
exactly when one starts in the marker (`IsLayout.noOptions_iff`), so the marker decides whether the
requirement is read from its layouts (`parse_of_isLayout`).
-/

namespace PinFile.Requirement

open Text Constraint

/-- No part in front of which blanks may stand starts with two hyphens. -/
structure Plain (r : Requirement) : Prop extends WellFormed r where
  versionStart : ∀ c ∈ r.constraints, ¬ ['-', '-'] <+: c.version.toList
  urlStart : ∀ url ∈ r.url, ¬ ['-', '-'] <+: url.toList
  markerStart : ∀ m ∈ r.marker, ¬ ['-', '-'] <+: m.toList

instance (r : Requirement) : Decidable r.Plain :=
  decidable_of_iff (r.WellFormed ∧ (∀ c ∈ r.constraints, ¬ ['-', '-'] <+: c.version.toList) ∧
      (∀ url ∈ r.url, ¬ ['-', '-'] <+: url.toList) ∧ ∀ m ∈ r.marker, ¬ ['-', '-'] <+: m.toList)
    ⟨fun ⟨h1, h2, h3, h4⟩ => ⟨h1, h2, h3, h4⟩, fun ⟨h1, h2, h3, h4⟩ => ⟨h1, h2, h3, h4⟩⟩

/-- The first visible sign is no hyphen. -/
def NoHyphenStart (cs : List Char) : Prop := ∀ c ∈ (trim cs).head?, c ≠ '-'

/-- A text that starts no tail, whatever quote is open and whatever follows but a hyphen. -/
structure Calm (cs : List Char) : Prop where
  noOptions_append : ∀ {quote b}, (∀ q ∈ quote, isQuote q = true) → NoHyphenStart b →
    (NoOptions quote (cs ++ b) ↔ NoOptions quote b)

variable {r : Requirement} {w x a b cs tail target : List Char} {quote : Option Char}

/-! ## First signs -/

namespace NoHyphenStart

theorem blanks (hw : Blanks w) : NoHyphenStart w := by
  intro c hc
  rw [trim_eq_nil_iff.mpr hw] at hc
  cases hc

theorem cons {c : Char} (hc : isBlank c = false) (hd : c ≠ '-') : NoHyphenStart (c :: cs) := by
  intro d h
  rw [← List.nil_append (c :: cs), trim_blanks_append_cons Blanks.nil hc] at h
  cases h
  exact hd

theorem blanks_append (hw : Blanks w) (h : NoHyphenStart b) : NoHyphenStart (w ++ b) := by
  unfold NoHyphenStart
  rwa [trim_append hw]

theorem head?_ne (h : NoHyphenStart b) : b.head? ≠ some '-' := by
  intro hb
  obtain ⟨t, rfl⟩ := List.head?_eq_some_iff.mp hb
  refine h '-' ?_ rfl
  rw [← List.nil_append ('-' :: t), trim_blanks_append_cons Blanks.nil (by decide)]
  rfl

theorem not_prefix (h : NoHyphenStart b) : ¬ ['-', '-'] <+: trimStart b := by
  have ht : NoHyphenStart (trimStart b) := by
    unfold NoHyphenStart
    rwa [trim_trimStart]
  rintro ⟨t, hb⟩
  exact ht.head?_ne (by rw [← hb]; rfl)

end NoHyphenStart

/-- What follows a text does not add to the hyphens that it starts with. -/
theorem not_prefix_trimStart_append (hs : BareStart x) (hx : x ≠ []) (h : ¬ ['-', '-'] <+: x)
    (hb : b.head? ≠ some '-') : ¬ ['-', '-'] <+: trimStart (x ++ b) := by
  rw [trimStart_eq_self (hs.append hx)]
  obtain ⟨c, x, rfl⟩ := List.exists_cons_of_ne_nil hx
  cases x with
  | nil =>
    cases b with
    | nil => exact h
    | cons d b =>
      have hd : d ≠ '-' := by simpa using hb
      simp [hd.symm]
  | cons d x => simpa using h

/-! ## Calm texts -/

/-- A visible sign stands first, and it is no hyphen. -/
def StartsPlain (cs : List Char) : Prop :=
  ∃ c t, cs = c :: t ∧ isBlank c = false ∧ c ≠ '-'

theorem StartsPlain.append (h : StartsPlain a) (b : List Char) : NoHyphenStart (a ++ b) := by
  obtain ⟨c, t, rfl, hc, hd⟩ := h
  exact .cons hc hd

namespace Calm

theorem nil : Calm [] := ⟨fun _ _ => Iff.rfl⟩

theorem of_blanks (hw : Blanks w) : Calm w :=
  ⟨fun hq hb => noOptions_blanks_append hq hw hb.not_prefix⟩

theorem append (ha : Calm a) (hb : Calm b) (hs : StartsPlain b) : Calm (a ++ b) where
  noOptions_append hq hcs := by
    rw [List.append_assoc, ha.noOptions_append hq (hs.append _), hb.noOptions_append hq hcs]

theorem append_blanks (ha : Calm a) (hw : Blanks w) : Calm (a ++ w) where
  noOptions_append hq hcs := by
    rw [List.append_assoc, ha.noOptions_append hq (hcs.blanks_append hw),
      (of_blanks hw).noOptions_append hq hcs]

/-- No tail starts at a visible sign, so what follows a word may start in any way. -/
theorem word_append (ha : ∀ c ∈ a, isBlank c = false ∧ isQuote c = false) (hb : Calm b) :
    Calm (a ++ b) where
  noOptions_append hq hcs := by
    rw [List.append_assoc, noOptions_append_of_forall fun c hc => (ha c hc).1,
      quoteAt_of_forall hq fun c hc => (ha c hc).2, hb.noOptions_append hq hcs]

theorem cons {c : Char} (hc : isBlank c = false) (hc' : isQuote c = false) (h : Calm cs) :
    Calm (c :: cs) where
  noOptions_append hq hcs := by
    rw [List.cons_append, noOptions_sign_cons hq hc hc', h.noOptions_append hq hcs]

theorem word (ha : ∀ c ∈ a, isBlank c = false ∧ isQuote c = false) : Calm a := by
  have := word_append ha nil
  rwa [List.append_nil] at this

theorem of_padded (hp : Padded x cs) (hx : Calm x) (hs : StartsPlain x) : Calm cs := by
  obtain ⟨w, w', hw, hw', rfl⟩ := hp
  exact ((of_blanks hw.blanks).append hx hs).append_blanks hw'.blanks

theorem intercalate {xs : List (List Char)} (h : ∀ x ∈ xs, Calm x) :
    Calm ([','].intercalate xs) := by
  induction xs with
  | nil => exact nil
  | cons x xs ih =>
    obtain ⟨hx, hxs⟩ := List.forall_mem_cons.mp h
    by_cases hne : xs = []
    · subst hne
      simpa using hx
    · rw [List.intercalate_cons_of_ne_nil hne, List.append_assoc]
      exact hx.append (cons (by decide) (by decide) (ih hxs)) ⟨',', _, rfl, by decide, by decide⟩

end Calm

/-! ## The parts of a layout -/

theorem word_of_isSpecChar (h : ∀ c ∈ cs, isSpecChar c = true) :
    ∀ c ∈ cs, isBlank c = false ∧ isQuote c = false :=
  fun c hc => ⟨isBlank_of_isSpecChar (h c hc), isQuote_of_isSpecChar (h c hc)⟩

theorem startsPlain_of_isValid {name : String} (h : Name.isValid name = true) :
    StartsPlain name.toList := by
  obtain ⟨c, t, hn, hc⟩ := Name.head_of_isValid h
  exact ⟨c, t, hn, isBlank_of_isNameChar (isNameChar_of_isLetterOrDigit hc),
    ne_of_class hc (by decide)⟩

theorem word_of_isValid {name : String} (h : Name.isValid name = true) :
    ∀ c ∈ name.toList, isBlank c = false ∧ isQuote c = false :=
  word_of_isSpecChar fun c hc => isSpecChar_of_isNameChar (Name.isNameChar_of_isValid h c hc)

theorem ExtrasItems.calm {extras : List String} {items : List (List Char)}
    (h : ExtrasItems extras items) (hv : ∀ e ∈ extras, Name.isValid e = true) :
    ∀ item ∈ items, Calm item := by
  induction h with
  | nil => simp
  | empty hw _ ih => exact List.forall_mem_cons.mpr ⟨.of_blanks hw.blanks, ih hv⟩
  | extra hx _ ih =>
    obtain ⟨he, hv⟩ := List.forall_mem_cons.mp hv
    exact List.forall_mem_cons.mpr
      ⟨.of_padded hx (.word (word_of_isValid he)) (startsPlain_of_isValid he), ih hv⟩

/-- A bracket group starts no tail, and blanks in front of it start none either. -/
theorem ExtrasGroup.noOptions_iff {extras : List String} {group : Option (List Char)}
    (h : ExtrasGroup extras group) (hv : ∀ e ∈ extras, Name.isValid e = true)
    (hb : NoHyphenStart b) :
    NoHyphenStart (headChars [] group ++ b) ∧
      (NoOptions none (headChars [] group ++ b) ↔ NoOptions none b) := by
  cases h with
  | absent => exact ⟨hb, Iff.rfl⟩
  | present hi =>
    have hc : Calm (headChars [] (some ([','].intercalate _))) :=
      .cons (by decide) (by decide) ((Calm.intercalate (hi.calm hv)).append
        (.cons (by decide) (by decide) .nil) ⟨']', [], rfl, by decide, by decide⟩)
    exact ⟨.cons (by decide) (by decide), hc.noOptions_append (by simp) hb⟩

theorem ConstraintText.calm {c : Constraint} (h : ConstraintText c cs) (hv : c.IsValid)
    (hs : ¬ ['-', '-'] <+: c.version.toList) : Calm cs := by
  obtain ⟨w, hw, hp⟩ := h
  obtain ⟨hsym, hver⟩ := List.forall_mem_append.mp
    (word_of_isSpecChar fun d (hd : d ∈ c.chars) => hv.isSpecChar hd)
  have hb : BareStart c.version.toList := bareStart_of_forall fun d hd => (hver d hd).1
  have hc : Calm (w ++ c.version.toList) := by
    refine ⟨fun hq hnb => ?_⟩
    have hn := not_prefix_trimStart_append hb hv.version_ne_nil hs hnb.head?_ne
    rw [List.append_assoc, noOptions_blanks_append hq hw.blanks hn,
      (Calm.word hver).noOptions_append hq hnb]
  refine .of_padded hp (.word_append hsym hc) ?_
  obtain ⟨d, s, hd, hm⟩ := exists_symbol_cons c.operator
  have hall : ∀ d ∈ operatorStarts, isBlank d = false ∧ d ≠ '-' := forall_mem_of_all (by decide)
  exact ⟨d, _, by rw [hd]; rfl, hall d hm⟩

theorem calm_of_pieces {xs : List Constraint} {pieces : List (List Char)}
    (h : List.Forall₂ ConstraintText xs pieces) (hv : ∀ c ∈ xs, c.IsValid)
    (hs : ∀ c ∈ xs, ¬ ['-', '-'] <+: c.version.toList) : ∀ piece ∈ pieces, Calm piece := by
  induction h with
  | nil => simp
  | cons hc _ ih =>
    obtain ⟨hx, hv⟩ := List.forall_mem_cons.mp hv
    obtain ⟨hd, hs⟩ := List.forall_mem_cons.mp hs
    exact List.forall_mem_cons.mpr ⟨hc.calm hx hd, ih hv hs⟩

theorem ListText.calm {xs : List Constraint} (h : ListText xs cs) (hv : ∀ c ∈ xs, c.IsValid)
    (hs : ∀ c ∈ xs, ¬ ['-', '-'] <+: c.version.toList) : Calm cs := by
  cases h with
  | empty hw => exact .of_blanks hw.blanks
  | bare _ hp => exact .intercalate (calm_of_pieces hp hv hs)
  | parens _ hp hc =>
    have hi := (Calm.intercalate (calm_of_pieces hp hv hs)).append
      (.cons (by decide) (by decide) .nil) ⟨')', [], rfl, by decide, by decide⟩
    exact .of_padded hc (.cons (by decide) (by decide) hi) ⟨'(', _, rfl, by decide, by decide⟩

theorem MarkerText.noHyphenStart {m : Option String} (h : MarkerText m tail) :
    NoHyphenStart tail := by
  cases h with
  | absent => exact .blanks Blanks.nil
  | present _ => exact .cons (by decide) (by decide)

/-- A tail starts behind `;` where it starts in the marker. -/
theorem MarkerText.noOptions_iff (hr : r.Plain) (h : MarkerText r.marker tail)
    (hq : ∀ q ∈ quote, isQuote q = true) :
    NoOptions quote tail ↔ NoOptions quote (r.marker.getD "").toList := by
  generalize hm : r.marker = marker at h
  cases h with
  | absent => rfl
  | @present m cs hp =>
    obtain ⟨hne, hl⟩ := hr.marker m hm
    obtain ⟨w, w', hw, hw', rfl⟩ := hp
    have hs := not_prefix_trimStart_append (isTrimmed_iff.mp hl.trimmed).1 hne
      (hr.markerStart m hm) (NoHyphenStart.blanks hw'.blanks).head?_ne
    have hb : '-' ∉ w' := hw'.not_mem (by decide)
    rw [noOptions_sign_cons hq (by decide) (by decide), List.append_assoc,
      noOptions_blanks_append hq hw.blanks hs]
    exact ⟨fun h => .part (p := []) h, fun h => h.append_of_not_mem hb⟩

theorem TargetText.noOptions_iff (hr : r.Plain) (h : TargetText r target) :
    NoOptions none target ↔ NoOptions r.urlQuote (r.marker.getD "").toList := by
  cases h with
  | versions hu hx hm =>
    have hq : r.urlQuote = none := by simp [urlQuote, hu, quoteAt]
    have hc := hx.calm hr.constraints hr.versionStart
    rw [hc.noOptions_append (by simp) hm.noHyphenStart, hm.noOptions_iff hr (by simp), hq]
  | @reference url w w₁ w₂ tail hu hw hw₁ hw₂ hne hm =>
    have hurl := hr.url url hu
    have hq : quoteAt none url.toList = r.urlQuote := by simp [urlQuote, hu]
    have ht : NoHyphenStart (w₂ ++ tail) := hm.noHyphenStart.blanks_append hw₂.blanks
    have hs := not_prefix_trimStart_append hurl.bareStart hurl.ne_nil (hr.urlStart url hu)
      ht.head?_ne
    have hat : NoHyphenStart ('@' :: (w₁ ++ (url.toList ++ (w₂ ++ tail)))) :=
      .cons (by decide) (by decide)
    rw [noOptions_blanks_append (by simp) hw.blanks hat.not_prefix,
      noOptions_sign_cons (by simp) (by decide) (by decide),
      noOptions_blanks_append (by simp) hw₁.blanks hs, noOptions_append_of_forall hurl.noBlank, hq,
      noOptions_blanks_append (Sound.isQuote_urlQuote r) hw₂.blanks hm.noHyphenStart.not_prefix,
      hm.noOptions_iff hr (Sound.isQuote_urlQuote r)]

/-! ## Whole layouts -/

/-- A tail starts in a layout exactly when one starts in the marker. -/
theorem IsLayout.noOptions_iff (hr : r.Plain) (h : r.IsLayout cs) :
    NoOptions none cs ↔ NoOptions r.urlQuote (r.marker.getD "").toList := by
  cases h with
  | @intro w w' target group hw hw' hg ht =>
    have hn : NoHyphenStart target := by
      intro d hd
      rintro rfl
      exact absurd (ht.head?_trim '-' hd).1 (by decide)
    obtain ⟨hgn, hgi⟩ := hg.noOptions_iff hr.extras hn
    have hname := (startsPlain_of_isValid hr.name).append (w' ++ (headChars [] group ++ target))
    rw [noOptions_blanks_append (by simp) hw.blanks hname.not_prefix,
      noOptions_append_of_forall (Name.isBlank_of_isValid hr.name),
      quoteAt_of_forall (by simp) fun c hc => (word_of_isValid hr.name c hc).2,
      noOptions_blanks_append (by simp) hw'.blanks hgn.not_prefix, hgi, ht.noOptions_iff hr]

/-- Layout does not matter: a requirement is read from each of its layouts in which no tail starts.
When none of its parts starts with two hyphens, it is enough that none starts in its marker. -/
theorem parse_of_isLayout {text : String} (hr : r.WellFormed) (hl : r.IsLayout text.toList)
    (ht : TailFree none text.toList ∨ r.Plain ∧ TailFree r.urlQuote (r.marker.getD "").toList) :
    parse text = .ok r := by
  have hn : NoOptions none text.toList := by
    rcases ht with ht | ⟨hp, ht⟩
    · exact noOptions_iff_tailFree.mpr ht
    · exact (hl.noOptions_iff hp).mpr (noOptions_iff_tailFree.mpr ht)
  exact hl.parse_eq hr hn

theorem parse_of_isLayout_spaced :
    parse " Uvicorn\t[ standard ,, http2 ] ( >= 0.17 , != 1.* ) ; python_version < '3.8' " =
        .ok ⟨"Uvicorn", ["standard", "http2"], [⟨.atLeast, "0.17"⟩, ⟨.notEqual, "1.*"⟩], none,
          some "python_version < '3.8'", []⟩ ∧
      parse "pip[ ,]@ https://example.org/pip  ;os_name == 'nt --'" =
        .ok ⟨"pip", [], [], some "https://example.org/pip", some "os_name == 'nt --'", []⟩ := by
  have hn : Gap [] := by decide
  have hs : Gap [' '] := by decide
  constructor
  · have hg : ExtrasGroup ["standard", "http2"] (some " standard ,, http2 ".toList) :=
      .present (.extra ⟨[' '], [' '], hs, hs, rfl⟩ (.empty hn
        (.extra ⟨[' '], [' '], hs, hs, rfl⟩ .nil)))
    have hx : ListText [⟨.atLeast, "0.17"⟩, ⟨.notEqual, "1.*"⟩] " ( >= 0.17 , != 1.* ) ".toList :=
      .parens (by simp) (.cons ⟨[' '], hs, [' '], [' '], hs, hs, rfl⟩
        (.cons ⟨[' '], hs, [' '], [' '], hs, hs, rfl⟩ .nil)) ⟨[' '], [' '], hs, hs, rfl⟩
    have hm : MarkerText (some "python_version < '3.8'") "; python_version < '3.8' ".toList :=
      .present ⟨[' '], [' '], hs, hs, rfl⟩
    have hl := IsLayout.intro (r := ⟨"Uvicorn", ["standard", "http2"], [⟨.atLeast, "0.17"⟩,
      ⟨.notEqual, "1.*"⟩], none, some "python_version < '3.8'", []⟩) hs (by decide : Gap ['\t']) hg
      (.versions rfl hx hm)
    exact parse_of_isLayout (by decide) hl (.inl (noOptions_iff_tailFree.mp (by decide)))
  · have hg : ExtrasGroup [] (some " ,".toList) := .present (.empty hs (.empty hn .nil))
    have hm : MarkerText (some "os_name == 'nt --'") ";os_name == 'nt --'".toList :=
      .present ⟨[], [], hn, hn, rfl⟩
    have hl := IsLayout.intro (r := ⟨"pip", [], [], some "https://example.org/pip",
      some "os_name == 'nt --'", []⟩) hn hn hg
      (.reference rfl hn hs (by decide : Gap [' ', ' ']) (by simp) hm)
    exact parse_of_isLayout (by decide) hl
      (.inr ⟨by decide, noOptions_iff_tailFree.mp (by decide)⟩)

end PinFile.Requirement
