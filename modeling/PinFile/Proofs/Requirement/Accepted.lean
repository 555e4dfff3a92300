import PinFile.Proofs.Requirement.Hashes
import PinFile.Proofs.Requirement.Sound

/-!
# What is read as a requirement

A text that is read as a requirement holds the parts of it in their order, with no quotes between
them (`IsSpecOf`), and what is read is sound when no blank in the text stands in front of `#`
(`readSpec_eq_ok`, `readChars_eq_ok`). So the quote that is open behind the text, and the tails of
options in it, are those of its URL and its marker.
-/

namespace PinFile.Requirement

open Text Constraint

/-- No quote opens or closes in the text. -/
def QuoteFree (cs : List Char) : Prop := ∀ c ∈ cs, isQuote c = false

/-- The parts in front of a URL or a marker, put together. -/
def coreParts (r : Requirement) : List Char :=
  r.name.toList ++ (r.extras.flatMap String.toList ++ r.constraints.flatMap chars)

/-- A text that spells the parts of a requirement but its digests. -/
def IsSpecOf (cs : List Char) (r : Requirement) : Prop :=
  ∃ core gap tail, cs = core ++ ((r.url.getD "").toList ++ (gap ++ ((r.marker.getD "").toList ++
    tail))) ∧ QuoteFree core ∧ QuoteFree gap ∧ QuoteFree tail ∧ r.coreParts.Sublist core

variable {r r' : Requirement} {cs a b : List Char}

/-! ## Texts without quotes -/

theorem QuoteFree.nil : QuoteFree [] := by simp [QuoteFree]

theorem QuoteFree.append (ha : QuoteFree a) (hb : QuoteFree b) : QuoteFree (a ++ b) :=
  List.forall_mem_append.mpr ⟨ha, hb⟩

theorem QuoteFree.cons {c : Char} (hc : isQuote c = false) (h : QuoteFree cs) :
    QuoteFree (c :: cs) :=
  List.forall_mem_cons.mpr ⟨hc, h⟩

theorem quoteFree_of_blanks (h : Blanks cs) : QuoteFree cs :=
  fun c hc => isQuote_of_isBlank (h c hc)

theorem quoteFree_of_isNameChar (h : ∀ c ∈ cs, isNameChar c = true) : QuoteFree cs :=
  fun c hc => isQuote_of_isSpecChar (isSpecChar_of_isNameChar (h c hc))

theorem quoteFree_of_isExtrasChar (h : ∀ c ∈ cs, isExtrasChar c = true) : QuoteFree cs := by
  intro c hc
  have hx := h c hc
  simp only [isExtrasChar, Bool.or_eq_true, beq_iff_eq] at hx
  rcases hx with (hx | hx) | rfl
  · exact isQuote_of_isBlank hx
  · exact isQuote_of_isSpecChar (isSpecChar_of_isNameChar hx)
  · decide

theorem quoteFree_of_isListChar (h : ∀ c ∈ cs, isListChar c = true) : QuoteFree cs := by
  intro c hc
  have hx := h c hc
  simp only [isListChar, Bool.or_eq_true, List.contains_eq_mem, decide_eq_true_eq] at hx
  rcases hx with (hx | hx) | hx
  · exact isQuote_of_isBlank hx
  · exact isQuote_of_isSpecChar hx
  · have hall : ∀ c ∈ [',', '(', ')'], isQuote c = false := forall_mem_of_all (by decide)
    exact hall c hx

/-! ## What a spelled text shows -/

namespace IsSpecOf

theorem quoteAt_eq (h : IsSpecOf cs r) : quoteAt none cs = r.openQuote := by
  obtain ⟨core, gap, tail, rfl, hc, hg, ht, -⟩ := h
  have hu : ∀ q ∈ quoteAt none (r.url.getD "").toList, isQuote q = true :=
    isQuote_of_quoteAt (by simp)
  rw [quoteAt_append, quoteAt_of_forall (by simp) hc, quoteAt_append, quoteAt_append,
    quoteAt_of_forall hu hg, quoteAt_append, quoteAt_of_forall (isQuote_of_quoteAt hu) ht]
  rfl

theorem noOptions_marker (h : IsSpecOf cs r) (hn : NoOptions none cs) :
    NoOptions r.urlQuote (r.marker.getD "").toList := by
  obtain ⟨core, gap, tail, rfl, hc, hg, -, -⟩ := h
  have hu : ∀ q ∈ quoteAt none (r.url.getD "").toList, isQuote q = true :=
    isQuote_of_quoteAt (by simp)
  rw [show core ++ ((r.url.getD "").toList ++ (gap ++ ((r.marker.getD "").toList ++ tail))) =
    (core ++ (r.url.getD "").toList ++ gap) ++ (r.marker.getD "").toList ++ tail by simp] at hn
  have := hn.part
  rwa [quoteAt_append, quoteAt_append, quoteAt_of_forall (by simp) hc,
    quoteAt_of_forall hu hg] at this

/-- The parts of the requirement stand in the text in their order. -/
theorem sublist (h : IsSpecOf cs r) :
    (r.coreParts ++ ((r.url.getD "").toList ++ (r.marker.getD "").toList)).Sublist cs := by
  obtain ⟨core, gap, tail, rfl, -, -, -, hs⟩ := h
  refine hs.append (.append (.refl _) ?_)
  exact (List.sublist_append_left _ tail).trans (List.sublist_append_right gap _)

theorem of_eq {r' : Requirement} (h : IsSpecOf cs r) (hr : r' = { r with hashes := r'.hashes }) :
    IsSpecOf cs r' := by
  obtain ⟨core, gap, tail, he, hc, hg, ht, hs⟩ := h
  rw [hr]
  exact ⟨core, gap, tail, he, hc, hg, ht, hs⟩

/-- Blanks around a spelled text. -/
theorem of_trim (h : IsSpecOf (trim cs) r) : IsSpecOf cs r := by
  obtain ⟨core, gap, tail, he, hc, hg, ht, hs⟩ := h
  obtain ⟨w, w', hw, hw', hcs⟩ := exists_trim cs
  refine ⟨w ++ core, gap, tail ++ w', ?_, (quoteFree_of_blanks hw).append hc, hg,
    ht.append (quoteFree_of_blanks hw'), hs.trans (List.sublist_append_right w core)⟩
  rw [hcs, he]
  simp

end IsSpecOf

/-! ## Counting characters -/

/-- The characters that stand between the parts of a specifier. -/
def separators : List Char := [',', '[', ']', ' ', '@', ';']

theorem count_headChars {d : Char} (hd : d ∉ separators) (r : Requirement) :
    (headChars r.name.toList r.extrasGroup).count d =
      (r.name.toList ++ r.extras.flatMap String.toList).count d := by
  have hs : ∀ c ∈ separators, c ≠ d := fun c hc e => hd (e ▸ hc)
  unfold extrasGroup
  split
  · rename_i he
    simp [headChars, he]
  · simp [headChars, extrasChars, count_intercalate (hs ',' (by decide)).symm,
      List.flatMap, hs '[' (by decide), hs ']' (by decide)]

theorem count_targetChars {d : Char} (hd : d ∉ separators) (r : Requirement) :
    r.targetChars.count d = ((r.url.getD "").toList ++ (r.marker.getD "").toList).count d := by
  have hs : ∀ c ∈ separators, c ≠ d := fun c hc e => hd (e ▸ hc)
  unfold targetChars
  cases r.url <;> cases r.marker <;>
    simp [hs ' ' (by decide), hs '@' (by decide), hs ';' (by decide)]

/-- A specifier and its parts hold the same characters, but for what stands between them. -/
theorem count_specChars {d : Char} (hd : d ∉ separators) (r : Requirement) :
    r.specChars.count d =
      (r.coreParts ++ ((r.url.getD "").toList ++ (r.marker.getD "").toList)).count d := by
  have hc : d ≠ ',' := fun h => hd (h ▸ by decide)
  have hl : (listChars r.constraints).count d = (r.constraints.flatMap chars).count d := by
    unfold listChars
    rw [count_intercalate hc, List.flatMap]
  simp only [specChars, coreChars, coreParts, List.count_append, count_headChars hd,
    count_targetChars hd, hl]
  omega

theorem IsSpecOf.count_le (h : IsSpecOf cs r) {d : Char} (hd : d ∉ separators) :
    r.specChars.count d ≤ cs.count d := by
  rw [count_specChars hd]
  exact h.sublist.count_le d

/-! ## Specifiers -/

/-- A specifier that is read has a head in front and one of the two forms behind it. -/
theorem readSpec_cases (h : readSpec cs = .ok r) :
    ∃ name extras front rest back, Name.isValid name = true ∧
      (∀ extra ∈ extras, Name.isValid extra = true) ∧ cs = front ++ (rest ++ back) ∧
      QuoteFree front ∧ Blanks back ∧ '\n' ∉ rest ∧
      (name.toList ++ extras.flatMap String.toList).Sublist front ∧
      ((∃ reference, rest = '@' :: reference ∧
          readReference { bare name with extras } (trim reference) = .ok r) ∨
        readVersions { bare name with extras } rest = .ok r) := by
  unfold readSpec at h
  split at h
  · cases h
  · rename_i head hh
    obtain ⟨r₀, h₀, h⟩ := bind_eq_ok_iff.mp h
    obtain ⟨r₁, h₁, h⟩ := bind_eq_ok_iff.mp h
    obtain ⟨hn, -, hl, w, w', hw, hw', hcs⟩ := head?_eq_some hh
    obtain ⟨extras, rfl, hv, hsub, hx⟩ := readExtras_eq_ok h₁
    rw [mapError_eq_ok_iff] at h₀
    unfold ofName at h₀
    split at h₀
    · rename_i hname
      cases h₀
      obtain ⟨a, b, ha, hb, hrest⟩ := exists_trim head.rest
      have hg : QuoteFree (headChars [] head.extras) ∧
          (extras.flatMap String.toList).Sublist (headChars [] head.extras) := by
        cases he : head.extras with
        | none =>
          rw [he, Option.getD_none] at hsub
          exact ⟨QuoteFree.nil, hsub⟩
        | some inner =>
          rw [he, Option.getD_some] at hsub hx
          have hq := (quoteFree_of_isExtrasChar hx).append (.cons (c := ']') (by decide) .nil)
          exact ⟨.cons (by decide) hq,
            (hsub.trans (List.sublist_append_left inner [']'])).cons _⟩
      refine ⟨String.ofList head.name, extras,
        head.name ++ (w ++ (headChars [] head.extras ++ (w' ++ a))), trim head.rest, b, hname, hv,
        ?_, ?_, hb, fun hm => hl (mem_of_mem_trim hm), ?_, ?_⟩
      · rw [hcs]
        conv_lhs => rw [hrest]
        simp
      · exact (quoteFree_of_isNameChar hn).append ((quoteFree_of_blanks hw).append
          (hg.1.append ((quoteFree_of_blanks hw').append (quoteFree_of_blanks ha))))
      · rw [String.toList_ofList]
        refine .append (.refl _) (.trans ?_ (List.sublist_append_right w _))
        exact hg.2.trans (List.sublist_append_left _ _)
      · split at h
        · rename_i reference hr
          exact .inl ⟨reference, hr, h⟩
        · exact .inr h
    · cases h₀

theorem isValue_of_infix {m : String} (hne : m.toList ≠ []) (ht : IsTrimmed m.toList)
    (hi : m.toList <:+: cs) (hl : '\n' ∉ cs) (hm : hasMark cs = false) : IsValue m.toList :=
  ⟨⟨ht, fun h => hl (hi.subset h)⟩, hne, hasMark_of_infix hi hm⟩

/-- A specifier that is read spells a sound requirement without digests. -/
theorem readSpec_eq_ok (h : readSpec cs = .ok r) (hm : hasMark cs = false) :
    r.Sound ∧ r.hashes = [] ∧ IsSpecOf cs r := by
  obtain ⟨name, extras, front, rest, back, hn, hx, rfl, hf, hb, hl, hs, h'⟩ := readSpec_cases h
  have hmr : hasMark rest = false :=
    hasMark_of_infix ⟨front, back, by simp⟩ hm
  rcases h' with ⟨reference, rfl, h'⟩ | h'
  · obtain ⟨a, b, ha, hb', href⟩ := exists_trim reference
    obtain ⟨url, hu, hr⟩ := readReference_eq_ok h'
    rcases hr with ⟨rfl, w, hw, hcs⟩ | ⟨m, w₁, w₂, w₃, rfl, hmn, hmt, hw₁, hw₂, hw₃, hcs⟩
    · refine ⟨⟨hn, hx, by simp [bare], .inr rfl, by simpa using hu, by simp [bare],
        by simp [bare]⟩, rfl, front ++ '@' :: a, [], w ++ b ++ back, ?_, ?_, .nil, ?_, ?_⟩
      · conv_lhs => rw [href, hcs]
        simp [bare]
      · exact hf.append (.cons (by decide) (quoteFree_of_blanks ha))
      · exact ((quoteFree_of_blanks hw).append (quoteFree_of_blanks hb')).append
          (quoteFree_of_blanks hb)
      · simpa [coreParts, bare] using hs.trans (List.sublist_append_left front _)
    · have hi : m.toList <:+: '@' :: reference := by
        refine ⟨'@' :: (a ++ (url.toList ++ (w₁ ++ ';' :: w₂))), w₃ ++ b, ?_⟩
        conv_rhs => rw [href, hcs]
        simp
      refine ⟨⟨hn, hx, by simp [bare], .inr rfl, by simpa using hu,
        by simpa using isValue_of_infix hmn hmt hi hl hmr, by simp [bare]⟩, rfl,
        front ++ '@' :: a, w₁ ++ ';' :: w₂, w₃ ++ b ++ back, ?_, ?_, ?_, ?_, ?_⟩
      · conv_lhs => rw [href, hcs]
        simp
      · exact hf.append (.cons (by decide) (quoteFree_of_blanks ha))
      · exact (quoteFree_of_blanks hw₁).append (.cons (by decide) (quoteFree_of_blanks hw₂))
      · exact ((quoteFree_of_blanks hw₃).append (quoteFree_of_blanks hb')).append
          (quoteFree_of_blanks hb)
      · simpa [coreParts, bare] using hs.trans (List.sublist_append_left front _)
  · obtain ⟨xs, ⟨rfl, hv, hsub, hq⟩ | ⟨spec, m, w, w', rfl, ⟨hv, hsub, hq⟩, hmn, hmt, hw, hw',
      rfl⟩⟩ := readVersions_eq_ok h'
    · refine ⟨⟨hn, hx, hv, .inl rfl, by simp [bare], by simp [bare], by simp [bare]⟩, rfl,
        front ++ rest, [], back, by simp [bare], hf.append (quoteFree_of_isListChar hq), .nil,
        quoteFree_of_blanks hb, ?_⟩
      unfold coreParts
      rw [← List.append_assoc]
      exact hs.append hsub
    · have hi : m.toList <:+: spec ++ ';' :: (w ++ m.toList ++ w') :=
        ⟨spec ++ ';' :: w, w', by simp⟩
      refine ⟨⟨hn, hx, hv, .inl rfl, by simp [bare],
        by simpa using isValue_of_infix hmn hmt hi hl hmr, by simp [bare]⟩, rfl,
        front ++ spec, ';' :: w, w' ++ back, by simp [bare],
        hf.append (quoteFree_of_isListChar hq), .cons (by decide) (quoteFree_of_blanks hw),
        (quoteFree_of_blanks hw').append (quoteFree_of_blanks hb), ?_⟩
      unfold coreParts
      rw [← List.append_assoc]
      exact hs.append hsub

/-! ## Whole requirements -/

/-- What every requirement satisfies that is read from a line: no tail of options starts inside
its marker, and the quotes in front of its digests are closed. -/
structure Accepted (r : Requirement) : Prop extends r.Sound where
  marker_noOptions : NoOptions r.urlQuote (r.marker.getD "").toList
  closed : r.hashes ≠ [] → r.openQuote = none

/-- What is read as a requirement is a spelled specifier and perhaps a tail with digests; no tail
starts in the specifier. -/
theorem readChars_eq_ok (h : readChars cs = .ok r) (hm : hasMark cs = false) :
    r.Accepted ∧ ∃ spec tail, cs = spec ++ tail ∧ IsSpecOf spec r ∧ NoOptions none spec := by
  unfold readChars at h
  generalize hs : splitOptions none cs = parts at h
  obtain ⟨spec, options⟩ := parts
  dsimp only at h
  cases options with
  | none =>
    obtain ⟨rfl, hn⟩ := splitOptions_eq_none hs
    have hmt : hasMark (trim spec) = false := by
      obtain ⟨a, b, -, -, hse⟩ := exists_trim spec
      exact hasMark_of_infix ⟨a, b, hse.symm⟩ hm
    obtain ⟨hr, hh, hspec⟩ := readSpec_eq_ok h hmt
    exact ⟨⟨hr, hspec.of_trim.noOptions_marker hn, by simp [hh]⟩, spec, [], by simp,
      hspec.of_trim, hn⟩
  | some options =>
    obtain ⟨hcs, hn, hq⟩ := splitOptions_eq_some hs
    obtain ⟨r₀, h₀, h⟩ := bind_eq_ok_iff.mp h
    obtain ⟨hashes, hh, h⟩ := bind_eq_ok_iff.mp h
    cases h
    have hmt : hasMark (trim spec) = false := by
      obtain ⟨a, b, -, -, hse⟩ := exists_trim spec
      refine hasMark_of_infix ⟨a, b ++ options, ?_⟩ hm
      rw [hcs, ← List.append_assoc, ← hse]
    obtain ⟨hr, -, hspec⟩ := readSpec_eq_ok h₀ hmt
    have hspec' : IsSpecOf spec { r₀ with hashes } := hspec.of_trim.of_eq rfl
    exact ⟨⟨{ hr with hashes := readHashes_eq_ok hh }, hspec'.noOptions_marker hn,
      fun _ => hspec'.quoteAt_eq.symm.trans hq⟩, spec, options, hcs, hspec', hn⟩

/-- A requirement that is read from its own text has no tail of options in it: the tail would keep
two hyphens back. -/
theorem noOptions_specChars (h : readChars r.render.toList = .ok r)
    (hm : hasMark r.render.toList = false) : NoOptions none r.specChars := by
  obtain ⟨-, spec, tail, hcs, hspec, hn⟩ := readChars_eq_ok h hm
  have hcount := hspec.count_le (show '-' ∉ separators by decide)
  rw [toList_render] at hcs
  rcases List.append_eq_append_iff.mp hcs with ⟨u, rfl, -⟩ | ⟨u, hu, -⟩
  · exact NoOptions.part (p := []) hn
  · have hz : '-' ∉ u := by
      rw [hu, List.count_append] at hcount
      exact List.count_eq_zero.mp (by omega)
    rw [hu]
    exact hn.append_of_not_mem hz

end PinFile.Requirement
