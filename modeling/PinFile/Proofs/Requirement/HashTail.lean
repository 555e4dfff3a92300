import PinFile.Proofs.Requirement.Hashes

/-!
# Digests behind a specifier

A digest is written as an option in one of two spellings, behind blanks; `HashTail hashes tail`
says that `tail` writes the digests in this way, one after another. Such a tail is read as its
digests (`HashTail.readHashes_words`). Behind a text whose quotes are closed and in which no tail
starts, it is cut off in front of the blanks between the two (`splitOptions_append_blanks`), so the
text is read as it is without the tail, with the same requirement or the same fault
(`parse_append_hashTail`).
-/

namespace PinFile.Requirement

open Text

/-- The two spellings of the option of a digest. -/
inductive HashText (hash : String) : List Char → Prop
  | joined : HashText hash ("--hash=".toList ++ hash.toList)
  | apart {w : List Char} : Blanks w → w ≠ [] →
      HashText hash ("--hash".toList ++ (w ++ hash.toList))

/-- Digests one after another, each behind blanks and in one of the two spellings. -/
inductive HashTail : List String → List Char → Prop
  | nil : HashTail [] []
  | cons {hash : String} {hashes : List String} {w option tail : List Char} : Blanks w → w ≠ [] →
      isHash hash.toList = true → HashText hash option → HashTail hashes tail →
      HashTail (hash :: hashes) (w ++ (option ++ tail))

variable {hash : String} {hashes : List String} {cs w x tail option : List Char}

/-- Blanks come first in a tail. -/
theorem HashTail.isBlank_head? (h : HashTail hashes tail) : ∀ c ∈ tail.head?, isBlank c = true := by
  intro c hc
  cases h with
  | nil => cases hc
  | cons hw hne _ _ _ =>
    rw [List.head?_append_of_ne_nil _ hne] at hc
    exact hw c (List.mem_of_mem_head? hc)

/-! ## Reading a tail -/

theorem readHashes_apart (hh : isHash hash.toList = true) (rest : List (List Char)) :
    readHashes ("--hash".toList :: hash.toList :: rest) =
      (readHashes rest).map (hash :: ·) := by
  have hp : "--hash=".toList.isPrefixOf? "--hash".toList = none := by decide
  rw [readHashes.eq_def]
  dsimp only
  rw [hp]
  dsimp only
  rw [if_pos rfl, readHash_of_isHash hh]
  rfl

/-- Both spellings are read as the digest. -/
theorem HashText.readHashes_words (h : HashText hash option) (hh : isHash hash.toList = true)
    (ht : ∀ c ∈ tail.head?, isBlank c = true) :
    readHashes (words (option ++ tail)) = (readHashes (words tail)).map (hash :: ·) := by
  cases h with
  | joined =>
    have hne : hashOption ++ hash.toList ≠ [] := by simp [hashOption]
    have hw := words_append_of_head? (isBlank_of_mem_hashOption_append hh) hne ht
    exact (congrArg readHashes hw).trans (readHashes_cons hh _)
  | @apart w hw hne =>
    have hflag : ∀ c ∈ "--hash".toList, isBlank c = false := forall_mem_of_all (by decide)
    have hhead : ∀ c ∈ (w ++ (hash.toList ++ tail)).head?, isBlank c = true := by
      intro c hc
      rw [List.head?_append_of_ne_nil _ hne] at hc
      exact hw c (List.mem_of_mem_head? hc)
    rw [List.append_assoc, List.append_assoc, words_append_of_head? hflag (by decide) hhead,
      words_blanks_append hw,
      words_append_of_head? (isBlank_of_isHash hh) (ne_nil_of_isHash hh) ht, readHashes_apart hh]

theorem HashTail.readHashes_words (h : HashTail hashes tail) :
    readHashes (words tail) = .ok hashes := by
  induction h with
  | nil => rfl
  | cons hw _ hh ho ht ih =>
    rw [words_blanks_append hw, ho.readHashes_words hh ht.isBlank_head?, ih]
    rfl

/-- The digests of a requirement are written as such a tail. -/
theorem hashTail_hashesChars (h : ∀ hash ∈ hashes, isHash hash.toList = true) :
    HashTail hashes (hashesChars hashes) := by
  induction hashes with
  | nil => exact .nil
  | cons hash hashes ih =>
    obtain ⟨hh, hhashes⟩ := List.forall_mem_cons.mp h
    exact .cons blanks_space (by simp) hh .joined (ih hhashes)

/-! ## Where a tail is cut off -/

theorem HashText.hyphens (h : HashText hash option) : ['-', '-'] <+: option := by
  cases h with
  | joined => exact ⟨['h', 'a', 's', 'h', '='] ++ hash.toList, rfl⟩
  | @apart w _ _ => exact ⟨['h', 'a', 's', 'h'] ++ (w ++ hash.toList), rfl⟩

/-- The blanks at the end of a text belong to the tail behind it. -/
theorem splitOptions_append_blanks (hn : NoOptions none cs) (hq : quoteAt none cs = none)
    (hw : Blanks w) (hne : w ≠ []) (hx : ['-', '-'] <+: x) :
    ∃ b, Blanks b ∧ splitOptions none (cs ++ (w ++ x)) = (trimEnd cs, some (b ++ (w ++ x))) := by
  obtain ⟨b, hb, hcs⟩ := exists_trimEnd cs
  refine ⟨b, hb, ?_⟩
  have hn' : NoOptions none (trimEnd cs) := by
    rw [hcs] at hn
    exact hn.part (p := [])
  have hq' : quoteAt none (trimEnd cs) = none := by
    rw [hcs, quoteAt_append] at hq
    rwa [quoteAt_of_forall (isQuote_of_quoteAt (by simp)) fun c hc => isQuote_of_isBlank (hb c hc)]
      at hq
  have hbw : Blanks (b ++ w) := hb.append hw
  obtain ⟨c, v, hcv⟩ := List.exists_cons_of_ne_nil (List.append_ne_nil_of_right_ne_nil b hne)
  rw [hcv] at hbw
  obtain ⟨hc, hv⟩ := List.forall_mem_cons.mp hbw
  have hstart : startsOptions none c (v ++ x) = true := by
    obtain ⟨t, rfl⟩ := hx
    rw [startsOptions, hc, trimStart_append hv, List.cons_append, trimStart_of_head (by decide)]
    rfl
  have hrun : b ++ (w ++ x) = c :: (v ++ x) := by
    rw [← List.append_assoc, hcv, List.cons_append]
  conv_lhs => rw [hcs, List.append_assoc, hrun]
  rw [hrun]
  exact splitOptions_append_cons hn' hq' (bareEnd_trimEnd cs) hstart

/-- Digests behind a text change nothing in how it is read but the digests. -/
theorem readChars_append_hashTail (hq : quoteAt none cs = none) (hn : NoOptions none cs)
    (hne : hashes ≠ []) (ht : HashTail hashes tail) :
    readChars (cs ++ tail) = (readChars cs).map fun r => { r with hashes } := by
  cases ht with
  | nil => exact absurd rfl hne
  | @cons hash hashes w option tail hw hwne hh ho ht =>
    have hx : ['-', '-'] <+: option ++ tail := ho.hyphens.trans (List.prefix_append _ _)
    obtain ⟨b, hb, hs⟩ := splitOptions_append_blanks hn hq hw hwne hx
    have htail : readHashes (words (b ++ (w ++ (option ++ tail)))) = .ok (hash :: hashes) := by
      rw [words_blanks_append hb]
      exact (HashTail.cons hw hwne hh ho ht).readHashes_words
    rw [readChars, hs, readChars, splitOptions_of_noOptions hn]
    dsimp only
    rw [trim_trimEnd, htail]
    rfl

/-- The digests behind a text are read apart from it: where all quotes of the text are closed and
none of its blanks outside quotes stands in front of two hyphens, the whole is read as the text is,
with these digests, and is refused with the fault of the text where that one is refused. -/
theorem parse_append_hashTail {spec tail : String} (hq : quoteAt none spec.toList = none)
    (hs : TailFree none spec.toList) (hne : hashes ≠ []) (ht : HashTail hashes tail.toList) :
    parse (spec ++ tail) = (parse spec).map fun r => { r with hashes } := by
  have hn : NoOptions none spec.toList := noOptions_iff_tailFree.mpr hs
  rw [parse, String.toList_append]
  exact readChars_append_hashTail hq hn hne ht

/-- Hyphens in a quoted text, and blanks at the end of it; an empty marker in front of digests. -/
theorem parse_append_hashTail_quoted :
    parse ("b; x == 'a --y' " ++ "\t--hash=md5:0a --hash  sha1:ff") =
        .ok ⟨"b", [], [], none, some "x == 'a --y'", ["md5:0a", "sha1:ff"]⟩ ∧
      parse ("b ;" ++ "\t--hash=md5:0a --hash  sha1:ff") = .error .emptyMarker := by
  have hlast : HashTail ["sha1:ff"] " --hash  sha1:ff".toList :=
    .cons (w := [' ']) blanks_space (by simp) (by decide)
      (.apart (w := [' ', ' ']) (.append blanks_space blanks_space) (by simp)) .nil
  have ht : HashTail ["md5:0a", "sha1:ff"] "\t--hash=md5:0a --hash  sha1:ff".toList :=
    .cons (w := ['\t']) (by simp [Blanks]; decide) (by simp) (by decide) .joined hlast
  constructor
  · rw [parse_append_hashTail (by decide) (noOptions_iff_tailFree.mp (by decide)) (by simp) ht]
    have hspec : parse "b; x == 'a --y' " =
        .ok ⟨"b", [], [], none, some "x == 'a --y'", []⟩ := by decide +kernel
    rw [hspec]
    rfl
  · rw [parse_append_hashTail (by decide) (noOptions_iff_tailFree.mp (by decide)) (by simp) ht]
    rfl

end PinFile.Requirement
