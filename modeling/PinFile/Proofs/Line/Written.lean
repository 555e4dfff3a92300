import PinFile.Proofs.Line.Comment
import PinFile.Proofs.Line.Sound
import PinFile.Proofs.Requirement.Stable

/-!
# Reading back lines

A sound line is read back from its own text when no text of its entry starts a comment, and its
entry is read back from the text in front of the comment (`Sound.readChars_render`). The one kind
of entry that may not be is the requirement. A line whose entry is not stable is refused
(`Sound.exists_error`).
-/

namespace PinFile

open Text

namespace Entry

/-- The entry is read back from its text, when it was read from a line. -/
def IsStable : Entry → Prop
  | requirement r => r.IsStable
  | e => e.NoMarks

instance : DecidablePred IsStable
  | requirement r => inferInstanceAs (Decidable r.IsStable)
  | editable t => inferInstanceAs (Decidable (editable t).NoMarks)
  | includeFile i => inferInstanceAs (Decidable (includeFile i).NoMarks)
  | option o => inferInstanceAs (Decidable (option o).NoMarks)
  | comment text => inferInstanceAs (Decidable (comment text).NoMarks)
  | blank => inferInstanceAs (Decidable blank.NoMarks)

variable {e : Entry}

theorem IsStable.noMarks (h : e.IsStable) : e.NoMarks := by
  cases e with
  | requirement r =>
    intro v hv
    rcases List.mem_append.mp hv with hv | hv
    · exact (h.url v (Option.mem_toList.mp hv)).1
    · exact (h.marker v (Option.mem_toList.mp hv)).1
  | editable | includeFile | option | comment | blank => exact h

/-- A requirement does not start as an option does. -/
theorem readEntry_requirement {r : Requirement} (h : r.Sound) :
    Line.readEntry r.render.toList = (Requirement.readChars r.render.toList).map .requirement := by
  obtain ⟨c, cs, ht, hc⟩ := h.head_specChars
  apply if_neg
  rw [Requirement.toList_render, ht]
  rintro hd
  obtain rfl : c = '-' := by simpa using hd
  exact absurd hc (by decide)

/-- Only a requirement may read as something else than it is. -/
theorem Sound.readEntry_render (h : e.Sound) (hr : e.isRemark = false)
    (hq : ∀ r, e = .requirement r → Requirement.readChars r.render.toList = .ok r) :
    Line.readEntry e.render.toList = .ok e := by
  rcases h.form hr with ⟨r, rfl, hs⟩ | ⟨form, hf, value, he, hv, -⟩
  · unfold Entry.render
    rw [readEntry_requirement hs, hq r rfl]
    rfl
  · obtain ⟨flag, hs, ht⟩ := OptionForm.exists_spelling he
    rw [Line.readEntry, ht, if_pos (by rw [OptionForm.head?_optionChars hf hs]; rfl),
      OptionForm.readEntry_optionChars hf hs fun v hm => ⟨(hv v hm).ne_nil, (hv v hm).trimmed⟩, he]

end Entry

namespace Line

variable {line : Line}

/-- A line with an entry is read as its entry and its comment. -/
theorem readChars_of_entry {cs : List Char} (ht : IsTrimmed cs)
    (hc : ∃ c rest, cs = c :: rest ∧ c ≠ '#') (n : Nat) :
    readChars cs n = match readEntry (splitComment cs).1 with
      | .error cause => .error ⟨n, cause⟩
      | .ok entry => .ok ⟨n, entry, (splitComment cs).2.map fun c => String.ofList (trim c)⟩ := by
  obtain ⟨c, rest, rfl, hne⟩ := hc
  have hh : ((c :: rest).head? == some '#') = false := by simpa using hne
  unfold readChars
  rw [ht]
  cases hr : readEntry (splitComment (c :: rest)).1 with
  | error cause => simp only [List.isEmpty_cons, hh, hr, Bool.false_eq_true, ↓reduceIte]
  | ok entry => simp only [List.isEmpty_cons, hh, hr, Bool.false_eq_true, ↓reduceIte]

theorem readChars_comment {cs : List Char} (ht : IsTrimmed cs) (hc : cs.head? = some '#')
    (n : Nat) : readChars cs n = .ok ⟨n, .comment (String.ofList cs), none⟩ := by
  obtain ⟨rest, rfl⟩ := List.head?_eq_some_iff.mp hc
  unfold readChars
  rw [ht]
  rfl

theorem Sound.remark_cases (h : line.Sound) (hr : line.entry.isRemark = true) :
    line.comment = none ∧ ((∃ text, line.entry = .comment text) ∨ line.entry = .blank) := by
  refine ⟨h.remark hr, ?_⟩
  cases he : line.entry with
  | comment text => exact .inl ⟨text, rfl⟩
  | blank => exact .inr rfl
  | requirement | editable | includeFile | option => rw [he] at hr; cases hr

/-- The line starts with its entry. -/
theorem Sound.head?_render (h : line.Sound) (hr : line.entry.isRemark = false) :
    ∃ c rest, line.render.toList = c :: rest ∧ c ≠ '#' := by
  obtain ⟨c, cs, ht, hne⟩ := h.entry.head?_render hr
  exact ⟨c, cs ++ (renderComment line.comment).toList, by rw [toList_render, ht]; rfl, hne⟩

/-- The cut behind the entry finds the entry and the comment. -/
theorem Sound.splitComment_render (h : line.Sound) (hr : line.entry.isRemark = false)
    (hn : line.entry.NoMarks) : ∃ comment, splitComment line.render.toList =
      (line.entry.render.toList, comment) ∧
      (comment.map fun c => String.ofList (trim c)) = line.comment := by
  have hb := h.entry.hasMark_render hr hn
  have he := (isTrimmed_iff.mp h.entry.isLineText_render.trimmed).2
  rw [toList_render]
  cases hc : line.comment with
  | none => exact ⟨none, by simp [renderComment, splitComment_of_noMark hb he], rfl⟩
  | some c =>
    obtain ⟨rest, ht, hl, htrim, -⟩ := exists_commentText (h.comment c hc)
    exact ⟨some rest, by rw [ht, splitComment_append_mark hb he hl], by simp [htrim]⟩

theorem Sound.readChars_render (h : line.Sound) (hn : line.entry.NoMarks)
    (hq : ∀ r, line.entry = .requirement r → Requirement.readChars r.render.toList = .ok r)
    (n : Nat) : readChars line.render.toList n = .ok { line with number := n } := by
  cases hr : line.entry.isRemark with
  | true =>
    obtain ⟨hc, ⟨text, he⟩ | he⟩ := h.remark_cases hr
    · have hs : text.toList.head? = some '#' ∧ IsLineText text.toList := by
        have := h.entry
        rwa [he] at this
      have ht : line.render.toList = text.toList := by
        rw [toList_render, he, hc]
        exact List.append_nil _
      rw [ht, readChars_comment hs.2.trimmed hs.1, String.ofList_toList]
      simp [← he, ← hc]
    · have ht : line.render.toList = [] := by
        rw [toList_render, he, hc]
        rfl
      rw [ht]
      simp [readChars, ← he, ← hc, trim, trimStart, trimEnd]
  | false =>
    obtain ⟨comment, hs, hc⟩ := h.splitComment_render hr hn
    rw [readChars_of_entry h.isLineText_render.trimmed (h.head?_render hr), hs]
    dsimp only
    rw [h.entry.readEntry_render hr hq]
    dsimp only
    rw [hc]

/-! ## Lines that are refused -/

theorem readChars_error {cs : List Char} (ht : IsTrimmed cs)
    (hc : ∃ c rest, cs = c :: rest ∧ c ≠ '#') (he : ∃ e, readEntry (splitComment cs).1 = .error e)
    (n : Nat) : ∃ e, readChars cs n = .error e := by
  obtain ⟨e, he⟩ := he
  exact ⟨⟨n, e⟩, by rw [readChars_of_entry ht hc, he]⟩

/-- The entry of an unstable requirement is cut at its stem, or its tail of options is. -/
theorem exists_readEntry_error {r : Requirement} {rest : List Char} (h : r.Sound)
    (hs : ¬ r.IsStable) (hl : '\n' ∉ r.specChars ++ rest) :
    ∃ e, readEntry (splitComment (r.specChars ++ rest)).1 = .error e := by
  obtain ⟨stem, tail, hstem, hcase⟩ := h.exists_stem hs
  -- A stem starts as the requirement does, so it is no option.
  obtain ⟨c, stem', rfl, hc⟩ : ∃ c stem', stem = c :: stem' ∧ (c == '-') = false := by
    obtain ⟨c, cs, ht, hc⟩ := h.head_specChars
    obtain ⟨u, hu⟩ : ∃ u, r.specChars = stem ++ ' ' :: u := by
      rcases hcase with ht | ⟨-, ht⟩ <;> exact ⟨_, ht⟩
    have hd : ∀ d, isLetterOrDigit d = true → d ≠ ' ' ∧ (d == '-') = false := by
      intro d hd
      refine ⟨?_, beq_eq_false_iff_ne.mpr ?_⟩ <;> rintro rfl <;> exact absurd hd (by decide)
    rw [ht] at hu
    cases stem with
    | nil => exact absurd (List.cons.inj hu).1 (hd c hc).1
    | cons x stem =>
      obtain rfl := (List.cons.inj hu).1
      exact ⟨c, stem, rfl, (hd c hc).2⟩
  rcases hcase with ht | ⟨hq, ht⟩
  · obtain ⟨e, he⟩ := hstem.readChars
    have hl' : '\n' ∉ tail ++ rest := by
      rw [ht] at hl
      simp_all
    have hcs : r.specChars ++ rest = c :: stem' ++ ' ' :: '#' :: (tail ++ rest) := by
      rw [ht]
      simp
    refine ⟨e, ?_⟩
    rw [hcs, splitComment_append_mark hstem.noMark hstem.bareEnd hl', readEntry,
      if_neg (by simpa using hc), he]
    rfl
  · have hm : hasMark (c :: stem' ++ [' ', '-', '-']) = false :=
      hasMark_append hstem.noMark (by decide) (.inr (by simp))
    have hb : BareEnd (c :: stem' ++ [' ', '-', '-']) := .append (by decide) (by simp)
    have hcs : r.specChars ++ rest = c :: stem' ++ [' ', '-', '-'] ++ (tail ++ rest) := by
      rw [ht]
      simp
    obtain ⟨e, he⟩ := hstem.readChars_append (splitComment (tail ++ rest)).1 hq
    refine ⟨e, ?_⟩
    rw [hcs, splitComment_append hm hb, readEntry, if_neg (by simpa using hc)]
    simp only [List.append_assoc, List.cons_append, List.nil_append] at he ⊢
    rw [he]
    rfl

/-- An option whose value starts a comment has no value. -/
theorem exists_optionError {form : OptionForm} {flag v : String} {e : Entry} {rest : List Char}
    (hf : form ∈ OptionForm.known) (hs : flag ∈ form.spellings)
    (he : form.entry (some v) = .ok e) (hv : v.toList.head? = some '#')
    (hl : '\n' ∉ v.toList ++ rest) :
    ∃ e, readEntry (splitComment (OptionForm.optionChars flag (some v) ++ rest)).1 = .error e := by
  obtain ⟨tail, ht⟩ := List.head?_eq_some_iff.mp hv
  have hb := OptionForm.isBlank_of_mem_flag hf hs
  have hl' : '\n' ∉ tail ++ rest := by
    rw [ht] at hl
    simp_all
  have hcs : OptionForm.optionChars flag (some v) ++ rest =
      flag.toList ++ ' ' :: '#' :: (tail ++ rest) := by
    simp [OptionForm.optionChars, ht]
  have hflag : flag.toList = OptionForm.optionChars flag none := (List.append_nil _).symm
  rw [hcs, splitComment_append_mark (hasMark_of_forall hb) (bareEnd_of_forall hb) hl', readEntry,
    hflag, if_pos (by rw [OptionForm.head?_optionChars hf hs]; rfl),
    OptionForm.readEntry_optionChars hf hs (by simp), OptionForm.entry_none he]
  exact ⟨_, rfl⟩

/-- A line whose entry is not stable is refused. -/
theorem Sound.exists_error (h : line.Sound) (hs : ¬ line.entry.IsStable) (n : Nat) :
    ∃ e, readChars line.render.toList n = .error e := by
  have hl := h.isLineText_render
  have hr : line.entry.isRemark = false := by
    cases he : line.entry with
    | comment text => exact absurd (he ▸ fun v hv => nomatch hv) hs
    | blank => exact absurd (he ▸ fun v hv => nomatch hv) hs
    | requirement | editable | includeFile | option => rfl
  refine readChars_error hl.trimmed (h.head?_render hr) ?_ n
  rcases h.entry.form hr with ⟨r, he, hsound⟩ | ⟨form, hf, value, he, hv, hvs⟩
  · have ht : line.render.toList = r.specChars ++ (Requirement.hashesChars r.hashes ++
        (renderComment line.comment).toList) := by
      rw [toList_render, he, Entry.render, Requirement.toList_render, List.append_assoc]
    rw [ht]
    rw [he] at hs
    exact exists_readEntry_error hsound hs (ht ▸ hl.oneLine)
  · obtain ⟨flag, hflag, hrender⟩ := OptionForm.exists_spelling he
    obtain ⟨v, hv', hm⟩ : ∃ v ∈ value, v.toList.head? = some '#' := by
      have hn : ¬ line.entry.NoMarks := by
        cases hline : line.entry with
        | requirement r =>
          rw [hline] at he
          rcases OptionForm.entry_eq_ok he with ⟨v, -, ⟨-, h⟩ | ⟨-, h⟩ | ⟨-, h⟩⟩ | ⟨-, h, -⟩ <;>
            cases h
        | editable | includeFile | option | comment | blank => rwa [hline] at hs
      unfold Entry.NoMarks at hn
      rw [hvs] at hn
      push Not at hn
      simpa using hn
    obtain rfl : value = some v := hv'
    rw [toList_render, hrender] at hl ⊢
    refine exists_optionError hf hflag he hm fun hn => hl.oneLine ?_
    rcases List.mem_append.mp hn with hn | hn
    · exact List.mem_append_left _ (List.mem_append_right _ (List.mem_cons_of_mem _ hn))
    · exact List.mem_append_right _ hn

end Line

end PinFile
