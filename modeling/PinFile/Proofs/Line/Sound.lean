import PinFile.Line
import PinFile.Proofs.Line.Options
import PinFile.Proofs.Requirement.Sound

/-!
# Sound lines

`Line.Sound` is what every line that is read satisfies: its entry has the form of its kind, and a
comment behind it stands alone on neither a comment line nor a blank one. The text of a sound
line is one line without blanks at its ends (`Line.Sound.text`).
-/

namespace PinFile

open Text

/-- An option that the installer knows, with a value when it takes one. -/
def InstallerOption.IsKnown (o : InstallerOption) : Prop :=
  ∃ form ∈ OptionForm.known, form ∉ OptionForm.ownEntries ∧ o.flag = form.long ∧
    o.value.isSome = form.takesValue

instance (o : InstallerOption) : Decidable o.IsKnown :=
  inferInstanceAs (Decidable (∃ form ∈ OptionForm.known, form ∉ OptionForm.ownEntries ∧
    o.flag = form.long ∧ o.value.isSome = form.takesValue))

namespace Entry

def Sound : Entry → Prop
  | requirement r => r.Sound
  | editable e => IsValue e.target.toList
  | includeFile i => IsValue i.path.toList
  | option o => o.IsKnown ∧ ∀ v ∈ o.value, IsValue v.toList
  | comment text => text.toList.head? = some '#' ∧ IsLineText text.toList
  | blank => True

instance : DecidablePred Sound
  | requirement r => inferInstanceAs (Decidable r.Sound)
  | editable e => inferInstanceAs (Decidable (IsValue e.target.toList))
  | includeFile i => inferInstanceAs (Decidable (IsValue i.path.toList))
  | option o => inferInstanceAs (Decidable (o.IsKnown ∧ ∀ v ∈ o.value, IsValue v.toList))
  | comment text =>
    inferInstanceAs (Decidable (text.toList.head? = some '#' ∧ IsLineText text.toList))
  | blank => inferInstanceAs (Decidable True)

/-- The entry asks for nothing. -/
def isRemark : Entry → Bool
  | comment _ | blank => true
  | _ => false

/-- The texts that the entry carries as they are, each behind a space. -/
def values : Entry → List String
  | requirement r => r.url.toList ++ r.marker.toList
  | editable e => [e.target]
  | includeFile i => [i.path]
  | option o => o.value.toList
  | comment _ | blank => []

/-- No text of the entry starts a comment behind its space. -/
def NoMarks (e : Entry) : Prop := ∀ v ∈ e.values, v.toList.head? ≠ some '#'

instance (e : Entry) : Decidable e.NoMarks :=
  inferInstanceAs (Decidable (∀ v ∈ e.values, v.toList.head? ≠ some '#'))

end Entry

structure Line.Sound (line : Line) : Prop where
  entry : line.entry.Sound
  remark : line.entry.isRemark = true → line.comment = none
  comment : ∀ c ∈ line.comment, IsLineText c.toList

instance (line : Line) : Decidable line.Sound :=
  decidable_of_iff (line.entry.Sound ∧ (line.entry.isRemark = true → line.comment = none) ∧
      ∀ c ∈ line.comment, IsLineText c.toList)
    ⟨fun h => ⟨h.1, h.2.1, h.2.2⟩, fun h => ⟨h.1, h.2, h.3⟩⟩

theorem Line.requirement?_eq_some {line : Line} {r : Requirement} :
    line.requirement? = some r ↔ line.entry = .requirement r := by
  unfold requirement?
  cases line.entry <;> simp

namespace Entry.Sound

variable {e : Entry}

/-- An entry that asks for something is a requirement or an option. -/
theorem form (h : e.Sound) (hr : e.isRemark = false) :
    (∃ r, e = .requirement r ∧ r.Sound) ∨
      ∃ form ∈ OptionForm.known, ∃ value, form.entry value = .ok e ∧
        (∀ v ∈ value, IsValue v.toList) ∧ e.values = value.toList := by
  cases e with
  | requirement r => exact .inl ⟨r, rfl, h⟩
  | editable t =>
    refine .inr ⟨.editable, by decide, some t.target, ?_, by rintro _ ⟨⟩; exact h, rfl⟩
    have hv : IsValue t.target.toList := h
    have ht : trim t.target.toList = t.target.toList := hv.trimmed
    simp [OptionForm.entry, OptionForm.editable, Editable.ofTarget, ht, hv.ne_nil, Except.mapError,
      Except.map]
  | includeFile i =>
    cases hk : i.kind with
    | requirements =>
      refine .inr ⟨.requirement, by decide, some i.path, ?_, by rintro _ ⟨⟩; exact h, rfl⟩
      rw [show i = ⟨.requirements, i.path⟩ by rw [← hk]]
      rfl
    | constraints =>
      refine .inr ⟨.constraint, by decide, some i.path, ?_, by rintro _ ⟨⟩; exact h, rfl⟩
      rw [show i = ⟨.constraints, i.path⟩ by rw [← hk]]
      rfl
  | option o =>
    obtain ⟨⟨form, hf, hn, hl, hs⟩, hv⟩ := h
    refine .inr ⟨form, hf, o.value, ?_, hv, rfl⟩
    have ho : o = ⟨form.long, o.value⟩ := by rw [← hl]
    simp only [OptionForm.ownEntries, List.mem_cons, List.not_mem_nil, or_false, not_or] at hn
    rw [ho]
    dsimp only
    cases hval : o.value with
    | none =>
      rw [hval] at hs
      simp [OptionForm.entry, ← hs]
    | some v =>
      rw [hval] at hs
      simp [OptionForm.entry, ← hs, hn]
  | comment text => cases hr
  | blank => cases hr

theorem isLineText_render (h : e.Sound) : IsLineText e.render.toList := by
  cases hr : e.isRemark with
  | false =>
    rcases h.form hr with ⟨r, rfl, hs⟩ | ⟨form, hf, value, he, hv, -⟩
    · exact hs.isLineText_render
    · obtain ⟨flag, hs, ht⟩ := OptionForm.exists_spelling he
      rw [ht]
      exact OptionForm.isLineText_optionChars hf hs hv
  | true =>
    cases e with
    | comment text => exact h.2
    | blank => exact isLineText_nil
    | requirement | editable | includeFile | option => cases hr

/-- The first character tells options from requirements, and neither is a comment. -/
theorem head?_render (h : e.Sound) (hr : e.isRemark = false) :
    ∃ c cs, e.render.toList = c :: cs ∧ c ≠ '#' := by
  rcases h.form hr with ⟨r, rfl, hs⟩ | ⟨form, hf, value, he, -, -⟩
  · obtain ⟨c, cs, ht, hc⟩ := hs.head_specChars
    refine ⟨c, cs ++ Requirement.hashesChars r.hashes, ?_, ?_⟩
    · unfold Entry.render
      rw [Requirement.toList_render, ht]
      rfl
    · rintro rfl
      exact absurd hc (by decide)
  · obtain ⟨flag, hs, ht⟩ := OptionForm.exists_spelling he
    have hh : (OptionForm.optionChars flag value).head? = some '-' :=
      OptionForm.head?_optionChars hf hs
    obtain ⟨cs, hc⟩ := List.head?_eq_some_iff.mp hh
    exact ⟨'-', cs, ht.trans hc, by decide⟩

theorem hasMark_render (h : e.Sound) (hr : e.isRemark = false) (hn : e.NoMarks) :
    hasMark e.render.toList = false := by
  rcases h.form hr with ⟨r, rfl, hs⟩ | ⟨form, hf, value, he, hv, hvs⟩
  · refine hs.hasMark_render (fun url hu => hn url ?_) (fun m hm => hn m ?_)
    · exact List.mem_append_left _ (Option.mem_toList.mpr hu)
    · exact List.mem_append_right _ (Option.mem_toList.mpr hm)
  · obtain ⟨flag, hs, ht⟩ := OptionForm.exists_spelling he
    rw [ht]
    refine OptionForm.hasMark_optionChars hf hs fun v hm => ⟨(hv v hm).noMark, hn v ?_⟩
    rw [hvs]
    exact Option.mem_toList.mpr hm

end Entry.Sound

namespace Line

/-! ## Comments -/

theorem toList_renderComment (c : String) : ∃ rest, (renderComment (some c)).toList =
    ' ' :: '#' :: rest ∧ ((rest = [] ∧ c = "") ∨ (c ≠ "" ∧ rest = ' ' :: c.toList)) := by
  by_cases h : c = ""
  · exact ⟨[], by simp [renderComment, h], .inl ⟨rfl, h⟩⟩
  · exact ⟨' ' :: c.toList, by simp [renderComment, h], .inr ⟨h, rfl⟩⟩

/-- The text of a comment behind an entry, and what is read in it. -/
theorem exists_commentText {c : String} (h : IsLineText c.toList) :
    ∃ rest, (renderComment (some c)).toList = ' ' :: '#' :: rest ∧ '\n' ∉ rest ∧
      trim rest = c.toList ∧ BareEnd ('#' :: rest) := by
  obtain ⟨rest, hr, ⟨rfl, rfl⟩ | ⟨hc, rfl⟩⟩ := toList_renderComment c
  · exact ⟨[], hr, by simp, rfl, by decide⟩
  · refine ⟨_, hr, by simpa using h.oneLine, trim_space_cons h.trimmed, ?_⟩
    exact (isTrimmed_iff.mp h.trimmed).2.append (a := ['#', ' ']) (by simpa using hc)

theorem toList_render (line : Line) :
    line.render.toList = line.entry.render.toList ++ (renderComment line.comment).toList :=
  String.toList_append

theorem Sound.isLineText_render {line : Line} (h : line.Sound) : IsLineText line.render.toList := by
  have he := h.entry.isLineText_render
  rw [toList_render]
  cases hc : line.comment with
  | none => simpa [renderComment] using he
  | some c =>
    have hr : line.entry.isRemark = false := by
      cases hr : line.entry.isRemark with
      | false => rfl
      | true => rw [h.remark hr] at hc; cases hc
    obtain ⟨rest, ht, hl, -, hb⟩ := exists_commentText (h.comment c hc)
    obtain ⟨x, cs, hx, -⟩ := h.entry.head?_render hr
    rw [ht]
    refine ⟨isTrimmed_iff.mpr ⟨(isTrimmed_iff.mp he.trimmed).1.append (by simp [hx]), ?_⟩, ?_⟩
    · exact (hb.append (a := [' ']) (by simp)).append (by simp)
    · simp [he.oneLine, hl]

end Line

end PinFile
