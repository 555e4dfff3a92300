import PinFile.Proofs.Manifest.Rendered

/-!
# What every manifest satisfies that is read

The lines of a manifest that is read are numbered upwards from 1, since each has the number of the
first of its physical lines. Every line is sound, no text in it has an end of line, and no text
that an entry asks with has a blank in front of `#` (`parse_invariant`).
-/

namespace PinFile

open Text

/-! ## The texts of an entry -/

/-- All that a requirement is written with. -/
def Requirement.texts (r : Requirement) : List String :=
  r.name :: (r.extras ++ r.constraints.map (·.version) ++ r.url.toList ++ r.marker.toList
    ++ r.hashes)

def Entry.texts : Entry → List String
  | requirement r => r.texts
  | editable e => [e.target]
  | includeFile i => [i.path]
  | option o => o.flag :: o.value.toList
  | comment text => [text]
  | blank => []

/-- No line ends in the text, and no comment starts in it. -/
def IsFieldText (text : String) : Prop := '\n' ∉ text.toList ∧ hasMark text.toList = false

theorem isFieldText_of_noBlank {text : String} (h : ∀ c ∈ text.toList, isBlank c = false) :
    IsFieldText text :=
  ⟨oneLine_of_forall h, hasMark_of_forall h⟩

theorem isFieldText_of_isValue {text : String} (h : IsValue text.toList) : IsFieldText text :=
  ⟨h.oneLine, h.noMark⟩

theorem Constraint.IsValid.isFieldText {c : Constraint} (h : c.IsValid) : IsFieldText c.version :=
  isFieldText_of_noBlank fun _ hd => isBlank_of_isSpecChar
    (h.isSpecChar (List.mem_append_right _ hd))

/-- Only a marker has blanks in it. -/
theorem Requirement.Sound.isFieldText {r : Requirement} (h : r.Sound) :
    ∀ text ∈ r.texts, IsFieldText text := by
  intro text ht
  simp only [texts, List.mem_cons, List.mem_append, List.mem_map, Option.mem_toList] at ht
  rcases ht with rfl | (((hextra | ⟨c, hc, rfl⟩) | hurl) | hmarker) | hhash
  · exact isFieldText_of_noBlank (Name.isBlank_of_isValid h.name)
  · exact isFieldText_of_noBlank (Name.isBlank_of_isValid (h.extras text hextra))
  · exact (h.constraints c hc).isFieldText
  · exact isFieldText_of_noBlank (h.url text hurl).noBlank
  · exact isFieldText_of_isValue (h.marker text hmarker)
  · exact isFieldText_of_noBlank (isBlank_of_isHash (h.hashes text hhash))

theorem InstallerOption.IsKnown.isFieldText {o : InstallerOption} (h : o.IsKnown) :
    IsFieldText o.flag := by
  obtain ⟨form, hf, -, hflag, -⟩ := h
  rw [hflag]
  exact isFieldText_of_noBlank (OptionForm.isBlank_of_mem_flag hf List.mem_cons_self)

namespace Entry.Sound

variable {e : Entry}

theorem isFieldText (h : e.Sound) (hr : e.isRemark = false) :
    ∀ text ∈ e.texts, IsFieldText text := by
  intro text ht
  cases e with
  | requirement r => exact Requirement.Sound.isFieldText h text ht
  | editable t =>
    rw [List.mem_singleton.mp ht]
    exact isFieldText_of_isValue h
  | includeFile i =>
    rw [List.mem_singleton.mp ht]
    exact isFieldText_of_isValue h
  | option o =>
    rcases List.mem_cons.mp ht with rfl | hv
    · exact h.1.isFieldText
    · exact isFieldText_of_isValue (h.2 text (Option.mem_toList.mp hv))
  | comment | blank => cases hr

theorem oneLine (h : e.Sound) : ∀ text ∈ e.texts, '\n' ∉ text.toList := by
  intro text ht
  cases hr : e.isRemark with
  | false => exact (h.isFieldText hr text ht).1
  | true =>
    cases e with
    | comment remark =>
      rw [List.mem_singleton.mp ht]
      exact h.2.oneLine
    | blank => cases ht
    | requirement | editable | includeFile | option => cases hr

end Entry.Sound

namespace Manifest

variable {text : String} {m : Manifest}

/-! ## Numbers -/

theorem AreRead.map_number {texts : List Numbered} {lines : List Line}
    (h : AreRead texts lines) (hl : ∀ text ∈ texts, '\n' ∉ text.text) :
    lines.map (·.number) = texts.map (·.number) := by
  induction h with
  | nil => rfl
  | cons hr _ ih =>
    obtain ⟨ht, hl⟩ := List.forall_mem_cons.mp hl
    rw [List.map_cons, List.map_cons, ih hl, (Line.readChars_eq_ok hr ht).1]

theorem numbers_of_readChars {cs : List Char} (h : readChars cs = .ok m) :
    m.lines.map (·.number) = (logicalLines cs).map (·.number) :=
  (readChars_eq_ok_iff.mp h).map_number not_mem_logicalLines

theorem pairwise_number_of_readChars {cs : List Char} (h : readChars cs = .ok m) :
    m.lines.Pairwise (·.number < ·.number) := by
  rw [← List.pairwise_map (f := Line.number), numbers_of_readChars h, List.pairwise_map]
  exact pairwise_number_logicalLines cs

theorem number_head?_of_readChars {cs : List Char} (h : readChars cs = .ok m) :
    ∀ line ∈ m.lines.head?, line.number = 1 := by
  intro line hl
  have hn : line.number ∈ (m.lines.map (·.number)).head? := by
    rw [List.head?_map]
    exact Option.mem_map_of_mem _ hl
  rw [numbers_of_readChars h, List.head?_map] at hn
  obtain ⟨first, hf, he⟩ := Option.map_eq_some_iff.mp hn
  rw [← he]
  exact number_head?_logicalLines hf

/-! ## Lines -/

/-- For every text that is read: the numbers of the lines ascend from 1, the parts of every line
have the form of their kind, and no text in a line ends it or starts a comment. -/
theorem parse_invariant (h : parse text = .ok m) :
    m.lines.Pairwise (·.number < ·.number) ∧ (∀ line ∈ m.lines.head?, line.number = 1) ∧
    ∀ line ∈ m.lines, line.Sound ∧
      (∀ v ∈ line.entry.texts ++ line.comment.toList, '\n' ∉ v.toList) ∧
      (line.entry.isRemark = false → ∀ v ∈ line.entry.texts, hasMark v.toList = false) := by
  refine ⟨pairwise_number_of_readChars h, number_head?_of_readChars h, fun line hl => ?_⟩
  obtain ⟨hs, -⟩ := sound_of_readChars h line hl
  refine ⟨hs, fun v hv => ?_, fun hr v hv => (hs.entry.isFieldText hr v hv).2⟩
  rcases List.mem_append.mp hv with hv | hv
  · exact hs.entry.oneLine v hv
  · exact (hs.comment v (Option.mem_toList.mp hv)).oneLine

/-- A glued option, a requirement on two physical lines, and a blank line. -/
def spreadText : String :=
  "-rbase.txt\nuvicorn [standard,] (>=0.17, \\\n<1) ;os_name == '#1' --hash md5:0a # why\n\n"

def spread : Manifest := ⟨[
  ⟨1, .includeFile ⟨.requirements, "base.txt"⟩, none⟩,
  ⟨2, .requirement ⟨"uvicorn", ["standard"], [⟨.atLeast, "0.17"⟩, ⟨.less, "1"⟩], none,
    some "os_name == '#1'", ["md5:0a"]⟩, some "why"⟩,
  ⟨4, .blank, none⟩]⟩

theorem parse_invariant_spread : parse spreadText = .ok spread ∧
    spread.lines.Pairwise (·.number < ·.number) ∧ ∀ line ∈ spread.lines, line.Sound := by
  have h : parse spreadText = .ok spread := by decide +kernel
  obtain ⟨hn, -, hl⟩ := parse_invariant h
  exact ⟨h, hn, fun line hm => (hl line hm).1⟩

end Manifest

end PinFile
