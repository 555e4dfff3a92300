import PinFile.Line.Reader
import PinFile.Proofs.Results
import PinFile.Proofs.Text.Pieces
import PinFile.Proofs.Text.Value

/-!
# Reading options

A line that holds an option is its flag, and its value behind a space (`optionChars`). Such a line
is read as the entry that the option is with the value (`readEntry_optionChars`). A line in any
other spelling is read as one of these entries too, with a value that stands in the line
(`readEntry_eq_ok`).
-/

namespace PinFile.OptionForm

open Text

variable {form : OptionForm} {flag : String} {value : Option String} {e : Entry}
  {cs : List Char}

/-- The flags of the option. -/
def spellings (form : OptionForm) : List String := form.long :: form.short.toList

def optionChars (flag : String) (value : Option String) : List Char :=
  flag.toList ++ value.elim [] fun v => ' ' :: v.toList

/-! ## Flags -/

/-- What holds of every flag: two hyphens or one start it, and it has no blank and no `=`. -/
theorem forall_spellings : ∀ form ∈ known, ∀ flag ∈ form.spellings,
    flag.toList.head? = some '-' ∧ (∀ c ∈ flag.toList, isBlank c = false ∧ c ≠ '=' ∧ c ≠ '\\') ∧
      named? flag.toList = some form := by
  have h : ∀ form ∈ known, ∀ flag ∈ form.spellings, flag.toList.head? = some '-' ∧
      flag.toList.all (fun c => isBlank c = false ∧ c ≠ '=' ∧ c ≠ '\\') = true ∧
      named? flag.toList = some form := by
    decide
  intro form hf flag hs
  obtain ⟨hh, hall, hn⟩ := h form hf flag hs
  exact ⟨hh, forall_mem_of_all hall, hn⟩

theorem isBlank_of_mem_flag (hf : form ∈ known) (hs : flag ∈ form.spellings) :
    ∀ c ∈ flag.toList, isBlank c = false :=
  fun c hc => ((forall_spellings form hf flag hs).2.1 c hc).1

theorem ne_nil_of_mem_spellings (hf : form ∈ known) (hs : flag ∈ form.spellings) :
    flag.toList ≠ [] := by
  intro h
  have := (forall_spellings form hf flag hs).1
  rw [h] at this
  cases this

/-- A flag and its value are a line. -/
theorem isLineText_optionChars (hf : form ∈ known) (hs : flag ∈ form.spellings)
    (hv : ∀ v ∈ value, IsValue v.toList) : IsLineText (optionChars flag value) := by
  have hb := isBlank_of_mem_flag hf hs
  have hflag : IsLineText flag.toList :=
    ⟨isTrimmed_of_forall hb, fun hm => absurd (hb _ hm) (by decide)⟩
  cases value with
  | none => simpa [optionChars] using hflag
  | some v =>
    have h := hv v rfl
    refine ⟨isTrimmed_iff.mpr
      ⟨(isTrimmed_iff.mp hflag.trimmed).1.append (ne_nil_of_mem_spellings hf hs),
        (h.bareEnd.append (a := [' ']) h.ne_nil).append (by simp)⟩, ?_⟩
    simp [optionChars, hflag.oneLine, h.oneLine]

theorem hasMark_optionChars (hf : form ∈ known) (hs : flag ∈ form.spellings)
    (hv : ∀ v ∈ value, hasMark v.toList = false ∧ v.toList.head? ≠ some '#') :
    hasMark (optionChars flag value) = false := by
  have hb := hasMark_of_forall (isBlank_of_mem_flag hf hs)
  cases value with
  | none => simpa [optionChars] using hb
  | some v =>
    have ht := hasMark_append (a := [' ']) rfl (hv v rfl).1 (.inr (hv v rfl).2)
    exact hasMark_append hb ht (.inr (by simp))

theorem head?_optionChars (hf : form ∈ known) (hs : flag ∈ form.spellings) :
    (optionChars flag value).head? = some '-' := by
  unfold optionChars
  rw [List.head?_append_of_ne_nil _ (ne_nil_of_mem_spellings hf hs)]
  exact (forall_spellings form hf flag hs).1

/-! ## Values -/

theorem value?_eq_some {v : String} (h : value? cs = some v) :
    v.toList ≠ [] ∧ IsTrimmed v.toList ∧ v.toList <:+: cs := by
  unfold value? at h
  dsimp only at h
  split at h
  · cases h
  · rename_i hne
    cases h
    obtain ⟨a, b, -, -, he⟩ := exists_trim cs
    rw [String.toList_ofList]
    exact ⟨by simpa using hne, isTrimmed_trim cs, a, b, he.symm⟩

theorem value?_blanks_append {w : List Char} {v : String} (hw : Blanks w) (hne : v.toList ≠ [])
    (ht : IsTrimmed v.toList) : value? (w ++ v.toList) = some v := by
  rw [value?, trim_append hw, ht]
  simp [hne]

/-! ## Reading back -/

/-- A flag is read with what stands behind it, when that is nothing or starts with a blank. -/
theorem readEntry_flag_append {rest : List Char} (hf : form ∈ known) (hs : flag ∈ form.spellings)
    (hr : ∀ c ∈ rest.head?, isBlank c = true) :
    readEntry (flag.toList ++ rest) = form.entry (value? rest) := by
  obtain ⟨-, hc, hn⟩ := forall_spellings form hf flag hs
  have hflag : ∀ c ∈ flag.toList, (!isBlank c) = true := fun c h => by simp [(hc c h).1]
  have hcut : cut? (· == '=') flag.toList = none :=
    cut?_eq_none fun c h => by simpa using (hc c h).2.1
  have hrest : rest.takeWhile (!isBlank ·) = [] ∧ rest.dropWhile (!isBlank ·) = rest := by
    cases rest with
    | nil => exact ⟨rfl, rfl⟩
    | cons c rest => simp [hr c rfl]
  rw [readEntry, List.takeWhile_append_of_pos hflag, List.dropWhile_append_of_pos hflag, hrest.1,
    hrest.2, List.append_nil, flagAndValue, hcut]
  dsimp only
  rw [hn]

theorem readEntry_optionChars (hf : form ∈ known) (hs : flag ∈ form.spellings)
    (hv : ∀ v ∈ value, v.toList ≠ [] ∧ IsTrimmed v.toList) :
    readEntry (optionChars flag value) = form.entry value := by
  cases value with
  | none => exact readEntry_flag_append hf hs (by simp)
  | some v =>
    obtain ⟨hne, ht⟩ := hv v rfl
    have hblank : ∀ c ∈ (' ' :: v.toList).head?, isBlank c = true := by simp; decide
    rw [optionChars, Option.elim_some, readEntry_flag_append hf hs hblank]
    exact congrArg _ (value?_blanks_append blanks_space hne ht)

theorem isSuffix_flagAndValue (word rest : List Char) :
    (flagAndValue word rest).2 <:+ word ++ rest := by
  unfold flagAndValue
  split
  · rename_i flag value hc
    obtain ⟨c, -, rfl, -⟩ := eq_append_of_cut? hc
    split
    · exact ⟨flag ++ [c], by simp⟩
    · exact List.suffix_append _ _
  · exact List.suffix_append _ _

theorem mem_known_of_glued? (h : glued? cs = some form) : form ∈ known := by
  unfold glued? at h
  split at h
  · cases h
  · exact List.mem_of_find?_eq_some h

/-- A line that is read as an option holds its value, if it takes one. -/
theorem readEntry_eq_ok (h : readEntry cs = .ok e) :
    ∃ form ∈ known, ∃ value, form.entry value = .ok e ∧
      ∀ v ∈ value, v.toList ≠ [] ∧ IsTrimmed v.toList ∧ v.toList <:+: cs := by
  have hcs : cs.takeWhile (!isBlank ·) ++ cs.dropWhile (!isBlank ·) = cs :=
    List.takeWhile_append_dropWhile
  unfold readEntry at h
  dsimp only at h
  split at h
  · rename_i form hn
    refine ⟨form, List.mem_of_find?_eq_some hn, _, h, fun v hv => ?_⟩
    obtain ⟨hne, ht, hi⟩ := value?_eq_some hv
    have hsuf := isSuffix_flagAndValue (cs.takeWhile (!isBlank ·)) (cs.dropWhile (!isBlank ·))
    rw [hcs] at hsuf
    exact ⟨hne, ht, hi.trans hsuf.isInfix⟩
  · split at h
    · rename_i form hg
      refine ⟨form, mem_known_of_glued? hg, _, h, fun v hv => ?_⟩
      obtain ⟨hne, ht, hi⟩ := value?_eq_some hv
      exact ⟨hne, ht, hi.trans (List.drop_suffix 2 cs).isInfix⟩
    · cases h

/-! ## Entries of options -/

/-- The three options that are entries of their own. -/
def ownEntries : List OptionForm := [editable, requirement, constraint]

/-- The entries that options are. -/
theorem entry_eq_ok (he : form.entry value = .ok e) :
    (∃ v, value = some v ∧ ((form = editable ∧ e = .editable ⟨v⟩) ∨
      (form = requirement ∧ e = .includeFile ⟨.requirements, v⟩) ∨
      (form = constraint ∧ e = .includeFile ⟨.constraints, v⟩))) ∨
    (form ∉ ownEntries ∧ e = .option ⟨form.long, value⟩ ∧ value.isSome = form.takesValue) := by
  unfold entry at he
  split at he
  · cases he
  · cases he
  · rename_i ht
    cases he
    refine .inr ⟨fun hm => ?_, rfl, by simp [ht]⟩
    have hall : ∀ form ∈ ownEntries, form.takesValue = true := by decide
    rw [hall form hm] at ht
    cases ht
  · rename_i v ht
    split at he
    · rename_i hf
      obtain ⟨t, hv, rfl⟩ := map_eq_ok_iff.mp he
      rw [mapError_eq_ok_iff] at hv
      unfold Editable.ofTarget at hv
      split at hv
      · cases hv
      · cases hv
        exact .inl ⟨v, rfl, .inl ⟨hf, rfl⟩⟩
    · split at he
      · rename_i hf
        cases he
        exact .inl ⟨v, rfl, .inr (.inl ⟨hf, rfl⟩)⟩
      · split at he
        · rename_i hf
          cases he
          exact .inl ⟨v, rfl, .inr (.inr ⟨hf, rfl⟩)⟩
        · rename_i h1 h2 h3
          cases he
          exact .inr ⟨by simp [ownEntries, h1, h2, h3], rfl, by simp [ht]⟩

/-- Every entry that is an option is written as a flag and a value. -/
theorem exists_spelling (he : form.entry value = .ok e) :
    ∃ flag ∈ form.spellings, e.render.toList = optionChars flag value := by
  rcases entry_eq_ok he with ⟨v, rfl, ⟨rfl, rfl⟩ | ⟨rfl, rfl⟩ | ⟨rfl, rfl⟩⟩ | ⟨-, rfl, -⟩
  · exact ⟨"-e", by decide, by simp [Entry.render, Editable.render, optionChars]⟩
  · exact ⟨"-r", by decide, by simp [Entry.render, Include.render, optionChars]⟩
  · exact ⟨"-c", by decide, by simp [Entry.render, Include.render, optionChars]⟩
  · refine ⟨form.long, List.mem_cons_self, ?_⟩
    cases value <;> simp [Entry.render, InstallerOption.render, optionChars]

theorem entry_none {v : String} (he : form.entry (some v) = .ok e) :
    form.entry none = .error (.missingOptionValue form.long) := by
  unfold entry at he ⊢
  cases ht : form.takesValue with
  | true => rfl
  | false => rw [ht] at he; cases he

end PinFile.OptionForm
