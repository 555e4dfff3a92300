import PinFile.Requirement
import PinFile.Text

/-!
# Package names

A valid name is not empty and holds name characters alone, and so does its normal form.
-/

namespace PinFile.Text

/-!
## Characters of specifications

Names, operators and versions are written in a few visible ASCII characters. None of them is a
blank, and every one differs from the signs that separate the parts of a requirement.
-/

/-- A character that a name, an operator or a version may hold. -/
def isSpecChar (c : Char) : Bool :=
  isNameChar c || isVersionChar c || ['=', '<', '>', '~', '*'].contains c

theorem isSpecChar_of_isNameChar {c : Char} (h : isNameChar c = true) : isSpecChar c = true := by
  simp [isSpecChar, h]

theorem isSpecChar_of_isVersionChar {c : Char} (h : isVersionChar c = true) :
    isSpecChar c = true := by
  simp [isSpecChar, h]

/-- Characters of a class differ from those outside it. -/
theorem ne_of_class {p : Char → Bool} {c d : Char} (hc : p c = true) (hd : p d = false) :
    c ≠ d := by
  rintro rfl
  rw [hc] at hd
  cases hd

theorem isBlank_eq_false_of_visible {c : Char} (h1 : 0x20 < c.toNat) (h2 : c.toNat < 0x80) :
    isBlank c = false := by
  simp only [isBlank, within, blankRanges, List.any_cons, List.any_nil, Bool.or_false,
    Bool.or_eq_false_iff, Bool.and_eq_false_iff, decide_eq_false_iff_not]
  omega

theorem isAlphanum_iff {c : Char} : c.isAlphanum = true ↔
    65 ≤ c.toNat ∧ c.toNat ≤ 90 ∨ 97 ≤ c.toNat ∧ c.toNat ≤ 122 ∨
      48 ≤ c.toNat ∧ c.toNat ≤ 57 := by
  have hd : c.isAlphanum = (decide (65 ≤ c.val ∧ c.val ≤ 90) ||
      decide (97 ≤ c.val) && decide (c.val ≤ 122) || decide (48 ≤ c.val) && decide (c.val ≤ 57)) :=
    rfl
  simp only [hd, Bool.or_eq_true, Bool.and_eq_true, decide_eq_true_eq, UInt32.le_iff_toNat_le,
    or_assoc]
  rfl

theorem isBlank_of_isSpecChar {c : Char} (h : isSpecChar c = true) : isBlank c = false := by
  by_cases ha : c.isAlphanum = true
  · have := isAlphanum_iff.mp ha
    exact isBlank_eq_false_of_visible (by omega) (by omega)
  · simp only [isSpecChar, isNameChar, isVersionChar, ha, Bool.false_or, Bool.or_eq_true,
      beq_iff_eq, List.contains_iff_mem, List.mem_cons, List.not_mem_nil, or_false] at h
    rcases h with (((rfl | rfl) | rfl) | (((rfl | rfl) | rfl) | rfl)) | rfl | rfl | rfl | rfl | rfl
    all_goals decide

theorem isBlank_of_isNameChar {c : Char} (h : isNameChar c = true) : isBlank c = false :=
  isBlank_of_isSpecChar (isSpecChar_of_isNameChar h)

theorem isAlphanum_of_isHexDigit {c : Char} (h : isHexDigit c = true) : c.isAlphanum = true := by
  simp only [isHexDigit, Bool.or_eq_true, Bool.and_eq_true, decide_eq_true_eq, Char.le_def,
    UInt32.le_iff_toNat_le] at h
  change (c.isDigit = true ∨ 97 ≤ c.toNat ∧ c.toNat ≤ 102) ∨ 65 ≤ c.toNat ∧ c.toNat ≤ 70 at h
  rcases h with (h | h) | h
  · simp [Char.isAlphanum, h]
  · exact isAlphanum_iff.mpr (by omega)
  · exact isAlphanum_iff.mpr (by omega)

/-! ### Lower case -/

theorem isUpper_iff_val {c : Char} : c.isUpper = true ↔ c.val ≥ 'A'.val ∧ c.val ≤ 'Z'.val :=
  decide_eq_true_iff

theorem isUpper_iff {c : Char} : c.isUpper = true ↔ 65 ≤ c.toNat ∧ c.toNat ≤ 90 :=
  isUpper_iff_val.trans (and_congr UInt32.le_iff_toNat_le UInt32.le_iff_toNat_le)

theorem toLower_eq_self {c : Char} (h : c.isUpper = false) : c.toLower = c := by
  refine dif_neg fun hu => ?_
  rw [isUpper_iff_val.mpr hu] at h
  cases h

theorem toNat_toLower {c : Char} (h : c.isUpper = true) : c.toLower.toNat = c.toNat + 32 := by
  have hc : 65 ≤ c.val.toNat ∧ c.val.toNat ≤ 90 := isUpper_iff.mp h
  have hl : c.toLower.val = c.val + 32 := congrArg Char.val (dif_pos (isUpper_iff_val.mp h))
  change c.toLower.val.toNat = c.val.toNat + 32
  rw [hl, UInt32.toNat_add, show (32 : UInt32).toNat = 32 from rfl]
  omega

theorem isUpper_toLower (c : Char) : c.toLower.isUpper = false := by
  cases hu : c.isUpper with
  | false => rw [toLower_eq_self hu, hu]
  | true =>
    have hc := isUpper_iff.mp hu
    rw [Bool.eq_false_iff, ne_eq, isUpper_iff, toNat_toLower hu]
    omega

theorem isLetterOrDigit_toLower {c : Char} (h : isLetterOrDigit c = true) :
    isLetterOrDigit c.toLower = true := by
  cases hu : c.isUpper with
  | false => rwa [toLower_eq_self hu]
  | true =>
    have hc := isUpper_iff.mp hu
    refine isAlphanum_iff.mpr ?_
    rw [toNat_toLower hu]
    omega

theorem isLetterOrDigit_of_isUpper {c : Char} (h : c.isUpper = true) :
    isLetterOrDigit c = true :=
  isAlphanum_iff.mpr (.inl (isUpper_iff.mp h))

theorem isNameChar_toLower {c : Char} (h : isNameChar c = true) : isNameChar c.toLower = true := by
  cases hu : c.isUpper with
  | false => rwa [toLower_eq_self hu]
  | true =>
    exact isNameChar_of_isLetterOrDigit (isLetterOrDigit_toLower (isLetterOrDigit_of_isUpper hu))

end PinFile.Text

namespace PinFile.Name

open Text

/-! ## Names -/

theorem isNameChar_of_isValid {name : String} (h : isValid name = true) :
    ∀ c ∈ name.toList, isNameChar c = true := by
  simp only [isValid, isValidChars, Bool.and_eq_true, List.all_eq_true] at h
  exact h.1.1

theorem head_of_isValid {name : String} (h : isValid name = true) :
    ∃ c cs, name.toList = c :: cs ∧ isLetterOrDigit c = true := by
  simp only [isValid, isValidChars, Bool.and_eq_true] at h
  cases hn : name.toList with
  | nil => simp [hn] at h
  | cons c cs => exact ⟨c, cs, rfl, by simpa [hn] using h.1.2⟩

theorem ne_nil_of_isValid {name : String} (h : isValid name = true) : name.toList ≠ [] := by
  obtain ⟨c, cs, hn, -⟩ := head_of_isValid h
  simp [hn]

theorem isBlank_of_isValid {name : String} (h : isValid name = true) :
    ∀ c ∈ name.toList, isBlank c = false :=
  fun c hc => isBlank_of_isNameChar (isNameChar_of_isValid h c hc)

theorem not_mem_of_isValid {name : String} (h : isValid name = true) {c : Char}
    (hc : isNameChar c = false) : c ∉ name.toList := by
  intro hm
  rw [isNameChar_of_isValid h c hm] at hc
  cases hc

/-! ## Normal forms -/

theorem isNameChar_of_mem_fold {inRun : Bool} {cs : List Char}
    (h : ∀ c ∈ cs, isNameChar c = true) : ∀ c ∈ fold inRun cs, isNameChar c = true := by
  fun_induction fold inRun cs with
  | case1 => simp
  | case2 c cs hs ih => exact ih (List.forall_mem_cons.mp h).2
  | case3 inRun c cs hs hr ih =>
    exact List.forall_mem_cons.mpr ⟨by decide, ih (List.forall_mem_cons.mp h).2⟩
  | case4 inRun c cs hs ih =>
    obtain ⟨hc, hcs⟩ := List.forall_mem_cons.mp h
    exact List.forall_mem_cons.mpr ⟨isNameChar_toLower hc, ih hcs⟩

theorem isNameChar_of_mem_normalize {name : String} (h : isValid name = true) :
    ∀ c ∈ (normalize name).toList, isNameChar c = true := by
  rw [toList_normalize]
  exact isNameChar_of_mem_fold (isNameChar_of_isValid h)

theorem normalize_ne_nil {name : String} (h : isValid name = true) :
    (normalize name).toList ≠ [] := by
  obtain ⟨c, cs, hn, -⟩ := head_of_isValid h
  rw [toList_normalize, hn, fold]
  split <;> simp

end PinFile.Name
