import PinFile.Proofs.Name
import PinFile.Proofs.Results
import PinFile.Proofs.Text.Pieces
import PinFile.Requirement.Reader

/-!
# Reading version constraints

A valid constraint is read back from its text, with any blanks behind its operator
(`readConstraint_append`), and a list of them is read piece by piece, in parentheses or not
(`readConstraints_intercalate`, `readConstraints_parens`). What is read from any text is valid and
stands in the text, which holds nothing else but blanks, commas and parentheses
(`readConstraints_eq_ok`).
-/

namespace PinFile

open Text

namespace Constraint

/-- The operator and the version go together. -/
def IsValid (c : Constraint) : Prop := ofParts c.operator c.version = .ok c

instance (c : Constraint) : Decidable c.IsValid :=
  decidable_of_iff (isVersion c.version = true ∧
      (hasWildcard c.version = true → c.operator.allowsWildcard = true)) (by
    unfold IsValid ofParts
    cases isVersion c.version <;> cases hasWildcard c.version <;>
      cases c.operator.allowsWildcard <;> simp)

theorem IsValid.isVersion {c : Constraint} (h : c.IsValid) : isVersion c.version = true := by
  unfold IsValid ofParts at h
  split at h
  · cases h
  · rename_i hv
    simpa using hv

theorem isValid_of_ofParts {operator : Operator} {version : String} {c : Constraint}
    (h : ofParts operator version = .ok c) : c.IsValid := by
  obtain rfl := ofParts_eq_ok h
  exact h

/-! ## Characters of a version -/

theorem mem_plainParts_or {parts : List (List Char)} {part : List Char} (h : part ∈ parts) :
    part ∈ plainParts parts ∨ part = ['*'] := by
  unfold plainParts
  split
  · rename_i hs
    simp only [Bool.and_eq_true, decide_eq_true_eq, beq_iff_eq] at hs
    obtain ⟨init, hi⟩ := List.getLast?_eq_some_iff.mp hs.2
    subst hi
    simpa using h
  · exact .inl h

theorem mem_of_isVersionChars {cs : List Char} (h : isVersionChars cs = true) :
    ∀ c ∈ cs, isVersionChar c = true ∨ c = '.' ∨ c = '*' := by
  intro c hc
  by_cases hd : c = '.'
  · exact .inr (.inl hd)
  · obtain ⟨part, hp, hcp⟩ := mem_splitOn_of_mem hc hd
    rcases mem_plainParts_or hp with hp | rfl
    · have := List.all_eq_true.mp h part hp
      simp only [Bool.and_eq_true, List.all_eq_true] at this
      exact .inl (this.2 c hcp)
    · exact .inr (.inr (by simpa using hcp))

theorem ne_nil_of_isVersionChars {cs : List Char} (h : isVersionChars cs = true) : cs ≠ [] := by
  rintro rfl
  exact absurd h (by decide)

/-- The text of a constraint. -/
def chars (c : Constraint) : List Char := c.operator.symbol.toList ++ c.version.toList

theorem toList_render (c : Constraint) : c.render.toList = c.chars := String.toList_append

theorem IsValid.mem_version {c : Constraint} (h : c.IsValid) {d : Char}
    (hd : d ∈ c.version.toList) : isVersionChar d = true ∨ d = '.' ∨ d = '*' :=
  mem_of_isVersionChars h.isVersion d hd

theorem IsValid.version_ne_nil {c : Constraint} (h : c.IsValid) : c.version.toList ≠ [] :=
  ne_nil_of_isVersionChars h.isVersion

theorem isSpecChar_of_mem_symbol {op : Operator} {d : Char} (hd : d ∈ op.symbol.toList) :
    isSpecChar d = true := by
  have h : op.symbol.toList.all isSpecChar = true := by cases op <;> decide
  exact List.all_eq_true.mp h d hd

theorem IsValid.isSpecChar {c : Constraint} (h : c.IsValid) {d : Char} (hd : d ∈ c.chars) :
    isSpecChar d = true := by
  rcases List.mem_append.mp hd with hd | hd
  · exact isSpecChar_of_mem_symbol hd
  · rcases h.mem_version hd with hd | rfl | rfl
    · exact isSpecChar_of_isVersionChar hd
    · decide
    · decide

theorem chars_ne_nil (c : Constraint) : c.chars ≠ [] := by
  have h : c.operator.symbol.toList ≠ [] := by cases c.operator <;> decide
  simp [chars, h]

end Constraint

namespace Requirement

open Constraint

/-! ## One constraint -/

/-- The characters that an operator may start with. -/
def operatorStarts : List Char := ['=', '!', '~', '<', '>']

theorem exists_symbol_cons (op : Operator) :
    ∃ x s, op.symbol.toList = x :: s ∧ x ∈ operatorStarts := by
  cases op <;> refine ⟨_, _, rfl, ?_⟩ <;> decide

/-- An operator that another one starts with is tried after it, so the operator is found that a
text starts with, when no `=` follows it. -/
theorem operatorSplit?_append {op : Operator} {w v : List Char} (hw : Blanks w) (hne : v ≠ [])
    (hb : ∀ c ∈ v, isBlank c = false) (he : '=' ∉ v) :
    operatorSplit? (op.symbol.toList ++ (w ++ v)) = some (op, v) := by
  have ht : trimStart (w ++ v) = v := by
    rw [trimStart_append hw, trimStart_eq_self (bareStart_of_forall hb)]
  have hv : v.any isBlank = false := by simpa using hb
  have hn : v.isEmpty = false := by simpa using hne
  have hm : '=' ∉ w ++ v := by
    rw [List.mem_append, not_or]
    exact ⟨fun h => absurd (hw _ h) (by decide), he⟩
  obtain ⟨x, u, hx⟩ := List.exists_cons_of_ne_nil (List.append_ne_nil_of_right_ne_nil w hne)
  rw [hx] at ht hm ⊢
  have hxe : ('=' == x) = false := by
    have : '=' ≠ x := fun e => hm (e ▸ List.mem_cons_self)
    simpa using this
  simp only [operatorSplit?, Operator.byLength, List.findSome?_cons]
  cases op <;> simp only [Operator.symbol, String.reduceToList, List.cons_append, List.nil_append,
    List.isPrefixOf?, hxe] <;> simp only [Char.reduceBEq, ↓reduceIte, ht, hv, hn] <;> rfl

/-- A valid constraint is read back with any blanks between its operator and its version. -/
theorem readConstraint_append {c : Constraint} (h : c.IsValid) {w : List Char} (hw : Blanks w) :
    readConstraint (c.operator.symbol.toList ++ (w ++ c.version.toList)) = .ok c := by
  have hs : operatorSplit? (c.operator.symbol.toList ++ (w ++ c.version.toList)) =
      some (c.operator, c.version.toList) := by
    refine operatorSplit?_append hw h.version_ne_nil (fun d hd => ?_) (fun hd => ?_)
    · exact isBlank_of_isSpecChar (h.isSpecChar (List.mem_append_right _ hd))
    · rcases h.mem_version hd with hd | hd | hd
      · exact absurd hd (by decide)
      · cases hd
      · cases hd
  unfold readConstraint
  rw [hs]
  dsimp only
  rw [String.ofList_toList, show ofParts c.operator c.version = .ok c from h]
  rfl

theorem readConstraint_chars {c : Constraint} (h : c.IsValid) : readConstraint c.chars = .ok c :=
  readConstraint_append h Blanks.nil

/-- What is read as a constraint is valid, and blanks alone may stand behind its operator. -/
theorem readConstraint_eq_ok {cs : List Char} {c : Constraint} (h : readConstraint cs = .ok c) :
    c.IsValid ∧ ∃ w, Blanks w ∧ cs = c.operator.symbol.toList ++ (w ++ c.version.toList) := by
  unfold readConstraint at h
  split at h
  · cases h
  · rename_i op version hs
    cases hc : ofParts op (String.ofList version) with
    | error e => rw [hc] at h; cases h
    | ok c' =>
      rw [hc] at h
      cases h
      refine ⟨isValid_of_ofParts hc, ?_⟩
      obtain rfl := ofParts_eq_ok hc
      obtain ⟨op', -, h'⟩ := List.exists_of_findSome?_eq_some hs
      split at h'
      · cases h'
      · rename_i rest hr
        dsimp only at h'
        split at h'
        · cases h'
        · cases h'
          obtain ⟨w, hw, he⟩ := exists_trimStart rest
          refine ⟨w, hw, ?_⟩
          rw [isPrefixOf?_eq_some_iff.mp hr, String.toList_ofList, ← he]

/-! ## Lists of constraints -/

def listChars (xs : List Constraint) : List Char := [','].intercalate (xs.map chars)

/-- A character of a list of constraints as it may be written. -/
def isListChar (c : Char) : Bool := isBlank c || isSpecChar c || [',', '(', ')'].contains c

theorem mem_listChars {xs : List Constraint} (h : ∀ c ∈ xs, c.IsValid) :
    ∀ d ∈ listChars xs, isSpecChar d = true ∨ d = ',' := by
  intro d hd
  induction xs with
  | nil => simp [listChars] at hd
  | cons x xs ih =>
    have hx : ∀ e ∈ x.chars, isSpecChar e = true := fun e => (h x List.mem_cons_self).isSpecChar
    by_cases hne : xs = []
    · subst hne
      exact .inl (hx d (by simpa [listChars] using hd))
    · unfold listChars at hd
      rw [List.map_cons, List.intercalate_cons_of_ne_nil (by simpa using hne)] at hd
      simp only [List.append_assoc, List.mem_append, List.mem_singleton] at hd
      rcases hd with hd | hd | hd
      · exact .inl (hx d hd)
      · exact .inr hd
      · exact ih (fun c hc => h c (List.mem_cons_of_mem _ hc)) hd

theorem isBlank_of_mem_listChars {xs : List Constraint} (h : ∀ c ∈ xs, c.IsValid) :
    ∀ d ∈ listChars xs, isBlank d = false := by
  intro d hd
  rcases mem_listChars h d hd with hd | rfl
  · exact isBlank_of_isSpecChar hd
  · decide

theorem dropParens_of_not_mem {cs : List Char} (h : '(' ∉ cs) : dropParens cs = cs := by
  unfold dropParens
  split
  · exact absurd List.mem_cons_self h
  · rfl

theorem listChars_eq_nil_iff {xs : List Constraint} : listChars xs = [] ↔ xs = [] := by
  constructor
  · intro h
    cases xs with
    | nil => rfl
    | cons x xs =>
      have hs := flatten_sublist_intercalate [','] ((x :: xs).map chars)
      rw [← listChars, h, List.sublist_nil, List.flatten_eq_nil_iff] at hs
      exact absurd (hs x.chars (by simp)) (chars_ne_nil x)
  · rintro rfl
    rfl

section Pieces

variable {pieces : List (List Char)} {xs : List Constraint} (hne : pieces ≠ [])
  (hc : ∀ piece ∈ pieces, ',' ∉ piece)
  (h : List.Forall₂ (fun piece c => readConstraint (trim piece) = .ok c) pieces xs)

include hne hc h

/-- The blanks at the ends of a list are those of its first and its last piece. -/
theorem mapM_readConstraint_trim :
    ((trim ([','].intercalate pieces)).splitOn ',').mapM (fun c => readConstraint (trim c)) =
      .ok xs := by
  have hm (ps : List (List Char)) : ps.mapM (fun c => readConstraint (trim c)) =
      (ps.map trim).mapM readConstraint := by
    rw [List.mapM_map]
    rfl
  rw [hm, map_trim_splitOn_trim (by decide), List.splitOn_intercalate ',' hc hne, ← hm]
  exact mapM_eq_ok_iff.mpr h

theorem trim_intercalate_ne_nil : trim ([','].intercalate pieces) ≠ [] := by
  intro ht
  obtain ⟨piece, pieces', rfl⟩ := List.exists_cons_of_ne_nil hne
  obtain ⟨c, xs', hp, -, rfl⟩ := List.forall₂_cons_left_iff.mp h
  have hb : Blanks piece := by
    intro d hd
    have hdc : d ≠ ',' := fun e => hc piece List.mem_cons_self (e ▸ hd)
    exact trim_eq_nil_iff.mp ht d ((mem_intercalate_iff hdc).mpr ⟨piece, List.mem_cons_self, hd⟩)
  rw [trim_eq_nil_iff.mpr hb] at hp
  cases hp

/-- A list is read piece by piece. -/
theorem readConstraints_intercalate (hp : '(' ∉ [','].intercalate pieces) :
    readConstraints ([','].intercalate pieces) = .ok xs := by
  have he : (trim ([','].intercalate pieces)).isEmpty = false := by
    simpa using trim_intercalate_ne_nil hne hc h
  rw [readConstraints, he, dropParens_of_not_mem fun hm => hp (mem_of_mem_trim hm)]
  exact mapM_readConstraint_trim hne hc h

/-- A list in parentheses is read as the list itself. -/
theorem readConstraints_parens {w w' : List Char} (hw : Blanks w) (hw' : Blanks w') :
    readConstraints (w ++ ('(' :: ([','].intercalate pieces ++ [')'])) ++ w') = .ok xs := by
  have he : BareEnd (('(' :: [','].intercalate pieces) ++ [')']) := bareEnd_concat.mpr (by decide)
  have ht : IsTrimmed ('(' :: ([','].intercalate pieces ++ [')'])) :=
    isTrimmed_iff.mpr ⟨bareStart_cons.mpr (by decide), he⟩
  have hd : dropParens ('(' :: ([','].intercalate pieces ++ [')'])) =
      trim ([','].intercalate pieces) := by simp [dropParens]
  rw [readConstraints, trim_surround hw hw' ht, hd]
  exact mapM_readConstraint_trim hne hc h

end Pieces

theorem dropParens_sublist (cs : List Char) : (dropParens cs).Sublist cs := by
  unfold dropParens
  split
  · rename_i inner
    split
    · exact ((trim_sublist _).trans (List.dropLast_sublist inner)).cons _
    · exact List.Sublist.refl _
  · exact List.Sublist.refl _

theorem mem_dropParens_or {cs : List Char} {d : Char} (h : d ∈ cs) :
    d ∈ dropParens cs ∨ isListChar d = true := by
  unfold dropParens
  split
  · rename_i inner
    split
    · rename_i hl
      obtain ⟨init, rfl⟩ := List.getLast?_eq_some_iff.mp hl
      rw [List.dropLast_concat]
      obtain ⟨a, b, ha, hb, he⟩ := exists_trim init
      rw [he] at h
      simp only [List.mem_cons, List.mem_append, List.not_mem_nil, or_false] at h
      rcases h with rfl | ((h | h) | h) | rfl
      · exact .inr (by decide)
      · exact .inr (by simp [isListChar, ha d h])
      · exact .inl h
      · exact .inr (by simp [isListChar, hb d h])
      · exact .inr (by decide)
    · exact .inl h
  · exact .inl h

/-- What is read from one item of a list. -/
theorem readConstraint_trim_eq_ok {piece : List Char} {c : Constraint}
    (h : readConstraint (trim piece) = .ok c) :
    c.IsValid ∧ c.chars.Sublist piece ∧ ∀ d ∈ piece, isListChar d = true := by
  obtain ⟨hv, w, hw, ht⟩ := readConstraint_eq_ok h
  refine ⟨hv, ?_, fun d hd => ?_⟩
  · have hs : c.chars.Sublist (trim piece) := by
      rw [ht]
      exact (List.sublist_append_right w _).append_left _
    exact hs.trans (trim_sublist piece)
  · obtain ⟨a, b, ha, hb, he⟩ := exists_trim piece
    rw [he, ht] at hd
    simp only [List.mem_append] at hd
    rcases hd with (hd | hd | hd | hd) | hd
    · simp [isListChar, ha d hd]
    · simp [isListChar, isSpecChar_of_mem_symbol hd]
    · simp [isListChar, hw d hd]
    · simp [isListChar, hv.isSpecChar (List.mem_append_right _ hd)]
    · simp [isListChar, hb d hd]

theorem readConstraint_forall₂ {pieces : List (List Char)} {xs : List Constraint}
    (h : List.Forall₂ (fun piece c => readConstraint (trim piece) = .ok c) pieces xs) :
    (∀ c ∈ xs, c.IsValid) ∧ (xs.flatMap chars).Sublist pieces.flatten ∧
      ∀ piece ∈ pieces, ∀ d ∈ piece, isListChar d = true := by
  induction h with
  | nil => simp
  | cons hx _ ih =>
    obtain ⟨hv, hs, hl⟩ := readConstraint_trim_eq_ok hx
    obtain ⟨ihv, ihs, ihl⟩ := ih
    exact ⟨List.forall_mem_cons.mpr ⟨hv, ihv⟩, hs.append ihs,
      List.forall_mem_cons.mpr ⟨hl, ihl⟩⟩

/-- The constraints are valid, they stand in the text in their order, and the text holds nothing
else of note. -/
def IsListOf (cs : List Char) (xs : List Constraint) : Prop :=
  (∀ c ∈ xs, c.IsValid) ∧ (xs.flatMap chars).Sublist cs ∧ ∀ d ∈ cs, isListChar d = true

theorem readConstraints_eq_ok {cs : List Char} {xs : List Constraint}
    (h : readConstraints cs = .ok xs) : IsListOf cs xs := by
  obtain ⟨a, b, ha, hb, he⟩ := exists_trim cs
  rw [readConstraints] at h
  split at h
  · rename_i hn
    cases h
    have hc := trim_eq_nil_iff.mp (List.isEmpty_iff.mp hn)
    exact ⟨by simp, by simp, fun d hd => by simp [isListChar, hc d hd]⟩
  · obtain ⟨hv, hs, hl⟩ := readConstraint_forall₂ (mapM_eq_ok_iff.mp h)
    refine ⟨hv, ?_, fun d hd => ?_⟩
    · exact ((hs.trans (flatten_splitOn_sublist ',' _)).trans (dropParens_sublist _)).trans
        (trim_sublist cs)
    · rw [he] at hd
      simp only [List.mem_append] at hd
      rcases hd with (hd | hd) | hd
      · simp [isListChar, ha d hd]
      · rcases mem_dropParens_or hd with hd | hd
        · by_cases hc : d = ','
          · subst hc; decide
          · obtain ⟨piece, hp, hd⟩ := mem_splitOn_of_mem hd hc
            exact hl piece hp d hd
        · exact hd
      · simp [isListChar, hb d hd]

end Requirement

end PinFile
