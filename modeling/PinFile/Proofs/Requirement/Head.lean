import PinFile.Proofs.Name
import PinFile.Proofs.Text.Pieces
import PinFile.Requirement.Reader

/-!
# Reading names and extras

The head of a specifier is a name and a bracket group of extras. Both are read from a text that
starts with them, and the extras from the items between its commas (`head?_append`,
`readExtras_intercalate`). What is read from any text stands in the text, and nothing else stands
there but blanks, brackets and commas (`head?_eq_some`, `readExtras_eq_ok`).
-/

namespace PinFile.Requirement

open Text

/-! ## Extras -/

/-- The text between the brackets. -/
def extrasChars (extras : List String) : List Char := [','].intercalate (extras.map String.toList)

theorem mem_extrasChars {extras : List String} (h : ∀ e ∈ extras, Name.isValid e = true) :
    ∀ c ∈ extrasChars extras, isNameChar c = true ∨ c = ',' := by
  intro c hc
  induction extras with
  | nil => simp [extrasChars] at hc
  | cons e extras ih =>
    have he := Name.isNameChar_of_isValid (h e List.mem_cons_self)
    by_cases hne : extras = []
    · subst hne
      exact .inl (he c (by simpa [extrasChars] using hc))
    · unfold extrasChars at hc
      rw [List.map_cons, List.intercalate_cons_of_ne_nil (by simpa using hne)] at hc
      simp only [List.append_assoc, List.mem_append, List.mem_singleton] at hc
      rcases hc with hc | hc | hc
      · exact .inl (he c hc)
      · exact .inr hc
      · exact ih (fun e' he' => h e' (List.mem_cons_of_mem _ he')) hc

theorem addExtra_of_isValid {extra : String} (h : Name.isValid extra = true) (r : Requirement) :
    r.addExtra extra = .ok { r with extras := r.extras ++ [extra] } := by
  unfold addExtra
  rw [if_pos h]

theorem foldlM_addExtra {extras : List String} (h : ∀ e ∈ extras, Name.isValid e = true)
    (r : Requirement) :
    (extras.map String.toList).foldlM (m := Except LineError)
        (fun r extra => (r.addExtra (String.ofList extra)).mapError .part) r =
      .ok { r with extras := r.extras ++ extras } := by
  induction extras generalizing r with
  | nil => simp [pure, Except.pure]
  | cons e extras ih =>
    rw [List.map_cons, List.foldlM_cons, String.ofList_toList,
      addExtra_of_isValid (h e List.mem_cons_self)]
    refine (ih (fun e' he' => h e' (List.mem_cons_of_mem _ he')) _).trans ?_
    simp

/-- Extras are read from the items between the commas: the blanks around an item do not count, and
an item that is nothing else is skipped. -/
theorem readExtras_intercalate {extras : List String} {items : List (List Char)}
    (h : ∀ e ∈ extras, Name.isValid e = true) (hc : ∀ item ∈ items, ',' ∉ item)
    (hi : (items.map trim).filter (!·.isEmpty) = extras.map String.toList) (r : Requirement) :
    readExtras r ([','].intercalate items) = .ok { r with extras := r.extras ++ extras } := by
  have hs : ((([','].intercalate items).splitOn ',').map trim).filter (!·.isEmpty) =
      extras.map String.toList := by
    by_cases hne : items = []
    · subst hne
      exact hi
    · rw [List.splitOn_intercalate ',' hc hne, hi]
  unfold readExtras
  rw [hs]
  exact foldlM_addExtra h r

theorem foldlM_addExtra_eq_ok {pieces : List (List Char)} {r r' : Requirement}
    (h : pieces.foldlM (m := Except LineError)
      (fun r extra => (r.addExtra (String.ofList extra)).mapError .part) r = .ok r') :
    r' = { r with extras := r.extras ++ pieces.map String.ofList } ∧
      ∀ piece ∈ pieces, Name.isValid (String.ofList piece) = true := by
  induction pieces generalizing r with
  | nil =>
    cases h
    simp
  | cons piece pieces ih =>
    rw [List.foldlM_cons] at h
    cases hv : Name.isValid (String.ofList piece) with
    | false =>
      unfold addExtra at h
      rw [if_neg (by simp [hv])] at h
      cases h
    | true =>
      rw [addExtra_of_isValid hv] at h
      obtain ⟨rfl, hp⟩ := ih h
      exact ⟨by simp, List.forall_mem_cons.mpr ⟨hv, hp⟩⟩

/-- A character of a bracket group as it may be written. -/
def isExtrasChar (c : Char) : Bool := isBlank c || isNameChar c || c == ','

/-- Extras that are read are valid names, they stand in the text in their order, and the text holds
nothing else of note. -/
theorem readExtras_eq_ok {cs : List Char} {r r' : Requirement} (h : readExtras r cs = .ok r') :
    ∃ extras, r' = { r with extras := r.extras ++ extras } ∧
      (∀ e ∈ extras, Name.isValid e = true) ∧ (extras.flatMap String.toList).Sublist cs ∧
      ∀ c ∈ cs, isExtrasChar c = true := by
  obtain ⟨rfl, hv⟩ := foldlM_addExtra_eq_ok h
  generalize hp : ((cs.splitOn ',').map trim).filter (!·.isEmpty) = pieces at hv
  refine ⟨_, rfl, by simpa using hv, ?_, fun c hc => ?_⟩
  · have he : (pieces.map String.ofList).flatMap String.toList = pieces.flatten := by
      rw [List.flatMap_map]
      simp [List.flatMap]
    rw [he, ← hp]
    exact ((flatten_filter_sublist _ _).trans (flatten_map_trim_sublist _)).trans
      (flatten_splitOn_sublist ',' cs)
  · by_cases hd : c = ','
    · subst hd; decide
    · obtain ⟨piece, hm, hcp⟩ := mem_splitOn_of_mem hc hd
      obtain ⟨a, b, ha, hb, he⟩ := exists_trim piece
      rw [he] at hcp
      simp only [List.mem_append] at hcp
      rcases hcp with (hcp | hcp) | hcp
      · simp [isExtrasChar, ha c hcp]
      · have hmem : trim piece ∈ pieces := by
          rw [← hp, List.mem_filter]
          exact ⟨List.mem_map_of_mem hm, by simpa using List.ne_nil_of_mem hcp⟩
        have := Name.isNameChar_of_isValid (hv _ hmem) c (by simpa using hcp)
        simp [isExtrasChar, this]
      · simp [isExtrasChar, hb c hcp]

/-! ## Heads -/

/-- The text of a name and a bracket group. -/
def headChars (name : List Char) (extras : Option (List Char)) : List Char :=
  match extras with
  | none => name
  | some cs => name ++ '[' :: (cs ++ [']'])

theorem takeWhile_isNameChar_append {name rest : List Char} (h : ∀ c ∈ name, isNameChar c = true)
    (hr : ∀ c ∈ rest.head?, isNameChar c = false) :
    (name ++ rest).takeWhile isNameChar = name ∧ (name ++ rest).dropWhile isNameChar = rest := by
  rw [List.takeWhile_append_of_pos h, List.dropWhile_append_of_pos h]
  cases rest with
  | nil => simp
  | cons c rest =>
    have hc : isNameChar c = false := hr c rfl
    simp [hc]

theorem headChars_append (name : List Char) (extras : Option (List Char)) :
    headChars name extras = name ++ headChars [] extras := by
  cases extras <;> simp [headChars]

/-- A name ends where `after` starts, and what stands there is a bracket group or not. -/
theorem head?_append {name after rest : List Char} {extras : Option (List Char)}
    (hn : ∀ c ∈ name, isNameChar c = true) (hl : name.head?.any isLetterOrDigit = true)
    (hc : ∀ c ∈ after.head?, isNameChar c = false)
    (ha : trimStart after = headChars [] extras ++ rest) (he : ∀ cs ∈ extras, ']' ∉ cs)
    (hb : ∀ c ∈ (trimStart rest).head?, c ≠ '[') (hf : '\n' ∉ trimStart rest) :
    head? (name ++ after) = some ⟨name, extras, trimStart rest⟩ := by
  obtain ⟨ht, hd⟩ := takeWhile_isNameChar_append hn hc
  cases extras with
  | none =>
    have hr : rest = trimStart after := ha.symm
    have hrs : trimStart rest = rest := hr ▸ trimStart_eq_self (bareStart_trimStart after)
    have hg : bracketGroup? (trimStart after) = none := by
      unfold bracketGroup?
      split
      · rename_i hs
        exact absurd rfl (hb '[' (by rw [hrs, hr, hs]; rfl))
      · rfl
    rw [hrs, hr] at hf ⊢
    simp [head?, ht, hd, hg, hl, hf]
  | some cs =>
    have hg : bracketGroup? (trimStart after) = some (cs, rest) := by
      have ha' : trimStart after = '[' :: (cs ++ ']' :: rest) := by simpa [headChars] using ha
      rw [ha', bracketGroup?, cut?_sign (he cs rfl)]
    simp [head?, ht, hd, hg, hl, hf]

/-- A head stands at the start of the text it is read from, with blanks behind its parts. -/
theorem head?_eq_some {cs : List Char} {head : Head} (h : head? cs = some head) :
    (∀ c ∈ head.name, isNameChar c = true) ∧ head.name.head?.any isLetterOrDigit = true ∧
      '\n' ∉ head.rest ∧ ∃ w w', Blanks w ∧ Blanks w' ∧
        cs = head.name ++ (w ++ (headChars [] head.extras ++ (w' ++ head.rest))) := by
  obtain ⟨w, hw, ha⟩ := exists_trimStart (cs.dropWhile isNameChar)
  have hn : ∀ c ∈ cs.takeWhile isNameChar, isNameChar c = true :=
    fun c hc => List.all_eq_true.mp List.all_takeWhile c hc
  have hcs : cs = cs.takeWhile isNameChar ++ (w ++ trimStart (cs.dropWhile isNameChar)) := by
    rw [← ha, List.takeWhile_append_dropWhile]
  cases hg : bracketGroup? (trimStart (cs.dropWhile isNameChar)) with
  | none =>
    simp only [head?, hg, Option.ite_none_right_eq_some, Bool.and_eq_true, Bool.not_eq_true',
      List.contains_eq_mem, decide_eq_false_iff_not, Option.some.injEq] at h
    obtain ⟨⟨hl, hf⟩, rfl⟩ := h
    exact ⟨hn, hl, hf, w, [], hw, Blanks.nil, hcs⟩
  | some group =>
    obtain ⟨extras, rest⟩ := group
    simp only [head?, hg, Option.ite_none_right_eq_some, Bool.and_eq_true, Bool.not_eq_true',
      List.contains_eq_mem, decide_eq_false_iff_not, Option.some.injEq] at h
    obtain ⟨⟨hl, hf⟩, rfl⟩ := h
    obtain ⟨w', hw', hr⟩ := exists_trimStart rest
    refine ⟨hn, hl, hf, w, w', hw, hw', ?_⟩
    unfold bracketGroup? at hg
    split at hg
    · rename_i inner hi
      obtain ⟨d, hd, rfl, -⟩ := eq_append_of_cut? hg
      obtain rfl : d = ']' := by simpa using hd
      rw [hi] at hcs
      simp only [headChars, List.nil_append, List.cons_append, List.append_assoc, ← hr]
      exact hcs
    · cases hg

end PinFile.Requirement
