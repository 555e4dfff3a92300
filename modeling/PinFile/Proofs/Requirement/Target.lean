import PinFile.Proofs.Requirement.Constraints
import PinFile.Proofs.Requirement.Head
import PinFile.Proofs.Text.Value

/-!
# Reading URLs, constraints and markers

What stands behind the head of a requirement is a URL or a list of constraints, and a marker
behind `;`. Both forms are read back from their text, and a text that is read as one of them is
its parts with blanks around them (`readReference_eq_ok`, `readVersions_eq_ok`). The head decides
which of the two is read (`readSpec_of_head?`).
-/

namespace PinFile.Requirement

open Text Constraint

variable {r r' : Requirement} {cs : List Char}

/-! ## Markers -/

theorem readMarker_append {m w w' : List Char} (hne : m ≠ []) (ht : IsTrimmed m) (hw : Blanks w)
    (hw' : Blanks w') : readMarker (w ++ m ++ w') = .ok (String.ofList m) := by
  unfold readMarker
  rw [trim_surround hw hw' ht]
  simp [hne]

theorem readMarker_eq_ok {marker : String} (h : readMarker cs = .ok marker) :
    marker.toList ≠ [] ∧ IsTrimmed marker.toList ∧
      ∃ w w', Blanks w ∧ Blanks w' ∧ cs = w ++ marker.toList ++ w' := by
  unfold readMarker at h
  dsimp only at h
  split at h
  · cases h
  · rename_i hne
    cases h
    obtain ⟨w, w', hw, hw', he⟩ := exists_trim cs
    rw [String.toList_ofList]
    exact ⟨by simpa using hne, isTrimmed_trim cs, w, w', hw, hw', he⟩

/-- Blanks around a marker do not count. -/
theorem readMarker_congr {cs' : List Char} (h : trim cs = trim cs') :
    readMarker cs = readMarker cs' := by
  unfold readMarker
  rw [h]

/-! ## URLs -/

theorem readReference_url {url : List Char} (h : IsUrl url) :
    readReference r url = .ok { r with url := some (String.ofList url) } := by
  simp [readReference, cut?_eq_none h.noBlank, h.ne_nil, h.head, show trim [] = [] from rfl]

/-- The text behind `;` is the marker of a URL, when a blank stands between the two. -/
theorem readReference_append {url w : List Char} (h : IsUrl url) (hw : Blanks w) (hne : w ≠ [])
    (cs : List Char) :
    readReference r (url ++ (w ++ ';' :: cs)) = (readMarker cs).map fun m =>
      { r with url := some (String.ofList url), marker := some m } := by
  obtain ⟨d, w, rfl⟩ := List.exists_cons_of_ne_nil hne
  obtain ⟨hd, hw⟩ := List.forall_mem_cons.mp hw
  have hc : cut? isBlank (url ++ (d :: (w ++ ';' :: cs))) = some (url, w ++ ';' :: cs) :=
    cut?_append_cons h.noBlank hd
  have ht : trim (w ++ ';' :: cs) = ';' :: trimEnd cs := trim_blanks_append_cons hw (by decide) cs
  simp only [readReference, List.cons_append, hc, Option.getD_some, ht,
    readMarker_congr (trim_trimEnd cs)]
  simp only [List.isEmpty_iff, h.ne_nil, beq_iff_eq, h.head, Bool.or_eq_true,
    or_self, ↓reduceIte]
  cases readMarker cs <;> rfl

theorem readReference_semicolon {url : List Char} (h : IsUrl url) :
    readReference r (url ++ [' ', ';']) = .error .emptyMarker :=
  readReference_append h blanks_space (by simp) []

/-- A text is read as a URL and perhaps a marker when it is made of them and of blanks. -/
theorem readReference_eq_ok (h : readReference r cs = .ok r') :
    ∃ url, IsUrl url.toList ∧
      ((r' = { r with url := some url } ∧ ∃ w, Blanks w ∧ cs = url.toList ++ w) ∨
        ∃ m w₁ w₂ w₃, r' = { r with url := some url, marker := some m } ∧ m.toList ≠ [] ∧
          IsTrimmed m.toList ∧ Blanks w₁ ∧ Blanks w₂ ∧ Blanks w₃ ∧
          cs = url.toList ++ (w₁ ++ ';' :: (w₂ ++ m.toList ++ w₃))) := by
  obtain ⟨url, rest, w, hw, hu, hcut, hcs⟩ : ∃ url rest w, Blanks w ∧
      (∀ c ∈ url, isBlank c = false) ∧ (cut? isBlank cs).getD (cs, []) = (url, rest) ∧
      cs = url ++ (w ++ rest) := by
    cases hc : cut? isBlank cs with
    | none => exact ⟨cs, [], [], Blanks.nil, forall_of_cut?_eq_none hc, rfl, by simp⟩
    | some parts =>
      obtain ⟨url, rest⟩ := parts
      obtain ⟨c, hb, rfl, hu⟩ := eq_append_of_cut? hc
      exact ⟨url, rest, [c], by simpa [Blanks] using hb, hu, rfl, by simp⟩
  obtain ⟨a, b, ha, hb, hrest⟩ := exists_trim rest
  simp only [readReference, hcut] at h
  split at h
  · cases h
  · rename_i hne
    simp only [Bool.or_eq_true, List.isEmpty_iff, beq_iff_eq, not_or] at hne
    refine ⟨String.ofList url, ?_, ?_⟩
    · rw [String.toList_ofList]
      exact ⟨hne.1, hu, hne.2⟩
    · rw [String.toList_ofList]
      split at h
      · rename_i ht
        cases h
        rw [ht, List.append_nil] at hrest
        exact .inl ⟨rfl, w ++ rest, hw.append (hrest ▸ ha.append hb), hcs⟩
      · rename_i marker ht
        obtain ⟨m, hm, h⟩ := bind_eq_ok_iff.mp h
        cases h
        obtain ⟨hmn, hmt, w₂, w₃, hw₂, hw₃, hme⟩ := readMarker_eq_ok hm
        refine .inr ⟨m, w ++ a, w₂, w₃ ++ b, rfl, hmn, hmt, hw.append ha, hw₂,
          hw₃.append hb, ?_⟩
        rw [hcs, hrest, ht, hme]
        simp
      · cases h

/-! ## Constraints -/

theorem not_mem_listChars {xs : List Constraint} (h : ∀ c ∈ xs, c.IsValid) :
    ';' ∉ listChars xs := by
  intro hm
  rcases mem_listChars h _ hm with hm | hm
  · exact absurd hm (by decide)
  · cases hm

/-- A text without `;` holds constraints alone. -/
theorem readVersions_of_not_mem (h : ';' ∉ cs) :
    readVersions r cs = (readConstraints cs).map fun constraints => { r with constraints } := by
  unfold readVersions
  rw [cut?_sign_eq_none h]
  dsimp only
  cases readConstraints cs <;> rfl

/-- The text behind the first `;` is the marker of a list of constraints. -/
theorem readVersions_append {spec : List Char} (h : ';' ∉ spec) (cs : List Char) :
    readVersions r (spec ++ ';' :: cs) = (do
      let m ← readMarker cs
      let constraints ← readConstraints spec
      return { r with constraints, marker := some m }) := by
  have ht : trim (trim spec) = trim spec := isTrimmed_trim spec
  unfold readVersions
  rw [cut?_sign h]
  simp only [readConstraints, ht]

theorem readVersions_semicolon {xs : List Constraint} (h : ∀ c ∈ xs, c.IsValid) :
    readVersions r (listChars xs ++ [';']) = .error .emptyMarker :=
  readVersions_append (not_mem_listChars h) []

theorem isListOf_trim {xs : List Constraint} (h : IsListOf (trim cs) xs) : IsListOf cs xs := by
  obtain ⟨hv, hs, hl⟩ := h
  refine ⟨hv, hs.trans (trim_sublist cs), fun d hd => ?_⟩
  obtain ⟨a, b, ha, hb, he⟩ := exists_trim cs
  rw [he] at hd
  simp only [List.mem_append] at hd
  rcases hd with (hd | hd) | hd
  · simp [isListChar, ha d hd]
  · exact hl d hd
  · simp [isListChar, hb d hd]

theorem readVersions_eq_ok (h : readVersions r cs = .ok r') :
    ∃ xs, (r' = { r with constraints := xs } ∧ IsListOf cs xs) ∨
      ∃ spec m w w', r' = { r with constraints := xs, marker := some m } ∧ IsListOf spec xs ∧
        m.toList ≠ [] ∧ IsTrimmed m.toList ∧ Blanks w ∧ Blanks w' ∧
        cs = spec ++ ';' :: (w ++ m.toList ++ w') := by
  unfold readVersions at h
  split at h
  · obtain ⟨xs, hx, h⟩ := bind_eq_ok_iff.mp h
    cases h
    exact ⟨xs, .inl ⟨rfl, readConstraints_eq_ok hx⟩⟩
  · rename_i spec marker hc
    obtain ⟨m, hm, h⟩ := bind_eq_ok_iff.mp h
    obtain ⟨xs, hx, h⟩ := bind_eq_ok_iff.mp h
    cases h
    obtain ⟨hmn, hmt, w, w', hw, hw', rfl⟩ := readMarker_eq_ok hm
    obtain ⟨d, hd, rfl, -⟩ := eq_append_of_cut? hc
    obtain rfl : d = ';' := by simpa using hd
    exact ⟨xs, .inr ⟨spec, m, w, w', rfl, isListOf_trim (readConstraints_eq_ok hx), hmn, hmt, hw,
      hw', rfl⟩⟩

/-! ## Behind the head -/

/-- What stands behind the head is read when the head and its extras are read. -/
theorem readSpec_of_head? {name : String} {extras : Option (List Char)} {rest : List Char}
    (hh : head? cs = some ⟨name.toList, extras, rest⟩) (hn : Name.isValid name = true)
    (he : readExtras (bare name) (extras.getD []) = .ok r) :
    readSpec cs = match trim rest with
      | '@' :: reference => readReference r (trim reference)
      | rest => readVersions r rest := by
  have hname : ofName (String.ofList name.toList) = .ok (bare name) := by
    rw [String.ofList_toList, ofName, if_pos hn]
  unfold readSpec
  rw [hh]
  dsimp only
  rw [hname]
  change (readExtras (bare name) (extras.getD []) >>= _) = _
  rw [he]
  rfl

end PinFile.Requirement
