import Mathlib.Data.List.TakeWhile
import PinFile.Proofs.Text.Trim
import PinFile.Text

/-!
# Pieces of a text

What `cut?`, `splitOn` and `words` find in a text. The pieces of a text, put together again, are
a part of it (`flatten_splitOn_sublist`). Blanks around words do not count, and those at the ends of
a text are found around its pieces (`map_trim_splitOn_trim`).
-/

namespace PinFile.Text

/-! ## Cuts and prefixes -/

theorem eq_append_of_cut? {p : Char → Bool} {cs head tail : List Char}
    (h : cut? p cs = some (head, tail)) :
    ∃ c, p c = true ∧ cs = head ++ c :: tail ∧ ∀ d ∈ head, p d = false := by
  unfold cut? at h
  split at h
  · cases h
  · rename_i c rest hc
    cases h
    refine ⟨c, ?_, ?_, fun d hd => ?_⟩
    · have := List.head?_dropWhile_not (fun d => !p d) cs
      rw [hc] at this
      simpa using this
    · rw [← hc, List.takeWhile_append_dropWhile]
    · simpa using List.all_eq_true.mp List.all_takeWhile d hd

/-- A text falls apart in one way at the first of a sign. -/
theorem append_cons_inj {c : Char} {xs ys as bs : List Char} (hx : c ∉ xs) (hy : c ∉ ys)
    (h : xs ++ c :: as = ys ++ c :: bs) : xs = ys ∧ as = bs := by
  have hc := (cut?_sign hx as).symm.trans ((congrArg _ h).trans (cut?_sign hy bs))
  simpa using hc

theorem forall_of_cut?_eq_none {p : Char → Bool} {cs : List Char} (h : cut? p cs = none) :
    ∀ c ∈ cs, p c = false := by
  unfold cut? at h
  split at h
  · rename_i hc
    intro c hm
    have := List.dropWhile_eq_nil_iff.mp hc c hm
    simpa using this
  · cases h

theorem isPrefixOf?_eq_some_iff {xs ys rest : List Char} :
    xs.isPrefixOf? ys = some rest ↔ ys = xs ++ rest := by
  induction xs generalizing ys with
  | nil => simp [List.isPrefixOf?, eq_comm]
  | cons x xs ih =>
    cases ys with
    | nil => simp [List.isPrefixOf?]
    | cons y ys =>
      simp only [List.isPrefixOf?, beq_iff_eq, List.cons_append, List.cons.injEq]
      split
      · rename_i h
        simp [ih, h]
      · rename_i h
        simp [Ne.symm h]

/-! ## Pieces put together -/

theorem flatten_sublist_intercalate (sep : List Char) (xs : List (List Char)) :
    xs.flatten.Sublist (sep.intercalate xs) := by
  induction xs with
  | nil => exact List.Sublist.refl _
  | cons x xs ih =>
    by_cases h : xs = []
    · subst h
      simp
    · rw [List.flatten_cons, List.intercalate_cons_of_ne_nil h, List.append_assoc]
      exact (ih.trans (List.sublist_append_right sep _)).append_left x

/-- The first piece stands in front. -/
theorem exists_intercalate_cons (sep x : List Char) (xs : List (List Char)) :
    ∃ t, sep.intercalate (x :: xs) = x ++ t := by
  by_cases h : xs = []
  · exact ⟨[], by simp [h]⟩
  · rw [List.intercalate_cons_of_ne_nil h, List.append_assoc]
    exact ⟨_, rfl⟩

/-- Separators do not count. -/
theorem count_intercalate {c d : Char} (h : d ≠ c) (xs : List (List Char)) :
    ([c].intercalate xs).count d = xs.flatten.count d := by
  induction xs with
  | nil => rfl
  | cons x xs ih =>
    by_cases hx : xs = []
    · subst hx
      simp
    · rw [List.intercalate_cons_of_ne_nil hx, List.append_assoc, List.count_append,
        List.count_append, ih, List.flatten_cons, List.count_append]
      simp [h.symm]

theorem mem_intercalate_iff {c d : Char} (h : d ≠ c) {xs : List (List Char)} :
    d ∈ [c].intercalate xs ↔ ∃ x ∈ xs, d ∈ x := by
  rw [← List.count_pos_iff, count_intercalate h, List.count_pos_iff, List.mem_flatten]

theorem flatten_splitOn_sublist (c : Char) (cs : List Char) :
    (cs.splitOn c).flatten.Sublist cs := by
  have h := flatten_sublist_intercalate [c] (cs.splitOn c)
  rwa [List.intercalate_splitOn] at h

theorem flatten_map_trim_sublist (xs : List (List Char)) :
    (xs.map trim).flatten.Sublist xs.flatten := by
  induction xs with
  | nil => exact List.Sublist.refl _
  | cons x xs ih => exact (trim_sublist x).append ih

theorem flatten_filter_sublist (p : List Char → Bool) (xs : List (List Char)) :
    (xs.filter p).flatten.Sublist xs.flatten := by
  induction xs with
  | nil => exact List.Sublist.refl _
  | cons x xs ih =>
    rw [List.filter_cons]
    split
    · exact ih.append_left x
    · exact ih.trans (List.sublist_append_right x _)

/-- A character is a separator or stands in one of the pieces. -/
theorem mem_splitOn_of_mem {c d : Char} {cs : List Char} (h : d ∈ cs) (hd : d ≠ c) :
    ∃ piece ∈ cs.splitOn c, d ∈ piece := by
  have hi : [c].intercalate (cs.splitOn c) = cs := List.intercalate_splitOn c
  generalize cs.splitOn c = pieces at hi
  subst hi
  induction pieces with
  | nil => simp at h
  | cons piece pieces ih =>
    by_cases hp : pieces = []
    · subst hp
      exact ⟨piece, List.mem_cons_self, by simpa using h⟩
    · rw [List.intercalate_cons_of_ne_nil hp] at h
      simp only [List.append_assoc, List.mem_append, List.mem_singleton, hd, false_or] at h
      rcases h with h | h
      · exact ⟨piece, List.mem_cons_self, h⟩
      · obtain ⟨piece', hm, hd'⟩ := ih h
        exact ⟨piece', List.mem_cons_of_mem _ hm, hd'⟩

theorem not_mem_of_mem_splitOn {c : Char} {cs : List Char} :
    ∀ piece ∈ cs.splitOn c, c ∉ piece := by
  induction cs with
  | nil => simp
  | cons d cs ih =>
    rw [List.splitOn_cons_eq_if_modifyHead]
    split
    · exact List.forall_mem_cons.mpr ⟨by simp, ih⟩
    · rename_i hd
      cases hs : cs.splitOn c with
      | nil => simp
      | cons piece pieces =>
        rw [hs] at ih
        obtain ⟨hp, hps⟩ := List.forall_mem_cons.mp ih
        refine List.forall_mem_cons.mpr ⟨fun hm => ?_, hps⟩
        rcases List.mem_cons.mp hm with rfl | hm
        · exact hd (beq_self_eq_true c)
        · exact hp hm

theorem map_trim_splitOn_append {c : Char} (hc : isBlank c = false) {w : List Char}
    (hw : Blanks w) (cs : List Char) :
    ((w ++ cs).splitOn c).map trim = (cs.splitOn c).map trim := by
  induction w with
  | nil => rfl
  | cons d w ih =>
    have hd : isBlank d = true := hw d List.mem_cons_self
    have ih := ih fun e he => hw e (List.mem_cons_of_mem _ he)
    rw [List.cons_append, List.splitOn_cons_eq_if_modifyHead, if_neg]
    · rw [← ih]
      cases (w ++ cs).splitOn c with
      | nil => rfl
      | cons piece pieces =>
        have ht : trim (d :: piece) = trim piece :=
          trim_append (a := [d]) (by simpa [Blanks] using hd) piece
        rw [List.modifyHead_cons, List.map_cons, ht, List.map_cons]
    · rintro he
      rw [beq_iff_eq.mp he, hc] at hd
      cases hd

theorem map_trimEnd_splitOn_append {c : Char} (hc : isBlank c = false) {w : List Char}
    (hw : Blanks w) (cs : List Char) :
    ((cs ++ w).splitOn c).map trimEnd = (cs.splitOn c).map trimEnd := by
  induction cs with
  | nil =>
    have hm : c ∉ w := fun h => by
      rw [hw c h] at hc
      cases hc
    rw [List.nil_append, List.splitOn_eq_singleton hm, List.splitOn_nil, List.map_singleton,
      ← List.nil_append w, trimEnd_append [] hw, List.map_singleton]
  | cons d cs ih =>
    rw [List.cons_append, List.splitOn_cons_eq_if_modifyHead, List.splitOn_cons_eq_if_modifyHead]
    split
    · rw [List.map_cons, ih, List.map_cons]
    · -- The first piece, with `d` in front of it, is trimmed as its own trimmed text would be.
      have hd : ∀ piece, trimEnd (d :: piece) = trimEnd (d :: trimEnd piece) := by
        intro piece
        obtain ⟨b, hb, hp⟩ := exists_trimEnd piece
        conv_lhs => rw [hp, ← List.cons_append, trimEnd_append _ hb]
      cases hs : (cs ++ w).splitOn c with
      | nil => exact absurd hs (List.splitOn_ne_nil _ _)
      | cons piece pieces =>
        cases hs' : cs.splitOn c with
        | nil => exact absurd hs' (List.splitOn_ne_nil _ _)
        | cons piece' pieces' =>
          rw [hs, hs', List.map_cons, List.map_cons] at ih
          obtain ⟨hp, hps⟩ := List.cons.inj ih
          rw [List.modifyHead_cons, List.modifyHead_cons, List.map_cons, List.map_cons, hps,
            hd piece, hp, ← hd piece']

/-- A text that is trimmed falls into the same pieces, up to blanks around them. -/
theorem map_trim_splitOn_trim {c : Char} (hc : isBlank c = false) (cs : List Char) :
    ((trim cs).splitOn c).map trim = (cs.splitOn c).map trim := by
  have he : ∀ pieces : List (List Char), pieces.map trim = (pieces.map trimEnd).map trim := by
    intro pieces
    rw [List.map_map]
    exact List.map_congr_left fun piece _ => (trim_trimEnd piece).symm
  obtain ⟨a, b, ha, hb, hcs⟩ := exists_trim cs
  conv_rhs => rw [hcs, List.append_assoc, map_trim_splitOn_append hc ha, he,
    map_trimEnd_splitOn_append hc hb, ← he]

/-- Pieces that are not empty are found again between the separators. -/
theorem intercalate_inj {c : Char} {xs ys : List (List Char)} (hx : ∀ x ∈ xs, c ∉ x ∧ x ≠ [])
    (hy : ∀ y ∈ ys, c ∉ y ∧ y ≠ []) (h : [c].intercalate xs = [c].intercalate ys) : xs = ys := by
  have hfind {zs : List (List Char)} (hz : ∀ z ∈ zs, c ∉ z ∧ z ≠ []) :
      (([c].intercalate zs).splitOn c).filter (!·.isEmpty) = zs := by
    by_cases hne : zs = []
    · subst hne
      simp
    · rw [List.splitOn_intercalate c (fun z hm => (hz z hm).1) hne, List.filter_eq_self]
      exact fun z hm => by simpa using (hz z hm).2
  rw [← hfind hx, h, hfind hy]

/-! ## Words -/

theorem words_cons_of_isBlank {c : Char} (h : isBlank c = true) (cs : List Char) :
    words (c :: cs) = words cs := by
  have := List.splitOnP_append_cons (p := isBlank) [] cs h
  simp only [List.nil_append, List.splitOnP_nil] at this
  simp [words, this]

theorem words_of_forall {w : List Char} (hw : ∀ c ∈ w, isBlank c = false) (hne : w ≠ []) :
    words w = [w] := by
  simp [words, List.splitOnP_eq_singleton hw, hne]

theorem words_append_cons {w : List Char} (hw : ∀ c ∈ w, isBlank c = false) (hne : w ≠ [])
    {c : Char} (hc : isBlank c = true) (cs : List Char) :
    words (w ++ c :: cs) = w :: words cs := by
  unfold words
  rw [List.splitOnP_append_cons_of_forall_mem hw _ hc]
  simp [hne]

theorem words_blanks_append {w : List Char} (hw : Blanks w) (cs : List Char) :
    words (w ++ cs) = words cs := by
  induction w with
  | nil => rfl
  | cons c w ih =>
    obtain ⟨hc, hw⟩ := List.forall_mem_cons.mp hw
    rw [List.cons_append, words_cons_of_isBlank hc, ih hw]

/-- A word ends where the text does, or at a blank. -/
theorem words_append_of_head? {x cs : List Char} (hx : ∀ c ∈ x, isBlank c = false) (hne : x ≠ [])
    (hcs : ∀ c ∈ cs.head?, isBlank c = true) : words (x ++ cs) = x :: words cs := by
  cases cs with
  | nil => rw [List.append_nil, words_of_forall hx hne]; rfl
  | cons c cs =>
    have hc : isBlank c = true := hcs c rfl
    rw [words_append_cons hx hne hc, words_cons_of_isBlank hc]

end PinFile.Text
