import PinFile.Line.Reader
import PinFile.Proofs.Text.Value

/-!
# Comments behind entries

`splitComment` cuts a text at the first run of blanks in front of `#`. A text without such a mark,
which ends outside its blanks, is left whole in front of what follows it
(`splitComment_append_mark`), and what is left in front of a comment has no mark
(`exists_splitComment`).
-/

namespace PinFile.Line

open Text

variable {a b cs rest : List Char}

theorem splitComment_cons_of_not_isBlank {c : Char} (h : isBlank c = false) :
    splitComment (c :: cs) = (c :: (splitComment cs).1, (splitComment cs).2) := by
  simp [splitComment, h]

theorem splitComment_cons_of_isBlank {c : Char} (h : isBlank c = true) :
    splitComment (c :: cs) = match commentHere? (trimStart cs) with
      | some comment => ([], some comment)
      | none => (c :: (splitComment cs).1, (splitComment cs).2) := by
  cases hm : commentHere? (trimStart cs) with
  | some comment => simp [splitComment, h, hm]
  | none => simp [splitComment, h, hm]

theorem commentHere?_cons {c : Char} (h : c ≠ '#') : commentHere? (c :: cs) = none := by
  unfold commentHere?
  split
  · rename_i heq
    exact absurd (List.cons.inj heq).1 h
  · rfl

/-- The blanks inside a text without marks start no comment. -/
theorem splitComment_append (hm : hasMark a = false) (he : BareEnd a) :
    splitComment (a ++ b) = (a ++ (splitComment b).1, (splitComment b).2) := by
  induction a with
  | nil => rfl
  | cons c a ih =>
    have ha : hasMark a = false := hasMark_of_infix (List.suffix_cons c a).isInfix hm
    have ih := ih ha he.of_cons
    rw [List.cons_append]
    cases hc : isBlank c with
    | false => rw [splitComment_cons_of_not_isBlank hc, ih]; rfl
    | true =>
      obtain ⟨w, hw, hwa⟩ := exists_trimStart a
      cases ht : trimStart a with
      | nil =>
        have hb : Blanks (c :: a) := List.forall_mem_cons.mpr ⟨hc, trimStart_eq_nil_iff.mp ht⟩
        have hl := List.getLast?_eq_some_getLast (List.cons_ne_nil c a)
        have hf := he _ hl
        rw [hb _ (List.getLast_mem _)] at hf
        cases hf
      | cons x t =>
        have hx : isBlank x = false := bareStart_cons.mp (ht ▸ bareStart_trimStart a)
        -- The last blank of the run stands right in front of `x`.
        have hne : x ≠ '#' := by
          rintro rfl
          obtain ⟨w', d, hd⟩ := List.eq_nil_or_concat (c :: w) |>.resolve_left (by simp)
          have hdb : isBlank d = true := by
            have : d ∈ c :: w := by rw [hd]; simp
            rcases List.mem_cons.mp this with rfl | h
            · exact hc
            · exact hw d h
          have hca : c :: a = w' ++ d :: '#' :: t := by
            rw [hwa, ht, ← List.cons_append, hd]
            simp
          rw [hasMark_iff.mpr ⟨w', d, t, hca, hdb⟩] at hm
          cases hm
        have hs : trimStart (a ++ b) = x :: (t ++ b) := by
          rw [hwa, ht, List.append_assoc, trimStart_append hw, List.cons_append,
            trimStart_of_head hx]
        rw [splitComment_cons_of_isBlank hc, hs, commentHere?_cons hne, ih]
        rfl

theorem splitComment_of_noMark (hm : hasMark a = false) (he : BareEnd a) :
    splitComment a = (a, none) := by
  have := splitComment_append (b := []) hm he
  rwa [List.append_nil, splitComment, List.append_nil] at this

theorem splitComment_append_mark (hm : hasMark a = false) (he : BareEnd a) (hl : '\n' ∉ rest) :
    splitComment (a ++ ' ' :: '#' :: rest) = (a, some rest) := by
  have hs : trimStart ('#' :: rest) = '#' :: rest := trimStart_of_head (by decide)
  rw [splitComment_append hm he, splitComment_cons_of_isBlank (by decide), hs, commentHere?,
    if_neg (by simpa using hl), List.append_nil]

/-- The cut leaves no mark in front of it. -/
theorem exists_splitComment (hl : '\n' ∉ cs) :
    hasMark (splitComment cs).1 = false ∧ ∃ tail, cs = (splitComment cs).1 ++ tail ∧
      ∀ comment ∈ (splitComment cs).2, ∃ w, tail = w ++ '#' :: comment := by
  induction cs with
  | nil => exact ⟨rfl, [], rfl, by simp [splitComment]⟩
  | cons c cs ih =>
    simp only [List.mem_cons, not_or] at hl
    obtain ⟨hm, tail, he, hc⟩ := ih hl.2
    cases hb : isBlank c with
    | false =>
      rw [splitComment_cons_of_not_isBlank hb]
      refine ⟨?_, tail, by rw [List.cons_append, ← he], hc⟩
      have hcm : hasMark [c] = false := rfl
      exact hasMark_append hcm hm (.inl (bareEnd_of_forall (by simpa using hb)))
    | true =>
      rw [splitComment_cons_of_isBlank hb]
      cases hh : commentHere? (trimStart cs) with
      | some comment =>
        obtain ⟨w, -, hw⟩ := exists_trimStart cs
        have ht : trimStart cs = '#' :: comment := by
          unfold commentHere? at hh
          split at hh
          · rename_i heq
            split at hh <;> cases hh
            exact heq
          · cases hh
        refine ⟨rfl, c :: cs, rfl, fun d hd => ⟨c :: w, ?_⟩⟩
        obtain rfl : comment = d := Option.some.inj hd
        rw [List.cons_append, ← ht, ← hw]
      | none =>
        refine ⟨?_, tail, by rw [List.cons_append, ← he], hc⟩
        refine hasMark_append (a := [c]) rfl hm (.inr fun hd => ?_)
        -- The blank would stand in front of `#` and start a comment.
        obtain ⟨t, ht⟩ := List.head?_eq_some_iff.mp hd
        rw [he, ht, List.cons_append, trimStart_of_head (by decide), commentHere?,
          if_neg] at hh
        · cases hh
        · rw [List.contains_iff_mem]
          intro hn
          apply hl.2
          rw [he, ht]
          exact List.mem_cons_of_mem _ hn

end PinFile.Line
