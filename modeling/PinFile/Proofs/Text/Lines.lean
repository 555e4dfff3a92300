import Mathlib.Algebra.GroupWithZero.Nat
import PinFile.Manifest.Reader
import PinFile.Proofs.Text.Pieces
import PinFile.Proofs.Text.Value

/-!
# Lines put together and read again

Lines that are each ended by `\n` are the physical lines of the whole (`physicalLines_joined`).
When no line goes on in the next one, they are the logical lines too (`logicalLines_joined`).
Joining takes one backslash off the text for each line that goes on (`count_joinLines`), so the
logical lines hold as many backslashes as the text does only when there is none of these. A logical
line has the number of the first of its physical lines, so the numbers ascend.
-/

namespace PinFile.Text

variable {cs : List Char} {lines : List (List Char)} {n : Nat}

/-- The text in which each of the lines has its end. -/
def joined (lines : List (List Char)) : List Char := lines.flatMap (· ++ ['\n'])

theorem joined_cons (cs : List Char) (lines : List (List Char)) :
    joined (cs :: lines) = cs ++ '\n' :: joined lines := by
  simp [joined]

theorem dropReturn_eq_self (h : BareEnd cs) : dropReturn cs = cs := by
  unfold dropReturn
  rw [if_neg]
  intro hl
  exact absurd (h _ hl) (by decide)

theorem physicalLines_joined (h : ∀ cs ∈ lines, IsLineText cs) :
    physicalLines (joined lines) = lines := by
  induction lines with
  | nil => rfl
  | cons cs lines ih =>
    have hc := h cs List.mem_cons_self
    rw [joined_cons, physicalLines_append_cons hc.oneLine,
      dropReturn_eq_self (isTrimmed_iff.mp hc.trimmed).2,
      ih fun x hx => h x (List.mem_cons_of_mem _ hx)]

/-- The lines with their numbers, from `n` on. -/
def numbered (n : Nat) (lines : List (List Char)) : List Numbered :=
  (lines.zipIdx n).map fun line => ⟨line.2, line.1⟩

theorem joinLines_of_forall (h : ∀ cs ∈ lines, continued? cs = none) :
    joinLines n none lines = numbered n lines := by
  induction lines generalizing n with
  | nil => rfl
  | cons cs lines ih =>
    unfold joinLines
    rw [h cs List.mem_cons_self]
    dsimp only
    rw [ih fun x hx => h x (List.mem_cons_of_mem _ hx)]
    rfl

theorem logicalLines_joined (h : ∀ cs ∈ lines, IsLineText cs)
    (hc : ∀ cs ∈ lines, continued? cs = none) : logicalLines (joined lines) = numbered 1 lines := by
  unfold logicalLines
  rw [physicalLines_joined h, joinLines_of_forall hc]

/-! ## Backslashes -/

theorem count_joined {d : Char} (hd : d ≠ '\n') (lines : List (List Char)) :
    (joined lines).count d = (lines.map (List.count d)).sum := by
  induction lines with
  | nil => rfl
  | cons cs lines ih =>
    rw [joined_cons, List.count_append, List.count_cons, ih, if_neg (by simpa using hd.symm)]
    simp

theorem eq_of_continued? {head : List Char} (h : continued? cs = some head) :
    cs = head ++ ['\\'] := by
  unfold continued? at h
  split at h
  · rename_i hc
    cases h
    simp only [Bool.and_eq_true, beq_iff_eq] at hc
    exact (List.dropLast_append_getLast? '\\' hc.2).symm
  · cases h

theorem continued?_eq_none_iff :
    continued? cs = none ↔ isCommentLine cs = true ∨ cs.getLast? ≠ some '\\' := by
  unfold continued?
  cases isCommentLine cs with
  | true => simp
  | false => simp

theorem count_finish (pending : Numbered) (cs : List Char) :
    (pending.finish cs).text.count '\\' = pending.text.count '\\' + cs.count '\\' := by
  unfold Numbered.finish
  split <;> simp

/-- Each line that goes on leaves a backslash behind. -/
theorem count_joinLines (n : Nat) (pending : Option Numbered) (lines : List (List Char)) :
    ((joinLines n pending lines).map (·.text.count '\\')).sum +
        lines.countP (continued? · |>.isSome) =
      pending.elim 0 (·.text.count '\\') + (lines.map (List.count '\\')).sum := by
  fun_induction joinLines n pending lines with
  | case1 => rfl
  | case2 => simp
  | case3 n cs rest head hc ih =>
    rw [List.countP_cons_of_pos (by simp [hc]), List.map_cons, List.sum_cons]
    have := congrArg (List.count '\\') (eq_of_continued? hc)
    simp only [List.count_append, List.count_singleton_self, Option.elim_some, Option.elim_none]
      at this ih ⊢
    omega
  | case4 n cs rest hc ih =>
    rw [List.countP_cons_of_neg (by simp [hc])]
    simp only [List.map_cons, List.sum_cons, Option.elim_none] at ih ⊢
    omega
  | case5 n pending cs rest head hc ih =>
    rw [List.countP_cons_of_pos (by simp [hc]), List.map_cons, List.sum_cons]
    have := congrArg (List.count '\\') (eq_of_continued? hc)
    simp only [List.count_append, List.count_singleton_self, Option.elim_some] at this ih ⊢
    omega
  | case6 n pending cs rest hc ih =>
    rw [List.countP_cons_of_neg (by simp [hc])]
    simp only [List.map_cons, List.sum_cons, Option.elim_some, Option.elim_none, count_finish]
      at ih ⊢
    omega

/-- The logical lines hold as many backslashes as the lines only when no line goes on. -/
theorem continued?_eq_none_of_count (h : ∀ cs ∈ lines, IsLineText cs)
    (hc : (joined lines).count '\\' ≤
      ((logicalLines (joined lines)).map (·.text.count '\\')).sum) :
    ∀ cs ∈ lines, continued? cs = none := by
  have hj := count_joinLines 1 none lines
  rw [count_joined (by decide), logicalLines, physicalLines_joined h] at hc
  rw [Option.elim_none] at hj
  have hz : lines.countP (continued? · |>.isSome) = 0 := by omega
  simpa [List.countP_eq_zero] using hz

/-- Each line that goes on takes in the next one, if there is one. -/
theorem length_joinLines (n : Nat) (pending : Option Numbered) (lines : List (List Char)) :
    (joinLines n pending lines).length + lines.dropLast.countP (continued? · |>.isSome) =
      if lines = [] then pending.elim 0 fun _ => 1 else lines.length := by
  fun_induction joinLines n pending lines with
  | case1 | case2 => simp
  | case3 n cs rest head hc ih | case5 n pending cs rest head hc ih =>
    cases rest with
    | nil => simpa using ih
    | cons next rest =>
      rw [List.dropLast_cons_cons, List.countP_cons_of_pos (by simp [hc])]
      simp only [reduceCtorEq, ↓reduceIte, List.length_cons] at ih ⊢
      omega
  | case4 n cs rest hc ih | case6 n pending cs rest hc ih =>
    cases rest with
    | nil => simpa using ih
    | cons next rest =>
      rw [List.dropLast_cons_cons, List.countP_cons_of_neg (by simp [hc])]
      simp only [reduceCtorEq, ↓reduceIte, List.length_cons] at ih ⊢
      omega

theorem length_logicalLines_joined (h : ∀ cs ∈ lines, IsLineText cs) :
    (logicalLines (joined lines)).length + lines.dropLast.countP (continued? · |>.isSome) =
      lines.length := by
  unfold logicalLines
  rw [physicalLines_joined h, length_joinLines]
  split
  · rename_i hn
    rw [hn]
    rfl
  · rfl

/-! ## Ends of lines -/

theorem not_mem_joinLines {pending : Option Numbered} (hp : ∀ line ∈ pending, '\n' ∉ line.text)
    (h : ∀ cs ∈ lines, '\n' ∉ cs) : ∀ line ∈ joinLines n pending lines, '\n' ∉ line.text := by
  fun_induction joinLines n pending lines with
  | case1 => simp
  | case2 n pending => simpa using hp
  | case3 n cs rest head hc ih =>
    obtain ⟨hcs, hrest⟩ := List.forall_mem_cons.mp h
    refine ih ?_ hrest
    rintro line ⟨⟩ hm
    exact hcs (eq_of_continued? hc ▸ List.mem_append_left _ hm)
  | case4 n cs rest hc ih =>
    obtain ⟨hcs, hrest⟩ := List.forall_mem_cons.mp h
    exact List.forall_mem_cons.mpr ⟨hcs, ih (by simp) hrest⟩
  | case5 n pending cs rest head hc ih =>
    obtain ⟨hcs, hrest⟩ := List.forall_mem_cons.mp h
    refine ih ?_ hrest
    rintro line ⟨⟩ hm
    rcases List.mem_append.mp hm with hm | hm
    · exact hp pending rfl hm
    · exact hcs (eq_of_continued? hc ▸ List.mem_append_left _ hm)
  | case6 n pending cs rest hc ih =>
    obtain ⟨hcs, hrest⟩ := List.forall_mem_cons.mp h
    refine List.forall_mem_cons.mpr ⟨fun hm => ?_, ih (by simp) hrest⟩
    rcases List.mem_append.mp hm with hm | hm
    · exact hp pending rfl hm
    · split at hm
      · exact hcs (by simpa using hm)
      · exact hcs hm

theorem not_mem_closeLines {pieces : List (List Char)} (h : ∀ cs ∈ pieces, '\n' ∉ cs) :
    ∀ cs ∈ closeLines pieces, '\n' ∉ cs := by
  fun_induction closeLines pieces with
  | case1 => simp
  | case2 last hl => simp
  | case3 last hl => simpa using h
  | case4 piece rest _ ih =>
    obtain ⟨hp, hrest⟩ := List.forall_mem_cons.mp h
    refine List.forall_mem_cons.mpr ⟨fun hm => hp ?_, ih hrest⟩
    unfold dropReturn at hm
    split at hm
    · exact List.mem_of_mem_dropLast hm
    · exact hm

theorem not_mem_logicalLines : ∀ line ∈ logicalLines cs, '\n' ∉ line.text :=
  not_mem_joinLines (by simp) (not_mem_closeLines not_mem_of_mem_splitOn)

/-! ## Numbers -/

theorem le_number_joinLines {pending : Option Numbered} (hp : ∀ line ∈ pending, line.number < n) :
    ∀ line ∈ joinLines n pending lines, pending.elim n (·.number) ≤ line.number := by
  fun_induction joinLines n pending lines with
  | case1 => simp
  | case2 n pending => simp
  | case3 n cs rest head hc ih => exact ih (by simp)
  | case4 n cs rest hc ih =>
    refine List.forall_mem_cons.mpr ⟨Nat.le_refl n, fun line hl => ?_⟩
    exact (Nat.le_succ n).trans (ih (by simp) line hl)
  | case5 n pending cs rest head hc ih =>
    have := hp pending rfl
    refine ih ?_
    rintro line ⟨⟩
    exact Nat.lt_succ_of_lt this
  | case6 n pending cs rest hc ih =>
    have := hp pending rfl
    refine List.forall_mem_cons.mpr ⟨Nat.le_refl _, fun line hl => ?_⟩
    exact (Nat.le_succ_of_le this.le).trans (ih (by simp) line hl)

theorem pairwise_number_joinLines {pending : Option Numbered}
    (hp : ∀ line ∈ pending, line.number < n) :
    (joinLines n pending lines).Pairwise (·.number < ·.number) := by
  fun_induction joinLines n pending lines with
  | case1 => exact .nil
  | case2 n pending => exact List.pairwise_singleton _ _
  | case3 n cs rest head hc ih => exact ih (by simp)
  | case4 n cs rest hc ih =>
    refine List.pairwise_cons.mpr ⟨fun line hl => ?_, ih (by simp)⟩
    exact le_number_joinLines (by simp) line hl
  | case5 n pending cs rest head hc ih =>
    have := hp pending rfl
    refine ih ?_
    rintro line ⟨⟩
    exact Nat.lt_succ_of_lt this
  | case6 n pending cs rest hc ih =>
    have := hp pending rfl
    refine List.pairwise_cons.mpr ⟨fun line hl => ?_, ih (by simp)⟩
    exact this.trans (le_number_joinLines (by simp) line hl)

/-- The first line has the number of the pieces in front of it, if there are any. -/
theorem number_head?_joinLines {pending : Option Numbered} :
    ∀ line ∈ (joinLines n pending lines).head?, line.number = pending.elim n (·.number) := by
  fun_induction joinLines n pending lines with
  | case1 => simp
  | case2 | case4 | case6 =>
    rintro line ⟨⟩
    rfl
  | case3 n cs rest head hc ih => exact ih
  | case5 n pending cs rest head hc ih => exact ih

theorem pairwise_number_logicalLines (cs : List Char) :
    (logicalLines cs).Pairwise (·.number < ·.number) := pairwise_number_joinLines (by simp)

theorem number_head?_logicalLines {line : Numbered} (h : line ∈ (logicalLines cs).head?) :
    line.number = 1 := number_head?_joinLines line h

end PinFile.Text
