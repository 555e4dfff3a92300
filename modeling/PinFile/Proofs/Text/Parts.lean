import PinFile.Proofs.Text.Lines

/-!
# Lines of a text in parts

Behind the end of a line the physical lines of a text start anew (`physicalLines_append`). The
logical lines do too, unless the line that ends there goes on (`logicalLines_append`); the numbers
are counted on. Pieces that all go on are one logical line with the line behind them
(`joinLines_slashed`).
-/

namespace PinFile.Text

variable {cs last a b : List Char} {lines more pieces : List (List Char)} {n k : Nat}
  {pending : Option Numbered}

/-! ## Physical lines -/

/-- The text is empty, or its last line has its end. -/
def IsEnded (cs : List Char) : Prop := ∀ c ∈ cs.getLast?, c = '\n'

instance (cs : List Char) : Decidable (IsEnded cs) := Option.decidableForallMem cs.getLast?

theorem IsEnded.exists_joined (h : IsEnded cs) :
    ∃ lines, (∀ line ∈ lines, '\n' ∉ line) ∧ cs = joined lines := by
  induction cs with
  | nil => exact ⟨[], by simp, rfl⟩
  | cons c cs ih =>
    by_cases hcs : cs = []
    · subst hcs
      obtain rfl : c = '\n' := h c rfl
      exact ⟨[[]], by simp, rfl⟩
    · have hlast : (c :: cs).getLast? = cs.getLast? := List.getLast?_append_of_ne_nil [c] hcs
      obtain ⟨lines, hl, rfl⟩ := ih fun d hd => h d (hlast ▸ hd)
      by_cases hc : c = '\n'
      · subst hc
        exact ⟨[] :: lines, List.forall_mem_cons.mpr ⟨by simp, hl⟩, (joined_cons [] lines).symm⟩
      · obtain ⟨line, lines, rfl⟩ := List.exists_cons_of_ne_nil (show lines ≠ [] by
          rintro rfl
          exact hcs rfl)
        obtain ⟨hline, hlines⟩ := List.forall_mem_cons.mp hl
        refine ⟨(c :: line) :: lines, List.forall_mem_cons.mpr ⟨?_, hlines⟩, ?_⟩
        · exact fun hm => (List.mem_cons.mp hm).elim (fun e => hc e.symm) hline
        · rw [joined_cons, joined_cons, List.cons_append]

theorem physicalLines_joined_append (h : ∀ line ∈ lines, '\n' ∉ line) (b : List Char) :
    physicalLines (joined lines ++ b) = lines.map dropReturn ++ physicalLines b := by
  induction lines with
  | nil => rfl
  | cons line lines ih =>
    obtain ⟨hl, hlines⟩ := List.forall_mem_cons.mp h
    rw [joined_cons, List.append_assoc, List.cons_append, physicalLines_append_cons hl, ih hlines]
    rfl

/-- Behind the end of a line the lines of the rest are read on their own. -/
theorem physicalLines_append (h : IsEnded a) (b : List Char) :
    physicalLines (a ++ b) = physicalLines a ++ physicalLines b := by
  obtain ⟨lines, hl, rfl⟩ := h.exists_joined
  have ha : physicalLines (joined lines) = lines.map dropReturn := by
    simpa [physicalLines_nil] using physicalLines_joined_append hl []
  rw [physicalLines_joined_append hl, ha]

/-! ## Steps of joining -/

/-- What waits for its end behind a line that goes on. -/
def waiting (n : Nat) (pending : Option Numbered) (head : List Char) : Numbered :=
  match pending with
  | none => ⟨n, head⟩
  | some pending => { pending with text := pending.text ++ head }

/-- The logical line that a line ends. -/
def ending (n : Nat) (pending : Option Numbered) (cs : List Char) : Numbered :=
  match pending with
  | none => ⟨n, cs⟩
  | some pending => pending.finish cs

theorem joinLines_of_continued {head : List Char} (h : continued? cs = some head) :
    joinLines n pending (cs :: lines) =
      joinLines (n + 1) (some (waiting n pending head)) lines := by
  cases pending with
  | none => rw [joinLines, h]; rfl
  | some pending => rw [joinLines, h]; rfl

theorem joinLines_of_ended (h : continued? cs = none) :
    joinLines n pending (cs :: lines) = ending n pending cs :: joinLines (n + 1) none lines := by
  cases pending with
  | none => rw [joinLines, h]; rfl
  | some pending => rw [joinLines, h]; rfl

/-! ## Logical lines -/

/-- The last line, if there is one, does not go on: it is a comment or ends in no backslash. -/
def IsSettled (lines : List (List Char)) : Prop :=
  ∀ cs ∈ lines.getLast?, isCommentLine cs = true ∨ cs.getLast? ≠ some '\\'

instance (lines : List (List Char)) : Decidable (IsSettled lines) :=
  Option.decidableForallMem lines.getLast?

theorem IsSettled.of_cons (h : IsSettled (cs :: lines)) : IsSettled lines := by
  intro x hx
  have hl : lines ≠ [] := List.ne_nil_of_mem (List.mem_of_mem_getLast? hx)
  exact h x (by rwa [← List.singleton_append, List.getLast?_append_of_ne_nil _ hl])

/-- A line that goes on is not the last one of settled lines. -/
theorem IsSettled.ne_nil {head : List Char} (h : IsSettled (cs :: lines))
    (hc : continued? cs = some head) : lines ≠ [] := by
  rintro rfl
  rw [continued?_eq_none_iff.mpr (h cs rfl)] at hc
  cases hc

/-- Behind settled lines no piece waits for its end. -/
theorem joinLines_append (h : IsSettled lines) (hp : lines = [] → pending = none) :
    joinLines n pending (lines ++ more) =
      joinLines n pending lines ++ joinLines (n + lines.length) none more := by
  induction lines generalizing n pending with
  | nil =>
    obtain rfl := hp rfl
    rfl
  | cons cs lines ih =>
    have hn : n + (cs :: lines).length = n + 1 + lines.length := by
      rw [List.length_cons]
      omega
    rw [List.cons_append, hn]
    cases hc : continued? cs with
    | some head =>
      rw [joinLines_of_continued hc, joinLines_of_continued hc,
        ih h.of_cons fun hl => absurd hl (h.ne_nil hc)]
    | none =>
      rw [joinLines_of_ended hc, joinLines_of_ended hc, ih h.of_cons fun _ => rfl,
        List.cons_append]

/-- The line as it is numbered behind `k` more lines. -/
def Numbered.moved (k : Nat) (line : Numbered) : Numbered :=
  { line with number := line.number + k }

/-- Behind `k` more lines, everything has a number that is greater by `k`. -/
theorem joinLines_moved (k n : Nat) (pending : Option Numbered) (lines : List (List Char)) :
    joinLines (n + k) (pending.map (·.moved k)) lines =
      (joinLines n pending lines).map (·.moved k) := by
  induction lines generalizing n pending with
  | nil => cases pending <;> rfl
  | cons cs lines ih =>
    cases hc : continued? cs with
    | some head =>
      have hw : waiting (n + k) (pending.map (·.moved k)) head =
          (waiting n pending head).moved k := by
        cases pending <;> rfl
      rw [joinLines_of_continued hc, joinLines_of_continued hc, hw, ← ih, Nat.add_right_comm]
      rfl
    | none =>
      have he : ending (n + k) (pending.map (·.moved k)) cs = (ending n pending cs).moved k := by
        cases pending <;> rfl
      rw [joinLines_of_ended hc, joinLines_of_ended hc, List.map_cons, he, ← ih,
        Nat.add_right_comm]
      rfl

/-- Behind a line that does not go on, the logical lines of the rest are read on their own. -/
theorem logicalLines_append (ha : IsEnded a) (hs : IsSettled (physicalLines a)) (b : List Char) :
    logicalLines (a ++ b) =
      logicalLines a ++ (logicalLines b).map (·.moved (physicalLines a).length) := by
  unfold logicalLines
  rw [physicalLines_append ha, joinLines_append hs fun _ => rfl, ← joinLines_moved]
  rfl

/-! ## Lines that go on -/

/-- The pieces with a backslash at the end of each. -/
def slashed (pieces : List (List Char)) : List (List Char) := pieces.map (· ++ ['\\'])

theorem slashed_cons (piece : List Char) (pieces : List (List Char)) :
    slashed (piece :: pieces) = (piece ++ ['\\']) :: slashed pieces := rfl

theorem isCommentLine_append_slash (h : isCommentLine cs = false) :
    isCommentLine (cs ++ ['\\']) = false := by
  obtain ⟨w, hw, hcs⟩ := exists_trimStart cs
  unfold isCommentLine at h ⊢
  cases ht : trimStart cs with
  | nil =>
    rw [hcs, ht, List.append_nil, trimStart_append hw]
    decide
  | cons c rest =>
    have hc : isBlank c = false := bareStart_cons.mp (ht ▸ bareStart_trimStart cs)
    rw [hcs, ht, List.append_assoc, trimStart_append hw, List.cons_append, trimStart_of_head hc]
    rw [ht] at h
    exact h

theorem continued?_append_slash (h : isCommentLine cs = false) :
    continued? (cs ++ ['\\']) = some cs := by
  simp [continued?, isCommentLine_append_slash h]

/-- Pieces that go on are added to the ones that wait. -/
theorem joinLines_slashed_append (h : ∀ cs ∈ pieces, isCommentLine cs = false)
    (pending : Numbered) (lines : List (List Char)) :
    joinLines n (some pending) (slashed pieces ++ lines) =
      joinLines (n + pieces.length) (some ⟨pending.number, pending.text ++ pieces.flatten⟩)
        lines := by
  induction pieces generalizing n pending with
  | nil => simp [slashed]
  | cons piece pieces ih =>
    obtain ⟨hp, hpieces⟩ := List.forall_mem_cons.mp h
    have hn : n + (piece :: pieces).length = n + 1 + pieces.length := by
      rw [List.length_cons]
      omega
    rw [slashed_cons, List.cons_append, joinLines_of_continued (continued?_append_slash hp),
      ih hpieces, hn, List.flatten_cons, ← List.append_assoc]
    rfl

/-- Pieces that go on are one line with the line that ends them. A comment ends pieces only where
there are some. -/
theorem joinLines_slashed (h : ∀ cs ∈ pieces, isCommentLine cs = false)
    (hl : continued? last = none) (hne : isCommentLine last = true → pieces ≠ []) :
    joinLines n none (slashed pieces ++ [last]) = [Numbered.finish ⟨n, pieces.flatten⟩ last] := by
  cases pieces with
  | nil =>
    have hc : isCommentLine last = false := by
      cases hc : isCommentLine last with
      | false => rfl
      | true => exact absurd rfl (hne hc)
    simp [slashed, joinLines, hl, Numbered.finish, hc]
  | cons piece pieces =>
    obtain ⟨hp, hpieces⟩ := List.forall_mem_cons.mp h
    rw [slashed_cons, List.cons_append, joinLines_of_continued (continued?_append_slash hp),
      joinLines_slashed_append hpieces, joinLines_of_ended hl]
    rfl

end PinFile.Text
