import PinFile.Proofs.Manifest.Rendered
import PinFile.Proofs.Text.Parts

/-!
# Reading a text in parts

A text whose lines all have their ends, and whose last line does not go on, is read apart from what
stands behind it: the lines of the rest follow with their numbers counted on, and the first fault
of the two decides (`parse_append`). A line that is broken up into pieces, each with a backslash at
its end, is read as the pieces put together, whether another piece ends them or a comment
(`parse_continuing`).
-/

namespace PinFile

open Text

/-! ## Numbers behind other lines -/

/-- The line as it is numbered behind `k` more lines. -/
def Line.moved (k : Nat) (line : Line) : Line := { line with number := line.number + k }

def ParseError.moved (k : Nat) (e : ParseError) : ParseError := { e with line := e.line + k }

/-- A line is read alike wherever it stands. -/
theorem Line.readChars_add (cs : List Char) (n k : Nat) :
    readChars cs (n + k) = ((readChars cs n).map (moved k)).mapError (.moved k) := by
  unfold readChars
  dsimp only
  split
  · rfl
  · split
    · rfl
    · cases readEntry (splitComment (trim cs)).1 with
      | error cause => rfl
      | ok entry => rfl

namespace Manifest

variable {cs rest last : List Char} {pieces : List (List Char)}

def readLine (line : Numbered) : Except ParseError Line := Line.readChars line.text line.number

theorem readChars_eq (cs : List Char) :
    readChars cs = ((logicalLines cs).mapM readLine).map Manifest.mk := rfl

theorem mapM_readLine_moved (k : Nat) (lines : List Numbered) :
    (lines.map (·.moved k)).mapM readLine =
      ((lines.mapM readLine).map (List.map (·.moved k))).mapError (.moved k) := by
  induction lines with
  | nil => rfl
  | cons line lines ih =>
    have hline : readLine (line.moved k) = ((readLine line).map (·.moved k)).mapError (.moved k) :=
      Line.readChars_add line.text line.number k
    rw [List.map_cons, List.mapM_cons, List.mapM_cons, hline, ih]
    cases readLine line with
    | error e => rfl
    | ok first => cases lines.mapM readLine <;> rfl

/-- The number of physical lines of a text. -/
def lineCount (text : String) : Nat := (physicalLines text.toList).length

/-- Reading a text is reading its parts, where the first part ends with a line that has its end
and does not go on. A fault of the first part decides; a fault of the second one, like its lines,
is numbered behind the lines of the first. -/
theorem parse_append {a b : String} (ha : IsEnded a.toList)
    (hs : IsSettled (physicalLines a.toList)) :
    parse (a ++ b) = match parse a, parse b with
      | .error e, _ => .error e
      | .ok _, .error e => .error { e with line := e.line + lineCount a }
      | .ok m, .ok m' => .ok ⟨m.lines ++ m'.lines.map fun line =>
          { line with number := line.number + lineCount a }⟩ := by
  rw [parse, parse, parse, String.toList_append, readChars_eq, logicalLines_append ha hs,
    List.mapM_append, mapM_readLine_moved, readChars_eq, readChars_eq]
  cases (logicalLines a.toList).mapM readLine with
  | error e => rfl
  | ok lines => cases (logicalLines b.toList).mapM readLine <;> rfl

/-- A line that goes on and has a longer end, and a comment with a backslash at its end. -/
def settledText : String := "a==1, \\\r\n  !=2\n# note \\\n"

theorem parse_append_settled :
    parse (settledText ++ "-r base.txt\n\nb") = .ok ⟨[
      ⟨1, .requirement ⟨"a", [], [⟨.equal, "1"⟩, ⟨.notEqual, "2"⟩], none, none, []⟩, none⟩,
      ⟨3, .comment "# note \\", none⟩, ⟨4, .includeFile ⟨.requirements, "base.txt"⟩, none⟩,
      ⟨5, .blank, none⟩, ⟨6, .requirement (.bare "b"), none⟩]⟩ ∧
    parse (settledText ++ "b\nc==\n") = .error ⟨5, .invalidConstraint "=="⟩ := by
  have he : IsEnded settledText.toList := by decide
  have hs : IsSettled (physicalLines settledText.toList) := by decide +kernel
  have hn : lineCount settledText = 3 := by decide +kernel
  have ha : parse settledText = .ok ⟨[
      ⟨1, .requirement ⟨"a", [], [⟨.equal, "1"⟩, ⟨.notEqual, "2"⟩], none, none, []⟩, none⟩,
      ⟨3, .comment "# note \\", none⟩]⟩ := by decide +kernel
  constructor
  · have hb : parse "-r base.txt\n\nb" = .ok ⟨[⟨1, .includeFile ⟨.requirements, "base.txt"⟩, none⟩,
        ⟨2, .blank, none⟩, ⟨3, .requirement (.bare "b"), none⟩]⟩ := by decide +kernel
    rw [parse_append he hs, ha, hb, hn]
    rfl
  · have hb : parse "b\nc==\n" = .error ⟨2, .invalidConstraint "=="⟩ := by rfl
    rw [parse_append he hs, ha, hb, hn]

/-! ## Pieces of a line -/

theorem readChars_of_logicalLines {line : Numbered} (h : logicalLines cs = [line]) :
    readChars cs = (readLine line).map fun line => ⟨[line]⟩ := by
  rw [readChars_eq, h, List.mapM_cons, List.mapM_nil]
  cases readLine line <;> rfl

/-- A text inside a line that is no comment. -/
structure IsPiece (cs : List Char) : Prop where
  oneLine : '\n' ∉ cs
  visible : isCommentLine cs = false

theorem physicalLines_slashed_append (h : ∀ cs ∈ pieces, '\n' ∉ cs) (rest : List Char) :
    physicalLines (joined (slashed pieces) ++ rest) = slashed pieces ++ physicalLines rest := by
  have hl : ∀ cs ∈ slashed pieces, '\n' ∉ cs := by
    intro cs hcs
    obtain ⟨piece, hp, rfl⟩ := List.mem_map.mp hcs
    simpa using h piece hp
  have hr : (slashed pieces).map dropReturn = slashed pieces := by
    refine List.map_congr_left (g := id) (fun cs hcs => ?_) |>.trans (List.map_id _)
    obtain ⟨piece, -, rfl⟩ := List.mem_map.mp hcs
    simp [dropReturn]
  rw [physicalLines_joined_append hl, hr]

/-- Pieces that go on are read as one line with the line behind them. -/
theorem readChars_slashed_append (h : ∀ cs ∈ pieces, IsPiece cs)
    (hl : physicalLines rest = [last]) (hc : continued? last = none)
    (hne : isCommentLine last = true → pieces ≠ []) :
    readChars (joined (slashed pieces) ++ rest) =
      (Line.readChars (pieces.flatten ++ if isCommentLine last then ' ' :: last else last) 1).map
        fun line => ⟨[line]⟩ := by
  have hline : logicalLines (joined (slashed pieces) ++ rest) =
      [Numbered.finish ⟨1, pieces.flatten⟩ last] := by
    rw [logicalLines, physicalLines_slashed_append (fun cs hcs => (h cs hcs).oneLine), hl,
      joinLines_slashed (fun cs hcs => (h cs hcs).visible) hc hne]
  exact readChars_of_logicalLines hline

/-- The pieces on lines of their own, each with a backslash at its end. -/
def continuing (pieces : List String) : String := String.join (pieces.map (· ++ "\\\n"))

theorem toList_continuing (pieces : List String) :
    (continuing pieces).toList = joined (slashed (pieces.map String.toList)) := by
  have hp : pieces.map (· ++ "\\\n") = (pieces.map (· ++ "\\")).map (· ++ "\n") := by
    rw [List.map_map]
    exact List.map_congr_left fun piece _ => by simp [String.append_assoc]
  rw [continuing, hp, toList_join_ends, slashed, List.map_map, List.map_map]
  exact congrArg joined (List.map_congr_left fun piece _ => by simp)

theorem physicalLines_ended (hl : '\n' ∉ last) (hr : last.getLast? ≠ some '\r') :
    physicalLines (last ++ ['\n']) = [last] := by
  rw [physicalLines_append_cons hl, dropReturn, if_neg hr, physicalLines_nil]

/-- Pieces on lines that go on are read as the one line that they are together: with a last piece
that does not go on, and, after a space, with a comment that ends them, even where the comment has
a backslash at its end. -/
theorem parse_continuing {pieces : List String} (h : ∀ piece ∈ pieces, IsPiece piece.toList) :
    (∀ last : String, IsPiece last.toList →
      last.toList.getLast? ≠ some '\\' → last.toList.getLast? ≠ some '\r' →
      parse (continuing pieces ++ last ++ "\n") =
        (Line.parse (String.join pieces ++ last) 1).map fun line => ⟨[line]⟩) ∧
    (pieces ≠ [] → ∀ comment ending : String, '\n' ∉ comment.toList →
      isCommentLine comment.toList = true → comment.toList.getLast? ≠ some '\r' →
      ending ∈ ["", "\n"] →
      parse (continuing pieces ++ comment ++ ending) =
        (Line.parse (String.join pieces ++ " " ++ comment) 1).map fun line => ⟨[line]⟩) := by
  have hp : ∀ cs ∈ pieces.map String.toList, IsPiece cs := List.forall_mem_map.mpr h
  have hjoin : (String.join pieces).toList = (pieces.map String.toList).flatten := by
    rw [String.toList_join, List.flatMap_def]
  constructor
  · intro last hlast hslash hreturn
    have hread := readChars_slashed_append hp (physicalLines_ended hlast.oneLine hreturn)
      (continued?_eq_none_iff.mpr (.inr hslash)) (by simp [hlast.visible])
    rw [hlast.visible] at hread
    simpa [parse, Line.parse, toList_continuing, hjoin] using hread
  · intro hne comment ending hl hc hreturn he
    have hcomment : comment.toList ≠ [] := by
      intro hnil
      rw [hnil] at hc
      exact absurd hc (by decide)
    have hlines : physicalLines (comment.toList ++ ending.toList) = [comment.toList] := by
      rcases List.mem_pair.mp he with rfl | rfl
      · simpa using physicalLines_of_not_mem hl hcomment
      · exact physicalLines_ended hl hreturn
    have hread := readChars_slashed_append hp hlines (continued?_eq_none_iff.mpr (.inl hc))
      fun _ => by simpa using hne
    rw [if_pos hc] at hread
    simpa [parse, Line.parse, toList_continuing, hjoin] using hread

/-- A line that is broken in its name, in its operator and in a quoted text, once with nothing in
between, and ended by a piece or by a comment. -/
theorem parse_continuing_broken :
    parse (continuing ["uvi", "", "corn =", "=1 ; x == '\\"] ++ "'  # why" ++ "\n") = .ok ⟨[
      ⟨1, .requirement ⟨"uvicorn", [], [⟨.equal, "1"⟩], none, some "x == '\\'", []⟩,
        some "why"⟩]⟩ ∧
    parse (continuing ["uvi", "", "corn =", "=1 ; x == '\\"] ++ " # why \\" ++ "\n") = .ok ⟨[
      ⟨1, .requirement ⟨"uvicorn", [], [⟨.equal, "1"⟩], none, some "x == '\\", []⟩,
        some "why \\"⟩]⟩ := by
  have hp : ∀ piece ∈ ["uvi", "", "corn =", "=1 ; x == '\\"], IsPiece piece.toList := by
    have hall : ∀ piece ∈ ["uvi", "", "corn =", "=1 ; x == '\\"],
      '\n' ∉ piece.toList ∧ isCommentLine piece.toList = false := by decide
    exact fun piece hm => ⟨(hall piece hm).1, (hall piece hm).2⟩
  obtain ⟨hlast, hcomment⟩ := parse_continuing hp
  constructor
  · rw [hlast "'  # why" ⟨by decide, by decide⟩ (by decide) (by decide)]
    decide +kernel
  · rw [hcomment (by simp) " # why \\" "\n" (by decide) (by decide) (by decide) (by simp)]
    decide +kernel

end Manifest

end PinFile
