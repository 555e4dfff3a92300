import PinFile.Proofs.Manifest.Idempotence

/-!
# What formatting keeps

A text that keeps every line in its place may still be read as other lines: a line whose text ends
with a backslash goes on in the next one and takes it in. When the text is read at all, this is
the only way in which a line can change (`contents_eq_iff`), and it costs one line each time
(`length_lines_of_parse_preserve`).
-/

namespace PinFile

open Text

/-- The text of the line is continued in the next one. -/
def Line.goesOn (line : Line) : Bool := (continued? line.render.toList).isSome

namespace Manifest

variable {m m' : Manifest}

/-- The lines without their numbers. -/
def contents (m : Manifest) : List (Entry × Option String) :=
  m.lines.map fun line => (line.entry, line.comment)

theorem map_render_eq_of_contents (h : m'.contents = m.contents) :
    m'.lines.map Line.render = m.lines.map Line.render := by
  have hr : ∀ m : Manifest,
      m.lines.map Line.render = m.contents.map fun c => c.1.render ++ Line.renderComment c.2 := by
    intro m
    rw [contents, List.map_map]
    rfl
  rw [hr, hr, h]

theorem renderedLines_preserve (m : Manifest) :
    (m.renderedLines .preserve).map String.toList = m.lines.map (·.render.toList) :=
  map_toList_renderedLines rfl

/-- As many backslashes are read as were written, so none was taken off the end of a line. -/
theorem not_goesOn_of_contents_eq (hs : ∀ line ∈ m.lines, line.Sound)
    (h : parse (m.render .preserve) = .ok m') (hc : m'.contents = m.contents) :
    ∀ line ∈ m.lines, line.goesOn = false := by
  have hl := isLineText_of_mem_preserve hs
  unfold parse at h
  rw [toList_render, renderedLines_preserve] at h
  rw [renderedLines_preserve] at hl
  have hcount : (joined (m.lines.map (·.render.toList))).count '\\' ≤
      (m'.lines.map (·.render.toList.count '\\')).sum := by
    have hr := congrArg (List.map fun text : String => text.toList.count '\\')
      (map_render_eq_of_contents hc)
    simp only [List.map_map] at hr
    refine Nat.le_of_eq ?_
    rw [count_joined (by decide), List.map_map]
    exact congrArg List.sum hr.symm
  have hnone := continued?_eq_none_of_readChars hl h hcount
  intro line hm
  rw [Line.goesOn, hnone _ (List.mem_map_of_mem hm)]
  rfl

theorem contents_eq_of_not_goesOn (hs : ∀ line ∈ m.lines, line.Sound ∧ line.entry.Accepted)
    (h : parse (m.render .preserve) = .ok m') (hn : ∀ line ∈ m.lines, line.goesOn = false) :
    m'.contents = m.contents := by
  have hc : ∀ cs ∈ (m.renderedLines .preserve).map String.toList, continued? cs = none := by
    intro cs hcs
    rw [renderedLines_preserve] at hcs
    obtain ⟨line, hm, rfl⟩ := List.mem_map.mp hcs
    simpa [Line.goesOn] using hn line hm
  have hstable : ∀ line ∈ m.written .preserve, line.IsStable :=
    isStable_of_parse (fun line hm => (hs line hm).1) h hc
  cases h.symm.trans (parse_render_of_isStable rfl hs hstable)
  exact map_renumber (fun _ _ => rfl) m.lines

/-- The lines of a manifest are read back, apart from their numbers, exactly when none goes on. -/
theorem contents_eq_iff (hs : ∀ line ∈ m.lines, line.Sound ∧ line.entry.Accepted)
    (h : parse (m.render .preserve) = .ok m') :
    m'.contents = m.contents ↔ ∀ line ∈ m.lines, line.goesOn = false :=
  ⟨not_goesOn_of_contents_eq (fun line hm => (hs line hm).1) h, contents_eq_of_not_goesOn hs h⟩

/-- A line that goes on takes in the next one, if there is one. -/
theorem length_lines_of_parse_preserve (hs : ∀ line ∈ m.lines, line.Sound)
    (h : parse (m.render .preserve) = .ok m') :
    m'.lines.length + m.lines.dropLast.countP Line.goesOn = m.lines.length := by
  have hl := isLineText_of_mem_preserve hs
  unfold parse at h
  rw [toList_render, renderedLines_preserve] at h
  rw [renderedLines_preserve] at hl
  have hlength := length_logicalLines_joined hl
  rw [(readChars_eq_ok_iff.mp h).length_eq, List.length_map, ← List.map_dropLast,
    List.countP_map] at hlength
  exact hlength

end Manifest

end PinFile
