import PinFile.Proofs.Line.Written
import PinFile.Proofs.Manifest.Rendered

/-!
# Printing and reading back

`Line.WellFormed` says that the parts of a line have the form that the format gives them. Two
things can still go wrong when such a line is printed and read: a blank outside quotes may lead to
two hyphens, which start a tail of options, and a backslash may end the line, which then goes on in
the next one. A manifest of well-formed lines is read back from its text exactly when neither is
in it (`parse_render_preserve_iff`).
-/

namespace PinFile

open Text Requirement

structure Line.WellFormed (line : Line) : Prop extends line.Sound where
  noMarks : line.entry.NoMarks
  closed : ∀ r ∈ line.requirement?, quoteAt none r.renderSpec.toList = none

/-- No tail of options starts in the requirement, and the line does not go on in the next one. -/
structure Line.IsPlain (line : Line) : Prop where
  noOptions : ∀ r ∈ line.requirement?, NoOptions none r.renderSpec.toList
  ended : continued? line.render.toList = none

instance (line : Line) : Decidable line.WellFormed :=
  decidable_of_iff (line.Sound ∧ line.entry.NoMarks ∧
      ∀ r ∈ line.requirement?, quoteAt none r.renderSpec.toList = none)
    ⟨fun h => ⟨h.1, h.2.1, h.2.2⟩, fun h => ⟨h.1, h.2, h.3⟩⟩

instance (line : Line) : Decidable line.IsPlain :=
  decidable_of_iff ((∀ r ∈ line.requirement?, NoOptions none r.renderSpec.toList) ∧
      continued? line.render.toList = none)
    ⟨fun h => ⟨h.1, h.2⟩, fun h => ⟨h.1, h.2⟩⟩

namespace Line.WellFormed

variable {line : Line} {r : Requirement}

theorem sound_requirement (h : line.WellFormed) (he : line.entry = .requirement r) : r.Sound := by
  have := h.entry
  rwa [he] at this

theorem readChars_render (h : line.WellFormed)
    (hp : ∀ r ∈ line.requirement?, NoOptions none r.renderSpec.toList) :
    readChars line.render.toList line.number = .ok line := by
  refine h.toSound.readChars_render h.noMarks (fun r he => ?_) line.number
  have hs := h.sound_requirement he
  have hq : r.openQuote = none := by
    rw [← hs.quoteAt_specChars, ← toList_renderSpec]
    exact h.closed r (requirement?_eq_some.mpr he)
  rw [Requirement.toList_render]
  have hn : NoOptions none r.specChars :=
    toList_renderSpec r ▸ hp r (requirement?_eq_some.mpr he)
  exact hs.readChars_append_hashesChars hn fun _ => hq

/-- No tail of options is in a requirement whose line is read back. -/
theorem noOptions_of_readChars (h : line.WellFormed) {n : Nat}
    (hr : readChars line.render.toList n = .ok line) (he : line.entry = .requirement r) :
    NoOptions none r.renderSpec.toList := by
  have hremark : line.entry.isRemark = false := by rw [he]; rfl
  obtain ⟨comment, hs, -⟩ := h.toSound.splitComment_render hremark h.noMarks
  have hm := h.entry.hasMark_render hremark h.noMarks
  rw [readChars_of_entry h.isLineText_render.trimmed (h.toSound.head?_render hremark), hs, he] at hr
  rw [he] at hm
  dsimp only at hr
  unfold Entry.render at hr
  rw [Entry.readEntry_requirement (h.sound_requirement he)] at hr
  split at hr
  · cases hr
  · rename_i entry hentry
    obtain ⟨r', hread, rfl⟩ := map_eq_ok_iff.mp hentry
    obtain rfl : r' = r := by
      have := congrArg Line.entry (Except.ok.inj hr)
      rw [he] at this
      exact Entry.requirement.inj this
    rw [toList_renderSpec]
    exact noOptions_specChars hread hm

end Line.WellFormed

namespace Manifest

/-- Lines that are numbered from `n` on, with their texts. -/
theorem numbered_map_render {lines : List Line} {n : Nat}
    (h : lines.map (·.number) = List.range' n lines.length) :
    numbered n (lines.map (·.render.toList)) =
      lines.map fun line => ⟨line.number, line.render.toList⟩ := by
  induction lines generalizing n with
  | nil => rfl
  | cons line lines ih =>
    rw [List.map_cons, List.length_cons, List.range'_succ] at h
    obtain ⟨hn, ht⟩ := List.cons.inj h
    have := ih ht
    rw [numbered] at this ⊢
    rw [List.map_cons, List.zipIdx_cons, List.map_cons, List.map_cons, this, hn]

/-- A manifest of well-formed lines is read back from its text exactly when every line is plain. -/
theorem parse_render_preserve_iff {m : Manifest}
    (hn : m.lines.map (·.number) = List.range' 1 m.lines.length)
    (hw : ∀ line ∈ m.lines, line.WellFormed) :
    parse (m.render .preserve) = .ok m ↔ ∀ line ∈ m.lines, line.IsPlain := by
  have hl := isLineText_of_mem_preserve fun line hm => (hw line hm).toSound
  have ht : (m.renderedLines .preserve).map String.toList = m.lines.map (·.render.toList) := by
    unfold renderedLines
    rw [List.map_map]
    rfl
  unfold parse
  rw [toList_render]
  rw [ht] at hl ⊢
  have hread : AreRead (numbered 1 (m.lines.map (·.render.toList))) m.lines ↔
      ∀ line ∈ m.lines, Line.readChars line.render.toList line.number = .ok line := by
    rw [numbered_map_render hn, AreRead, List.forall₂_map_left_iff, List.forall₂_same]
  constructor
  · intro h
    have hc : ∀ cs ∈ m.lines.map (·.render.toList), continued? cs = none := by
      refine continued?_eq_none_of_readChars hl h (Nat.le_of_eq ?_)
      rw [count_joined (by decide), List.map_map]
      rfl
    have hr := hread.mp ((readChars_joined_iff hl hc).mp h)
    intro line hm
    refine ⟨fun r he => ?_, hc _ (List.mem_map_of_mem hm)⟩
    exact (hw line hm).noOptions_of_readChars (hr line hm) (Line.requirement?_eq_some.mp he)
  · intro h
    have hc : ∀ cs ∈ m.lines.map (·.render.toList), continued? cs = none := by
      intro cs hcs
      obtain ⟨line, hm, rfl⟩ := List.mem_map.mp hcs
      exact (h line hm).ended
    refine (readChars_joined_iff hl hc).mpr (hread.mpr fun line hm => ?_)
    exact (hw line hm).readChars_render (h line hm).noOptions

/-- One line of each kind. -/
def oneOfEach : Manifest := ⟨[
  ⟨1, .comment "# service", none⟩,
  ⟨2, .option ⟨"--index-url", some "https://pypi.org/simple"⟩, none⟩,
  ⟨3, .includeFile ⟨.constraints, "limits.txt"⟩, some "shared"⟩,
  ⟨4, .requirement ⟨"uvicorn", ["standard"], [⟨.equal, "0.17.6"⟩], none,
    some "python_version >= '3.8 --'", ["sha256:ab12"]⟩, some "web"⟩,
  ⟨5, .requirement ⟨"tool", [], [], some "https://example.org/tool.whl", none, []⟩, none⟩,
  ⟨6, .blank, none⟩,
  ⟨7, .editable ⟨"."⟩, some ""⟩]⟩

theorem parse_render_oneOfEach :
    oneOfEach.lines.map (·.number) = List.range' 1 oneOfEach.lines.length ∧
      (∀ line ∈ oneOfEach.lines, line.WellFormed) ∧
      parse (oneOfEach.render .preserve) = .ok oneOfEach := by
  have hn : oneOfEach.lines.map (·.number) = List.range' 1 oneOfEach.lines.length := by decide
  have hw : ∀ line ∈ oneOfEach.lines, line.WellFormed := by decide +kernel
  exact ⟨hn, hw, (parse_render_preserve_iff hn hw).mpr (by decide +kernel)⟩

/-- Well-formed lines alone are not enough: a marker may hold a blank in front of two hyphens. -/
theorem not_parse_render_preserve : ¬ ∀ m : Manifest,
    m.lines.map (·.number) = List.range' 1 m.lines.length →
      (∀ line ∈ m.lines, line.WellFormed) → parse (m.render .preserve) = .ok m := by
  intro h
  have hr := h ⟨[⟨1, .requirement ⟨"a", [], [], none, some "b --c", []⟩, none⟩]⟩ (by decide)
    (by decide +kernel)
  exact absurd hr (by decide +kernel)

end Manifest

end PinFile
