import PinFile.Manifest.Layout
import PinFile.Manifest.Reader
import PinFile.Proofs.Line.Accepted
import PinFile.Proofs.Results
import PinFile.Proofs.Text.Lines

/-!
# Rendered manifests

The text of a manifest is its rendered lines, each with its end. Where no line goes on in the next
one, reading it is reading each of its lines (`readChars_joined_iff`); and none goes on where what
is read holds all the backslashes of the text (`continued?_eq_none_of_readChars`).
-/

namespace PinFile.Manifest

open Text

variable {cs : List Char} {texts : List (List Char)} {m : Manifest}

theorem toList_join_ends (texts : List String) :
    (String.join (texts.map (· ++ "\n"))).toList = joined (texts.map String.toList) := by
  induction texts with
  | nil => rfl
  | cons text texts ih =>
    rw [List.map_cons, String.join_cons, String.toList_append, ih, List.map_cons, joined_cons,
      String.toList_append]
    simp

theorem toList_render (m : Manifest) (layout : Layout) :
    (m.render layout).toList = joined ((m.renderedLines layout).map String.toList) :=
  toList_join_ends _

/-! ## Line by line -/

/-- The lines of a manifest are read from lines of a text one by one. -/
def AreRead (texts : List Numbered) (lines : List Line) : Prop :=
  List.Forall₂ (fun text line => Line.readChars text.text text.number = .ok line) texts lines

theorem readChars_eq_ok_iff : readChars cs = .ok m ↔ AreRead (logicalLines cs) m.lines := by
  unfold readChars
  rw [map_eq_ok_iff, AreRead]
  constructor
  · rintro ⟨lines, h, rfl⟩
    exact mapM_eq_ok_iff.mp h
  · intro h
    exact ⟨m.lines, mapM_eq_ok_iff.mpr h, rfl⟩

theorem AreRead.sound {texts : List Numbered} {lines : List Line} (h : AreRead texts lines)
    (hl : ∀ text ∈ texts, '\n' ∉ text.text) : ∀ line ∈ lines, line.Sound ∧ line.entry.Accepted := by
  induction h with
  | nil => simp
  | cons hr _ ih =>
    obtain ⟨ht, hl⟩ := List.forall_mem_cons.mp hl
    obtain ⟨-, hs, ha, -⟩ := Line.readChars_eq_ok hr ht
    exact List.forall_mem_cons.mpr ⟨⟨hs, ha⟩, ih hl⟩

/-- The lines hold no more backslashes than the texts they are read from. -/
theorem AreRead.count_le {texts : List Numbered} {lines : List Line} (h : AreRead texts lines)
    (hl : ∀ text ∈ texts, '\n' ∉ text.text) :
    (lines.map (·.render.toList.count '\\')).sum ≤ (texts.map (·.text.count '\\')).sum := by
  induction h with
  | nil => exact Nat.le_refl 0
  | cons hr _ ih =>
    obtain ⟨ht, hl⟩ := List.forall_mem_cons.mp hl
    obtain ⟨-, -, -, hc⟩ := Line.readChars_eq_ok hr ht
    exact Nat.add_le_add hc (ih hl)

/-- Every line that is read is sound. -/
theorem sound_of_readChars (h : readChars cs = .ok m) :
    ∀ line ∈ m.lines, line.Sound ∧ line.entry.Accepted :=
  (readChars_eq_ok_iff.mp h).sound not_mem_logicalLines

/-- Lines that do not go on are read one by one. -/
theorem readChars_joined_iff (h : ∀ cs ∈ texts, IsLineText cs)
    (hc : ∀ cs ∈ texts, continued? cs = none) :
    readChars (joined texts) = .ok m ↔ AreRead (numbered 1 texts) m.lines := by
  rw [readChars_eq_ok_iff, logicalLines_joined h hc]

/-- No line goes on where what is read holds all backslashes of the text. -/
theorem continued?_eq_none_of_readChars (h : ∀ cs ∈ texts, IsLineText cs)
    (hr : readChars (joined texts) = .ok m)
    (hc : (joined texts).count '\\' ≤ (m.lines.map (·.render.toList.count '\\')).sum) :
    ∀ cs ∈ texts, continued? cs = none :=
  continued?_eq_none_of_count h
    (hc.trans ((readChars_eq_ok_iff.mp hr).count_le not_mem_logicalLines))

/-! ## The layout that keeps every line -/

theorem isLineText_of_mem_preserve (h : ∀ line ∈ m.lines, line.Sound) :
    ∀ cs ∈ (m.renderedLines .preserve).map String.toList, IsLineText cs := by
  intro cs hcs
  simp only [renderedLines, List.map_map, List.mem_map, Function.comp_apply] at hcs
  obtain ⟨line, hm, rfl⟩ := hcs
  exact (h line hm).isLineText_render

theorem areRead_numbered_map_iff {α : Type} {f : α → List Char} {g : Nat → α → Line} {xs : List α}
    {n : Nat} :
    AreRead (numbered n (xs.map f)) ((xs.zipIdx n).map fun x => g x.2 x.1) ↔
      ∀ x ∈ xs.zipIdx n, Line.readChars (f x.1) x.2 = .ok (g x.2 x.1) := by
  rw [AreRead, numbered, List.zipIdx_map, List.map_map, List.forall₂_map_left_iff,
    List.forall₂_map_right_iff, List.forall₂_same]
  rfl

end PinFile.Manifest
