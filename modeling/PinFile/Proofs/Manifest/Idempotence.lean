import PinFile.Proofs.Line.Written
import PinFile.Proofs.Manifest.Normal
import PinFile.Proofs.Manifest.Rendered

/-!
# Formatting again

A formatted text is fixed when it is read and formatted in the same layout to itself. It is so
exactly when every line that is written is stable (`isFixed_iff`): its entry is read back, and no
backslash joins it with the next line.

If a formatted text is fixed, all its backslashes are still there after it is read, so no two
lines were joined; then each line was read on its own, and none of them can have been refused.
-/

namespace PinFile

open Text

structure Line.IsStable (line : Line) : Prop where
  entry : line.entry.IsStable
  ended : continued? line.render.toList = none

instance (line : Line) : Decidable line.IsStable :=
  decidable_of_iff (line.entry.IsStable ∧ continued? line.render.toList = none)
    ⟨fun h => ⟨h.1, h.2⟩, fun h => ⟨h.1, h.2⟩⟩

theorem Line.render_alone (n : Nat) (e : Entry) : (⟨n, e, none⟩ : Line).render = e.render :=
  String.append_empty

namespace Manifest

/-- The text of the manifest is read, and its text in the same layout is the same. -/
def IsFixed (m : Manifest) (layout : Layout) : Prop :=
  ∃ m', parse (m.render layout) = .ok m' ∧ m'.render layout = m.render layout

/-- The entries that the normal layout writes. -/
def normalEntries (m : Manifest) : List Entry :=
  m.options.map .option ++ m.includes.map .includeFile ++ m.normalRequirements.map .requirement
    ++ m.editables.map .editable

/-- The lines that a layout writes, some perhaps more than once. -/
def written (m : Manifest) : Layout → List Line
  | .preserve => m.lines
  | .normalize => m.normalEntries.map (⟨0, ·, none⟩)

variable {m m' : Manifest} {layout : Layout}

theorem mem_renderedLines {text : String} :
    text ∈ m.renderedLines layout ↔ ∃ line ∈ m.written layout, line.render = text := by
  cases layout with
  | preserve => exact List.mem_map
  | normalize =>
    simp only [renderedLines, normalizedEntries, written, normalEntries, List.mem_append,
      List.mem_eraseDups, List.mem_map, normalRequirements]
    constructor
    · rintro (((⟨o, h, rfl⟩ | ⟨i, h, rfl⟩) | ⟨r, h, rfl⟩) | ⟨e, h, rfl⟩)
      · exact ⟨_, ⟨_, .inl (.inl (.inl ⟨o, h, rfl⟩)), rfl⟩, Line.render_alone ..⟩
      · exact ⟨_, ⟨_, .inl (.inl (.inr ⟨i, h, rfl⟩)), rfl⟩, Line.render_alone ..⟩
      · exact ⟨_, ⟨_, .inl (.inr ⟨r, h, rfl⟩), rfl⟩, Line.render_alone ..⟩
      · exact ⟨_, ⟨_, .inr ⟨e, h, rfl⟩, rfl⟩, Line.render_alone ..⟩
    · rintro ⟨_, ⟨_, ((⟨o, h, rfl⟩ | ⟨i, h, rfl⟩) | ⟨r, h, rfl⟩) | ⟨e, h, rfl⟩, rfl⟩, rfl⟩ <;>
        rw [Line.render_alone]
      · exact .inl (.inl (.inl ⟨o, h, rfl⟩))
      · exact .inl (.inl (.inr ⟨i, h, rfl⟩))
      · exact .inl (.inr ⟨r, h, rfl⟩)
      · exact .inr ⟨e, h, rfl⟩

/-! ## Soundness -/

theorem mem_entries_of_mem_normalEntries {e : Entry} (h : e ∈ m.normalEntries) :
    ∃ line ∈ m.lines, line.entry = e := by
  simp only [normalEntries, List.mem_append, List.mem_map, options, includes, editables,
    normalRequirements, List.mem_mergeSort] at h
  rcases h with ((⟨o, h, rfl⟩ | ⟨i, h, rfl⟩) | ⟨r, h, rfl⟩) | ⟨t, h, rfl⟩
  · obtain ⟨line, hm, h⟩ := List.mem_filterMap.mp h
    refine ⟨line, hm, ?_⟩
    unfold Line.option? at h
    split at h <;> simp_all
  · obtain ⟨line, hm, h⟩ := List.mem_filterMap.mp h
    refine ⟨line, hm, ?_⟩
    unfold Line.include? at h
    split at h <;> simp_all
  · obtain ⟨line, hm, h⟩ := List.mem_filterMap.mp ((distinctSpecs_sublist _).subset h)
    exact ⟨line, hm, Line.requirement?_eq_some.mp h⟩
  · obtain ⟨line, hm, h⟩ := List.mem_filterMap.mp h
    refine ⟨line, hm, ?_⟩
    unfold Line.editable? at h
    split at h <;> simp_all

/-- What is written of a manifest that was read is sound. -/
theorem sound_of_mem_written (h : ∀ line ∈ m.lines, line.Sound ∧ line.entry.Accepted) :
    ∀ line ∈ m.written layout, line.Sound ∧ line.entry.Accepted := by
  cases layout with
  | preserve => exact h
  | normalize =>
    intro line hm
    obtain ⟨e, he, rfl⟩ := List.mem_map.mp hm
    obtain ⟨line, hline, rfl⟩ := mem_entries_of_mem_normalEntries he
    obtain ⟨hs, ha⟩ := h line hline
    exact ⟨⟨hs.entry, fun _ => rfl, by simp⟩, ha⟩

theorem isLineText_of_mem_written (h : ∀ line ∈ m.written layout, line.Sound) :
    ∀ cs ∈ (m.renderedLines layout).map String.toList, IsLineText cs := by
  intro cs hcs
  obtain ⟨text, ht, rfl⟩ := List.mem_map.mp hcs
  obtain ⟨line, hm, rfl⟩ := mem_renderedLines.mp ht
  exact (h line hm).isLineText_render

/-! ## Fixed texts have stable lines -/

theorem count_render_eq (m : Manifest) (layout : Layout) :
    (m.render layout).toList.count '\\' = ((m.renderedLines layout).map slashes).sum := by
  rw [toList_render, count_joined (by decide), List.map_map]
  rfl

/-- No layout writes a backslash that is not in the lines. -/
theorem count_render_le (m : Manifest) (layout : Layout) :
    (m.render layout).toList.count '\\' ≤ (m.lines.map (·.render.toList.count '\\')).sum := by
  rw [count_render_eq]
  cases layout with
  | preserve =>
    unfold renderedLines
    rw [List.map_map]
    exact Nat.le_refl _
  | normalize => exact sum_slashes_normalizedEntries_le m

theorem AreRead.of_mem {texts : List (List Char)} {lines : List Line} {n : Nat}
    (h : AreRead (numbered n texts) lines) {cs : List Char} (hm : cs ∈ texts) :
    ∃ k line, Line.readChars cs k = .ok line := by
  induction texts generalizing n lines with
  | nil => cases hm
  | cons t texts ih =>
    obtain ⟨line, lines, hr, hrest, -⟩ := List.forall₂_cons_left_iff.mp h
    rcases List.mem_cons.mp hm with rfl | hm
    · exact ⟨n, line, hr⟩
    · exact ih hrest hm

/-- A line that is not stable would have been refused, since no line before it goes on. -/
theorem isStable_of_parse (h : ∀ line ∈ m.written layout, line.Sound)
    (hread : parse (m.render layout) = .ok m')
    (hc : ∀ cs ∈ (m.renderedLines layout).map String.toList, continued? cs = none) :
    ∀ line ∈ m.written layout, line.IsStable := by
  unfold parse at hread
  rw [toList_render] at hread
  have hlines := (readChars_joined_iff (isLineText_of_mem_written h) hc).mp hread
  intro line hm
  have hmem : line.render.toList ∈ (m.renderedLines layout).map String.toList :=
    List.mem_map_of_mem (mem_renderedLines.mpr ⟨line, hm, rfl⟩)
  refine ⟨?_, hc _ hmem⟩
  by_contra hs
  obtain ⟨k, line', hr⟩ := hlines.of_mem hmem
  obtain ⟨e, he⟩ := (h line hm).exists_error hs k
  rw [he] at hr
  cases hr

theorem isStable_of_isFixed (h : ∀ line ∈ m.written layout, line.Sound)
    (hf : m.IsFixed layout) : ∀ line ∈ m.written layout, line.IsStable := by
  obtain ⟨m', hread, hrender⟩ := hf
  refine isStable_of_parse h hread ?_
  have hcount := hrender ▸ count_render_le m' layout
  rw [toList_render] at hcount
  unfold parse at hread
  rw [toList_render] at hread
  exact continued?_eq_none_of_readChars (isLineText_of_mem_written h) hread hcount

/-! ## Stable lines make fixed texts -/

/-- The lines with the numbers that they have when they are written one after another. -/
def renumber (lines : List Line) : Manifest :=
  ⟨(lines.zipIdx 1).map fun x => { x.1 with number := x.2 }⟩

theorem map_renumber {α : Type} {f : Line → α} (hf : ∀ line n, f { line with number := n } = f line)
    (lines : List Line) : (renumber lines).lines.map f = lines.map f := by
  have : (f ∘ fun x : Line × Nat => { x.1 with number := x.2 }) = f ∘ Prod.fst :=
    funext fun x => hf x.1 x.2
  unfold renumber
  rw [List.map_map, this, ← List.map_map, List.zipIdx_map_fst]

/-- Stable lines are read back with the numbers of their places. -/
theorem readChars_renumber {lines : List Line}
    (h : ∀ line ∈ lines, line.Sound ∧ line.entry.Accepted)
    (hs : ∀ line ∈ lines, line.IsStable) :
    readChars (joined (lines.map (·.render.toList))) = .ok (renumber lines) := by
  have hl : ∀ cs ∈ lines.map (·.render.toList), IsLineText cs := by
    intro cs hcs
    obtain ⟨line, hm, rfl⟩ := List.mem_map.mp hcs
    exact (h line hm).1.isLineText_render
  have hc : ∀ cs ∈ lines.map (·.render.toList), continued? cs = none := by
    intro cs hcs
    obtain ⟨line, hm, rfl⟩ := List.mem_map.mp hcs
    exact (hs line hm).ended
  rw [readChars_joined_iff hl hc]
  refine (areRead_numbered_map_iff (g := fun n (line : Line) => { line with number := n })).mpr
    fun x hx => ?_
  have hm : x.1 ∈ lines := List.fst_mem_of_mem_zipIdx hx
  obtain ⟨hsound, ha⟩ := h x.1 hm
  have hstable := (hs x.1 hm).entry
  refine hsound.readChars_render hstable.noMarks (fun r he => ?_) x.2
  rw [he] at hstable
  exact (ha r he).readChars_eq hstable

theorem map_toList_renderedLines {lines : List Line}
    (h : lines.map Line.render = m.renderedLines layout) :
    (m.renderedLines layout).map String.toList = lines.map (·.render.toList) := by
  rw [← h, List.map_map]
  rfl

/-- A text of stable lines is read as these. -/
theorem parse_render_of_isStable {lines : List Line}
    (ht : lines.map Line.render = m.renderedLines layout)
    (h : ∀ line ∈ lines, line.Sound ∧ line.entry.Accepted)
    (hs : ∀ line ∈ lines, line.IsStable) :
    parse (m.render layout) = .ok (renumber lines) := by
  unfold parse
  rw [toList_render, map_toList_renderedLines ht]
  exact readChars_renumber h hs

/-- Entries in the order of the normal layout. -/
def arranged (os : List InstallerOption) (is : List Include) (rs : List Requirement)
    (es : List Editable) : List Entry :=
  os.map .option ++ is.map .includeFile ++ rs.map .requirement ++ es.map .editable

/-- Options, inclusions and editable installs of a manifest, one for each text. -/
structure IsDistinctParts (m : Manifest) (os : List InstallerOption) (is : List Include)
    (es : List Editable) : Prop where
  options_subset : os ⊆ m.options
  includes_subset : is ⊆ m.includes
  editables_subset : es ⊆ m.editables
  options : os.map InstallerOption.render = (m.options.map InstallerOption.render).eraseDups
  includes : is.map Include.render = (m.includes.map Include.render).eraseDups
  editables : es.map Editable.render = (m.editables.map Editable.render).eraseDups

theorem exists_distinctParts (m : Manifest) : ∃ os is es, m.IsDistinctParts os is es := by
  obtain ⟨os, hos, ho⟩ := exists_map_eq
    (eraseDups_sublist (m.options.map InstallerOption.render)).subset
  obtain ⟨is, his, hi⟩ := exists_map_eq
    (eraseDups_sublist (m.includes.map Include.render)).subset
  obtain ⟨es, hes, he⟩ := exists_map_eq
    (eraseDups_sublist (m.editables.map Editable.render)).subset
  exact ⟨os, is, es, hos, his, hes, ho, hi, he⟩

namespace IsDistinctParts

variable {os : List InstallerOption} {is : List Include} {es : List Editable}

theorem arranged_subset (h : m.IsDistinctParts os is es) :
    arranged os is m.normalRequirements es ⊆ m.normalEntries := by
  unfold arranged normalEntries
  refine List.append_subset.mpr ⟨List.append_subset.mpr ⟨List.append_subset.mpr ⟨?_, ?_⟩, ?_⟩,
    ?_⟩ <;> intro e he <;> simp only [List.mem_append]
  · exact .inl (.inl (.inl (List.map_subset _ h.options_subset he)))
  · exact .inl (.inl (.inr (List.map_subset _ h.includes_subset he)))
  · exact .inl (.inr he)
  · exact .inr (List.map_subset _ h.editables_subset he)

theorem map_render_arranged (h : m.IsDistinctParts os is es) :
    (arranged os is m.normalRequirements es).map Entry.render = m.normalizedEntries := by
  simp only [arranged, List.map_append, List.map_map, normalizedEntries, ← h.options, ← h.includes,
    ← h.editables]
  rfl

/-- A manifest of these entries has the same normal layout. -/
theorem normalizedEntries_eq (h : m.IsDistinctParts os is es)
    (he : m'.lines.map (·.entry) = arranged os is m.normalRequirements es) :
    m'.normalizedEntries = m.normalizedEntries := by
  obtain ⟨h1, h2, h3, h4⟩ := parts_of_entries he
  exact normalizedEntries_idem (h1 ▸ h.options) (h2 ▸ h.includes) h3 (h4 ▸ h.editables)

end IsDistinctParts

/-- The lines that hold some entries and nothing else, without numbers of their own. -/
def bareLines (entries : List Entry) : List Line := entries.map (⟨0, ·, none⟩)

theorem map_render_bareLines (entries : List Entry) :
    (bareLines entries).map Line.render = entries.map Entry.render := by
  unfold bareLines
  rw [List.map_map]
  exact List.map_congr_left fun e _ => Line.render_alone 0 e

theorem map_entry_renumber_bareLines (entries : List Entry) :
    (renumber (bareLines entries)).lines.map (·.entry) = entries := by
  rw [map_renumber (fun _ _ => rfl), bareLines, List.map_map]
  exact List.map_id _

/-- Lines whose texts the layout writes, each a line that the layout writes. -/
theorem exists_lines (m : Manifest) (layout : Layout) : ∃ lines, lines ⊆ m.written layout ∧
    lines.map Line.render = m.renderedLines layout ∧
      (renumber lines).render layout = m.render layout := by
  cases layout with
  | preserve =>
    refine ⟨m.lines, fun _ h => h, rfl, ?_⟩
    have : (renumber m.lines).renderedLines .preserve = m.renderedLines .preserve :=
      map_renumber (fun _ _ => rfl) m.lines
    rw [render, render, this]
  | normalize =>
    obtain ⟨os, is, es, h⟩ := exists_distinctParts m
    refine ⟨bareLines (arranged os is m.normalRequirements es),
      List.map_subset _ h.arranged_subset, ?_, ?_⟩
    · rw [map_render_bareLines, h.map_render_arranged]
      rfl
    · rw [render, render, renderedLines, renderedLines,
        h.normalizedEntries_eq (map_entry_renumber_bareLines _)]

/-- Formatting again changes nothing exactly when every line that is written is stable. -/
theorem isFixed_iff (h : ∀ line ∈ m.lines, line.Sound ∧ line.entry.Accepted) (layout : Layout) :
    m.IsFixed layout ↔ ∀ line ∈ m.written layout, line.IsStable := by
  have hw : ∀ line ∈ m.written layout, line.Sound ∧ line.entry.Accepted :=
    sound_of_mem_written h
  refine ⟨isStable_of_isFixed fun line hm => (hw line hm).1, fun hs => ?_⟩
  obtain ⟨lines, hsub, hrender, hfixed⟩ := exists_lines m layout
  exact ⟨renumber lines, parse_render_of_isStable hrender (fun line hm => hw line (hsub hm))
    fun line hm => hs line (hsub hm), hfixed⟩

end Manifest

end PinFile
