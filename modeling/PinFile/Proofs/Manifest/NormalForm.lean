import PinFile.Proofs.Change
import PinFile.Proofs.Lint.Findings
import PinFile.Proofs.Manifest.Idempotence

/-!
# The normal layout as a normal form

A manifest whose entries are read back one by one, apart from comments and blank lines, is written
in the normal layout as a text that is read (`exists_parse_normalize`). What is read holds one
requirement of each specification and its editable installs last. So it does not differ from the
manifest, and has no duplicate pins and no editable install in front of requirements
(`normalize_spec`).
-/

namespace PinFile

open Text

/-- The entry is read from its own text without a comment, and the text is one line that does not
go on. -/
structure Entry.ReadsBack (e : Entry) : Prop where
  parse : ∃ n, Line.parse e.render n = .ok ⟨n, e, none⟩
  oneLine : '\n' ∉ e.render.toList
  ended : e.render.toList.getLast? ≠ some '\\'

namespace Entry.ReadsBack

variable {e : Entry}

theorem sound (h : e.ReadsBack) : (⟨0, e, none⟩ : Line).Sound ∧ e.Accepted := by
  obtain ⟨n, hr⟩ := h.parse
  obtain ⟨-, hs, ha, -⟩ := Line.readChars_eq_ok hr h.oneLine
  exact ⟨⟨hs.entry, fun _ => rfl, by simp⟩, ha⟩

theorem isStable (h : e.ReadsBack) : (⟨0, e, none⟩ : Line).IsStable where
  entry := by
    by_contra hs
    obtain ⟨n, hr⟩ := h.parse
    obtain ⟨fault, hf⟩ := h.sound.1.exists_error hs n
    rw [Line.render_alone] at hf
    cases hr.symm.trans hf
  ended := by
    rw [Line.render_alone]
    exact continued?_eq_none_iff.mpr (.inr h.ended)

end Entry.ReadsBack

namespace Manifest

variable {m m' : Manifest} {os : List InstallerOption} {is : List Include}
  {rs : List Requirement} {es : List Editable}

theorem isRemark_of_mem_normalEntries {e : Entry} (h : e ∈ m.normalEntries) :
    e.isRemark = false := by
  simp only [normalEntries, List.mem_append, List.mem_map] at h
  rcases h with ((⟨o, -, rfl⟩ | ⟨i, -, rfl⟩) | ⟨r, -, rfl⟩) | ⟨t, -, rfl⟩ <;> rfl

theorem pairwise_number_renumber (lines : List Line) :
    (renumber lines).lines.Pairwise (·.number < ·.number) := by
  rw [← List.pairwise_map (f := Line.number)]
  have hn : (renumber lines).lines.map (·.number) = List.range' 1 lines.length := by
    rw [renumber, List.map_map]
    exact List.zipIdx_map_snd 1 lines
  rw [hn]
  exact List.pairwise_lt_range'

/-- What is read of the normal layout: one entry of each text, in the order of the layout. -/
theorem exists_parse_normalize
    (h : ∀ line ∈ m.lines, line.entry.isRemark = false → line.entry.ReadsBack) :
    ∃ m' os is es, parse (m.render .normalize) = .ok m' ∧ m.IsDistinctParts os is es ∧
      m'.lines.map (·.entry) = arranged os is m.normalRequirements es ∧
      m'.lines.Pairwise (·.number < ·.number) := by
  obtain ⟨os, is, es, hd⟩ := exists_distinctParts m
  have hback : ∀ e ∈ arranged os is m.normalRequirements es, e.ReadsBack := by
    intro e he
    have hn := hd.arranged_subset he
    obtain ⟨line, hm, rfl⟩ := mem_entries_of_mem_normalEntries hn
    exact h line hm (isRemark_of_mem_normalEntries hn)
  refine ⟨renumber (bareLines (arranged os is m.normalRequirements es)), os, is, es, ?_, hd,
    map_entry_renumber_bareLines _, pairwise_number_renumber _⟩
  have ht : (bareLines (arranged os is m.normalRequirements es)).map Line.render =
      m.renderedLines .normalize :=
    (map_render_bareLines _).trans hd.map_render_arranged
  refine parse_render_of_isStable ht (fun line hm => ?_) fun line hm => ?_
  · obtain ⟨e, he, rfl⟩ := List.mem_map.mp hm
    exact (hback e he).sound
  · obtain ⟨e, he, rfl⟩ := List.mem_map.mp hm
    exact (hback e he).isStable

/-! ## Changes -/

/-- One requirement of each specification has the same keys as all. -/
theorem specKeys_eq_of_requirements (h : m'.requirements = m.normalRequirements)
    (package : String) : m.specKeys package = m'.specKeys package := by
  refine specKeys_eq_iff.mpr fun key => ?_
  rw [HasSpec, HasSpec, h, normalRequirements]
  constructor
  · rintro ⟨r, hr, rfl, rfl⟩
    obtain ⟨r', hm, hs⟩ := exists_mem_distinctSpecs hr
    obtain ⟨hp, hk⟩ := Bool.and_eq_true_iff.mp hs
    exact ⟨r', List.mem_mergeSort.mpr hm, beq_iff_eq.mp hp, beq_iff_eq.mp hk⟩
  · rintro ⟨r, hr, hs⟩
    exact ⟨r, (distinctSpecs_sublist _).subset (List.mem_mergeSort.mp hr), hs⟩

/-! ## Findings -/

/-- The editable installs stand behind all requirements. -/
theorem number_le_of_arranged (he : m.lines.map (·.entry) = arranged os is rs es)
    (hn : m.lines.Pairwise (·.number < ·.number)) : ∀ a ∈ m.lines, ∀ b ∈ m.lines,
      a.editable?.isSome = true → b.requirement?.isSome = true → b.number ≤ a.number := by
  obtain ⟨front, back, hl, hf, hb⟩ := List.map_eq_append_iff.mp he
  rw [hl] at hn ⊢
  have hfront : ∀ a ∈ front, a.editable? = none := by
    intro a ha
    have hm : a.entry ∈ os.map Entry.option ++ is.map .includeFile ++ rs.map .requirement :=
      hf ▸ List.mem_map_of_mem ha
    simp only [List.mem_append, List.mem_map] at hm
    rcases hm with (⟨_, -, h⟩ | ⟨_, -, h⟩) | ⟨_, -, h⟩ <;> simp [Line.editable?, ← h]
  have hback : ∀ b ∈ back, b.requirement? = none := by
    intro b hb'
    have hm : b.entry ∈ es.map Entry.editable := hb ▸ List.mem_map_of_mem hb'
    obtain ⟨_, -, h⟩ := List.mem_map.mp hm
    simp [Line.requirement?, ← h]
  intro a ha b hb hea hrb
  have ha : a ∈ back := (List.mem_append.mp ha).resolve_left fun hm => by
    rw [hfront a hm] at hea
    cases hea
  have hb : b ∈ front := (List.mem_append.mp hb).resolve_right fun hm => by
    rw [hback b hm] at hrb
    cases hrb
  exact ((List.pairwise_append.mp hn).2.2 b hb a ha).le

/-! ## The normal form -/

/-- Where every entry is read back, the normal layout is read as a manifest that is written in the
same way, does not differ from the first, and has neither duplicate pins nor an editable install
that is not last. -/
theorem normalize_spec
    (h : ∀ line ∈ m.lines, line.entry.isRemark = false → line.entry.ReadsBack) :
    ∃ m', parse (m.render .normalize) = .ok m' ∧
      m'.render .normalize = m.render .normalize ∧
      (Change.between m m').isEmpty = true ∧ (Change.between m' m).isEmpty = true ∧
      ∀ s, (Lint.checkManifest m' s).ofKind .duplicatePin = [] ∧
        (Lint.checkManifest m' s).ofKind .editableNotLast = [] := by
  obtain ⟨m', os, is, es, hparse, hd, he, hn⟩ := exists_parse_normalize h
  have hr : m'.requirements = m.normalRequirements := (parts_of_entries he).2.2.1
  have hkeys := specKeys_eq_of_requirements hr
  refine ⟨m', hparse, ?_, Change.isEmpty_between hkeys,
    Change.isEmpty_between fun p => (hkeys p).symm, fun s => ?_⟩
  · rw [render, render, renderedLines, renderedLines, hd.normalizedEntries_eq he]
  · exact Lint.ofKind_eq_nil (hr ▸ pairwise_normalRequirements m)
      (Lint.editableOrder?_eq_none (number_le_of_arranged he hn))

/-- An editable install in front, a malformed comment and one package in two spellings. -/
def jumbled : Manifest where
  lines := [
    ⟨1, .editable ⟨"./lib"⟩, some "# first"⟩,
    ⟨1, .comment "no mark", none⟩,
    ⟨3, .requirement ⟨"B_b", [], [⟨.equal, "1.0"⟩], none, none, []⟩, none⟩,
    ⟨3, .includeFile ⟨.constraints, "c.txt"⟩, none⟩,
    ⟨2, .requirement ⟨"b-B", [], [⟨.equal, "1.0"⟩], none, none, []⟩, none⟩,
    ⟨9, .requirement ⟨"a", ["x"], [], none, some "os_name == 'posix'", []⟩, none⟩,
    ⟨0, .option ⟨"--pre", none⟩, none⟩]

theorem readsBack_jumbled :
    ∀ line ∈ jumbled.lines, line.entry.isRemark = false → line.entry.ReadsBack := by
  have h : ∀ line ∈ jumbled.lines, line.entry.isRemark = false →
      Line.parse line.entry.render 1 = .ok ⟨1, line.entry, none⟩ ∧
        '\n' ∉ line.entry.render.toList ∧ line.entry.render.toList.getLast? ≠ some '\\' := by
    decide +kernel
  intro line hm hr
  obtain ⟨hp, ho, he⟩ := h line hm hr
  exact ⟨⟨1, hp⟩, ho, he⟩

theorem normalize_spec_jumbled :
    (∀ line ∈ jumbled.lines, line.entry.isRemark = false → line.entry.ReadsBack) ∧
      ∃ m', parse (jumbled.render .normalize) = .ok m' ∧
        (Change.between jumbled m').isEmpty = true ∧
        (Change.between m' jumbled).isEmpty = true := by
  obtain ⟨m', hp, -, hc, hc', -⟩ := normalize_spec readsBack_jumbled
  exact ⟨readsBack_jumbled, m', hp, hc, hc'⟩

end Manifest

end PinFile
