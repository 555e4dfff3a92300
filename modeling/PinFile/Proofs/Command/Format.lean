import PinFile.Program
import PinFile.Proofs.Command.Action
import PinFile.Proofs.Files.Rooted
import PinFile.Proofs.Manifest.Idempotence
import PinFile.Proofs.Manifest.Kept

/-!
# Formatting a file

A file that was formatted passes the comparison in the same layout exactly when every line that
the layout writes is stable (`format_stable_iff`). The comparison reads the text that was written,
so it asks whether that text is fixed. A file that was formatted line by line holds the same lines
as before, if it can be read, exactly when none of them goes on (`format_keeps_iff`).
-/

namespace PinFile

open Text Command

namespace Program

variable {t : FileTree} {file text : String} {m : Manifest} {layout : Layout} {f : Log.Filter}

/-- The tree and the status that a formatting run leaves. -/
def format (f : Log.Filter) (file : String) (layout : Layout) (use : FormatUse) (t : FileTree) :
    Nat × FileTree :=
  let result := (carryOut (.format file layout use) f t).1
  (result.status, result.files)

theorem format_compare (ht : t.readText file = .ok text) :
    (format f file layout .compare t).1 = match Manifest.parse text with
      | .error _ => 2
      | .ok m => if m.render layout = text then 0 else 1 := by
  unfold format carryOut
  simp only [Command.run, runFormat, Action.run_bind, Action.run_files, Action.run_ofExcept_ok, ht,
    Action.run_noteAll]
  cases hp : Manifest.parse text with
  | error e => rfl
  | ok m =>
    by_cases hr : m.render layout = text
    · simp only [Action.run_ofExcept_ok, hr, ↓reduceIte, Action.run_pure, conclude]
    · simp only [Action.run_ofExcept_ok, hr, ↓reduceIte, Action.run_bind, Action.run_note,
        Action.run_pure, conclude]

theorem format_write (f : Log.Filter) (layout : Layout) (hw : t.IsRooted)
    (ht : t.readText file = .ok text) (hp : Manifest.parse text = .ok m) :
    ∃ t', format f file layout .write t = (0, t') ∧ t'.readText file = .ok (m.render layout) := by
  unfold format carryOut
  simp only [Command.run, runFormat, Action.run_bind, Action.run_files, Action.run_ofExcept_ok, ht,
    Action.run_noteAll, hp]
  by_cases hr : m.render layout = text
  · refine ⟨t, ?_, hr ▸ ht⟩
    simp only [hr, ↓reduceIte, Action.run_bind, Action.run_note, Action.run_pure, conclude]
  · obtain ⟨bytes, hread, -⟩ := bind_eq_ok_iff.mp ht
    obtain ⟨a, hlocate, hnode⟩ := FileTree.read_eq_ok hread
    have hwrite := FileTree.write_of_locate hw (utf8 (m.render layout)) hlocate hnode
    refine ⟨_, ?_, FileTree.readText_of_write hwrite⟩
    simp only [hr, ↓reduceIte, hwrite, Action.run_bind, Action.run_ofExcept_ok,
      Action.run_setFiles, Action.run_note, Action.run_pure, conclude]

/-- The comparison after a formatting run asks whether the formatted text is fixed. -/
theorem format_compare_eq_zero_iff {t' : FileTree} (ht : t'.readText file = .ok (m.render layout)) :
    (format f file layout .compare t').1 = 0 ↔ m.IsFixed layout := by
  rw [format_compare ht, Manifest.IsFixed]
  cases hp : Manifest.parse (m.render layout) with
  | error e => simp
  | ok m' => simp

end Program

/-- For every text that is read: it is fixed by formatting, and the run that formats a file with
the text is passed by the comparison, exactly when every line that is written is stable. -/
theorem format_stable_iff {text : String} {m : Manifest} (h : Manifest.parse text = .ok m)
    (layout : Layout) :
    (m.IsFixed layout ↔ ∀ line ∈ m.written layout, line.IsStable) ∧
      ∀ (t : FileTree) (file : String) (f : Log.Filter), t.IsRooted → t.readText file = .ok text →
        ∃ t', Program.format f file layout .write t = (0, t') ∧
          ((Program.format f file layout .compare t').1 = 0 ↔
            ∀ line ∈ m.written layout, line.IsStable) := by
  have hfixed := Manifest.isFixed_iff (Manifest.sound_of_readChars h) layout
  refine ⟨hfixed, fun t file f hw ht => ?_⟩
  obtain ⟨t', hwrite, hread⟩ := Program.format_write f layout hw ht h
  exact ⟨t', hwrite, (Program.format_compare_eq_zero_iff hread).trans hfixed⟩

/-- A tree with one file in the home directory. -/
def oneFile (name text : String) : FileTree := ⟨[([name], .file (utf8 text))], []⟩

/-- A file that formatting settles, and one that it breaks: the space that it puts behind `;` turns
the marker into a comment. -/
theorem format_settles_and_breaks :
    (∃ t', Program.format (.ofVerbosity 0) "r.txt" .normalize .write
        (oneFile "r.txt" "b>=1\n\na ==2 # pin\n") = (0, t') ∧
      (Program.format (.ofVerbosity 0) "r.txt" .normalize .compare t').1 = 0) ∧
    ∃ t', Program.format (.ofVerbosity 0) "r.txt" .preserve .write (oneFile "r.txt" "a;#x\n") =
        (0, t') ∧
      (Program.format (.ofVerbosity 0) "r.txt" .preserve .compare t').1 ≠ 0 := by
  have h₁ : Manifest.parse "b>=1\n\na ==2 # pin\n" = .ok ⟨[
      ⟨1, .requirement ⟨"b", [], [⟨.atLeast, "1"⟩], none, none, []⟩, none⟩,
      ⟨2, .blank, none⟩,
      ⟨3, .requirement ⟨"a", [], [⟨.equal, "2"⟩], none, none, []⟩, some "pin"⟩]⟩ := by
    decide +kernel
  have h₂ : Manifest.parse "a;#x\n" = .ok ⟨[
      ⟨1, .requirement ⟨"a", [], [], none, some "#x", []⟩, none⟩]⟩ := by
    decide +kernel
  obtain ⟨t₁, hw₁, hc₁⟩ := (format_stable_iff h₁ .normalize).2
    (oneFile "r.txt" "b>=1\n\na ==2 # pin\n") "r.txt" (.ofVerbosity 0) (by decide +kernel)
    (by decide +kernel)
  obtain ⟨t₂, hw₂, hc₂⟩ := (format_stable_iff h₂ .preserve).2
    (oneFile "r.txt" "a;#x\n") "r.txt" (.ofVerbosity 0) (by decide +kernel) (by decide +kernel)
  refine ⟨⟨t₁, hw₁, hc₁.mpr fun line hm => ?_⟩, t₂, hw₂, fun h => ?_⟩
  · obtain ⟨e, he, rfl⟩ := List.mem_map.mp hm
    obtain ⟨line, hline, rfl⟩ := Manifest.mem_entries_of_mem_normalEntries he
    clear hm he
    revert line
    decide +kernel
  · exact absurd (hc₂.mp h) (by decide +kernel)

/-- Formatting is not idempotent for every text that is read. -/
theorem not_forall_isFixed : ¬ ∀ (text : String) (m : Manifest), Manifest.parse text = .ok m →
    ∀ layout, m.IsFixed layout := by
  intro h
  obtain ⟨m', hr, -⟩ := h "a;#x\n" ⟨[⟨1, .requirement ⟨"a", [], [], none, some "#x", []⟩, none⟩]⟩
    (by decide +kernel) .preserve
  have he : Manifest.parse "a; #x\n" = .error ⟨1, .emptyMarker⟩ := by rfl
  cases he.symm.trans hr

/-! ## Lines that are kept -/

/-- For every text that is read, and whose text with every line in its place is read too: the lines
are the same but for their numbers exactly when none of them goes on, each one that does takes in
the next, and these are the lines of the file after a formatting run. -/
theorem format_keeps_iff {text : String} {m m' : Manifest} (h : Manifest.parse text = .ok m)
    (h' : Manifest.parse (m.render .preserve) = .ok m') :
    (m'.contents = m.contents ↔ ∀ line ∈ m.lines, line.goesOn = false) ∧
      m'.lines.length + m.lines.dropLast.countP Line.goesOn = m.lines.length ∧
      ∀ (t : FileTree) (file : String) (f : Log.Filter), t.IsRooted → t.readText file = .ok text →
        ∃ t', Program.format f file .preserve .write t = (0, t') ∧
          Manifest.load t' file = .ok m' := by
  have hs := Manifest.sound_of_readChars h
  refine ⟨Manifest.contents_eq_iff hs h',
    Manifest.length_lines_of_parse_preserve (fun line hm => (hs line hm).1) h',
    fun t file f hw ht => ?_⟩
  obtain ⟨t', hwrite, hread⟩ := Program.format_write f .preserve hw ht h
  refine ⟨t', hwrite, ?_⟩
  unfold Manifest.load
  rw [hread]
  exact mapError_eq_ok_iff.mpr h'

/-- A comment that ends with a backslash, once in front of a blank. -/
def slashed : Manifest := ⟨[
  ⟨1, .requirement (.bare "a"), some "x\\"⟩, ⟨2, .requirement (.bare "b"), none⟩]⟩

/-- The text of a requirement that took in the one behind it. -/
def merged : Manifest := ⟨[⟨1, .requirement (.bare "a"), some "xb"⟩]⟩

theorem parse_slashed : Manifest.parse "a # x\\ \nb\n" = .ok slashed ∧
    Manifest.parse (slashed.render .preserve) = .ok merged := by
  decide +kernel

/-- A formatting run that loses a requirement: the blank behind the backslash kept it in place. -/
theorem format_loses_slashed : slashed.lines.length = 2 ∧
    ∃ t', Program.format (.ofVerbosity 0) "r.txt" .preserve .write
        (oneFile "r.txt" "a # x\\ \nb\n") = (0, t') ∧ Manifest.load t' "r.txt" = .ok merged ∧
      merged.lines.length = 1 := by
  obtain ⟨h, h'⟩ := parse_slashed
  obtain ⟨-, hlength, hrun⟩ := format_keeps_iff h h'
  obtain ⟨t', hwrite, hload⟩ := hrun (oneFile "r.txt" "a # x\\ \nb\n") "r.txt" (.ofVerbosity 0)
    (by decide +kernel) (by decide +kernel)
  refine ⟨rfl, t', hwrite, hload, ?_⟩
  have hgo : slashed.lines.dropLast.countP Line.goesOn = 1 := by decide +kernel
  rw [hgo] at hlength
  exact Nat.succ.inj hlength

/-- Formatting line by line does not keep every line that is read. -/
theorem not_forall_contents_eq : ¬ ∀ (text : String) (m m' : Manifest),
    Manifest.parse text = .ok m → Manifest.parse (m.render .preserve) = .ok m' →
      m'.contents = m.contents := by
  intro h
  obtain ⟨h₁, h₂⟩ := parse_slashed
  exact absurd (h _ _ _ h₁ h₂) (by decide)

end PinFile
