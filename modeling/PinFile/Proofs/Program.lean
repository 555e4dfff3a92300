import PinFile.Program
import PinFile.Proofs.Command.Files
import PinFile.Proofs.Command.Reader

/-!
# What a run does to the files

A run that fails, and one whose files do not pass, leaves every file as it was; one that passes
changes at most the file that the command writes (`run_keeps_files`). Beside that there may be new
directories, on the way to the store that a command opens.
-/

namespace PinFile

open Command

namespace Program

variable {asked : Option String} {args raw : List String} {t : FileTree} {a : Address}

/-- The exit status that a run comes to. -/
def exitStatus : Except Refusal RunResult → Nat
  | .ok result => result.status
  | .error .usage => 2
  | .error .help | .error .version => 0

/-- The files behind a run on a tree. -/
def filesAfter (t : FileTree) : Except Refusal RunResult → FileTree
  | .ok result => result.files
  | .error _ => t

/-- There is a new directory at the address, where the path of the command's store led when the
store was opened, or the path of a directory that holds it. -/
def IsNewHolder (c : Command) (t t' : FileTree) (a : Address) : Prop :=
  t.node? a = none ∧ t'.node? a = some .directory ∧ ∃ store n, c.store? = some store ∧
    (c.prepared t).locate (Path.parent^[n] store) = .ok a

/-- There is a file at the address, where the path that the command writes to leads. -/
def IsWritten (c : Command) (t' : FileTree) (a : Address) : Prop :=
  ∃ path content, c.destination? = some path ∧ t'.locate path = .ok a ∧
    t'.node? a = some (.file content)

theorem prepared_grows (c : Command) (t : FileTree) :
    (c.prepared t).home = t.home ∧ ∀ a, (c.prepared t).node? a = t.node? a ∨
      IsNewHolder c t (c.prepared t) a := by
  cases hs : c.store? with
  | none =>
    have hp : c.prepared t = t := by rw [prepared, hs]
    rw [hp]
    exact ⟨rfl, fun a => .inl rfl⟩
  | some store =>
    have hp : c.prepared t = (t.ensureDirectory store).1 := by rw [prepared, hs]
    have hg := t.grows_ensureDirectory store
    rw [← hp] at hg
    refine ⟨hg.home, fun a => (hg.node? a).imp_right fun ⟨hn, hd, n, hl⟩ => ?_⟩
    exact ⟨hn, hd, store, n, hs, hl⟩

/-- What carrying a command out does to the nodes of a tree. -/
theorem carryOut_node? (c : Command) (f : Log.Filter) (t : FileTree) :
    (carryOut c f t).1.files.home = t.home ∧
      ∀ a, (carryOut c f t).1.files.node? a = t.node? a ∨
        IsNewHolder c t (carryOut c f t).1.files a ∨
        ((carryOut c f t).1.status = 0 ∧ IsWritten c (carryOut c f t).1.files a) := by
  obtain ⟨hhome, hnode⟩ := prepared_grows c t
  have hrun := files_run c ⟨t, "", []⟩
  unfold carryOut
  generalize (Command.run c).run.run ⟨t, "", []⟩ = r at hrun ⊢
  obtain ⟨answer, w⟩ := r
  dsimp only at hrun ⊢
  rcases hrun with hw | ⟨rfl, path, content, hd, hwrite⟩
  · rw [hw]
    exact ⟨hhome, fun a => (hnode a).imp_right .inl⟩
  · obtain ⟨b, hb, hput, hl⟩ := FileTree.write_eq_ok hwrite
    rw [hput] at hl ⊢
    refine ⟨(FileTree.home_put _ _ _).trans hhome, fun a => ?_⟩
    have hput := FileTree.node?_put (t := c.prepared t) hb (.file content) a
    by_cases ha : a = b
    · rw [if_pos ha] at hput
      exact .inr (.inr ⟨rfl, path, content, hd, ha ▸ hl, hput⟩)
    · rw [if_neg ha] at hput
      rw [hput]
      exact (hnode a).imp_right fun ⟨hn, hdir, hstore⟩ => .inl ⟨hn, hput.trans hdir, hstore⟩

/-- A file is the same unless the run passes and has written to its address. -/
theorem file_eq_iff {c : Command} {t' : FileTree} {a : Address} {content : Text.Bytes} {p : Prop}
    (h : t'.node? a = t.node? a ∨ IsNewHolder c t t' a ∨ p) (hp : ¬ p) :
    t'.node? a = some (.file content) ↔ t.node? a = some (.file content) := by
  rcases h with h | ⟨hn, hd, -⟩ | h
  · rw [h]
  · simp [hn, hd]
  · exact absurd h hp

/-- A run without a log file leaves the home directory where it is. When its status is not 0 the
files are the same; and a node that differs is a new directory on the way to the store of the
command, or, when the status is 0, the file that the command writes. -/
theorem run_keeps_files (hlog : ∀ i, Command.read args raw = .ok i → i.logFile = none) :
    (filesAfter t (run asked args t raw)).home = t.home ∧
    (exitStatus (run asked args t raw) ≠ 0 → ∀ a content,
      (filesAfter t (run asked args t raw)).node? a = some (.file content) ↔
        t.node? a = some (.file content)) ∧
    ∀ a, (filesAfter t (run asked args t raw)).node? a ≠ t.node? a →
      ∃ i, Command.read args raw = .ok i ∧
        (IsNewHolder i.command t (filesAfter t (run asked args t raw)) a ∨
          exitStatus (run asked args t raw) = 0 ∧
            IsWritten i.command (filesAfter t (run asked args t raw)) a) := by
  cases hi : Command.read args raw with
  | error e =>
    have hr : run asked args t raw = .error e := by rw [run, hi]; rfl
    rw [hr]
    exact ⟨rfl, fun _ _ _ => .rfl, fun a ha => absurd rfl ha⟩
  | ok i =>
    have hr : run asked args t raw =
        .ok (carryOut i.command (filter asked i.verbosity) t).1 := by
      obtain ⟨verbosity, logFile, command⟩ := i
      obtain rfl : logFile = none := hlog _ hi
      rw [run, hi]
      rfl
    obtain ⟨hhome, hnode⟩ := carryOut_node? i.command (filter asked i.verbosity) t
    rw [hr]
    refine ⟨hhome, fun hs a content => file_eq_iff (hnode a) fun h => hs h.1, fun a ha => ?_⟩
    exact ⟨i, rfl, (hnode a).resolve_left ha⟩

/-- A home directory with one file. -/
def oneManifest : FileTree :=
  ⟨[(["home"], .directory), (["home", "r.txt"], .file (Text.utf8 "a ==1\n"))], ["home"]⟩

def refusedSave : List String :=
  ["snapshot", "--store", "s/t", "save", "--name", "../x", "r.txt"]

def formattingRun : List String := ["fmt", "--write", "r.txt"]

/-- A snapshot under a name that is refused makes the store and leaves the files as they are; a
formatting run changes its file, and nothing at any other address. -/
theorem run_keeps_files_refused_formatted :
    exitStatus (run none refusedSave oneManifest) = 2 ∧
    (filesAfter oneManifest (run none refusedSave oneManifest)).node? ["home", "s", "t"] =
      some .directory ∧
    (∀ a content, (filesAfter oneManifest (run none refusedSave oneManifest)).node? a =
      some (.file content) ↔ oneManifest.node? a = some (.file content)) ∧
    (filesAfter oneManifest (run none formattingRun oneManifest)).node? ["home", "r.txt"] =
      some (.file (Text.utf8 "a==1\n")) ∧
    ∀ a, a ≠ ["home", "r.txt"] →
      (filesAfter oneManifest (run none formattingRun oneManifest)).node? a =
        oneManifest.node? a := by
  have hstatus : exitStatus (run none refusedSave oneManifest) = 2 := by decide +kernel
  have hrefused : ∀ i, Command.read refusedSave = .ok i → i.logFile = none :=
    logFile_eq_none (by decide)
  have hformatting : ∀ i, Command.read formattingRun = .ok i → i.logFile = none :=
    logFile_eq_none (by decide)
  refine ⟨hstatus, by decide +kernel, (run_keeps_files hrefused).2.1 (by rw [hstatus]; decide),
    by decide +kernel, fun a ha => ?_⟩
  by_contra hne
  obtain ⟨i, hi, hchange⟩ := (run_keeps_files hformatting).2.2 a hne
  have hread : Command.read formattingRun = .ok ⟨0, none, .format "r.txt" .preserve .write⟩ := by
    decide +kernel
  cases hread.symm.trans hi
  rcases hchange with ⟨-, -, store, -, hs, -⟩ | ⟨-, path, content, hd, hl, -⟩
  · cases hs
  · cases hd
    have hplace : (filesAfter oneManifest (run none formattingRun oneManifest)).locate "r.txt" =
        .ok ["home", "r.txt"] := by
      decide +kernel
    exact ha (Except.ok.inj (hl.symm.trans hplace))

end Program

end PinFile
