import PinFile.Command.Run
import PinFile.Proofs.Command.Action
import PinFile.Proofs.Files.Directories
import PinFile.Proofs.Snapshot

/-!
# What commands do to the files

A command that writes does so as the last thing that can fail. So a command that fails leaves the
tree that it was prepared with, and one that does not has written to one place at most
(`files_run`). Most actions are quiet: they leave the files alone, whatever comes out of them.
-/

namespace PinFile.Command

open Log PinFile.Command.Action

variable {α β ε : Type} {t : FileTree} {path : String} {dest : Option String}

/-! ## Quiet actions -/

/-- The action leaves the files as they are, whether it fails or not. -/
def Quiet (x : Action α) : Prop := ∀ w, (x.run.run w).2.files = w.files

theorem quiet_pure (a : α) : Quiet (pure a) := fun _ => rfl

theorem quiet_throw (e : Failure) : Quiet (throw e : Action α) := fun _ => rfl

theorem quiet_print (text : String) : Quiet (print text) := fun _ => rfl

theorem quiet_noteAll (events : List Event) : Quiet (noteAll events) := fun _ => rfl

theorem quiet_note (level : Level) (part message : String) : Quiet (note level part message) :=
  fun _ => rfl

theorem quiet_files : Quiet files := fun _ => rfl

theorem quiet_ofExcept (messages : ε → Failure) (r : Except ε α) : Quiet (ofExcept messages r) := by
  cases r <;> exact fun _ => rfl

theorem Quiet.bind {x : Action α} {f : α → Action β} (hx : Quiet x) (hf : ∀ a, Quiet (f a)) :
    Quiet (x >>= f) := by
  intro w
  have h := hx w
  rw [run_bind]
  rcases hr : x.run.run w with ⟨_ | a, w'⟩ <;> rw [hr] at h
  · exact h
  · exact (hf a w').trans h

theorem quiet_loadManifest (path : String) : Quiet (loadManifest path) :=
  quiet_files.bind fun _ => (quiet_noteAll _).bind fun _ => quiet_ofExcept _ _

theorem quiet_loadSettings (given : Option String) : Quiet (loadSettings given) := by
  refine quiet_files.bind fun t => (quiet_ofExcept _ _).bind fun s => ?_
  split
  · exact (quiet_note _ _ _).bind fun _ => quiet_pure s
  · exact (quiet_note _ _ _).bind fun _ => quiet_pure s

theorem quiet_loadSources (r : CheckRequest) : Quiet (loadSources r) := by
  unfold loadSources
  split
  · exact quiet_files.bind fun _ => (quiet_noteAll _).bind fun _ =>
      (quiet_ofExcept _ _).bind fun sources => (quiet_note _ _ _).bind fun _ => quiet_pure _
  · exact (quiet_loadManifest _).bind fun m => quiet_pure _

theorem quiet_printJson (d : Datum) : Quiet (printJson d) := quiet_print _

theorem quiet_printReport (report : Report) (raw : List String) (format : OutputFormat) :
    Quiet (printReport report raw format) := by
  cases format with
  | text => exact quiet_print _
  | json =>
    simp only [printReport]
    split
    · exact quiet_printJson _
    · exact quiet_throw _

theorem quiet_runCheck (r : CheckRequest) : Quiet (runCheck r) :=
  (quiet_loadSettings _).bind fun _ => (quiet_note _ _ _).bind fun _ =>
    (quiet_loadSources r).bind fun _ => (quiet_noteAll _).bind fun _ =>
      (quiet_printReport _ _ _).bind fun _ => quiet_pure _

theorem quiet_runList (file : String) (format : OutputFormat) : Quiet (runList file format) := by
  refine (quiet_loadManifest file).bind fun m => ?_
  split
  · exact (quiet_print _).bind fun _ => quiet_pure _
  · exact (quiet_printJson _).bind fun _ => quiet_pure _

theorem quiet_printChange (c : Change) (format : OutputFormat) : Quiet (printChange c format) := by
  cases format
  · exact quiet_print _
  · exact quiet_printJson _

theorem quiet_runDiff (old new : String) (format : OutputFormat) :
    Quiet (runDiff old new format) :=
  (quiet_loadManifest old).bind fun _ => (quiet_loadManifest new).bind fun _ =>
    (quiet_printChange _ format).bind fun _ => quiet_pure _

theorem quiet_getSnapshot (s : SnapshotStore) (name : String) : Quiet (getSnapshot s name) :=
  quiet_files.bind fun _ => quiet_ofExcept _ _

/-! ## Actions that write last -/

/-- From a tree, the action leaves the tree as it is, or it succeeds and has written one file to
the destination. -/
def WritesLast (t : FileTree) (dest : Option String) (x : Action Bool) : Prop :=
  ∀ w, w.files = t → (x.run.run w).2.files = t ∨
    ((x.run.run w).1 = .ok true ∧ ∃ path content, dest = some path ∧
      t.write path content = .ok (x.run.run w).2.files)

theorem Quiet.writesLast {x : Action Bool} (hx : Quiet x) : WritesLast t dest x :=
  fun w hw => .inl ((hx w).trans hw)

theorem Quiet.bind_writesLast {x : Action α} {f : α → Action Bool} (hx : Quiet x)
    (hf : ∀ a, WritesLast t dest (f a)) : WritesLast t dest (x >>= f) := by
  intro w hw
  have h := hx w
  rw [run_bind]
  rcases hr : x.run.run w with ⟨_ | a, w'⟩ <;> rw [hr] at h
  · exact .inl (h.trans hw)
  · exact hf a w' (h.trans hw)

theorem writesLast_files {f : FileTree → Action Bool} (hf : WritesLast t dest (f t)) :
    WritesLast t dest (files >>= f) := by
  rintro w rfl
  exact hf w rfl

/-- A result that comes from writing a file to the destination, and then nothing that fails. -/
theorem writesLast_ofExcept {messages : ε → Failure} {r : Except ε β} {tree : β → FileTree}
    {f : β → Action Bool}
    (hr : ∀ b, r = .ok b → ∃ content, t.write path content = .ok (tree b))
    (hf : ∀ b w, ((f b).run.run w).1 = .ok true ∧ ((f b).run.run w).2.files = w.files) :
    WritesLast t (some path)
      (ofExcept messages r >>= fun b => setFiles (tree b) >>= fun _ => f b) := by
  intro w hw
  cases hb : r with
  | error e => exact .inl hw
  | ok b =>
    obtain ⟨content, hc⟩ := hr b hb
    obtain ⟨ha, hfiles⟩ := hf b { w with files := tree b }
    refine .inr ⟨ha, path, content, rfl, hc.trans (congrArg _ hfiles.symm)⟩

/-! ## Commands -/

/-- Where a command writes its result. -/
def destination? : Command → Option String
  | .format file _ .write => some file
  | .write _ output _ => some output
  | .snapshot store (.save name _) => some (SnapshotStore.path ⟨store⟩ name)
  | _ => none

/-- The store that a command makes. -/
def store? : Command → Option String
  | .snapshot store _ => some store
  | _ => none

/-- The tree with the directory of the command's store. -/
def prepared (c : Command) (t : FileTree) : FileTree :=
  match c.store? with
  | some store => (t.ensureDirectory store).1
  | none => t

theorem writesLast_runFormat (t : FileTree) (file : String) (layout : Layout) (use : FormatUse) :
    WritesLast t (destination? (.format file layout use)) (runFormat file layout use) := by
  refine writesLast_files ((quiet_ofExcept _ _).bind_writesLast fun text =>
    (quiet_noteAll _).bind_writesLast fun _ => (quiet_ofExcept _ _).bind_writesLast fun m => ?_)
  cases use with
  | print => exact ((quiet_print _).bind fun _ => quiet_pure _).writesLast
  | compare =>
    dsimp only
    split
    · exact (quiet_pure _).writesLast
    · exact ((quiet_note _ _ _).bind fun _ => quiet_pure _).writesLast
  | write =>
    dsimp only
    split
    · exact ((quiet_note _ _ _).bind fun _ => quiet_pure _).writesLast
    · exact writesLast_ofExcept (fun _ h => ⟨_, h⟩) fun _ _ => ⟨rfl, rfl⟩

theorem writesLast_runExport (t : FileTree) (file output : String) (format : ExportFormat) :
    WritesLast t (destination? (.write file output format)) (runExport file output format) := by
  refine (quiet_loadManifest file).bind_writesLast fun m => ?_
  split
  · exact (quiet_throw _).writesLast
  · exact writesLast_files (writesLast_ofExcept (fun _ h => ⟨_, h⟩) fun _ _ => ⟨rfl, rfl⟩)

theorem writesLast_saveSnapshot (t : FileTree) (s : SnapshotStore) (name file : String) :
    WritesLast t (some (s.path name)) (do saveSnapshot s name file; return true) := by
  unfold saveSnapshot
  simp only [bind_assoc]
  refine (quiet_loadManifest file).bind_writesLast fun m => writesLast_files ?_
  refine writesLast_ofExcept (fun ⟨t', size⟩ h => ?_) fun _ _ => ⟨rfl, rfl⟩
  obtain ⟨-, bytes, -, hw, -⟩ := SnapshotStore.insert_eq_ok h
  exact ⟨bytes, hw⟩

/-- Opening a store makes its directory, and does nothing else to the files. -/
theorem run_openStore (root : String) (w : World) :
    ((openStore root).run.run w).2.files = (w.files.ensureDirectory root).1 ∧
      ∀ s, ((openStore root).run.run w).1 = .ok s → s = ⟨root⟩ := by
  unfold openStore SnapshotStore.create
  rcases hr : w.files.ensureDirectory root with ⟨t, fault | made⟩
  · simp only [run_bind, run_files, hr, run_setFiles, run_ofExcept_error]
    exact ⟨trivial, nofun⟩
  · simp only [run_bind, run_files, hr, run_setFiles, run_ofExcept_ok]
    cases SnapshotStore.check ⟨root⟩ t with
    | error e =>
      rw [run_ofExcept_error]
      exact ⟨rfl, nofun⟩
    | ok _ =>
      rw [run_ofExcept_ok]
      exact ⟨rfl, fun s hs => (Except.ok.inj hs).symm⟩

theorem files_openStore_bind {root : String} {f : SnapshotStore → Action Bool} {w : World}
    (hf : WritesLast (w.files.ensureDirectory root).1 dest (f ⟨root⟩)) :
    ((openStore root >>= f).run.run w).2.files = (w.files.ensureDirectory root).1 ∨
      (((openStore root >>= f).run.run w).1 = .ok true ∧ ∃ path content, dest = some path ∧
        (w.files.ensureDirectory root).1.write path content =
          .ok ((openStore root >>= f).run.run w).2.files) := by
  obtain ⟨hfiles, hs⟩ := run_openStore root w
  rw [run_bind]
  rcases hr : (openStore root).run.run w with ⟨e | s, w'⟩ <;> rw [hr] at hfiles hs
  · exact .inl hfiles
  · rw [hs s rfl]
    exact hf w' hfiles

/-- A command leaves the tree that it was prepared with, or it succeeds and has written one file
there, to its destination. -/
theorem files_run (c : Command) (w : World) :
    ((run c).run.run w).2.files = c.prepared w.files ∨
      (((run c).run.run w).1 = .ok true ∧ ∃ path content, c.destination? = some path ∧
        (c.prepared w.files).write path content = .ok ((run c).run.run w).2.files) := by
  cases c with
  | check r => exact (quiet_runCheck r).writesLast w rfl
  | format file layout use => exact writesLast_runFormat _ file layout use w rfl
  | list file format => exact (quiet_runList file format).writesLast w rfl
  | write file output format => exact writesLast_runExport _ file output format w rfl
  | diff old new format => exact (quiet_runDiff old new format).writesLast w rfl
  | snapshot root request =>
    cases request with
    | save name file => exact files_openStore_bind (writesLast_saveSnapshot _ ⟨root⟩ name file)
    | «show» name =>
      exact files_openStore_bind ((quiet_getSnapshot _ name).bind fun _ =>
        (quiet_print _).bind fun _ => quiet_pure _).writesLast
    | diff name file format =>
      exact files_openStore_bind ((quiet_getSnapshot _ name).bind fun _ =>
        (quiet_loadManifest file).bind fun _ => (quiet_printChange _ _).bind fun _ =>
        quiet_pure _).writesLast
    | list =>
      exact files_openStore_bind (quiet_files.bind fun _ => (quiet_ofExcept _ _).bind fun _ =>
        (quiet_print _).bind fun _ => quiet_pure _).writesLast

end PinFile.Command
