import PinFile.Command.Reader
import PinFile.Lint.Settings.File
import PinFile.Load
import PinFile.Program
import PinFile.Snapshot

/-!
# The command line

The outer layer: it brings what the run asks for from the disk into a file tree, lets the program
run on it, and puts what has changed back.
-/

namespace PinFile

/-!
## What a command reaches

The paths that a command asks a file tree for. Which inclusions it comes to depends on the files
that include them, so a tree that is filled step by step is asked again until no new path comes.
-/

/-- The paths on the way through all that a file includes, with the one that ended it. -/
def Load.paths (t : FileTree) (root : String) : List String :=
  let w := walk t root
  let last :=
    match w.failure with
    | some (.unreadable path _) => [path]
    | _ => []
  w.loaded.map Loaded.path ++ last

namespace Command

def SnapshotRequest.paths (s : SnapshotStore) : SnapshotRequest → List String
  | .save name file | .diff name file _ => [s.path name, file]
  | .show name => [s.path name]
  | .list => []

def paths (t : FileTree) : Command → List String
  | .check r =>
    r.config.getD Settings.standardFile
      :: (if r.followIncludes then Load.paths t r.file else [r.file])
  | .format file _ _ | .list file _ => [file]
  | .write file output _ => [file, output]
  | .diff old new _ => [old, new]
  | .snapshot store request => store :: SnapshotRequest.paths ⟨store⟩ request

end Command

/-- The paths that a run on arguments asks for. -/
def Program.paths (args : List String) (t : FileTree) : List String :=
  match Command.read args with
  | .error _ => []
  | .ok invocation => invocation.logFile.toList ++ invocation.command.paths t

end PinFile

namespace PinFile.Main

/-! ## What lies on the disk -/

/-- The names that an absolute path without links is made of. -/
def addressOf (path : String) : Address := (Path.parts path).filter (!·.isEmpty)

def putDirectory (t : FileTree) (a : Address) : FileTree :=
  if a.isEmpty then t else t.put a .directory

/-- Brings in a place, with the directories above it. -/
def bringPlace (t : FileTree) (place : Address) : IO FileTree := do
  let t := ((List.range place.length).map place.take).foldl putDirectory t
  let path ← IO.FS.realPath place.render
  if ← path.isDir then return putDirectory t place
  return t.put place (.file (← IO.FS.readBinFile path).data.toList)

/-- Brings in the names in a directory. What is known by its name alone stands there as an empty
file. -/
def bringNames (t : FileTree) (place : Address) : IO FileTree := do
  let path ← IO.FS.realPath place.render
  if ← path.isDir then
    let names := (← path.readDir).toList.map (·.fileName)
    let new := names.filter fun name => (t.node? (place ++ [name])).isNone
    return new.foldl (fun t name => t.put (place ++ [name]) (.file [])) t
  return t

/-- Brings in what lies on the way along the parts of a path, as far as it is there. -/
def bringParts (t : FileTree) (here : Address) : List String → IO FileTree
  | [] => bringNames t here
  | part :: rest => do
    if Path.isSilent part then bringParts t here rest
    else if part = ".." then bringParts t here.dropLast rest
    else if FileTree.isLongName part then return t
    else
      let next := here ++ [part]
      match ← (IO.FS.realPath next.render).toBaseIO with
      | .error (.noFileOrDirectory ..) => return t
      | .error (.inappropriateType ..) => return t
      | .error fault => throw fault
      | .ok real =>
        let place := addressOf real.toString
        let t ← bringPlace t place
        let t := if place == next then t else t.put next (.link place.render)
        bringParts t place rest

def bring (t : FileTree) (path : String) : IO FileTree :=
  if (FileTree.pathFault? path).isSome then return t
  else bringParts t (t.start path) (Path.parts path)

/-- Brings in all that a run asks for. -/
partial def gather (paths : FileTree → List String) (asked : List String) (t : FileTree) :
    IO FileTree := do
  let new := (paths t).filter (!asked.contains ·)
  if new.isEmpty then return t
  gather paths (asked ++ new) (← new.foldlM bring t)

/-- Puts a node where it differs from what was there. -/
def putBack (before : FileTree) (entry : Address × Node) : IO Unit :=
  if before.node? entry.1 = some entry.2 then return
  else
    match entry.2 with
    | .file content => IO.FS.writeBinFile entry.1.render ⟨content.toArray⟩
    | .directory => IO.FS.createDirAll entry.1.render
    | .link _ => return

def runProgram (args : List String) : IO UInt32 := do
  let home := addressOf (← IO.currentDir).toString
  let before ← gather (Program.paths args) [] (← bringPlace ⟨[], home⟩ home)
  match Program.run (← IO.getEnv "RUST_LOG") args before with
  | .error .help => IO.print Program.usage; return 0
  | .error .version => IO.println Program.version; return 0
  | .error .usage => IO.eprint Program.usage; return 2
  | .ok result =>
    result.log.forM IO.eprintln
    IO.print result.output
    result.files.nodes.forM (putBack before)
    return result.status.toUInt32

end PinFile.Main

/-- Runs the program on the command line's arguments. -/
def main (args : List String) : IO UInt32 := do
  match ← (PinFile.Main.runProgram args).toBaseIO with
  | .ok status => return status
  | .error fault => IO.eprintln fault; return 2
