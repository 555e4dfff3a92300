import PinFile.Bson.Manifest
import PinFile.Files.Tree
import PinFile.Text
import PinFile.Text.Quoted

/-!
# Snapshots

A snapshot store is a directory that keeps manifests under names, each in a file of its own with
the ending `.bson`. Names are such that every one of them is the name of a file right there.
-/

namespace PinFile

open Text

structure SnapshotStore where
  root : String
  deriving DecidableEq, Repr

inductive SnapshotError where
  | invalidName (name : String)
  | unknownName (name root : String)
  | uncreated (root : String) (fault : FileFault)
  | inaccessible (root : String) (fault : FileFault)
  | notDirectory (root : String)
  | unwritable (path : String) (fault : FileFault)
  | unreadable (path : String) (fault : FileFault)
  | invalid (path : String)
  /-- A line number that BSON has no room for. -/
  | numberTooLarge
  | file (cause : FileFault)
  deriving DecidableEq, Repr

namespace SnapshotError

def message : SnapshotError → String
  | invalidName name =>
    "Invalid snapshot name " ++ quote name ++ ": use letters, digits, '.', '_' or '-'"
  | unknownName name root => "No snapshot named " ++ quote name ++ " in " ++ root
  | uncreated root _ => "Failed to create snapshot store " ++ root
  | inaccessible root _ => "Snapshot store " ++ root ++ " is not accessible"
  | notDirectory root => "Snapshot store " ++ root ++ " is not a directory"
  | unwritable path _ => "Failed to create " ++ path
  | unreadable path _ => "Failed to read " ++ path
  | invalid path => "Invalid BSON manifest " ++ path
  | numberTooLarge => "line number does not fit into 64 bits with a sign"
  | file cause => cause.message

/-- The fault and what it comes from. -/
def messages (e : SnapshotError) : List String :=
  match e with
  | uncreated _ fault | inaccessible _ fault | unwritable _ fault | unreadable _ fault =>
    [e.message, fault.message]
  | _ => [e.message]

end SnapshotError

namespace SnapshotStore

/-- What the store is called. -/
def title : String := "BSON directory"

def ending : String := ".bson"

def isName (name : String) : Bool :=
  name.toList.all isNameChar && name.toList.head?.any isLetterOrDigit

def path (s : SnapshotStore) (name : String) : String := Path.join s.root (name ++ ending)

/-- Makes the directory of a store; what was made before a fault stays. -/
def create (t : FileTree) (root : String) : FileTree × Except SnapshotError SnapshotStore :=
  match t.ensureDirectory root with
  | (t, .ok ()) => (t, .ok ⟨root⟩)
  | (t, .error fault) => (t, .error (.uncreated root fault))

/-- The directory of the store is there. -/
def check (s : SnapshotStore) (t : FileTree) : Except SnapshotError Unit :=
  match t.locate s.root with
  | .error fault => .error (.inaccessible s.root fault)
  | .ok a => if t.node? a = some .directory then .ok () else .error (.notDirectory s.root)

/-- Keeps a manifest under a name. The result is the new tree and the size of the file. -/
def insert (s : SnapshotStore) (t : FileTree) (name : String) (m : Manifest) :
    Except SnapshotError (FileTree × Nat) :=
  if !isName name then .error (.invalidName name)
  else
    match m.toBson? with
    | none => .error .numberTooLarge
    | some bytes =>
      match t.write (s.path name) bytes with
      | .error fault => .error (.unwritable (s.path name) fault)
      | .ok t => .ok (t, bytes.length)

/-- The manifest kept under a name. -/
def get (s : SnapshotStore) (t : FileTree) (name : String) : Except SnapshotError Manifest :=
  if !isName name then .error (.invalidName name)
  else
    match t.locate (s.path name) with
    | .error .notFound => .error (.unknownName name s.root)
    | .error fault => .error (.file fault)
    | .ok _ =>
      match t.read (s.path name) with
      | .error fault => .error (.unreadable (s.path name) fault)
      | .ok bytes => (Manifest.ofBson bytes).mapError fun _ => .invalid (s.path name)

/-- The name that a file in the store is for. -/
def nameOf? (file : String) : Option String :=
  let cs := file.toList
  if ending.toList.isSuffixOf cs && ending.length < cs.length then
    some (String.ofList (cs.take (cs.length - ending.length)))
  else none

/-- The names of all snapshots, ascending. -/
def list (s : SnapshotStore) (t : FileTree) : Except SnapshotError (List String) :=
  match t.list s.root with
  | .error fault => .error (.file fault)
  | .ok files => .ok (sorted (files.filterMap nameOf?))

end SnapshotStore

end PinFile
