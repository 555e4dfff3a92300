import PinFile.Files.Tree
import PinFile.Lint.Check
import PinFile.Manifest.Reader

/-!
# Loading manifests

A manifest is loaded from a file, alone or with every file that its inclusions reach. Each file
is loaded once, in the order in which it is found, under the path that it is found by; paths in a
file start from where the file lies. A file counts as requirements when inclusions of
requirements alone lead to it: one that was found as constraints before is upgraded then, and its
inclusions are followed again. A file that includes itself, directly or not, is a fault.
-/

namespace PinFile

inductive LoadError where
  | unreadable (path : String) (fault : FileFault)
  | refused (path : String) (cause : ParseError)
  | cycle (chain : List Address)
  deriving DecidableEq, Repr

namespace LoadError

def message : LoadError → String
  | unreadable path fault => "failed to read " ++ path ++ ": " ++ fault.message
  | refused path cause => path ++ ": " ++ cause.message
  | cycle chain => "include cycle: " ++ " -> ".intercalate (chain.map Address.render)

/-- The fault and what it comes from. -/
def messages (e : LoadError) : List String :=
  match e with
  | unreadable _ fault => [e.message, fault.message]
  | refused _ cause => [e.message, cause.message]
  | cycle _ => [e.message]

end LoadError

/-- Loads one file. -/
def Manifest.load (t : FileTree) (path : String) : Except LoadError Manifest :=
  match t.readText path with
  | .error fault => .error (.unreadable path fault)
  | .ok text => (Manifest.parse text).mapError (.refused path)

/-- A file that has been loaded, with the path that it was found by. -/
structure Loaded where
  place : Address
  path : String
  kind : IncludeKind
  manifest : Manifest
  deriving DecidableEq, Repr, Inhabited

def Loaded.source (l : Loaded) : Source := ⟨some l.path, l.kind, l.manifest⟩

namespace Load

/-- What is done with a file that the way comes to. -/
inductive Deed where
  | read
  | upgrade
  | skip
  | follow (includes : Nat)
  deriving DecidableEq, Repr

/-- One step on the way through the inclusions: the file, the path it was found by, and what was
done with it. -/
structure Step where
  place : Address
  path : String
  deed : Deed
  deriving DecidableEq, Repr

/-- The files loaded so far, the steps taken, and the fault that ended the way. -/
structure Walk where
  loaded : List Loaded
  steps : List Step
  failure : Option LoadError
  deriving DecidableEq, Repr

namespace Walk

def empty : Walk := ⟨[], [], none⟩

def fail (w : Walk) (e : LoadError) : Walk := { w with failure := some e }

def note (w : Walk) (place : Address) (path : String) (deed : Deed) : Walk :=
  { w with steps := w.steps ++ [⟨place, path, deed⟩] }

def find? (w : Walk) (place : Address) : Option Loaded := w.loaded.find? (·.place == place)

/-- Turns the file at a place into requirements. -/
def upgrade (w : Walk) (place : Address) : Walk :=
  { w with loaded := w.loaded.map fun l =>
      if l.place == place then { l with kind := .requirements } else l }

def add (w : Walk) (l : Loaded) : Walk := { w with loaded := w.loaded ++ [l] }

end Walk

/-- What is reached through constraints only constrains. -/
def childKind (parent child : IncludeKind) : IncludeKind :=
  match parent with
  | .constraints => .constraints
  | .requirements => child

/-- Comes to a file: loads or upgrades it, or passes it by. The inclusions are those to follow. -/
def enter (t : FileTree) (place : Address) (kind : IncludeKind) (path : String) (w : Walk) :
    Walk × List Include :=
  match w.find? place with
  | some l =>
    if kind = .requirements ∧ l.kind = .constraints then
      let w := (w.note place path .upgrade).upgrade place
      (w.note place path (.follow l.manifest.includes.length), l.manifest.includes)
    else (w.note place path .skip, [])
  | none =>
    let w := w.note place path .read
    match Manifest.load t path with
    | .error e => (w.fail e, [])
    | .ok m =>
      let w := w.add ⟨place, path, kind, m⟩
      (w.note place path (.follow m.includes.length), m.includes)

/-- Comes to a path along a chain of files and follows its inclusions. The chain holds different
files, so it is never longer than there are files, and `depth` need not be greater. -/
def visit (t : FileTree) :
    Nat → List Address → IncludeKind → String → Walk → Walk
  | 0, chain, _, _, w => w.fail (.cycle chain)
  | depth + 1, chain, kind, path, w =>
    if w.failure.isSome then w
    else
      match t.locate path with
      | .error fault => w.fail (.unreadable path fault)
      | .ok place =>
        if place ∈ chain then w.fail (.cycle (chain ++ [place]))
        else
          let (w, includes) := enter t place kind path w
          includes.foldl
            (fun w i => visit t depth (chain ++ [place]) (childKind kind i.kind)
              (Path.join (Path.parent path) i.path) w)
            w

/-- The way through all that a file includes. -/
def walk (t : FileTree) (root : String) : Walk :=
  visit t (t.nodes.length + 1) [] .requirements root .empty

/-- Loads a file and all that it includes. -/
def tree (t : FileTree) (root : String) : Except LoadError (List Source) :=
  let w := walk t root
  match w.failure with
  | some e => .error e
  | none => .ok (w.loaded.map Loaded.source)

end Load

end PinFile
