import PinFile.Text

/-!
# File trees

A file tree holds files, directories and symbolic links, each at the names that lead to it from
the root. A path is followed part by part, from the root or from the home directory, and through
links as it meets them.
-/

namespace PinFile.Path

/-!
## Paths

A path is a text with slashes between its parts. Empty parts count for nothing, and neither does
`.`, except at the start of a relative path. Paths are ordered part by part: the root comes
first, then `.`, then `..`, then names.
-/

/-- The texts between the slashes. -/
def parts (path : String) : List String := (path.toList.splitOn '/').map String.ofList

def isAbsolute (path : String) : Bool := path.toList.head? == some '/'

/-- The path is spelled in UTF-8: no part of it is among the names that are not. Each of these is
given as the text that it is shown by. -/
def isSpelled (raw : List String) (path : String) : Bool :=
  (parts path).all fun part => !raw.contains part

def isSilent (part : String) : Bool := part == "" || part == "."

/-- A path under a base; an absolute path stands for itself. -/
def join (base path : String) : String :=
  if isAbsolute path || base.isEmpty then path
  else if base.toList.getLast? == some '/' then base ++ path
  else base ++ "/" ++ path

/-- The parts without the last one that counts. -/
def dropLast (parts : List String) : List String :=
  (((parts.reverse.dropWhile isSilent).drop 1).dropWhile isSilent).reverse

/-- The path of what holds a file, as far as the path tells: empty for a single name. -/
def parent (path : String) : String :=
  match parts path with
  | "" :: rest =>
    if rest.all isSilent then "" else "/" ++ "/".intercalate (dropLast rest)
  | "." :: rest =>
    if rest.all isSilent then "" else "/".intercalate ("." :: dropLast rest)
  | parts => "/".intercalate (dropLast parts)

/-- The order key of a part that counts. -/
def partKey (part : String) : String :=
  if part = "." then "1" else if part = ".." then "2" else "3" ++ part

/-- The order key of a path. -/
def key (path : String) : List String :=
  match parts path with
  | "" :: rest =>
    (if isAbsolute path then ["0"] else []) ++ (rest.filter (!isSilent ·)).map partKey
  | "." :: rest => "1" :: (rest.filter (!isSilent ·)).map partKey
  | parts => (parts.filter (!isSilent ·)).map partKey

end PinFile.Path

namespace PinFile

open Text

/-! ## Nodes and faults -/

/-- The names that lead from the root of a file tree to a place in it. -/
abbrev Address := List String

def Address.render (a : Address) : String := "/" ++ "/".intercalate a

inductive Node where
  | file (content : Bytes)
  | directory
  | link (target : String)
  deriving DecidableEq, Repr, Inhabited

/-- Why a path leads nowhere, or not to what is asked for. -/
inductive FileFault where
  | notFound
  | exists
  | notDirectory
  | isDirectory
  | nameTooLong
  | tooManyLinks
  | zeroCharacter
  | notText
  deriving DecidableEq, Repr

def FileFault.message : FileFault → String
  | notFound => "No such file or directory (os error 2)"
  | .exists => "File exists (os error 17)"
  | notDirectory => "Not a directory (os error 20)"
  | isDirectory => "Is a directory (os error 21)"
  | nameTooLong => "File name too long (os error 36)"
  | tooManyLinks => "Too many levels of symbolic links (os error 40)"
  | zeroCharacter => "file name contained an unexpected NUL byte"
  | notText => "stream did not contain valid UTF-8"

/-- The nodes under the root, and the directory where relative paths start. -/
structure FileTree where
  nodes : List (Address × Node)
  home : Address
  deriving DecidableEq, Repr, Inhabited

namespace FileTree

def node? (t : FileTree) (a : Address) : Option Node :=
  if a.isEmpty then some .directory else (t.nodes.find? (·.1 == a)).map (·.2)

/-- Puts a node at an address, in place of the one that was there. -/
def put (t : FileTree) (a : Address) (n : Node) : FileTree :=
  if t.nodes.any (·.1 == a) then
    { t with nodes := t.nodes.map fun entry => if entry.1 == a then (a, n) else entry }
  else { t with nodes := t.nodes ++ [(a, n)] }

/-- Removes a node and all that lies under it. -/
def erase (t : FileTree) (a : Address) : FileTree :=
  { t with nodes := t.nodes.filter fun entry => !a.isPrefixOf entry.1 }

/-- The names right under a directory. -/
def children (t : FileTree) (a : Address) : List String :=
  t.nodes.filterMap fun entry =>
    match entry.1.getLast? with
    | some name => if entry.1.dropLast == a then some name else none
    | none => none

/-! ## Following paths -/

def isLongName (name : String) : Bool := 255 < name.utf8ByteSize

/-- Follows parts from a directory on. A link is left to `enter`, and a last part that is not
there to `absent`. -/
def follow (t : FileTree) (enter : Address → List String → Except FileFault Address)
    (absent : Address → Except FileFault Address) (here : Address) :
    List String → Except FileFault Address
  | [] => .ok here
  | part :: rest =>
    if Path.isSilent part then follow t enter absent here rest
    else if part = ".." then follow t enter absent here.dropLast rest
    else if isLongName part then .error .nameTooLong
    else
      let next := here ++ [part]
      match t.node? next with
      | none => if rest.isEmpty then absent next else .error .notFound
      | some .directory => follow t enter absent next rest
      | some (.file _) => if rest.isEmpty then .ok next else .error .notDirectory
      | some (.link target) =>
        enter (if Path.isAbsolute target then [] else here) (Path.parts target ++ rest)

/-- Follows parts through as many links as given. -/
def walk (t : FileTree) (absent : Address → Except FileFault Address) :
    Nat → Address → List String → Except FileFault Address
  | 0 => follow t (fun _ _ => .error .tooManyLinks) absent
  | links + 1 => follow t (walk t absent links) absent

/-- How many links a path may lead through. -/
def maxLinks : Nat := 40

/-- Why a text is no path at all. -/
def pathFault? (path : String) : Option FileFault :=
  if path.toList.contains '\x00' then some .zeroCharacter
  else if path.isEmpty then some .notFound
  else if 4095 < path.utf8ByteSize then some .nameTooLong
  else none

def start (t : FileTree) (path : String) : Address := if Path.isAbsolute path then [] else t.home

/-- Where the parts of a path lead. -/
def lead (t : FileTree) (absent : Address → Except FileFault Address) (path : String)
    (parts : List String) : Except FileFault Address :=
  match pathFault? path with
  | some fault => .error fault
  | none => walk t absent maxLinks (t.start path) parts

/-- The address of what a path leads to, which has to be there. -/
def locate (t : FileTree) (path : String) : Except FileFault Address :=
  t.lead (fun _ => .error .notFound) path (Path.parts path)

/-! ## Reading -/

def isDirectory (t : FileTree) (path : String) : Bool :=
  match t.locate path with
  | .ok a => t.node? a == some .directory
  | .error _ => false

def isFile (t : FileTree) (path : String) : Bool :=
  match t.locate path with
  | .ok a => t.node? a != some .directory
  | .error _ => false

def read (t : FileTree) (path : String) : Except FileFault Bytes := do
  let a ← t.locate path
  match t.node? a with
  | some (.file content) => return content
  | some .directory => throw .isDirectory
  | some (.link _) | none => throw .notFound

def readText (t : FileTree) (path : String) : Except FileFault String := do
  match ofUtf8? (← t.read path) with
  | some text => return text
  | none => throw .notText

/-- The names in a directory. -/
def list (t : FileTree) (path : String) : Except FileFault (List String) := do
  let a ← t.locate path
  if t.node? a = some .directory then return t.children a else throw .notDirectory

/-! ## Writing -/

/-- The parts of a path without the slashes at its end. -/
def namedParts (path : String) : List String :=
  ((Path.parts path).reverse.dropWhile (·.isEmpty)).reverse

/-- The directory that holds the last part of a path. -/
def holder (t : FileTree) (path : String) : Except FileFault Address :=
  t.lead (fun _ => .error .notFound) path ((namedParts path).dropLast ++ [""])

/-- Where a file with a path is or would be. A slash at the end asks for a directory. -/
def target (t : FileTree) (path : String) : Except FileFault Address := do
  let a ←
    if path.toList.getLast? = some '/' then do
      let _ ← t.holder path
      throw .isDirectory
    else t.lead .ok path (Path.parts path)
  if t.node? a = some .directory then throw .isDirectory else return a

/-- Writes a whole file, new or not. -/
def write (t : FileTree) (path : String) (content : Bytes) : Except FileFault FileTree := do
  return t.put (← t.target path) (.file content)

/-- Makes one directory. -/
def makeDirectory (t : FileTree) (path : String) : Except FileFault FileTree := do
  let holder ← t.holder path
  match (namedParts path).getLast? with
  | none => throw .exists
  | some name =>
    if name = "." ∨ name = ".." then throw .exists
    else if isLongName name then throw .nameTooLong
    else if (t.node? (holder ++ [name])).isSome then throw .exists
    else return t.put (holder ++ [name]) .directory

/-- Makes a directory and those that should hold it; `steps` bounds how many they are. What was
made before a fault stays. -/
def makeDirectories (t : FileTree) (path : String) : Nat → FileTree × Except FileFault Unit
  | 0 => (t, .error .notFound)
  | steps + 1 =>
    if path.isEmpty then (t, .ok ())
    else
      match t.makeDirectory path with
      | .ok t => (t, .ok ())
      | .error .notFound =>
        match makeDirectories t (Path.parent path) steps with
        | (t, .error fault) => (t, .error fault)
        | (t, .ok ()) =>
          match t.makeDirectory path with
          | .ok t => (t, .ok ())
          | .error fault => (t, if t.isDirectory path then .ok () else .error fault)
      | .error fault => (t, if t.isDirectory path then .ok () else .error fault)

/-- Makes a directory and those that should hold it, as far as they are not there. -/
def ensureDirectory (t : FileTree) (path : String) : FileTree × Except FileFault Unit :=
  t.makeDirectories path (path.length + 1)

/-- The files, with where they are. -/
def files (t : FileTree) : List (Address × Bytes) :=
  t.nodes.filterMap fun entry =>
    match entry.2 with
    | .file content => some (entry.1, content)
    | _ => none

end FileTree

end PinFile
