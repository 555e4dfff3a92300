import PinFile.Toml.Strings

/-!
# TOML tables

A settings file is one table of keys with truth values, strings and arrays of strings, one to a
line. A further table is of use to a setting when it has one key and nothing under that key: then
it is a choice of the key. It may be written between braces, with a dotted key, or under headers
at the end of the file. Anything else that TOML has is refused.
-/

namespace PinFile.Toml

open Text

inductive Value where
  | flag (b : Bool)
  | text (s : String)
  | texts (xs : List String)
  /-- A table without keys. -/
  | empty
  /-- A table with one key and nothing under it. -/
  | choice (key : String)
  deriving DecidableEq, Repr

/-- The value has nothing in it. -/
def Value.isEmpty : Value → Bool
  | .empty | .texts [] => true
  | _ => false

abbrev Table := List (String × Value)

def skipSpace (cs : List Char) : List Char := cs.dropWhile isLineSpace

/-- Drops a comment, which must not hold a control character, up to the end of its line. -/
def comment? : List Char → Option (List Char)
  | '#' :: rest => some (rest.dropWhile isPlain)
  | cs => some cs

/-- What follows blanks and a comment on a line: its end, or the end of the text. -/
def lineRest? (cs : List Char) : Option (List Char) := do
  let rest ← comment? (skipSpace cs)
  if rest.isEmpty then some [] else lineEnd? rest

/-- Skips blanks, ends of lines and comments between the items of an array. -/
def skipAll : Nat → List Char → List Char
  | 0, cs => cs
  | steps + 1, cs =>
    match skipSpace cs with
    | [] => []
    | c :: rest =>
      if c == '#' || c == '\n' || c == '\r' then
        match lineRest? (c :: rest) with
        | some rest => skipAll steps rest
        | none => c :: rest
      else c :: rest

def skipBetween (cs : List Char) : List Char := skipAll (cs.length + 1) cs

/-- Reads the items of an array behind its bracket; a comma may follow the last one. -/
def items? : Nat → List Char → Option (List String × List Char)
  | 0, _ => none
  | steps + 1, cs =>
    match skipBetween cs with
    | ']' :: rest => some ([], rest)
    | item => do
      let (s, rest) ← string? item
      match skipBetween rest with
      | ']' :: rest => return ([String.ofList s], rest)
      | ',' :: rest =>
        let (tail, rest) ← items? steps rest
        return (String.ofList s :: tail, rest)
      | _ => none

def isBareKeyChar (c : Char) : Bool := c.isAlphanum || c == '_' || c == '-'

/-- Reads a key: bare, or a string on one line. -/
def key? (cs : List Char) : Option (String × List Char) :=
  match cs with
  | '"' :: rest => (basic? (rest.length + 1) rest).map fun (key, rest) => (String.ofList key, rest)
  | '\'' :: rest => (literal? rest).map fun (key, rest) => (String.ofList key, rest)
  | cs =>
    let key := cs.takeWhile isBareKeyChar
    if key.isEmpty then none else some (String.ofList key, cs.dropWhile isBareKeyChar)

/-- Takes a sign off the start. -/
def sign? (sign : Char) : List Char → Option (List Char)
  | [] => none
  | c :: rest => if c = sign then some rest else none

/-- Reads a table or an array that has nothing in it. -/
def nothing? : List Char → Option (List Char)
  | '\x7b' :: rest => sign? '\x7d' (skipSpace rest)
  | '[' :: rest => sign? ']' (skipBetween rest)
  | _ => none

/-- Reads a table behind its brace. -/
def braced? (cs : List Char) : Option (Value × List Char) :=
  match skipSpace cs with
  | '\x7d' :: rest => some (.empty, rest)
  | cs => do
    let (key, rest) ← key? cs
    let rest ← sign? '=' (skipSpace rest)
    let rest ← nothing? (skipSpace rest)
    return (.choice key, ← sign? '\x7d' (skipSpace rest))

def value? (cs : List Char) : Option (Value × List Char) :=
  match cs with
  | 't' :: 'r' :: 'u' :: 'e' :: rest => some (.flag true, rest)
  | 'f' :: 'a' :: 'l' :: 's' :: 'e' :: rest => some (.flag false, rest)
  | '[' :: rest => (items? (rest.length + 1) rest).map fun (xs, rest) => (.texts xs, rest)
  | '\x7b' :: rest => braced? rest
  | cs => (string? cs).map fun (s, rest) => (.text (String.ofList s), rest)

/-- Reads a key, and one under it behind a dot. -/
def path? (cs : List Char) : Option ((String × Option String) × List Char) := do
  let (key, rest) ← key? cs
  match skipSpace rest with
  | '.' :: rest => (key? (skipSpace rest)).map fun (under, rest) => ((key, some under), rest)
  | rest => return ((key, none), rest)

/-- What a line holds. -/
inductive Item where
  | entry (key : String) (value : Value)
  | header (key : String) (under : Option String)
  deriving DecidableEq, Repr

/-- Reads a key and its value. -/
def entry? (cs : List Char) : Option (Item × List Char) := do
  let ((key, under), rest) ← path? cs
  let rest ← sign? '=' (skipSpace rest)
  let (value, rest) ← value? (skipSpace rest)
  match under with
  | none => return (.entry key value, rest)
  | some under => if value.isEmpty then return (.entry key (.choice under), rest) else none

def item? (cs : List Char) : Option (Item × List Char) :=
  match cs with
  | '[' :: rest => do
    let ((key, under), rest) ← path? (skipSpace rest)
    return (.header key under, ← sign? ']' (skipSpace rest))
  | cs => entry? cs

/-- Reads the lines of a file; a line holds one item or none. -/
def lines? : Nat → List Char → Option (List Item)
  | 0, _ => none
  | steps + 1, cs =>
    if cs.isEmpty then some []
    else
      match lineRest? cs with
      | some rest => lines? steps rest
      | none => do
        let (item, rest) ← item? (skipSpace cs)
        let rest ← lineRest? rest
        let items ← lines? steps rest
        return item :: items

/-- The table under the headers at the end of a file. -/
def headed? : List Item → Option Table
  | [] => some []
  | [.header key none, .entry under value] =>
    if value.isEmpty then some [(key, .choice under)] else none
  | [.header key (some under)] => some [(key, .choice under)]
  | [.header key none, .header other (some under)]
  | [.header other (some under), .header key none] =>
    if key = other then some [(key, .choice under)] else none
  | _ => none

def table? : List Item → Option Table
  | .entry key value :: items => (table? items).map ((key, value) :: ·)
  | items => headed? items

/-- A byte order mark may stand before the text. -/
def dropMark : List Char → List Char
  | '\uFEFF' :: rest => rest
  | cs => cs

/-- Reads a table, which must not give a key twice. -/
def parse? (text : String) : Option Table := do
  let cs := dropMark text.toList
  let table ← table? (← lines? (cs.length + 1) cs)
  if (table.map (·.1)).eraseDups.length = table.length then some table else none

end PinFile.Toml
