import PinFile.Text

/-!
# TOML strings

The four forms of a string. Basic strings stand between double quotes and know escapes; literal
strings stand between single quotes and know none. Either may span lines between three quotes: a
line end right behind the opening quotes does not count, and every other one is read as `\n`.
Each reader starts behind the opening quotes and returns what follows the closing ones.
-/

namespace PinFile.Toml

open Text

/-- A tab, or a character that is no control. -/
def isPlain (c : Char) : Bool := c == '\t' || (0x20 ≤ c.toNat && c.toNat != 0x7f)

/-- The character with a number that is no surrogate. -/
def scalar? (digits : List Char) : Option Char := do
  let values ← digits.mapM hexValue?
  let n := values.foldl (fun n d => n * 16 + d) 0
  if n.isValidChar then some (Char.ofNat n) else none

def shortEscape? (c : Char) : Option Char :=
  match c with
  | 'b' => some '\x08'
  | 't' => some '\t'
  | 'n' => some '\n'
  | 'f' => some '\x0c'
  | 'r' => some '\r'
  | '"' => some '"'
  | '\\' => some '\\'
  | _ => none

/-- Reads an escape behind its backslash. -/
def escape? : List Char → Option (Char × List Char)
  | 'u' :: a :: b :: c :: d :: rest => (scalar? [a, b, c, d]).map (·, rest)
  | 'U' :: a :: b :: c :: d :: e :: f :: g :: h :: rest =>
    (scalar? [a, b, c, d, e, f, g, h]).map (·, rest)
  | c :: rest => (shortEscape? c).map (·, rest)
  | [] => none

/-- Takes one end of line off the start of a text. -/
def lineEnd? : List Char → Option (List Char)
  | '\n' :: rest => some rest
  | '\r' :: '\n' :: rest => some rest
  | _ => none

def dropLineEnd (cs : List Char) : List Char := (lineEnd? cs).getD cs

/-- A string of three quotes and more closes there, after two quotes of its own at most. -/
def closing? (quote : Char) (cs : List Char) : Option (Nat × List Char) :=
  let run := (cs.takeWhile (· == quote)).length
  if 3 ≤ run then some (run - 3, cs.drop run) else none

def isLineSpace (c : Char) : Bool := c == ' ' || c == '\t'

/-- Skips blanks and ends of lines. -/
def skipLines : Nat → List Char → List Char
  | 0, cs => cs
  | steps + 1, cs =>
    match lineEnd? (cs.dropWhile isLineSpace) with
    | some rest => skipLines steps rest
    | none => cs.dropWhile isLineSpace

/-- A backslash before an end of line joins the lines and drops the blanks between them. -/
def joinedLines? (cs : List Char) : Option (List Char) :=
  (lineEnd? (cs.dropWhile isLineSpace)).map fun rest => skipLines rest.length rest

def basic? : Nat → List Char → Option (List Char × List Char)
  | 0, _ => none
  | _, [] => none
  | _, '"' :: rest => some ([], rest)
  | steps + 1, '\\' :: rest => do
    let (c, rest) ← escape? rest
    let (tail, rest) ← basic? steps rest
    return (c :: tail, rest)
  | steps + 1, c :: rest =>
    if isPlain c then do
      let (tail, rest) ← basic? steps rest
      return (c :: tail, rest)
    else none

def literal? : List Char → Option (List Char × List Char)
  | [] => none
  | '\'' :: rest => some ([], rest)
  | c :: rest =>
    if isPlain c then (literal? rest).map fun (tail, rest) => (c :: tail, rest) else none

/-- Reads the body of a string that spans lines; `escapes` tells a basic string from a literal. -/
def body? (quote : Char) (escapes : Bool) : Nat → List Char → Option (List Char × List Char)
  | 0, _ => none
  | _, [] => none
  | steps + 1, c :: rest =>
    let go (char : Char) (rest : List Char) : Option (List Char × List Char) :=
      (body? quote escapes steps rest).map fun (tail, rest) => (char :: tail, rest)
    match closing? quote (c :: rest), lineEnd? (c :: rest) with
    | some (own, rest), _ => if own ≤ 2 then some (List.replicate own quote, rest) else none
    | none, some rest => go '\n' rest
    | none, none =>
      if escapes && c == '\\' then
        match joinedLines? rest with
        | some rest => body? quote escapes steps rest
        | none => (escape? rest).bind fun (char, rest) => go char rest
      else if isPlain c then go c rest
      else none

/-- Reads a string of any form, from its opening quotes on. -/
def string? (cs : List Char) : Option (List Char × List Char) :=
  match cs with
  | '"' :: '"' :: '"' :: rest => body? '"' true (rest.length + 1) (dropLineEnd rest)
  | '\'' :: '\'' :: '\'' :: rest => body? '\'' false (rest.length + 1) (dropLineEnd rest)
  | '"' :: rest => basic? (rest.length + 1) rest
  | '\'' :: rest => literal? rest
  | _ => none

end PinFile.Toml
