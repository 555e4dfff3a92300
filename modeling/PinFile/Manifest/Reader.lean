import PinFile.Line.Reader
import PinFile.Manifest
import PinFile.Text

/-!
# Reading manifests

A text is read line by line; the first logical line that is refused decides the fault.
-/

namespace PinFile.Text

/-!
## Physical and logical lines

A text is a sequence of physical lines, each ended by `\n` or `\r\n`; the last one may lack its
end. A physical line with a backslash at its end goes on in the next one, and the joined pieces
are one logical line with the number of its first piece. A comment line is never continued, but
it does end a continuation, after a space.
-/

/-- Takes off one `\r` at the end. -/
def dropReturn (cs : List Char) : List Char :=
  if cs.getLast? = some '\r' then cs.dropLast else cs

/-- The closed pieces lose a final `\r`, and the open last one counts unless it is empty. -/
def closeLines : List (List Char) → List (List Char)
  | [] => []
  | [last] => if last.isEmpty then [] else [last]
  | piece :: rest => dropReturn piece :: closeLines rest

def physicalLines (cs : List Char) : List (List Char) := closeLines (cs.splitOn '\n')

def isCommentLine (cs : List Char) : Bool := (trimStart cs).head? == some '#'

/-- What a line that goes on contributes: all of it but the backslash at its end. -/
def continued? (cs : List Char) : Option (List Char) :=
  if !isCommentLine cs && cs.getLast? == some '\\' then some cs.dropLast else none

/-- A logical line with the number of the physical line it starts on. -/
structure Numbered where
  number : Nat
  text : List Char
  deriving DecidableEq, Repr

/-- The text of a line that ends the pieces before it. -/
def Numbered.finish (pending : Numbered) (cs : List Char) : Numbered :=
  { pending with text := pending.text ++ (if isCommentLine cs then ' ' :: cs else cs) }

/-- Joins the lines from number `n` on, with the pieces that wait for their end. -/
def joinLines : Nat → Option Numbered → List (List Char) → List Numbered
  | _, none, [] => []
  | _, some pending, [] => [pending]
  | n, none, cs :: rest =>
    match continued? cs with
    | some head => joinLines (n + 1) (some ⟨n, head⟩) rest
    | none => ⟨n, cs⟩ :: joinLines (n + 1) none rest
  | n, some pending, cs :: rest =>
    match continued? cs with
    | some head => joinLines (n + 1) (some { pending with text := pending.text ++ head }) rest
    | none => pending.finish cs :: joinLines (n + 1) none rest

def logicalLines (cs : List Char) : List Numbered := joinLines 1 none (physicalLines cs)

theorem physicalLines_nil : physicalLines [] = [] := rfl

theorem closeLines_cons {piece : List Char} {rest : List (List Char)} (h : rest ≠ []) :
    closeLines (piece :: rest) = dropReturn piece :: closeLines rest := by
  cases rest with
  | nil => exact absurd rfl h
  | cons next rest => rfl

/-- An ended line is read before all that follows it. -/
theorem physicalLines_append_cons {line rest : List Char} (h : '\n' ∉ line) :
    physicalLines (line ++ '\n' :: rest) = dropReturn line :: physicalLines rest := by
  rw [physicalLines, List.splitOn_append_cons_self_of_not_mem h,
    closeLines_cons (List.splitOn_ne_nil _ _), physicalLines]

theorem physicalLines_of_not_mem {line : List Char} (h : '\n' ∉ line) (hl : line ≠ []) :
    physicalLines line = [line] := by
  simp [physicalLines, List.splitOn_eq_singleton h, closeLines, hl]

end PinFile.Text

namespace PinFile.Manifest

open Text

/-! ## Lines read as entries -/

def readChars (cs : List Char) : Except ParseError Manifest :=
  ((logicalLines cs).mapM fun line => Line.readChars line.text line.number).map Manifest.mk

def parse (text : String) : Except ParseError Manifest := readChars text.toList

end PinFile.Manifest
