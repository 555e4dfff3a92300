import PinFile.Manifest
import PinFile.Text

/-!
# Listing a manifest

The summary of a manifest as a table of counts, and its entries as one row each.
-/

namespace PinFile

open Text

namespace Summary

/-- The rows of the table: a heading, padded to one width, and what stands behind it. -/
def rows (s : Summary) : List (String × String) :=
  [("lines:             ", toString s.lines),
   ("requirement lines: ", toString s.requirementLines),
   ("distinct packages: ", toString s.distinctPackages),
   ("editable installs: ", toString s.editableInstalls),
   ("includes:          ", toString s.includes),
   ("options:           ", toString s.options),
   ("comments:          ", toString s.commentLines),
   ("blank lines:       ", toString s.blankLines)]
    ++ (if s.duplicatedPackages.isEmpty then []
        else [("duplicated:        ", ", ".intercalate s.duplicatedPackages)])

def render (s : Summary) : String := String.join (s.rows.map fun row => row.1 ++ row.2 ++ "\n")

end Summary

/-- The word for the kind of an entry, in eight places; comments and blanks have none. -/
def Entry.kindColumn? : Entry → Option String
  | requirement _ => some "package "
  | editable _ => some "editable"
  | includeFile _ => some "include "
  | option _ => some "option  "
  | comment _ | blank => none

def Line.row? (line : Line) : Option String :=
  line.entry.kindColumn?.map fun kind =>
    String.ofList (decimalWide 4 line.number) ++ "  " ++ kind ++ "  " ++ line.entry.render ++ "\n"

def Manifest.renderEntries (m : Manifest) : String := String.join (m.lines.filterMap Line.row?)

end PinFile
