import PinFile.Manifest

/-!
# Writing manifests

The layout `preserve` writes every line in its place. The layout `normalize` drops comments,
blank lines and repetitions, and writes options first, then inclusions, then requirements in the
order of package and marker, then editable installs.
-/

namespace PinFile

inductive Layout where
  | preserve
  | normalize
  deriving DecidableEq, Repr, Inhabited

namespace Manifest

/-- Two requirements of one package that ask for the same. -/
def sameSpec (a b : Requirement) : Bool := a.package == b.package && a.specKey == b.specKey

/-- The first requirement of each specification, in the order of the lines. -/
def distinctSpecs : List Requirement → List Requirement
  | [] => []
  | r :: rest => r :: (distinctSpecs rest).filter (!sameSpec r ·)

/-- The order of requirements in the normal layout: by package, then by marker. -/
def notAfter (a b : Requirement) : Bool :=
  a.package < b.package || (a.package == b.package && a.marker.getD "" ≤ b.marker.getD "")

def normalizedEntries (m : Manifest) : List String :=
  (m.options.map InstallerOption.render).eraseDups
    ++ (m.includes.map Include.render).eraseDups
    ++ ((distinctSpecs m.requirements).mergeSort notAfter).map Requirement.render
    ++ (m.editables.map Editable.render).eraseDups

def renderedLines (m : Manifest) : Layout → List String
  | .preserve => m.lines.map Line.render
  | .normalize => m.normalizedEntries

/-- Each line with its end. -/
def render (m : Manifest) (layout : Layout) : String :=
  String.join ((m.renderedLines layout).map (· ++ "\n"))

end Manifest

end PinFile
