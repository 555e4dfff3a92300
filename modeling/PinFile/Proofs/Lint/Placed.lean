import PinFile.Proofs.Lint.Ignored

/-!
# Findings in any source

The checks look at one manifest in the same way wherever it comes from: the findings are those of
one list of unplaced findings, put into the source (`placed_check`). An unplaced finding has line
numbers for its locations and in its message, so findings in two sources differ in the source
alone.
-/

namespace PinFile

namespace Lint

/-- A part of a message: a text, or the location of a line. -/
inductive Piece where
  | text (s : String)
  | line (number : Nat)

def Piece.render (source : Option String) : Piece → String
  | text s => s
  | line number => Location.render ⟨source, number⟩

/-- The message that pieces make in a source. -/
def message (source : Option String) (pieces : List Piece) : String :=
  String.join (pieces.map (·.render source))

/-- A finding on lines of a source that is not told. -/
structure Unplaced where
  severity : Severity
  kind : FindingKind
  package : Option String
  lines : List Nat
  pieces : List Piece

/-- The finding on lines of the source. -/
def Unplaced.place (source : Option String) (u : Unplaced) : Finding where
  severity := u.severity
  kind := u.kind
  package := u.package
  locations := u.lines.map (⟨source, ·⟩)
  message := message source u.pieces

variable {α : Type} {source : Option String} {s : Settings} {m : Manifest} {package : String}
  {os : List Occurrence} {fs gs : Option String → List Finding}

/-! ## Messages -/

theorem notAfter_locations (source : Option String) (a b : Nat) :
    Location.notAfter ⟨source, a⟩ ⟨source, b⟩ = decide (a ≤ b) := by
  simp [Location.notAfter, Location.sourceKey]

/-- Findings in one source are ordered by their lines. -/
theorem notAfter_place (source : Option String) (u v : Unplaced) :
    Finding.notAfter (u.place source) (v.place source) =
      Finding.notAfter (u.place none) (v.place none) := by
  unfold Finding.notAfter Unplaced.place
  dsimp only
  rw [List.head?_map, List.head?_map, List.head?_map, List.head?_map]
  cases u.lines.head? with
  | none => cases v.lines.head? <;> rfl
  | some a =>
    cases v.lines.head? with
    | none => rfl
    | some b => simp only [Option.map_some, notAfter_locations]

/-! ## Lists of findings for any source -/

/-- The findings for all sources are one list of unplaced ones. -/
def Placed (fs : Option String → List Finding) : Prop :=
  ∃ us : List Unplaced, ∀ source, fs source = us.map (·.place source)

theorem Placed.append (h : Placed fs) (h' : Placed gs) :
    Placed fun source => fs source ++ gs source := by
  obtain ⟨us, hu⟩ := h
  obtain ⟨vs, hv⟩ := h'
  refine ⟨us ++ vs, fun source => ?_⟩
  dsimp only
  rw [hu, hv, List.map_append]

theorem Placed.mergeSort (h : Placed fs) :
    Placed fun source => (fs source).mergeSort Finding.notAfter := by
  obtain ⟨us, hu⟩ := h
  refine ⟨us.mergeSort fun u v => Finding.notAfter (u.place none) (v.place none), fun source => ?_⟩
  dsimp only
  rw [hu, List.map_mergeSort]
  exact fun u _ v _ => (notAfter_place source u v).symm

/-! ## Occurrences -/

/-- Two findings on the same lines, without a source and in a file, that differ in nothing else:
a message differs where it tells a location. -/
structure SameButSource (path : String) (f g : Finding) : Prop where
  severity : f.severity = g.severity
  kind : f.kind = g.kind
  package : f.package = g.package
  lines : ∃ lines : List Nat,
    f.locations = lines.map (⟨none, ·⟩) ∧ g.locations = lines.map (⟨some path, ·⟩)
  message : ∃ pieces : List Piece,
    f.message = message none pieces ∧ g.message = message (some path) pieces

theorem Placed.forall₂ (h : Placed fs) (path : String) :
    List.Forall₂ (SameButSource path) (fs none) (fs (some path)) := by
  obtain ⟨us, hu⟩ := h
  rw [hu, hu, List.forall₂_map_left_iff, List.forall₂_map_right_iff, List.forall₂_same]
  exact fun u _ => ⟨rfl, rfl, rfl, ⟨u.lines, rfl, rfl⟩, ⟨u.pieces, rfl, rfl⟩⟩

section

variable {path : String} {r r' : Report}
  (h : List.Forall₂ (SameButSource path) r.findings r'.findings)

include h

end

end Lint

end PinFile
