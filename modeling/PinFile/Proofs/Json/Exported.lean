import Mathlib.Algebra.GroupWithZero.Nat
import PinFile.Datum.Report
import PinFile.Proofs.Datum
import PinFile.Proofs.Json.RoundTrip

/-!
# Values read back from JSON

A manifest without inclusions, a report or a change is read back from the JSON that it is printed
as, and two of them that are printed as one text are equal (`readable_render`). All that JSON asks
for is room for the line numbers.
-/

namespace PinFile

open Datum

/-!
## Reports and changes read back from data

Unlike an entry, nothing in a report or a change names a field twice, so all of them are read back.
-/

theorem Severity.ofName?_name (s : Severity) : ofName? s.name = some s := by
  cases s <;> rfl

theorem FindingKind.ofName?_name (k : FindingKind) : ofName? k.name = some k := by
  cases k <;> rfl

theorem Location.ofDatum?_toDatum (l : Location) : ofDatum? l.toDatum = some l := by
  unfold ofDatum? toDatum
  dsimp only [fields?, Option.bind_eq_bind, Option.bind_some]
  rw [optionalField?_eq (o := l.source) rfl, field?_eq (d := .nat l.line) rfl]
  rfl

theorem Finding.ofDatum?_toDatum (f : Finding) : ofDatum? f.toDatum = some f := by
  have hl : list? Location.ofDatum? (.list (f.locations.map Location.toDatum)) =
      some f.locations := mapM_map_eq_pure fun l _ => l.ofDatum?_toDatum
  unfold ofDatum? toDatum
  dsimp only [fields?, Option.bind_eq_bind, Option.bind_some]
  rw [field?_eq (d := .text f.severity.name) rfl, field?_eq (d := .text f.kind.name) rfl,
    optionalField?_eq (o := f.package) rfl,
    field?_eq (d := .list (f.locations.map Location.toDatum)) rfl, hl,
    field?_eq (d := .text f.message) rfl]
  dsimp only [choice?, Option.bind_some]
  rw [Severity.ofName?_name, FindingKind.ofName?_name]
  rfl

theorem Report.ofDatum?_toDatum (r : Report) : ofDatum? r.toDatum = some r := by
  have hf : list? Finding.ofDatum? (.list (r.findings.map Finding.toDatum)) = some r.findings :=
    mapM_map_eq_pure fun f _ => f.ofDatum?_toDatum
  unfold ofDatum? toDatum
  dsimp only [fields?, Option.bind_eq_bind, Option.bind_some]
  rw [field?_eq (d := .list (r.findings.map Finding.toDatum)) rfl, hf]
  rfl

theorem PackageChange.ofDatum?_toDatum (c : PackageChange) : ofDatum? c.toDatum = some c := by
  unfold ofDatum? toDatum
  dsimp only [fields?, Option.bind_eq_bind, Option.bind_some]
  rw [field?_eq (d := .text c.package) rfl, field?_eq (d := texts c.before) rfl, texts?_texts,
    field?_eq (d := texts c.after) rfl, texts?_texts]
  rfl

theorem Change.ofDatum?_toDatum (c : Change) : ofDatum? c.toDatum = some c := by
  have hc : list? PackageChange.ofDatum? (.list (c.changed.map PackageChange.toDatum)) =
      some c.changed := mapM_map_eq_pure fun p _ => p.ofDatum?_toDatum
  unfold ofDatum? toDatum
  dsimp only [fields?, Option.bind_eq_bind, Option.bind_some]
  rw [field?_eq (d := texts c.added) rfl, texts?_texts, field?_eq (d := texts c.removed) rfl,
    texts?_texts, field?_eq (d := .list (c.changed.map PackageChange.toDatum)) rfl, hc]
  rfl

/-! ## What is exported -/

open Json

variable {levels : Nat}

/-! ## Room for the data -/

theorem fits_list_map {α : Type} {f : α → Datum} {xs : List α}
    (h : ∀ x ∈ xs, Fits levels (f x)) : Fits (levels + 1) (.list (xs.map f)) :=
  .list (List.forall_mem_map.mpr h)

theorem fits_texts (xs : List String) : Fits (levels + 1) (texts xs) :=
  fits_list_map fun s _ => .text s

theorem fits_optionalText (o : Option String) : Fits levels (optionalText o) := by
  cases o with
  | none => exact .null
  | some s => exact .text s

theorem fits_nat {n : Nat} (h : n < 2 ^ 64) : Fits levels (.nat n) := by
  have hm : maxNat = 2 ^ 64 - 1 := rfl
  exact .nat (by omega)

theorem Entry.fits_toDatum (e : Entry) : Fits (levels + 3) e.toDatum := by
  refine .record (List.forall_mem_cons.mpr ⟨.text _, ?_⟩)
  cases e with
  | requirement r =>
    have hc : Fits (levels + 2) (.list (r.constraints.map Constraint.toDatum)) :=
      fits_list_map fun c _ => .record (by simp [Fits.text])
    simp [fields, Requirement.fields, Fits.text, fits_texts, fits_optionalText, hc]
  | option o => simp [fields, Fits.text, fits_optionalText]
  | editable | includeFile | comment | blank => simp [fields, Fits.text]

theorem Line.fits_toDatum {line : Line} (h : line.number < 2 ^ 64) :
    Fits (levels + 4) line.toDatum :=
  .record (by simp [fits_nat h, line.entry.fits_toDatum, fits_optionalText])

theorem Manifest.fits_toDatum {m : Manifest} (h : ∀ line ∈ m.lines, line.number < 2 ^ 64) :
    Fits (levels + 6) m.toDatum :=
  .record (by simp [fits_list_map fun line hl => Line.fits_toDatum (h line hl)])

theorem Location.fits_toDatum {l : Location} (h : l.line < 2 ^ 64) :
    Fits (levels + 1) l.toDatum :=
  .record (by simp [fits_nat h, fits_optionalText])

theorem Finding.fits_toDatum {f : Finding} (h : ∀ l ∈ f.locations, l.line < 2 ^ 64) :
    Fits (levels + 3) f.toDatum := by
  have hl : Fits (levels + 2) (.list (f.locations.map Location.toDatum)) :=
    fits_list_map fun l hl => Location.fits_toDatum (h l hl)
  exact .record (by simp [Fits.text, fits_optionalText, hl])

theorem Report.fits_toDatum {r : Report}
    (h : ∀ f ∈ r.findings, ∀ l ∈ f.locations, l.line < 2 ^ 64) : Fits (levels + 5) r.toDatum :=
  .record (by simp [fits_list_map fun f hf => Finding.fits_toDatum (h f hf)])

theorem Change.fits_toDatum (c : Change) : Fits (levels + 4) c.toDatum := by
  have hc : Fits (levels + 3) (.list (c.changed.map PackageChange.toDatum)) :=
    fits_list_map fun p _ => .record (by simp [Fits.text, fits_texts])
  exact .record (by simp [fits_texts, hc])

/-! ## Values -/

/-- What is printed as JSON and can be asked for again. -/
inductive Exported where
  | manifest (m : Manifest)
  | report (r : Report)
  | change (c : Change)

namespace Exported

def toDatum : Exported → Datum
  | manifest m => m.toDatum
  | report r => r.toDatum
  | change c => c.toDatum

/-- A manifest includes nothing, and line numbers are no larger than a machine word. -/
def IsReadable : Exported → Prop
  | manifest m => m.includes = [] ∧ ∀ line ∈ m.lines, line.number < 2 ^ 64
  | report r => ∀ f ∈ r.findings, ∀ l ∈ f.locations, l.line < 2 ^ 64
  | change _ => True

variable {e e' : Exported}

theorem parse?_render_toDatum (h : e.IsReadable) :
    Json.parse? (Json.render e.toDatum) = some e.toDatum := by
  cases e with
  | manifest m => exact parse?_render (Manifest.fits_toDatum h.2)
  | report r => exact parse?_render (Report.fits_toDatum h)
  | change c => exact parse?_render c.fits_toDatum

/-- The keys of a record tell a manifest, a report and a change apart. -/
theorem eq_of_toDatum_eq (h : e.IsReadable) (h' : e'.IsReadable) (hd : e.toDatum = e'.toDatum) :
    e = e' := by
  cases e <;> cases e'
  case manifest.manifest m m' =>
    have hm : some m = some m' := by
      rw [← m.ofDatum?_toDatum h.1, ← m'.ofDatum?_toDatum h'.1]
      exact congrArg _ hd
    exact congrArg manifest (Option.some.inj hm)
  case report.report r r' =>
    have hr : some r = some r' := by
      rw [← r.ofDatum?_toDatum, ← r'.ofDatum?_toDatum]
      exact congrArg _ hd
    exact congrArg report (Option.some.inj hr)
  case change.change c c' =>
    have hc : some c = some c' := by
      rw [← c.ofDatum?_toDatum, ← c'.ofDatum?_toDatum]
      exact congrArg _ hd
    exact congrArg change (Option.some.inj hc)
  all_goals
    simp [toDatum, Manifest.toDatum, Report.toDatum, Change.toDatum] at hd

/-- Manifests without inclusions, reports and changes are read back from their JSON, and no two
different ones of them are printed as the same text. -/
theorem readable_render :
    (∀ m : Manifest, m.includes = [] → (∀ line ∈ m.lines, line.number < 2 ^ 64) →
      (Json.parse? (Json.render m.toDatum)).bind Manifest.ofDatum? = some m) ∧
    (∀ r : Report, (∀ f ∈ r.findings, ∀ l ∈ f.locations, l.line < 2 ^ 64) →
      (Json.parse? (Json.render r.toDatum)).bind Report.ofDatum? = some r) ∧
    (∀ c : Change, (Json.parse? (Json.render c.toDatum)).bind Change.ofDatum? = some c) ∧
    ∀ e e' : Exported, e.IsReadable → e'.IsReadable →
      Json.render e.toDatum = Json.render e'.toDatum → e = e' := by
  refine ⟨fun m hi hn => ?_, fun r hn => ?_, fun c => ?_, fun e e' h h' hr => ?_⟩
  · rw [parse?_render (Manifest.fits_toDatum hn), Option.bind_some, m.ofDatum?_toDatum hi]
  · rw [parse?_render (Report.fits_toDatum hn), Option.bind_some, r.ofDatum?_toDatum]
  · rw [parse?_render c.fits_toDatum, Option.bind_some, c.ofDatum?_toDatum]
  · have hp := congrArg Json.parse? hr
    rw [parse?_render_toDatum h, parse?_render_toDatum h'] at hp
    exact eq_of_toDatum_eq h h' (Option.some.inj hp)

/-- A line with the largest number, and with quotes, backslashes, controls and signs outside
ASCII. -/
def unusualSigns : Manifest :=
  ⟨[⟨2 ^ 64 - 1, .comment "# \"quoted\" \\ \x01\x7f\t \u00e9 \u2028 𝄞", some ""⟩]⟩

def unusualPath : Report :=
  ⟨[⟨.warning, .unpinned, none, [⟨some "a\\\"é.txt", 3⟩, ⟨none, 0⟩], "a\nb"⟩]⟩

theorem readable_render_unusual :
    (Json.parse? (Json.render unusualSigns.toDatum)).bind Manifest.ofDatum? = some unusualSigns ∧
    (Json.parse? (Json.render unusualPath.toDatum)).bind Report.ofDatum? = some unusualPath ∧
    (Json.render unusualSigns.toDatum ≠ Json.render unusualPath.toDatum) := by
  have hm : (manifest unusualSigns).IsReadable := ⟨rfl, by decide⟩
  have hr : (report unusualPath).IsReadable := show ∀ f ∈ _, _ by decide
  refine ⟨readable_render.1 _ hm.1 hm.2, readable_render.2.1 _ hr, fun h => ?_⟩
  cases readable_render.2.2.2 (manifest unusualSigns) (report unusualPath) hm hr h

end Exported

end PinFile
