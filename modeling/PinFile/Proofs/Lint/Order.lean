import Mathlib.Data.List.Lex
import Mathlib.Data.Prod.Lex
import Mathlib.Data.String.Basic
import Mathlib.Order.WithBot
import PinFile.Lint.Finding

/-!
# The order of findings

Locations and findings are ordered by keys from a linear order: a location by its source and then
its line, a finding by its first location, where it has one, and then its kind. So both orders
are transitive and total.
-/

namespace PinFile

namespace Location

def key (l : Location) : List String ×ₗ Nat := toLex (l.sourceKey, l.line)

theorem notAfter_eq (a b : Location) : notAfter a b = decide (a.key ≤ b.key) := by
  rw [Bool.eq_iff_iff]
  simp [notAfter, key, Prod.Lex.toLex_le_toLex]

theorem notAfter_iff {a b : Location} : notAfter a b = true ↔ a.key ≤ b.key := by
  rw [notAfter_eq, decide_eq_true_iff]

theorem notAfter_trans (a b c : Location) (hab : notAfter a b = true)
    (hbc : notAfter b c = true) : notAfter a c = true :=
  notAfter_iff.mpr ((notAfter_iff.mp hab).trans (notAfter_iff.mp hbc))

theorem notAfter_total (a b : Location) : (notAfter a b || notAfter b a) = true := by
  rw [Bool.or_eq_true, notAfter_iff, notAfter_iff]
  exact le_total a.key b.key

end Location

namespace Finding

/-- No location comes before all locations. -/
def placeKey : Option Location → WithBot (List String ×ₗ Nat)
  | none => ⊥
  | some l => l.key

def key (f : Finding) : WithBot (List String ×ₗ Nat) ×ₗ Nat :=
  toLex (placeKey f.locations.head?, f.kind.rank)

theorem notAfter_iff {a b : Finding} : notAfter a b = true ↔ a.key ≤ b.key := by
  unfold notAfter key
  rw [Prod.Lex.toLex_le_toLex]
  cases a.locations.head? with
  | none =>
    cases b.locations.head? with
    | none => simp [placeKey]
    | some k => simp [placeKey, WithBot.bot_lt_coe]
  | some l =>
    cases b.locations.head? with
    | none => simp [placeKey]
    | some k =>
      simp only [placeKey, WithBot.coe_lt_coe, WithBot.coe_inj, Location.notAfter_eq]
      rcases lt_trichotomy l.key k.key with h | h | h
      · simp [h, h.le, h.not_ge]
      · simp [h]
      · simp [h.not_ge, h.not_gt, h.ne']

theorem notAfter_trans (a b c : Finding) (hab : notAfter a b = true)
    (hbc : notAfter b c = true) : notAfter a c = true :=
  notAfter_iff.mpr ((notAfter_iff.mp hab).trans (notAfter_iff.mp hbc))

theorem notAfter_total (a b : Finding) : (notAfter a b || notAfter b a) = true := by
  rw [Bool.or_eq_true, notAfter_iff, notAfter_iff]
  exact le_total a.key b.key

end Finding

end PinFile
