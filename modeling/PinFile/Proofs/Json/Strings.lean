import Mathlib.Data.List.Basic
import PinFile.Json.Strings

/-!
# JSON strings read back

A character is written as itself, by a short name or by its number (`escapeChar_cases`), and is
read back from each of them. So an escaped text is cut off in front of the quote that ends it
(`literal?_escape`), and it stands for the text that it was made of (`unescape?_escape`).
-/

namespace PinFile.Json

open Text

theorem isHexDigit_digitChar : ∀ n < 16, isHexDigit (Nat.digitChar n) = true := by decide

theorem hexUnit?_digitChar : ∀ n < 0x20,
    hexUnit? '0' '0' (Nat.digitChar (n / 16)) (Nat.digitChar (n % 16)) = some n := by
  decide

/-- The escape of a control by its number. -/
def numberEscape (n : Nat) : List Char :=
  ['\\', 'u', '0', '0', Nat.digitChar (n / 16), Nat.digitChar (n % 16)]

/-- The three ways to write a character. -/
theorem escapeChar_cases (c : Char) :
    (∃ d, escapeChar c = ['\\', d] ∧ d ≠ 'u' ∧ shortEscape? d = some c) ∨
      (c.toNat < 0x20 ∧ escapeChar c = numberEscape c.toNat) ∨
      (c ≠ '"' ∧ c ≠ '\\' ∧ 0x20 ≤ c.toNat ∧ escapeChar c = [c]) := by
  have hshort (d e : Char) (hd : d ≠ 'u') (he : shortEscape? d = some e) :
      ∃ d', ['\\', d] = ['\\', d'] ∧ d' ≠ 'u' ∧ shortEscape? d' = some e := ⟨d, rfl, hd, he⟩
  unfold escapeChar
  simp only [beq_iff_eq]
  iterate 7
    split
    · rename_i h
      exact .inl (hshort _ _ (by decide) (by rw [h]; rfl))
  split
  · rename_i h
    exact .inr (.inl ⟨h, rfl⟩)
  · rename_i hq hs _ _ _ _ _ h
    exact .inr (.inr ⟨hq, hs, by omega, rfl⟩)

/-! ## Where a string ends -/

theorem literal?_escapeChar (c : Char) (cs : List Char) : literal? (escapeChar c ++ cs) =
    (literal? cs).map fun (tail, rest) => (escapeChar c ++ tail, rest) := by
  rcases escapeChar_cases c with ⟨d, he, hd, hs⟩ | ⟨hc, he⟩ | ⟨hq, hs, hc, he⟩
  · rw [he, List.cons_append, List.singleton_append, literal?]
    · rw [hs, Option.isSome_some, if_pos rfl]
      rfl
    · rintro _ _ _ _ _ rfl
      exact absurd rfl hd
  · have hx : [('0' : Char), '0', Nat.digitChar (c.toNat / 16),
        Nat.digitChar (c.toNat % 16)].all isHexDigit = true := by
      simp [isHexDigit_digitChar (c.toNat / 16) (by omega),
        isHexDigit_digitChar (c.toNat % 16) (by omega), show isHexDigit '0' = true by decide]
    rw [he, numberEscape]
    simp only [List.cons_append, List.nil_append]
    rw [literal?, if_pos hx]
  · have hb : (c == '\\' || decide (c.toNat < 0x20)) = false := by
      simp [hs]
      omega
    rw [he, List.singleton_append, literal?]
    · rw [hb]
      rfl
    · exact hq
    · rintro _ _ _ _ _ rfl
      exact absurd rfl hs
    · rintro _ _ rfl
      exact absurd rfl hs

theorem literal?_escape (cs rest : List Char) :
    literal? (escape cs ++ '"' :: rest) = some (escape cs, rest) := by
  induction cs with
  | nil => rfl
  | cons c cs ih =>
    have he : escape (c :: cs) = escapeChar c ++ escape cs := rfl
    rw [he, List.append_assoc, literal?_escapeChar, ih, Option.map_some]

/-! ## What a string stands for -/

theorem unescape?_escapeChar (c : Char) (cs : List Char) :
    unescape? (escapeChar c ++ cs) = (unescape? cs).map (c :: ·) := by
  rcases escapeChar_cases c with ⟨d, he, hd, hs⟩ | ⟨hc, he⟩ | ⟨hq, hs, hc, he⟩
  · rw [he, List.cons_append, List.singleton_append, unescape?]
    · rw [hs]
      cases unescape? cs <;> rfl
    · rintro _ _ _ _ _ rfl
      exact absurd rfl hd
  · have hl : isLowSurrogate c.toNat = false := by
      simp [isLowSurrogate]
      omega
    have hh : isHighSurrogate c.toNat = false := by
      simp [isHighSurrogate]
      omega
    rw [he, numberEscape]
    simp only [List.cons_append, List.nil_append]
    rw [unescape?, hexUnit?_digitChar c.toNat hc]
    simp only [Option.bind_eq_bind, Option.bind_some, hl, hh, Char.ofNat_toNat]
    cases unescape? cs <;> rfl
  · rw [he, List.singleton_append, unescape?]
    · cases unescape? cs <;> rfl
    · rintro _ _ _ _ _ rfl
      exact absurd rfl hs
    · rintro _ _ rfl
      exact absurd rfl hs

theorem unescape?_escape (cs : List Char) : unescape? (escape cs) = some cs := by
  induction cs with
  | nil => rfl
  | cons c cs ih =>
    have he : escape (c :: cs) = escapeChar c ++ escape cs := rfl
    rw [he, unescape?_escapeChar, ih, Option.map_some]

end PinFile.Json
