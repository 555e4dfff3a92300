import Mathlib.Data.List.Basic
import Mathlib.Data.List.TakeWhile
import PinFile.Json.Numbers

/-!
# JSON numbers read back

The digits of a number have no zero in front (`head?_decimal`), so all of them are read, up
to what follows. What follows must not carry the number on (`EndsNumber`).
-/

namespace PinFile.Json

open Text

variable {n : Nat} {cs rest : List Char}

/-- What stands behind a number and does not belong to it. -/
def EndsNumber (rest : List Char) : Prop := ∀ c ∈ rest.head?, c = ',' ∨ c = '\n'

theorem isDigit_of_mem_decimal : ∀ c ∈ decimal n, c.isDigit = true :=
  fun _ hc => Nat.isDigit_of_mem_toDigits (by decide) (by decide) hc

theorem head?_decimal_append (n : Nat) (rest : List Char) :
    (decimal n ++ rest).head? = (decimal n).head? :=
  List.head?_append_of_ne_nil _ Nat.toDigits_ne_nil

/-- Only zero is written with a zero in front. -/
theorem head?_decimal (h : 0 < n) : (decimal n).head? ≠ some '0' := by
  have hdigit : ∀ d < 10, 0 < d → Nat.digitChar d ≠ '0' := by decide
  induction n using Nat.strongRecOn with
  | ind n ih =>
    unfold decimal
    rw [Nat.toDigits_eq_if (by decide)]
    split
    · rename_i hn
      simpa using hdigit n hn h
    · rename_i hn
      rw [List.head?_append_of_ne_nil _ Nat.toDigits_ne_nil]
      exact ih (n / 10) (by omega) (by omega)

theorem digits?_decimal (hr : EndsNumber rest) :
    digits? (decimal n ++ rest) = some (decimal n, rest) := by
  have hd : ∀ c ∈ rest.head?, c.isDigit = false := by
    intro c hc
    rcases hr c hc with rfl | rfl <;> decide
  have ht : rest.takeWhile Char.isDigit = [] ∧ rest.dropWhile Char.isDigit = rest := by
    cases rest with
    | nil => exact ⟨rfl, rfl⟩
    | cons c rest =>
      have hc : ¬ c.isDigit = true := by simp [hd c rfl]
      exact ⟨List.takeWhile_cons_of_neg hc, List.dropWhile_cons_of_neg hc⟩
  unfold digits?
  rw [List.takeWhile_append_of_pos isDigit_of_mem_decimal,
    List.dropWhile_append_of_pos isDigit_of_mem_decimal, ht.1, ht.2, List.append_nil]
  exact if_neg (by simp [decimal])

theorem integer?_decimal (hr : EndsNumber rest) :
    integer? (decimal n ++ rest) = some (decimal n, rest) := by
  unfold integer?
  split
  · rename_i cs hcs
    rcases Nat.eq_zero_or_pos n with rfl | hn
    · injection hcs with _ hcs
      rw [← hcs]
      rfl
    · have hh := head?_decimal hn
      rw [← head?_decimal_append n rest, hcs] at hh
      exact absurd rfl hh
  · exact digits?_decimal hr

theorem fraction?_of_endsNumber (hr : EndsNumber rest) : fraction? rest = some ([], rest) := by
  unfold fraction?
  split
  · exact absurd (hr '.' rfl) (by decide)
  · rfl

theorem exponent?_of_endsNumber (hr : EndsNumber rest) : exponent? rest = some (0, rest) := by
  unfold exponent?
  split
  · exact absurd (hr 'e' rfl) (by decide)
  · exact absurd (hr 'E' rfl) (by decide)
  · rfl

/-- A number that is not too large is read back. -/
theorem number?_decimal (hn : n ≤ maxNat) (hr : EndsNumber rest) :
    number? (decimal n ++ rest) = some (.natural n, rest) := by
  have hu : unsigned? (decimal n ++ rest) = some (.natural n, rest) := by
    unfold unsigned?
    rw [integer?_decimal hr]
    dsimp only [Option.bind_eq_bind, Option.bind_some]
    rw [fraction?_of_endsNumber hr]
    dsimp only [Option.bind_some]
    rw [exponent?_of_endsNumber hr]
    dsimp only [Option.bind_some]
    rw [ofDecimal_decimal]
    exact if_pos (by simpa using hn)
  unfold number?
  split
  · rename_i cs hcs
    have hm : '-' ∈ decimal n := by
      have hh := head?_decimal_append n rest
      rw [hcs] at hh
      exact List.mem_of_mem_head? hh.symm
    exact absurd (isDigit_of_mem_decimal _ hm) (by decide)
  · exact hu

end PinFile.Json
