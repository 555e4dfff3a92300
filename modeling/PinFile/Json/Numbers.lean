import PinFile.Text

/-!
# JSON numbers

A number may have a sign, a fraction and an exponent. Only whole numbers without these are read
as numbers; of the others it matters whether double precision could hold them.
-/

namespace PinFile.Json

open Text

/-- One digit or more. -/
def digits? (cs : List Char) : Option (List Char × List Char) :=
  let digits := cs.takeWhile Char.isDigit
  if digits.isEmpty then none else some (digits, cs.dropWhile Char.isDigit)

/-- Digits without a leading zero. -/
def integer? : List Char → Option (List Char × List Char)
  | '0' :: rest => some (['0'], rest)
  | cs => digits? cs

/-- A point with digits, or nothing; the point is left out. -/
def fraction? : List Char → Option (List Char × List Char)
  | '.' :: rest => digits? rest
  | cs => some ([], cs)

/-- An exponent, or nothing for zero. -/
def exponent? : List Char → Option (Int × List Char)
  | 'e' :: rest | 'E' :: rest =>
    match rest with
    | '-' :: rest => (digits? rest).map fun (digits, rest) => (-(ofDecimal digits : Int), rest)
    | '+' :: rest => (digits? rest).map fun (digits, rest) => ((ofDecimal digits : Int), rest)
    | rest => (digits? rest).map fun (digits, rest) => ((ofDecimal digits : Int), rest)
  | cs => some (0, cs)

/-- The largest number that is read. -/
def maxNat : Nat := Nat.pow 2 64 - 1

inductive Number where
  | natural (n : Nat)
  /-- Any other number that double precision can hold. -/
  | fits
  | tooLarge
  deriving DecidableEq, Repr

/-- The first number that double precision rounds to infinity. -/
def doubleLimit : Nat := Nat.pow 2 1024 - Nat.pow 2 970

/-- Whether double precision can hold `n * 10 ^ e`; the power is only computed near the limit. -/
def fitsDouble (n : Nat) (e : Int) : Bool :=
  let places : Int := (decimal n).length + e
  if n = 0 || places ≤ 308 then true
  else if 310 ≤ places then false
  else if 0 ≤ e then n * Nat.pow 10 e.toNat < doubleLimit
  else n < doubleLimit * Nat.pow 10 (-e).toNat

def magnitude (digits fraction : List Char) (exponent : Int) : Number :=
  if fitsDouble (ofDecimal (digits ++ fraction)) (exponent - fraction.length) then .fits
  else .tooLarge

/-- Cuts a number without its sign off the start of a text. -/
def unsigned? (cs : List Char) : Option (Number × List Char) := do
  let (digits, behindDigits) ← integer? cs
  let (fraction, rest) ← fraction? behindDigits
  let (exponent, rest) ← exponent? rest
  let n := ofDecimal digits
  if rest.length = behindDigits.length && n ≤ maxNat then return (.natural n, rest)
  else return (magnitude digits fraction exponent, rest)

/-- Cuts a number off the start of a text; a sign keeps it from being a natural number. -/
def number? : List Char → Option (Number × List Char)
  | '-' :: rest =>
    (unsigned? rest).map fun (n, rest) =>
      (match n with | .natural _ => .fits | n => n, rest)
  | cs => unsigned? cs

end PinFile.Json
