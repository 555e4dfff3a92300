/-!
# Texts

What texts are made of and how they are taken apart: blanks and other classes of characters, cuts
at a character, decimal numbers, UTF-8, and the order of texts.
-/

namespace PinFile.Text

/-!
## Blanks

A character is blank when it has the Unicode property White_Space. `trim` takes the blanks off
both ends of a text; `words` are its maximal runs of other characters.
-/

/-- The code points of White_Space, as ascending ranges with both ends included. -/
def blankRanges : List (Nat × Nat) :=
  [(0x9, 0xd), (0x20, 0x20), (0x85, 0x85), (0xa0, 0xa0), (0x1680, 0x1680), (0x2000, 0x200a),
   (0x2028, 0x2029), (0x202f, 0x202f), (0x205f, 0x205f), (0x3000, 0x3000)]

/-- `n` lies in one of the ranges. -/
def within (ranges : List (Nat × Nat)) (n : Nat) : Bool :=
  ranges.any fun r => r.1 ≤ n && n ≤ r.2

def isBlank (c : Char) : Bool := within blankRanges c.toNat

def trimStart (cs : List Char) : List Char := cs.dropWhile isBlank

def trimEnd (cs : List Char) : List Char := (cs.reverse.dropWhile isBlank).reverse

def trim (cs : List Char) : List Char := trimEnd (trimStart cs)

def words (cs : List Char) : List (List Char) :=
  (cs.splitOnP isBlank).filter (!·.isEmpty)

theorem trimStart_of_head {c : Char} {cs : List Char} (h : isBlank c = false) :
    trimStart (c :: cs) = c :: cs := by
  simp [trimStart, h]

theorem trimEnd_of_getLast {c : Char} {cs : List Char} (h : isBlank c = false) :
    trimEnd (cs ++ [c]) = cs ++ [c] := by
  simp [trimEnd, h]

/-!
## Character classes

The classes that names, versions and digests are written in; all of them are ASCII.
-/

def isLetterOrDigit (c : Char) : Bool := c.isAlphanum

/-- A character that may stand inside a name. -/
def isNameChar (c : Char) : Bool := c.isAlphanum || c == '.' || c == '_' || c == '-'

/-- A character of one dotted part of a version. -/
def isVersionChar (c : Char) : Bool :=
  c.isAlphanum || c == '!' || c == '+' || c == '_' || c == '-'

def isHexDigit (c : Char) : Bool :=
  c.isDigit || ('a' ≤ c && c ≤ 'f') || ('A' ≤ c && c ≤ 'F')

/-- The value of a hexadecimal digit. -/
def hexValue? (c : Char) : Option Nat :=
  if c.isDigit then some (c.toNat - 48)
  else if 'a' ≤ c && c ≤ 'f' then some (c.toNat - 87)
  else if 'A' ≤ c && c ≤ 'F' then some (c.toNat - 55)
  else none

theorem isNameChar_of_isLetterOrDigit {c : Char} (h : isLetterOrDigit c = true) :
    isNameChar c = true := by
  simp_all [isLetterOrDigit, isNameChar]

/-!
## Cutting a text

`cut? p cs` breaks `cs` at its first character with `p` and leaves that character out.
-/

def cut? (p : Char → Bool) (cs : List Char) : Option (List Char × List Char) :=
  match cs.dropWhile (!p ·) with
  | [] => none
  | _ :: rest => some (cs.takeWhile (!p ·), rest)

theorem cut?_append_cons {p : Char → Bool} {head tail : List Char} {c : Char}
    (hp : ∀ d ∈ head, p d = false) (hc : p c = true) :
    cut? p (head ++ c :: tail) = some (head, tail) := by
  have hd : (head ++ c :: tail).dropWhile (!p ·) = c :: tail := by
    rw [List.dropWhile_append_of_pos (by simpa using hp)]
    simp [hc]
  have ht : (head ++ c :: tail).takeWhile (!p ·) = head := by
    rw [List.takeWhile_append_of_pos (by simpa using hp)]
    simp [hc]
  simp [cut?, hd, ht]

theorem cut?_eq_none {p : Char → Bool} {cs : List Char} (h : ∀ d ∈ cs, p d = false) :
    cut? p cs = none := by
  have : cs.dropWhile (!p ·) = [] := by
    induction cs with
    | nil => rfl
    | cons c cs ih => simp_all
  simp [cut?, this]

theorem cut?_sign {c : Char} {head : List Char} (h : c ∉ head) (tail : List Char) :
    cut? (· == c) (head ++ c :: tail) = some (head, tail) := by
  refine cut?_append_cons (fun d hd => ?_) (beq_self_eq_true c)
  have : d ≠ c := fun e => h (e ▸ hd)
  simpa using this

theorem cut?_sign_eq_none {c : Char} {cs : List Char} (h : c ∉ cs) : cut? (· == c) cs = none := by
  refine cut?_eq_none fun d hd => ?_
  have : d ≠ c := fun e => h (e ▸ hd)
  simpa using this

/-!
## Decimal numbers

`decimal n` is the digits of `n` without leading zeros, and `ofDecimal cs` is the number that a
run of digits stands for.
-/

def decimal (n : Nat) : List Char := Nat.toDigits 10 n

def ofDecimal (cs : List Char) : Nat := Nat.ofDigitChars 10 cs 0

/-- The digits of `n` behind as many spaces as it takes to fill `width` places. -/
def decimalWide (width n : Nat) : List Char :=
  List.replicate (width - (decimal n).length) ' ' ++ decimal n

theorem ofDecimal_decimal (n : Nat) : ofDecimal (decimal n) = n :=
  Nat.ofDigitChars_ten_toDigits

/-!
## UTF-8

Texts as they lie in a file: `utf8 s` is the bytes of `s`, and `ofUtf8? bs` is the text that `bs`
encodes, when they encode one.
-/

/-- The content of a file. -/
abbrev Bytes := List UInt8

def utf8 (s : String) : Bytes := s.toUTF8.data.toList

def ofUtf8? (bs : Bytes) : Option String := String.fromUTF8? ⟨bs.toArray⟩

theorem ofUtf8?_utf8 (s : String) : ofUtf8? (utf8 s) = some s := by
  have h : (⟨s.toUTF8.data.toList.toArray⟩ : ByteArray) = s.toUTF8 := by simp
  unfold ofUtf8? utf8
  rw [h]
  simp [String.fromUTF8?, String.toUTF8, String.isValidUTF8, String.fromUTF8]

/-!
## Ascending texts

Texts are ordered by their code points. `ascending xs` is the members of `xs` in that order, each
once; `sorted xs` keeps repetitions.
-/

/-- Puts a text into its place in an ascending list that may hold it already. -/
def insertAscending (x : String) : List String → List String
  | [] => [x]
  | y :: ys => if x < y then x :: y :: ys else if x = y then y :: ys else y :: insertAscending x ys

def ascending (xs : List String) : List String := xs.foldr insertAscending []

def sorted (xs : List String) : List String := xs.mergeSort (fun a b => decide (a ≤ b))

theorem mem_insertAscending {a x : String} {ys : List String} :
    a ∈ insertAscending x ys ↔ a = x ∨ a ∈ ys := by
  induction ys with
  | nil => simp [insertAscending]
  | cons y ys ih =>
    unfold insertAscending
    split
    · simp
    · split
      · rename_i h; subst h; simp
      · simp only [List.mem_cons, ih]
        constructor <;> rintro (h | h | h) <;> simp [h]

@[simp] theorem mem_ascending {a : String} {xs : List String} : a ∈ ascending xs ↔ a ∈ xs := by
  induction xs with
  | nil => simp [ascending]
  | cons x xs ih =>
    rw [ascending, List.foldr_cons, mem_insertAscending, List.mem_cons]
    exact or_congr Iff.rfl ih

end PinFile.Text
