import Mathlib.Algebra.GroupWithZero.Nat
import PinFile.Bson.Document
import PinFile.Bson.Manifest

/-!
# Bytes of BSON

What the writer puts in front of other bytes, the reader cuts off again: numbers of a fixed
width, lengths below `2 ^ 31`, keys without a zero byte, and texts.
-/

namespace PinFile.Bson

open Text

variable {bs rest : Bytes} {width n : Nat}

theorem take?_append (bs rest : Bytes) : take? bs.length (bs ++ rest) = some (bs, rest) := by
  unfold take?
  rw [if_pos (by simp), List.take_left, List.drop_left]

/-! ## Numbers -/

@[simp] theorem length_littleEndian (width n : Nat) : (littleEndian width n).length = width := by
  induction width generalizing n with
  | zero => rfl
  | succ width ih => simp [littleEndian, ih]

theorem ofLittleEndian_littleEndian (h : n < 256 ^ width) :
    ofLittleEndian (littleEndian width n) = n := by
  induction width generalizing n with
  | zero =>
    have hn : n = 0 := by simpa using h
    rw [hn]
    rfl
  | succ width ih =>
    have hd : n / 256 < 256 ^ width := by
      rw [Nat.pow_succ] at h
      omega
    unfold littleEndian ofLittleEndian
    rw [ih hd]
    exact Nat.mod_add_div n 256

theorem take?_littleEndian (width n : Nat) (rest : Bytes) :
    take? width (littleEndian width n ++ rest) = some (littleEndian width n, rest) := by
  have h := take?_append (littleEndian width n) rest
  rwa [length_littleEndian] at h

theorem length?_littleEndian (h : n < 2 ^ 31) (rest : Bytes) :
    length? (littleEndian 4 n ++ rest) = some (n, rest) := by
  have hn : ofLittleEndian (littleEndian 4 n) = n := ofLittleEndian_littleEndian (by omega)
  unfold length?
  rw [take?_littleEndian]
  dsimp only [Option.bind_eq_bind, Option.bind_some]
  rw [hn]
  exact if_pos h

theorem integer?_littleEndian (h : n ≤ maxNat) (rest : Bytes) :
    integer? 8 (littleEndian 8 n ++ rest) = some (.nat n, rest) := by
  have hm : n < 2 ^ 63 := by
    have : maxNat = 2 ^ 63 - 1 := rfl
    omega
  have hn : ofLittleEndian (littleEndian 8 n) = n := ofLittleEndian_littleEndian (by omega)
  have hp : n < Nat.pow 256 8 / 2 := hm
  unfold integer?
  rw [take?_littleEndian, Option.map_some]
  dsimp only
  rw [hn, if_pos hp]

/-! ## Keys and texts -/

/-- A key that BSON can name: its end is marked by a zero byte. -/
def IsKey (key : String) : Prop := 0 ∉ utf8 key

instance (key : String) : Decidable (IsKey key) := inferInstanceAs (Decidable (¬ _))

def AreKeys (keys : List String) : Prop := ∀ key ∈ keys, IsKey key

instance (keys : List String) : Decidable (AreKeys keys) :=
  inferInstanceAs (Decidable (∀ key ∈ keys, IsKey key))

theorem key?_writeKey {key : String} (h : IsKey key) (rest : Bytes) :
    key? (writeKey key ++ rest) = some (key, rest) := by
  have hne : ∀ b ∈ utf8 key, (b != 0) = true := fun b hb => bne_iff_ne.mpr fun e => h (e ▸ hb)
  have hd : (utf8 key ++ 0 :: rest).dropWhile (· != 0) = 0 :: rest := by
    rw [List.dropWhile_append_of_pos hne]
    rfl
  have ht : (utf8 key ++ 0 :: rest).takeWhile (· != 0) = utf8 key := by
    rw [List.takeWhile_append_of_pos hne]
    exact List.append_nil _
  unfold key? writeKey
  rw [List.append_assoc, List.singleton_append, hd]
  dsimp only
  rw [ht, ofUtf8?_utf8, Option.map_some]

theorem text?_writeText {s : String} (h : (writeText s).length < 2 ^ 31) (rest : Bytes) :
    text? (writeText s ++ rest) = some (s, rest) := by
  have hl : (utf8 s).length + 1 < 2 ^ 31 := by
    simp only [writeText, List.length_append, length_littleEndian, List.length_singleton] at h
    omega
  have ht := take?_append (utf8 s ++ [0]) rest
  rw [List.length_append, List.length_singleton] at ht
  have hw : writeText s ++ rest =
      littleEndian 4 ((utf8 s).length + 1) ++ (utf8 s ++ [0] ++ rest) := by
    simp only [writeText, List.append_assoc]
  unfold text?
  rw [hw, length?_littleEndian hl]
  dsimp only [Option.bind_eq_bind, Option.bind_some]
  rw [ht]
  dsimp only [Option.bind_some]
  rw [if_pos (by simp), List.dropLast_concat, ofUtf8?_utf8, Option.map_some]

/-! ## Keys of lists -/

theorem utf8_ofList (cs : List Char) :
    utf8 (String.ofList cs) = cs.flatMap String.utf8EncodeChar := by
  rw [utf8, String.toUTF8_eq_toByteArray, String.toByteArray_ofList, List.utf8Encode,
    List.data_toByteArray]

theorem isKey_of_digits {cs : List Char} (h : ∀ c ∈ cs, c.isDigit = true) :
    IsKey (String.ofList cs) := by
  unfold IsKey
  rw [utf8_ofList]
  intro hm
  obtain ⟨c, hc, hb⟩ := List.mem_flatMap.mp hm
  obtain ⟨hl, hu⟩ := Char.isDigit_iff_toNat.mp (h c hc)
  have hl : 48 ≤ c.val.toNat := hl
  have hu : c.val.toNat ≤ 57 := hu
  have hs : c.utf8Size = 1 := if_pos (UInt32.le_iff_toNat_le.mpr (Nat.le_trans hu (by decide)))
  rw [String.utf8EncodeChar_eq_singleton hs, List.mem_singleton] at hb
  have hn : c.val.toUInt8.toNat = c.val.toNat := by
    rw [UInt32.toNat_toUInt8]
    omega
  rw [← hb, UInt8.toNat_zero] at hn
  omega

/-- The key of an item in a list. -/
theorem isKey_toString (i : Nat) : IsKey (toString i) := by
  have hr : toString i = String.ofList (Nat.toDigits 10 i) := Nat.repr_eq_ofList_toDigits
  rw [hr]
  exact isKey_of_digits fun c hc => Nat.isDigit_of_mem_toDigits (by decide) (by decide) hc

end PinFile.Bson
