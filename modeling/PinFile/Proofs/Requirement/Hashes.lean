import PinFile.Proofs.Name
import PinFile.Proofs.Requirement.OptionTail
import PinFile.Proofs.Results
import PinFile.Proofs.Text.Pieces

/-!
# Reading digests

A digest is read from the option that it is written as (`readHashes_cons`), and what is read from
any options is a list of digests (`readHashes_eq_ok`).
-/

namespace PinFile.Requirement

open Text

/-! ## Characters of a digest -/

theorem mem_of_isHash {cs : List Char} (h : isHash cs = true) :
    ∀ c ∈ cs, c.isAlphanum = true ∨ c = ':' := by
  unfold isHash at h
  split at h
  · cases h
  · rename_i algorithm digest hc
    simp only [Bool.and_eq_true, List.all_eq_true] at h
    obtain ⟨d, hd, rfl, -⟩ := eq_append_of_cut? hc
    intro c hm
    rcases List.mem_append.mp hm with hm | hm
    · exact .inl (h.1.1.2 c hm)
    · rcases List.mem_cons.mp hm with rfl | hm
      · exact .inr (by simpa using hd)
      · exact .inl (isAlphanum_of_isHexDigit (h.2 c hm))

theorem ne_nil_of_isHash {cs : List Char} (h : isHash cs = true) : cs ≠ [] := by
  rintro rfl
  exact absurd h (by decide)

theorem isBlank_of_isHash {cs : List Char} (h : isHash cs = true) :
    ∀ c ∈ cs, isBlank c = false := by
  intro c hc
  rcases mem_of_isHash h c hc with ha | rfl
  · exact isBlank_of_isNameChar (by simp [isNameChar, ha])
  · decide

/-! ## Reading back -/

def hashOption : List Char := ['-', '-', 'h', 'a', 's', 'h', '=']

/-- The text of a digest behind the other parts of a requirement. -/
def hashesChars (hashes : List String) : List Char :=
  hashes.flatMap fun hash => ' ' :: (hashOption ++ hash.toList)

theorem toList_renderHashes (hashes : List String) :
    (renderHashes hashes).toList = hashesChars hashes := by
  simp [renderHashes, hashesChars, hashOption, List.flatMap_map]

theorem isBlank_of_mem_hashOption_append {hash : List Char} (h : isHash hash = true) :
    ∀ c ∈ hashOption ++ hash, isBlank c = false := by
  intro c hc
  rcases List.mem_append.mp hc with hc | hc
  · have hall : hashOption.all (!isBlank ·) = true := by decide
    simpa using List.all_eq_true.mp hall c hc
  · exact isBlank_of_isHash h c hc

theorem mem_hashesChars {hashes : List String} (h : ∀ hash ∈ hashes, isHash hash.toList = true) :
    ∀ c ∈ hashesChars hashes, c = ' ' ∨ c.isAlphanum = true ∨ c ∈ [':', '-', '='] := by
  intro c hc
  obtain ⟨hash, hm, hc⟩ := List.mem_flatMap.mp hc
  rcases List.mem_cons.mp hc with rfl | hc
  · exact .inl rfl
  · rcases List.mem_append.mp hc with hc | hc
    · have hall : ∀ c ∈ hashOption, c.isAlphanum = true ∨ c ∈ [':', '-', '='] :=
        forall_mem_of_all (by decide)
      exact .inr (hall c hc)
    · rcases mem_of_isHash (h hash hm) c hc with hc | rfl
      · exact .inr (.inl hc)
      · exact .inr (.inr (by decide))

/-- Signs that no digest option is written with. -/
theorem not_mem_hashesChars {hashes : List String} (h : ∀ hash ∈ hashes, isHash hash.toList = true)
    {d : Char} (hs : d ≠ ' ') (ha : d.isAlphanum = false) (hd : d ∉ [':', '-', '=']) :
    d ∉ hashesChars hashes := by
  intro hm
  rcases mem_hashesChars h d hm with rfl | hm | hm
  · exact hs rfl
  · rw [ha] at hm
    cases hm
  · exact hd hm

theorem bareEnd_append_hashesChars {cs : List Char} {hashes : List String}
    (h : ∀ hash ∈ hashes, isHash hash.toList = true) (he : BareEnd cs) :
    BareEnd (cs ++ hashesChars hashes) := by
  rcases List.eq_nil_or_concat hashes with rfl | ⟨hashes, hash, rfl⟩
  · rwa [show hashesChars [] = [] from rfl, List.append_nil]
  · have hh := h hash (by simp)
    have hb : BareEnd hash.toList := bareEnd_of_forall (isBlank_of_isHash hh)
    have hc : hashesChars (hashes ++ [hash]) =
        hashesChars hashes ++ ' ' :: hashOption ++ hash.toList := by
      simp [hashesChars]
    rw [List.concat_eq_append, hc, ← List.append_assoc]
    exact hb.append (ne_nil_of_isHash hh)

theorem readHash_of_isHash {hash : String} (h : isHash hash.toList = true) :
    readHash hash.toList = .ok hash := by
  unfold readHash
  rw [if_pos h, String.ofList_toList]

theorem readHashes_cons {hash : String} (h : isHash hash.toList = true)
    (rest : List (List Char)) :
    readHashes ((hashOption ++ hash.toList) :: rest) = (readHashes rest).map (hash :: ·) := by
  have hp : hashOption.isPrefixOf? (hashOption ++ hash.toList) = some hash.toList :=
    isPrefixOf?_eq_some_iff.mpr rfl
  rw [readHashes.eq_def]
  dsimp only
  rw [show "--hash=".toList = hashOption from rfl, hp]
  dsimp only
  rw [readHash_of_isHash h]
  rfl

/-! ## What is read -/

theorem readHash_eq_ok {cs : List Char} {hash : String} (h : readHash cs = .ok hash) :
    isHash hash.toList = true := by
  unfold readHash at h
  split at h
  · rename_i hc
    cases h
    rwa [String.toList_ofList]
  · cases h

theorem isHash_of_readHash_cons {digest : List Char} {rest : Except LineError (List String)}
    {hashes : List String} (h : (do return (← readHash digest) :: (← rest)) = .ok hashes)
    (ih : ∀ hs, rest = .ok hs → ∀ hash ∈ hs, isHash hash.toList = true) :
    ∀ hash ∈ hashes, isHash hash.toList = true := by
  obtain ⟨hash, hd, h⟩ := bind_eq_ok_iff.mp h
  obtain ⟨hs, hr, h⟩ := bind_eq_ok_iff.mp h
  cases h
  exact List.forall_mem_cons.mpr ⟨readHash_eq_ok hd, ih hs hr⟩

theorem readHashes_eq_ok {ws : List (List Char)} {hashes : List String}
    (h : readHashes ws = .ok hashes) : ∀ hash ∈ hashes, isHash hash.toList = true := by
  fun_induction readHashes ws generalizing hashes with
  | case1 => cases h; simp
  | case2 word rest digest hp ih => exact isHash_of_readHash_cons h fun hs hr => ih hr
  | case3 => cases h
  | case4 digest rest hp ih => exact isHash_of_readHash_cons h fun hs hr => ih hr
  | case5 => cases h

end PinFile.Requirement
