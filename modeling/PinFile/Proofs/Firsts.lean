import Mathlib.Data.List.Forall2
import Mathlib.Data.List.Induction
import PinFile.Proofs.Distinct
import PinFile.Proofs.Sorting

/-!
# First items

Of the items of a list with one key, the first one is found by its place. A list holds the first
items of another one when their places are exactly these, in a given order (`ListsFirsts`), and
where that order is asymmetric there is only one such list (`ListsFirsts.unique`). A walk through a
list that keeps what has a new key lists the first items in the order of the list
(`listsFirsts_of_concat`), and sorting puts them into the order of their sorted places
(`ListsFirsts.mergeSort`).
-/

namespace PinFile

variable {α κ : Type} {key : α → κ} {before : Nat → Nat → Prop} {xs ys ys' : List α} {i : Nat}

/-- The item at a place is the first one with its key. -/
def IsFirst (key : α → κ) (xs : List α) (i : Nat) : Prop :=
  ∃ x, xs[i]? = some x ∧ ∀ j < i, ∀ y, xs[j]? = some y → key y ≠ key x

/-- The places hold the items of a list. -/
def HoldAt (xs : List α) (places : List Nat) (ys : List α) : Prop :=
  List.Forall₂ (fun i y => xs[i]? = some y) places ys

/-- The first item of each key of `xs`, in an order of their places. -/
def ListsFirsts (key : α → κ) (before : Nat → Nat → Prop) (xs ys : List α) : Prop :=
  ∃ places : List Nat, (∀ i, i ∈ places ↔ IsFirst key xs i) ∧ places.Pairwise before ∧
    HoldAt xs places ys

theorem HoldAt.unique {places : List Nat} (h : HoldAt xs places ys) (h' : HoldAt xs places ys') :
    ys = ys' := by
  refine Relator.RightUnique.forall₂ (fun i a b ha hb => ?_) h h'
  exact Option.some.inj (ha.symm.trans hb)

theorem ListsFirsts.unique (hbefore : ∀ i j, before i j → ¬ before j i)
    (h : ListsFirsts key before xs ys) (h' : ListsFirsts key before xs ys') : ys = ys' := by
  obtain ⟨places, hfirst, hsorted, hold⟩ := h
  obtain ⟨places', hfirst', hsorted', hold'⟩ := h'
  have hne {i j : Nat} (hij : before i j) : i ≠ j := by
    rintro rfl
    exact hbefore i i hij hij
  have hperm : places.Perm places' :=
    (List.perm_ext_iff_of_nodup (hsorted.imp hne) (hsorted'.imp hne)).mpr
      fun i => (hfirst i).trans (hfirst' i).symm
  have hplaces : places = places' :=
    hperm.eq_of_pairwise (fun i j _ _ hij hji => absurd hji (hbefore i j hij)) hsorted hsorted'
  exact hold.unique (hplaces ▸ hold')

/-! ## In the order of the list -/

theorem lt_length_of_isFirst (h : IsFirst key xs i) : i < xs.length := by
  obtain ⟨x, hx, -⟩ := h
  exact (List.getElem?_eq_some_iff.mp hx).1

/-- A further item is a first one when no item in front has its key. -/
theorem isFirst_concat {x : α} : IsFirst key (xs ++ [x]) i ↔
    IsFirst key xs i ∨ i = xs.length ∧ key x ∉ xs.map key := by
  rcases Nat.lt_trichotomy i xs.length with hi | rfl | hi
  · have hfront {j : Nat} (hj : j ≤ i) : (xs ++ [x])[j]? = xs[j]? :=
      List.getElem?_append_left (Nat.lt_of_le_of_lt hj hi)
    have hne : ¬ (i = xs.length ∧ key x ∉ xs.map key) := fun h => Nat.ne_of_lt hi h.1
    rw [or_iff_left hne]
    unfold IsFirst
    rw [hfront (Nat.le_refl i)]
    refine exists_congr fun a => and_congr_right fun _ => forall₂_congr fun j hj => ?_
    rw [hfront (Nat.le_of_lt hj)]
  · have hnot : ¬ IsFirst key xs xs.length := fun h => Nat.lt_irrefl _ (lt_length_of_isFirst h)
    have hlast : (xs ++ [x])[xs.length]? = some x := List.getElem?_concat_length
    rw [or_iff_right hnot, and_iff_right rfl]
    constructor
    · rintro ⟨a, ha, hfirst⟩ hmem
      cases hlast.symm.trans ha
      obtain ⟨y, hy, hk⟩ := List.mem_map.mp hmem
      obtain ⟨j, hj, rfl⟩ := List.getElem_of_mem hy
      refine hfirst j hj _ ?_ hk
      rw [List.getElem?_append_left hj, List.getElem?_eq_getElem hj]
    · intro hmem
      refine ⟨x, hlast, fun j hj y hy hk => hmem ?_⟩
      rw [List.getElem?_append_left hj] at hy
      exact List.mem_map.mpr ⟨y, List.mem_of_getElem? hy, hk⟩
  · refine iff_of_false (fun h => ?_) ?_
    · have hlt := lt_length_of_isFirst h
      rw [List.length_append, List.length_singleton] at hlt
      omega
    · rintro (h | h)
      · exact Nat.lt_asymm hi (lt_length_of_isFirst h)
      · exact Nat.ne_of_gt hi h.1

theorem HoldAt.append_right {places : List Nat} (h : HoldAt xs places ys) (zs : List α) :
    HoldAt (xs ++ zs) places ys :=
  h.imp fun _ _ hi => List.getElem?_append_left (List.getElem?_eq_some_iff.mp hi).1 ▸ hi

/-- A walk through a list that keeps each item with a new key lists the first items. -/
theorem listsFirsts_of_concat [BEq κ] [LawfulBEq κ] {walk : List α → List α} (hnil : walk [] = [])
    (hconcat : ∀ xs x, walk (xs ++ [x]) = walk xs ++ if key x ∈ xs.map key then [] else [x])
    (xs : List α) : ListsFirsts key (· < ·) xs (walk xs) := by
  induction xs using List.reverseRecOn with
  | nil =>
    rw [hnil]
    refine ⟨[], fun i => ?_, .nil, .nil⟩
    simp [IsFirst]
  | append_singleton xs x ih =>
    obtain ⟨places, hfirst, hsorted, hold⟩ := ih
    rw [hconcat]
    by_cases hx : key x ∈ xs.map key
    · rw [if_pos hx, List.append_nil]
      refine ⟨places, fun i => ?_, hsorted, hold.append_right [x]⟩
      rw [isFirst_concat, hfirst, or_iff_left fun h => h.2 hx]
    · rw [if_neg hx]
      refine ⟨places ++ [xs.length], fun i => ?_, ?_, ?_⟩
      · rw [isFirst_concat, List.mem_append, hfirst, List.mem_singleton, and_iff_left hx]
      · refine List.pairwise_append.mpr ⟨hsorted, List.pairwise_singleton _ _, fun i hi j hj => ?_⟩
        rw [List.mem_singleton.mp hj]
        exact lt_length_of_isFirst ((hfirst i).mp hi)
      · refine List.rel_append (hold.append_right [x]) (.cons ?_ .nil)
        exact List.getElem?_concat_length

theorem listsFirsts_eraseDups [BEq α] [LawfulBEq α] (xs : List α) :
    ListsFirsts (fun x => x) (· < ·) xs xs.eraseDups := by
  refine listsFirsts_of_concat rfl (fun xs x => ?_) xs
  rw [List.eraseDups_append, List.map_id']
  congr 1
  by_cases hx : x ∈ xs
  · rw [if_pos hx, List.removeAll, List.filter_cons_of_neg (by simpa using hx)]
    rfl
  · rw [if_neg hx, List.removeAll, List.filter_cons_of_pos (by simpa using hx)]
    rfl

/-! ## Sorted -/

section

variable {le : α → α → Bool} (trans : ∀ a b c, le a b = true → le b c = true → le a c = true)
  (total : ∀ a b, (le a b || le b a) = true)

include trans total

/-- Sorted items stand in the order of their places where they are equal for the order. -/
theorem ListsFirsts.mergeSort (h : ListsFirsts key (· < ·) xs ys) :
    ListsFirsts key (fun i j => ∃ x y, xs[i]? = some x ∧ xs[j]? = some y ∧
      le x y = true ∧ (le y x = true → i < j)) xs (ys.mergeSort le) := by
  obtain ⟨places, hfirst, hsorted, hold⟩ := h
  -- each item is sorted together with its place
  let pairs := places.zip ys
  have hlength : places.length = ys.length := hold.length_eq
  have hplaces : pairs.map Prod.fst = places := List.map_fst_zip (Nat.le_of_eq hlength)
  have hitems : pairs.map Prod.snd = ys := List.map_snd_zip (Nat.le_of_eq hlength.symm)
  have hpairs : ∀ p ∈ pairs, xs[p.1]? = some p.2 := fun p hp => (List.forall₂_iff_zip.mp hold).2 hp
  let sorted := pairs.mergeSort fun p q => le p.2 q.2
  have hmem : ∀ p, p ∈ sorted ↔ p ∈ pairs := fun p => List.mem_mergeSort
  have hys : sorted.map Prod.snd = ys.mergeSort le := by
    rw [← hitems]
    exact List.map_mergeSort fun _ _ _ _ => rfl
  refine ⟨sorted.map Prod.fst, fun i => ?_, ?_, ?_⟩
  · rw [← hfirst, ← hplaces]
    exact ((List.mergeSort_perm _ _).map _).mem_iff
  · have hstable : sorted.Pairwise fun p q => le p.2 q.2 = true ∧ (le q.2 p.2 = true → p.1 < q.1) :=
      pairwise_mergeSort_stable (fun a b c => trans a.2 b.2 c.2) (fun a b => total a.2 b.2)
        (List.pairwise_map.mp (hplaces ▸ hsorted))
    refine List.pairwise_map.mpr (hstable.imp_of_mem fun {p q} hp hq hpq => ?_)
    exact ⟨p.2, q.2, hpairs p ((hmem p).mp hp), hpairs q ((hmem q).mp hq), hpq⟩
  · rw [← hys, HoldAt, List.forall₂_map_left_iff, List.forall₂_map_right_iff,
      List.forall₂_same]
    exact fun p hp => hpairs p ((hmem p).mp hp)

end

end PinFile
