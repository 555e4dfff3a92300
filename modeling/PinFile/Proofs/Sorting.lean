import Mathlib.Data.List.Perm.Basic
import Mathlib.Order.Basic

/-!
# Stable sorting

`mergeSort` puts the first item of a list in front of the first one that it is not after
(`mergeSort_cons_eq`). So dropping items before or after sorting comes to the same, also where
several items are equal for the order (`filter_mergeSort`), and such items keep the order that they
had (`pairwise_mergeSort_stable`). What is sorted by a key is determined by the items of each key
(`eq_of_filter_key_eq`).
-/

namespace PinFile

variable {α β : Type} {le : α → α → Bool}

/-- What corresponds to the items of a list can follow them into another order. -/
theorem exists_forall₂_perm {R : β → α → Prop} {xs : List β} {ys ys' : List α}
    (h : List.Forall₂ R xs ys) (hp : ys.Perm ys') : ∃ zs, xs.Perm zs ∧ List.Forall₂ R zs ys' := by
  have hcomp : Relation.Comp (List.Forall₂ R) List.Perm xs ys' := ⟨ys, h, hp⟩
  rw [List.forall₂_comp_perm_eq_perm_comp_forall₂] at hcomp
  exact hcomp

/-- A list whose items correspond to those of another one can be put into their order. -/
theorem exists_forall₂_mergeSort {R : β → α → Prop} {xs : List β} {ys : List α}
    (h : List.Forall₂ R xs ys) (le : α → α → Bool) :
    ∃ zs, xs.Perm zs ∧ List.Forall₂ R zs (ys.mergeSort le) :=
  exists_forall₂_perm h (List.mergeSort_perm ys le).symm

section

variable (trans : ∀ a b c, le a b = true → le b c = true → le a c = true)
  (total : ∀ a b, (le a b || le b a) = true)

include trans total

theorem mergeSort_cons_eq (x : α) (xs : List α) : (x :: xs).mergeSort le =
    (xs.mergeSort le).filter (!le x ·) ++ x :: (xs.mergeSort le).filter (le x ·) := by
  obtain ⟨before, after, hcons, hxs, hbefore⟩ := List.mergeSort_cons trans total x xs
  have hsorted := List.pairwise_mergeSort trans total (x :: xs)
  rw [hcons] at hsorted
  have hafter : ∀ y ∈ after, le x y = true :=
    (List.pairwise_cons.mp (List.pairwise_append.mp hsorted).2.1).1
  rw [hcons, hxs, List.filter_append, List.filter_append,
    List.filter_eq_self.mpr hbefore, List.filter_eq_self.mpr hafter,
    List.filter_eq_nil_iff.mpr fun y hy => by simp [hafter y hy],
    List.filter_eq_nil_iff.mpr fun y hy => by simpa using hbefore y hy,
    List.append_nil, List.nil_append]

/-- Dropping items and sorting commute. -/
theorem filter_mergeSort (p : α → Bool) (xs : List α) :
    (xs.mergeSort le).filter p = (xs.filter p).mergeSort le := by
  induction xs with
  | nil => simp
  | cons x xs ih =>
    cases hx : p x with
    | true =>
      have hcomm (q : α → Bool) : ((xs.mergeSort le).filter q).filter p =
          ((xs.filter p).mergeSort le).filter q := by
        rw [List.filter_comm, ih]
      rw [mergeSort_cons_eq trans total, List.filter_append, List.filter_cons_of_pos hx,
        List.filter_cons_of_pos hx, mergeSort_cons_eq trans total, hcomm, hcomm]
    | false =>
      have hnot : ¬ p x = true := by simp [hx]
      obtain ⟨before, after, hcons, hxs, -⟩ := List.mergeSort_cons trans total x xs
      rw [hcons, List.filter_append, List.filter_cons_of_neg hnot, List.filter_cons_of_neg hnot,
        ← List.filter_append, ← hxs, ih]

/-- Items that are equal for the order keep the order that they had. -/
theorem pairwise_mergeSort_stable {R : α → α → Prop} {xs : List α} (h : xs.Pairwise R) :
    (xs.mergeSort le).Pairwise fun a b => le a b = true ∧ (le b a = true → R a b) := by
  induction xs with
  | nil => simp
  | cons x xs ih =>
    obtain ⟨hx, hxs⟩ := List.pairwise_cons.mp h
    have hsorted := ih hxs
    rw [mergeSort_cons_eq trans total]
    refine List.pairwise_append.mpr ⟨hsorted.filter _, List.pairwise_cons.mpr
      ⟨fun a ha => ?_, hsorted.filter _⟩, fun b hb a ha => ?_⟩
    · obtain ⟨ha, hxa⟩ := List.mem_filter.mp ha
      exact ⟨hxa, fun _ => hx a (List.mem_mergeSort.mp ha)⟩
    · -- what stands in front of `x` is not equal to it, and less so to what follows
      have hb := (List.mem_filter.mp hb).2
      rw [Bool.not_eq_true'] at hb
      have hbx : le b x = true := by simpa [hb] using total x b
      have hxa : le x a = true := by
        rcases List.mem_cons.mp ha with rfl | ha
        · simpa using total a a
        · exact (List.mem_filter.mp ha).2
      refine ⟨trans _ _ _ hbx hxa, fun hab => ?_⟩
      rw [trans _ _ _ hxa hab] at hb
      cases hb

end

/-- Lists in the order of their keys are equal when they have the same items of each key. -/
theorem eq_of_filter_key_eq {κ : Type} [PartialOrder κ] [BEq κ] [LawfulBEq κ] {key : α → κ}
    {xs ys : List α} (hsorted : xs.Pairwise (key · ≤ key ·))
    (hsorted' : ys.Pairwise (key · ≤ key ·))
    (h : ∀ k, xs.filter (key · == k) = ys.filter (key · == k)) : xs = ys := by
  induction xs generalizing ys with
  | nil =>
    refine (List.eq_nil_iff_forall_not_mem.mpr fun y hy => ?_).symm
    have hmem : y ∈ ys.filter (key · == key y) := List.mem_filter.mpr ⟨hy, by simp⟩
    rw [← h] at hmem
    cases hmem
  | cons x xs ih =>
    have hmem (a : α) : a ∈ x :: xs ↔ a ∈ ys := by
      have ha := congrArg (a ∈ ·) (h (key a))
      simpa using ha
    obtain ⟨hx, hxs⟩ := List.pairwise_cons.mp hsorted
    cases ys with
    | nil => cases (hmem x).mp List.mem_cons_self
    | cons y ys =>
      obtain ⟨hy, hys⟩ := List.pairwise_cons.mp hsorted'
      -- both lists begin with their least key
      have hle : key x ≤ key y := by
        rcases List.mem_cons.mp ((hmem y).mpr List.mem_cons_self) with rfl | hm
        · exact le_rfl
        · exact hx y hm
      have hge : key y ≤ key x := by
        rcases List.mem_cons.mp ((hmem x).mp List.mem_cons_self) with rfl | hm
        · exact le_rfl
        · exact hy x hm
      have hkey : key y = key x := le_antisymm hge hle
      have hfirst := h (key x)
      rw [List.filter_cons_of_pos (by simp), List.filter_cons_of_pos (by simp [hkey])] at hfirst
      obtain rfl := (List.cons.inj hfirst).1
      refine congrArg (x :: ·) (ih hxs hys fun k => ?_)
      have hrest := h k
      rw [List.filter_cons, List.filter_cons] at hrest
      split at hrest
      · exact (List.cons.inj hrest).2
      · exact hrest

end PinFile
