import Mathlib.Algebra.BigOperators.Group.Finset.Basic
import Mathlib.Data.Fintype.BigOperators
import Mathlib.Tactic.Common

/-!
# Counting references

Places `i : ι` hold a reference to an object, or none.  `refs h a` is how many places refer to `a`.  It
changes by one when a place takes a reference or gives one up, and the references to all objects together
are as many as the places that hold one.
-/

namespace Xv6.Lib.RefCount

open Finset Function

variable {ι α : Type*} [Fintype ι] [DecidableEq ι] [DecidableEq α] {h : ι → Option α} {i : ι} {a b : α}

def refs (h : ι → Option α) (a : α) : ℕ := (Finset.univ.filter fun i => h i = some a).card

omit [DecidableEq ι] in
theorem refs_pos : 0 < refs h a ↔ ∃ i, h i = some a := by
  unfold refs
  rw [card_pos]
  constructor
  · rintro ⟨i, hi⟩; exact ⟨i, (mem_filter.mp hi).2⟩
  · rintro ⟨i, hi⟩; exact ⟨i, mem_filter.mpr ⟨mem_univ i, hi⟩⟩

omit [DecidableEq ι] in
theorem refs_eq_zero : refs h a = 0 ↔ ∀ i, h i ≠ some a := by
  constructor
  · intro h0 i hi; have hpos := refs_pos.mpr ⟨i, hi⟩; omega
  · intro hno
    by_contra h0
    obtain ⟨i, hi⟩ := refs_pos.mp (Nat.pos_of_ne_zero h0); exact hno i hi

theorem refs_take (hi : h i = none) (b : α) : refs (update h i (some a)) b = refs h b + if b = a then 1 else 0 := by
  unfold refs
  by_cases hb : b = a
  · have hset : (Finset.univ.filter fun j => update h i (some a) j = some b) =
        insert i (Finset.univ.filter fun j => h j = some b) := by
      ext j
      by_cases hj : j = i
      · simp [hj, hb]
      · simp [hj]
    rw [hset, card_insert_of_notMem (by simp [hi]), if_pos hb]
  · have hset : (Finset.univ.filter fun j => update h i (some a) j = some b) =
        Finset.univ.filter fun j => h j = some b := by
      ext j
      by_cases hj : j = i
      · simp [hj, hi, Ne.symm hb]
      · simp [update_of_ne hj]
    rw [hset, if_neg hb, Nat.add_zero]

theorem refs_drop (hi : h i = some a) (b : α) : refs h b = refs (update h i none) b + if b = a then 1 else 0 := by
  have hback : update (update h i none) i (some a) = h := by rw [update_idem, ← hi, update_eq_self]
  have ht := refs_take (h := update h i none) (a := a) (update_self i none h) b
  rw [hback] at ht; exact ht

theorem sum_refs [Fintype α] : ∑ a, refs h a = (Finset.univ.filter fun i => (h i).isSome).card := by
  unfold refs
  rw [← card_biUnion]
  · congr 1
    ext i
    rw [mem_biUnion, mem_filter, Option.isSome_iff_exists]
    constructor
    · rintro ⟨a, -, ha⟩; exact ⟨mem_univ i, a, (mem_filter.mp ha).2⟩
    · rintro ⟨hi, a, ha⟩; exact ⟨a, mem_univ a, mem_filter.mpr ⟨hi, ha⟩⟩
  · intro a _ b _ hab
    refine disjoint_left.mpr fun i hia hib => ?_
    have ha := (mem_filter.mp hia).2
    have hb := (mem_filter.mp hib).2
    exact hab (Option.some.inj (ha.symm.trans hb))

end Xv6.Lib.RefCount
