import Mathlib.Data.List.Basic
import Mathlib.Data.List.Nodup
import Mathlib.Logic.Function.Basic
import Mathlib.Tactic.Common
import Mathlib.Tactic.Ring

/-!
# Prefixes of arrays, and the loops that edit them in place

An array is a function `a : ℕ → α`; the part in use is `seg a n = [a 0, …, a (n-1)]`.  Two loops edit
such a prefix in place, and both are list operations on it:

* `shiftDown a i m`: `m` rounds of `a[j] = a[j+1]` from `j = i`, which drop the entry `i`
  (`seg_shiftDown`);
* `squeeze keep a j i m`: `m` rounds of `if (keep a[i]) a[j++] = a[i]`, which drop the entries that
  fail `keep` (`seg_squeeze`).

`firstIdx a n x` is the search loop for the first entry equal to `x`; dropping what it finds is
`List.erase` (`seg_dropFirst`).
-/

namespace Xv6.Lib.Arrays

open List Function

variable {α : Type*}

def seg (a : ℕ → α) (n : ℕ) : List α := (List.range n).map a

@[simp] theorem length_seg (a : ℕ → α) (n : ℕ) : (seg a n).length = n := by simp [seg]

@[simp] theorem seg_zero (a : ℕ → α) : seg a 0 = [] := rfl

theorem seg_succ (a : ℕ → α) (n : ℕ) : seg a (n + 1) = seg a n ++ [a n] := by
  simp [seg, range_succ]

@[simp] theorem getElem_seg (a : ℕ → α) (n i : ℕ) (h : i < (seg a n).length) : (seg a n)[i] = a i := by
  simp [seg]

variable {a : ℕ → α} {n : ℕ} {x : α}

theorem mem_seg : x ∈ seg a n ↔ ∃ i < n, a i = x := by
  simp [seg]

theorem seg_congr {b : ℕ → α} (h : ∀ i < n, a i = b i) : seg a n = seg b n :=
  map_congr_left fun i hi => h i (mem_range.mp hi)

theorem seg_update_of_le (a : ℕ → α) {j : ℕ} (h : n ≤ j) (x : α) : seg (update a j x) n = seg a n :=
  seg_congr fun i hi => update_of_ne (by omega) _ _

theorem seg_push (a : ℕ → α) (n : ℕ) (x : α) : seg (update a n x) (n + 1) = seg a n ++ [x] := by
  rw [seg_succ, seg_update_of_le a le_rfl, update_self]

/-! ## Dropping one entry -/

/-- `m` rounds of `a[j] = a[j+1]`, `j` counting up from the given start. -/
def shiftDown (a : ℕ → α) : ℕ → ℕ → ℕ → α
  | _, 0 => a
  | j, m + 1 => shiftDown (update a j (a (j + 1))) (j + 1) m

theorem shiftDown_apply (m : ℕ) : ∀ (a : ℕ → α) (j x : ℕ),
    shiftDown a j m x = if j ≤ x ∧ x < j + m then a (x + 1) else a x := by
  induction m with
  | zero => intro a j x; rw [if_neg (by omega)]; rfl
  | succ m ih =>
    intro a j x
    rw [shiftDown, ih]
    by_cases h1 : j + 1 ≤ x ∧ x < j + 1 + m
    · rw [if_pos h1, if_pos (by omega), update_of_ne (by omega)]
    · rw [if_neg h1]
      by_cases hx : x = j
      · subst hx
        rw [update_self, if_pos (by omega)]
      · rw [update_of_ne hx, if_neg (by omega)]

variable {i : ℕ}

theorem seg_shiftDown (a : ℕ → α) (h : i < n) : seg (shiftDown a i (n - 1 - i)) (n - 1) = (seg a n).eraseIdx i := by
  refine ext_getElem ?_ fun k h1 h2 => ?_
  · rw [length_eraseIdx_of_lt (by simpa using h)]; simp
  · rw [getElem_seg, shiftDown_apply, getElem_eraseIdx]
    rw [length_seg] at h1
    by_cases hk : k < i
    · rw [if_neg (by omega), dif_pos hk, getElem_seg]
    · rw [if_pos (by omega), dif_neg hk, getElem_seg]

section search
variable [BEq α] [LawfulBEq α]

/-- The search loop for the first entry equal to `x`. -/
def firstIdx (a : ℕ → α) (n : ℕ) (x : α) : Option ℕ := (List.range n).find? fun i => a i == x

theorem firstIdx_some (h : firstIdx a n x = some i) : i < n ∧ a i = x ∧ (seg a n).idxOf x = i := by
  rw [firstIdx, List.find?_range_eq_some] at h
  obtain ⟨h1, h2, h3⟩ := h
  rw [mem_range] at h2
  simp only [beq_iff_eq] at h1
  refine ⟨h2, h1, ?_⟩
  rw [List.idxOf, findIdx_eq (by simpa using h2)]
  refine ⟨by simpa using h1, fun j hj => ?_⟩
  have hne := h3 j hj; simpa using hne

theorem firstIdx_none : firstIdx a n x = none ↔ x ∉ seg a n := by
  simp [firstIdx, mem_seg]

/-- Search for `x`, and if it is there shift the entries behind it down; the new prefix length comes
with the array. -/
def dropFirst (a : ℕ → α) (n : ℕ) (x : α) : (ℕ → α) × ℕ :=
  match firstIdx a n x with
  | some i => (shiftDown a i (n - 1 - i), n - 1)
  | none => (a, n)

theorem seg_dropFirst (a : ℕ → α) (n : ℕ) (x : α) :
    seg (dropFirst a n x).1 (dropFirst a n x).2 = (seg a n).erase x := by
  unfold dropFirst
  cases h : firstIdx a n x with
  | none => simp only; rw [erase_of_not_mem (firstIdx_none.mp h)]
  | some i =>
    obtain ⟨hi, -, hidx⟩ := firstIdx_some h
    rw [seg_shiftDown a hi, erase_eq_eraseIdx_of_idxOf hidx]

theorem dropFirst_snd (a : ℕ → α) (n : ℕ) (x : α) : (dropFirst a n x).2 = ((seg a n).erase x).length := by
  rw [← seg_dropFirst, length_seg]

end search

/-- `m` rounds of `if (keep a[i]) a[j++] = a[i]`, `i` counting up; the final `j` comes with the
array. -/
def squeeze (keep : α → Bool) (a : ℕ → α) : ℕ → ℕ → ℕ → (ℕ → α) × ℕ
  | j, _, 0 => (a, j)
  | j, i, m + 1 =>
    if keep (a i) then squeeze keep (update a j (a i)) (j + 1) (i + 1) m
    else squeeze keep a j (i + 1) m

theorem seg_squeeze_aux (keep : α → Bool) (m : ℕ) : ∀ (a : ℕ → α) (j i : ℕ), j ≤ i →
    seg (squeeze keep a j i m).1 (squeeze keep a j i m).2 = seg a j ++ ((List.range' i m).map a).filter keep := by
  induction m with
  | zero => intro a j i _; simp [squeeze]
  | succ m ih =>
    intro a j i hji
    have hrest : (List.range' (i + 1) m).map (update a j (a i)) = (List.range' (i + 1) m).map a := by
      refine map_congr_left fun k hk => ?_
      rw [mem_range'_1] at hk; exact update_of_ne (by omega) _ _
    rw [range'_succ, map_cons]
    by_cases hk : keep (a i)
    · rw [squeeze, if_pos hk, ih _ _ _ (by omega), seg_push, hrest,
        filter_cons_of_pos hk, append_assoc, singleton_append]
    · rw [squeeze, if_neg hk, ih _ _ _ (by omega), filter_cons_of_neg hk]

/-- **The squeezing loop filters.** -/
theorem seg_squeeze (keep : α → Bool) (a : ℕ → α) (n : ℕ) :
    seg (squeeze keep a 0 0 n).1 (squeeze keep a 0 0 n).2 = (seg a n).filter keep := by
  rw [seg_squeeze_aux keep n a 0 0 le_rfl]; simp [seg, range_eq_range']

/-- Overwriting one entry of a prefix whose other entries pass by one that fails, and squeezing,
drops that entry. -/
theorem seg_squeeze_update (keep : α → Bool) (a : ℕ → α) (hi : i < n)
    (hx : keep x = false) (hall : ∀ k < n, keep (a k) = true) : seg (squeeze keep (update a i x) 0 0 n).1
        (squeeze keep (update a i x) 0 0 n).2 = (seg a n).eraseIdx i := by
  rw [seg_squeeze]
  have hset : seg (update a i x) n = (seg a n).set i x := by
    refine ext_getElem (by simp) fun k h1 h2 => ?_
    rw [getElem_seg, getElem_set]
    by_cases hk : i = k
    · subst hk; simp
    · rw [update_of_ne (Ne.symm hk), if_neg hk, getElem_seg]
  have hkeep : ∀ y ∈ seg a n, keep y = true := by
    intro y hy
    obtain ⟨k, hk, rfl⟩ := mem_seg.mp hy; exact hall k hk
  rw [hset, set_eq_take_append_cons_drop, if_pos (by simpa using hi), filter_append,
    filter_cons_of_neg (by simp [hx]), eraseIdx_eq_take_drop_succ,
    filter_eq_self.mpr fun y hy => hkeep y (mem_of_mem_take hy),
    filter_eq_self.mpr fun y hy => hkeep y (mem_of_mem_drop hy)]

end Xv6.Lib.Arrays
