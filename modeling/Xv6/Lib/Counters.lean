import Mathlib.Data.BitVec
import Mathlib.Logic.Function.Basic
import Mathlib.Tactic.Common

/-!
# Queues with free-running counters

A queue in an array of `N` places with two counters of `w` bits that are only incremented and may wrap:
`head` counts what has been taken out, `tail` what has been put in, and both are used modulo `N`.  If `N`
divides `2 ^ w` the places do not jump when a counter wraps, and the queue is first in, first out.
-/

namespace Xv6.Lib.Counters

open List

structure Queue (α : Type*) (w : ℕ) where
  data : ℕ → α
  head : BitVec w
  tail : BitVec w

variable {α : Type*} {w : ℕ} (N : ℕ) (q : Queue α w)

def Queue.count : ℕ := (q.tail - q.head).toNat

def Queue.contents : List α := (List.range q.count).map fun k => q.data ((q.head.toNat + k) % N)

def Queue.push (x : α) : Queue α w :=
  { q with data := Function.update q.data (q.tail.toNat % N) x, tail := q.tail + 1 }

def Queue.front : α := q.data (q.head.toNat % N)

def Queue.pop : Queue α w := { q with head := q.head + 1 }

def Queue.last : α := q.data ((q.tail - 1).toNat % N)

def Queue.back : Queue α w := { q with tail := q.tail - 1 }

variable {N} {q}

theorem count_eq_zero : q.count = 0 ↔ q.head = q.tail := by
  unfold Queue.count
  constructor
  · intro h
    have h0 : q.tail - q.head = 0 := BitVec.eq_of_toNat_eq (by rw [h]; rfl)
    exact (sub_eq_zero.mp h0).symm
  · intro h; rw [h, sub_self]; rfl

theorem contents_eq_nil (h : q.head = q.tail) : q.contents N = [] := by
  unfold Queue.contents
  rw [count_eq_zero.mpr h]; rfl

theorem length_contents : (q.contents N).length = q.count := by
  unfold Queue.contents
  rw [length_map, length_range]

theorem tail_toNat : q.tail.toNat = (q.head.toNat + q.count) % 2 ^ w := by
  unfold Queue.count
  rw [← BitVec.toNat_add, add_sub_cancel]

theorem count_push (x : α) (h : q.count + 1 < 2 ^ w) : (q.push N x).count = q.count + 1 := by
  have hw : 0 < w := by
    by_contra hw
    obtain rfl : w = 0 := by omega
    omega
  have he : q.tail + 1 - q.head = q.tail - q.head + 1 := add_sub_right_comm _ _ _
  have h1 : (1 : BitVec w).toNat = 1 := BitVec.toNat_one hw
  show (q.tail + 1 - q.head).toNat = (q.tail - q.head).toNat + 1
  rw [he, BitVec.toNat_add, h1]; exact Nat.mod_eq_of_lt h

theorem toNat_one_of_count (h : 0 < q.count) : (1 : BitVec w).toNat = 1 := by
  refine BitVec.toNat_one ?_
  by_contra hw
  obtain rfl : w = 0 := by omega
  unfold Queue.count at h; omega

theorem count_pop (h : 0 < q.count) : q.pop.count = q.count - 1 := by
  have he : q.tail - (q.head + 1) = q.tail - q.head - 1 := (sub_sub _ _ _).symm
  have h1 := toNat_one_of_count h
  have hle : (1 : BitVec w) ≤ q.tail - q.head := by rw [BitVec.le_def, h1]; exact h
  show (q.tail - (q.head + 1)).toNat = (q.tail - q.head).toNat - 1
  rw [he, BitVec.toNat_sub_of_le hle, h1]

variable (hd : N ∣ 2 ^ w) (h : q.count < N)
include hd h

/-- **An element is put in** at the end. -/
theorem contents_push (x : α) (hN : N < 2 ^ w) : (q.push N x).contents N = q.contents N ++ [x] := by
  have hc : (q.push N x).count = q.count + 1 := count_push x (by omega)
  have htail : q.tail.toNat % N = (q.head.toNat + q.count) % N := by
    rw [tail_toNat, Nat.mod_mod_of_dvd _ hd]
  have hget : ∀ k, (q.push N x).data ((q.head.toNat + k) % N) =
      if (q.head.toNat + k) % N = (q.head.toNat + q.count) % N then x
      else q.data ((q.head.toNat + k) % N) := by
    intro k
    show Function.update q.data (q.tail.toNat % N) x _ = _
    rw [htail, Function.update_apply]
  unfold Queue.contents
  rw [hc, range_succ, map_append]
  congr 1
  · refine map_congr_left fun k hk => ?_
    have hk := mem_range.mp hk
    refine (hget k).trans (if_neg fun he => ?_)
    -- two places less than `N` apart are different
    have hmod := Nat.ModEq.add_left_cancel' q.head.toNat he
    have := hmod.eq_of_lt_of_lt (by omega) h; omega
  · refine congrArg (fun y => [y]) ?_
    exact (hget q.count).trans (if_pos rfl)

omit hd h

/-- **The first element is taken out.** -/
theorem contents_pop (hd : N ∣ 2 ^ w) (hpos : 0 < q.count) : q.contents N = q.front N :: q.pop.contents N := by
  have h1 := toNat_one_of_count hpos
  obtain ⟨m, hm⟩ : ∃ m, q.count = m + 1 := ⟨q.count - 1, by omega⟩
  have hpop : q.pop.count = m := by rw [count_pop hpos, hm, Nat.add_sub_cancel]
  unfold Queue.contents
  rw [hm, hpop, range_succ_eq_map, map_cons, map_map]
  refine congrArg₂ _ (by rw [Nat.add_zero]; rfl) (map_congr_left fun k _ => ?_)
  have hplace : ((q.head + 1).toNat + k) % N = (q.head.toNat + (k + 1)) % N := by
    rw [BitVec.toNat_add, Nat.add_mod, Nat.mod_mod_of_dvd _ hd, ← Nat.add_mod]
    congr 1; omega
  show q.data ((q.head.toNat + (k + 1)) % N) = q.data (((q.head + 1).toNat + k) % N)
  rw [hplace]

theorem count_back (h : 0 < q.count) : q.back.count = q.count - 1 := by
  have he : q.tail - 1 - q.head = q.tail - q.head - 1 := sub_right_comm _ _ _
  have h1 := toNat_one_of_count h
  have hle : (1 : BitVec w) ≤ q.tail - q.head := by rw [BitVec.le_def, h1]; exact h
  show (q.tail - 1 - q.head).toNat = (q.tail - q.head).toNat - 1
  rw [he, BitVec.toNat_sub_of_le hle, h1]

/-- **The last element is taken back.** -/
theorem contents_back (hd : N ∣ 2 ^ w) (hpos : 0 < q.count) : q.contents N = q.back.contents N ++ [q.last N] := by
  obtain ⟨m, hm⟩ : ∃ m, q.count = m + 1 := ⟨q.count - 1, by omega⟩
  have hback : q.back.count = m := by rw [count_back hpos, hm, Nat.add_sub_cancel]
  have htail : (q.tail - 1).toNat % N = (q.head.toNat + m) % N := by
    have := tail_toNat (q := q.back)
    rw [hback] at this
    rw [show (q.tail - 1).toNat = _ from this, Nat.mod_mod_of_dvd _ hd]; rfl
  unfold Queue.contents Queue.last
  rw [hm, hback, range_succ, map_append, htail]; rfl

end Xv6.Lib.Counters
