import Mathlib.Algebra.BigOperators.Group.Multiset.Basic
import Mathlib.Data.List.Perm.Subperm
import Mathlib.Data.List.Nodup
import Mathlib.Tactic.Common

/-!
# Finite tables

A `Table α` maps some numbers to values; no number has two entries.  `total f t` adds up what `f` makes of
the entries, so that it changes by one summand when an entry is made or removed.
-/

namespace Xv6.Lib.Tables

open List Option Prod

structure Table (α : Type) where
  entries : List (ℕ × α)
  nodup : (entries.map fst).Nodup

variable {α β : Type} {t : Table α} {k k' : ℕ} {v w : α} {l : List (ℕ × α)}

def Table.empty : Table α := ⟨[], List.nodup_nil⟩

def Table.get (t : Table α) (k : ℕ) : Option α := (t.entries.find? fun x => decide (x.1 = k)).map snd

theorem nodup_filter (t : Table α) (f : ℕ × α → Bool) : ((t.entries.filter f).map fst).Nodup :=
  t.nodup.sublist (filter_sublist.map fst)

def Table.erase (t : Table α) (k : ℕ) : Table α :=
  ⟨t.entries.filter fun x => decide (x.1 ≠ k), nodup_filter t _⟩

theorem fst_notMem_erase (t : Table α) (k : ℕ) : k ∉ (t.erase k).entries.map fst := by
  intro h
  obtain ⟨x, hx, rfl⟩ := mem_map.mp h
  have hne := (mem_filter.mp hx).2; exact of_decide_eq_true hne rfl

def Table.insert (t : Table α) (k : ℕ) (v : α) : Table α :=
  ⟨(k, v) :: (t.erase k).entries, List.nodup_cons.mpr ⟨fst_notMem_erase t k, (t.erase k).nodup⟩⟩

def Table.total (f : ℕ × α → Multiset β) (t : Table α) : Multiset β := (t.entries.map f).sum

theorem eq_of_mem (hn : (l.map fst).Nodup) (h1 : (k, v) ∈ l) (h2 : (k, w) ∈ l) : v = w := by
  have hinj := inj_on_of_nodup_map hn h1 h2 rfl; exact (mk.inj hinj).2

theorem get_eq_some : t.get k = some v ↔ (k, v) ∈ t.entries := by
  unfold Table.get
  rw [map_eq_some_iff]
  constructor
  · rintro ⟨x, hx, rfl⟩
    have hk := List.find?_some hx
    rw [← of_decide_eq_true hk]; exact mem_of_find?_eq_some hx
  · intro h
    cases hf : t.entries.find? fun x => decide (x.1 = k) with
    | none =>
      have hno := List.find?_eq_none.mp hf _ h
      exact absurd (decide_eq_true rfl) hno
    | some x =>
      have hk := List.find?_some hf
      have hx := mem_of_find?_eq_some hf
      rw [show x = (k, x.2) from Prod.ext (of_decide_eq_true hk) rfl] at hx
      exact ⟨x, rfl, eq_of_mem t.nodup hx h⟩

theorem get_erase_self : (t.erase k).get k = none := by
  refine eq_none_iff_forall_not_mem.mpr fun v hv => ?_
  have hmem := get_eq_some.mp (mem_def.mp hv)
  exact fst_notMem_erase t k (mem_map.mpr ⟨_, hmem, rfl⟩)

theorem get_erase_ne (h : k' ≠ k) : (t.erase k).get k' = t.get k' := by
  refine Option.ext fun v => ?_
  rw [get_eq_some, get_eq_some]
  unfold Table.erase
  rw [mem_filter]; exact ⟨fun hm => hm.1, fun hm => ⟨hm, decide_eq_true h⟩⟩

theorem get_insert_self : (t.insert k v).get k = some v := get_eq_some.mpr mem_cons_self

theorem get_insert_ne (h : k' ≠ k) : (t.insert k v).get k' = t.get k' := by
  rw [← get_erase_ne (t := t) h]
  refine Option.ext fun w => ?_
  rw [get_eq_some, get_eq_some]
  unfold Table.insert
  rw [mem_cons]
  refine ⟨fun hm => hm.resolve_left fun he => h (mk.inj he).1, .inr⟩

theorem get_insert_cases (h : (t.insert k v).get k' = some w) : k' = k ∧ w = v ∨ t.get k' = some w := by
  by_cases hk : k' = k
  · rw [hk, get_insert_self] at h; exact .inl ⟨hk, (some.inj h).symm⟩
  · rw [get_insert_ne hk] at h; exact .inr h

theorem isSome_insert {j : ℕ} (h : (t.get j).isSome = true) : ((t.insert k v).get j).isSome = true := by
  by_cases hj : j = k
  · rw [hj, get_insert_self]; rfl
  · rw [get_insert_ne hj]; exact h

theorem entries_eq_nil (h : ∀ k, t.get k = none) : t.entries = [] := by
  refine eq_nil_iff_forall_not_mem.mpr fun x hx => ?_
  have hsome : t.get x.1 = some x.2 := get_eq_some.mpr hx
  rw [h] at hsome; cases hsome

variable {f : ℕ × α → Multiset β} {n m : ℕ}

theorem total_empty : Table.empty.total f = 0 := rfl

theorem filter_ne_self (h : t.get k = none) : (t.erase k).entries = t.entries := by
  refine filter_eq_self.mpr fun x hx => decide_eq_true ?_
  rintro rfl
  have hsome : t.get x.1 = some x.2 := get_eq_some.mpr hx
  rw [h] at hsome; cases hsome

theorem total_insert (h : t.get k = none) : (t.insert k v).total f = f (k, v) + t.total f := by
  unfold Table.total Table.insert
  rw [map_cons, sum_cons, filter_ne_self h]

theorem sum_filter (hn : (l.map fst).Nodup) (h : (k, v) ∈ l) :
    (l.map f).sum = f (k, v) + ((l.filter fun x => decide (x.1 ≠ k)).map f).sum := by
  induction l with
  | nil => cases h
  | cons x l ih =>
    obtain ⟨hx, hn⟩ := nodup_cons.mp hn
    rcases mem_cons.mp h with rfl | h
    · have hrest : l.filter (fun x => decide (x.1 ≠ k)) = l := by
        refine filter_eq_self.mpr fun y hy => decide_eq_true ?_
        rintro rfl; exact hx (mem_map.mpr ⟨y, hy, rfl⟩)
      rw [filter_cons_of_neg (by simp), hrest, map_cons, sum_cons]
    · have hne : x.1 ≠ k := by rintro rfl; exact hx (mem_map.mpr ⟨_, h, rfl⟩)
      rw [filter_cons_of_pos (by simpa using hne), map_cons, map_cons, sum_cons,
        sum_cons, ih hn h, add_left_comm]

theorem total_erase (h : t.get k = some v) : t.total f = f (k, v) + (t.erase k).total f :=
  sum_filter t.nodup (get_eq_some.mp h)

/-- A table with the numbers below `n` has `n` entries below any larger bound. -/
theorem le_countP (h : ∀ k, k < n → (t.get k).isSome = true) (hm : n ≤ m) :
    n ≤ t.entries.countP fun x => decide (x.1 < m) := by
  have hsub : List.range n ⊆ (t.entries.filter fun x => decide (x.1 < m)).map fst := by
    intro k hk
    rw [mem_range] at hk
    obtain ⟨v, hv⟩ := isSome_iff_exists.mp (h k hk)
    refine mem_map.mpr ⟨(k, v), mem_filter.mpr ⟨get_eq_some.mp hv, decide_eq_true ?_⟩, rfl⟩
    exact Nat.lt_of_lt_of_le hk hm
  have hle := (subperm_of_subset nodup_range hsub).length_le
  rw [length_range, length_map] at hle
  rw [countP_eq_length_filter]; exact hle

theorem countP_eq (h : ∀ k, k < m → ((t.get k).isSome = true ↔ k < n)) (hm : n ≤ m) :
    (t.entries.countP fun x => decide (x.1 < m)) = n := by
  refine le_antisymm ?_ (le_countP (fun k hk => (h k (Nat.lt_of_lt_of_le hk hm)).mpr hk) hm)
  have hsub : (t.entries.filter fun x => decide (x.1 < m)).map fst ⊆ List.range n := by
    intro k hk
    obtain ⟨x, hx, rfl⟩ := mem_map.mp hk
    obtain ⟨hmem, hlt⟩ := mem_filter.mp hx
    have hsome : t.get x.1 = some x.2 := get_eq_some.mpr hmem
    refine mem_range.mpr ((h x.1 (of_decide_eq_true hlt)).mp ?_)
    rw [hsome]; rfl
  have hle := (subperm_of_subset (nodup_filter t _) hsub).length_le
  rw [length_range, length_map] at hle
  rw [countP_eq_length_filter]; exact hle

theorem map_total {γ : Type} (g : β → γ) : (t.total f).map g = t.total fun x => (f x).map g := by
  unfold Table.total
  induction t.entries with
  | nil => rfl
  | cons x l ih => rw [map_cons, sum_cons, map_cons, sum_cons, Multiset.map_add, ih]

end Xv6.Lib.Tables
