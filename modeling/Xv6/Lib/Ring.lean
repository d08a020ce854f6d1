import Mathlib.Data.List.Chain
import Mathlib.Data.List.Nodup
import Mathlib.Data.Option.Basic
import Mathlib.Logic.Function.Basic
import Mathlib.Tactic.Common

/-!
# Circular doubly linked lists

Elements of a type `α` linked through `next` and `prev` in a circle with a head that is no element.
A node is an `Option α`, and the head is `none`.  `IsRing k l` says that the circle is the list `l`: going
round from the head, every two neighbours point at each other.

What the usual assignments do to the list is `IsRing.unlink` and `IsRing.pushFront`.  A loop that follows one of
the pointers (`seek`) is `List.find?` on a ring (`IsRing.seek_next`, `IsRing.seek_prev`).
-/

namespace Xv6.Lib.Ring

open List Function

variable {α : Type*}

structure Links (α : Type*) where
  next : Option α → Option α
  prev : Option α → Option α

def Linked (k : Links α) (x y : Option α) : Prop := k.next x = y ∧ k.prev y = x

def circle (l : List α) : List (Option α) := none :: (l.map some ++ [none])

/-- The elements of `l`, each once, are linked in a circle with the head. -/
structure IsRing (k : Links α) (l : List α) : Prop where
  nodup : l.Nodup
  linked : (circle l).IsChain (Linked k)

/-! ## Assignments -/

variable [DecidableEq α]

/-- `b->next->prev = b->prev; b->prev->next = b->next`. -/
def Links.unlink (k : Links α) (b : α) : Links α :=
  let k := { k with prev := update k.prev (k.next (some b)) (k.prev (some b)) }
  { k with next := update k.next (k.prev (some b)) (k.next (some b)) }

/-- `b->next = head.next; b->prev = &head; head.next->prev = b; head.next = b`. -/
def Links.pushFront (k : Links α) (b : α) : Links α :=
  let k := { k with next := update k.next (some b) (k.next none) }
  let k := { k with prev := update k.prev (some b) none }
  let k := { k with prev := update k.prev (k.next none) (some b) }
  { k with next := update k.next none (some b) }

variable {k : Links α}

omit [DecidableEq α] in
theorem IsRing.nil (hn : k.next none = none) (hp : k.prev none = none) : IsRing k [] := by
  refine ⟨nodup_nil, ?_⟩
  show ([none, none] : List (Option α)).IsChain (Linked k)
  rw [isChain_pair]; exact ⟨hn, hp⟩

variable {b : α}

omit [DecidableEq α] in
/-- An element of a ring between its neighbours: the circle up to the one before it, and from the one
after it. -/
theorem IsRing.split {l1 l2 : List α} (h : IsRing k (l1 ++ b :: l2)) :
    ∃ A x y B, none :: l1.map some = A ++ [x] ∧ l2.map some ++ [none] = y :: B ∧
      Linked k x (some b) ∧ Linked k (some b) y ∧ (A ++ [x]).IsChain (Linked k) ∧ (y :: B).IsChain (Linked k) := by
  obtain ⟨A, x, hA⟩ : ∃ A x, none :: l1.map some = A ++ [x] :=
    ⟨_, _, (dropLast_concat_getLast (cons_ne_nil none (l1.map some))).symm⟩
  obtain ⟨y, B, hB⟩ : ∃ y B, l2.map some ++ [none] = y :: B :=
    exists_cons_of_ne_nil (append_ne_nil_of_right_ne_nil _ (cons_ne_nil _ _))
  have hc : circle (l1 ++ b :: l2) = A ++ x :: some b :: y :: B := by
    unfold circle
    rw [map_append, map_cons, append_assoc, cons_append, hB, ← cons_append, hA, append_assoc, singleton_append]
  have hl := h.linked
  rw [hc, isChain_append_cons_cons, isChain_cons_cons] at hl
  exact ⟨A, x, y, B, hA, hB, hl.2.1, hl.2.2.1, hl.1, hl.2.2.2⟩

/-- **An element is taken out of the ring.** -/
theorem IsRing.unlink {l1 l2 : List α} (h : IsRing k (l1 ++ b :: l2)) : IsRing (k.unlink b) (l1 ++ l2) := by
  have hnd := h.nodup
  have hb : b ∉ l1 ++ l2 := (nodup_middle.mp hnd).notMem
  obtain ⟨A, x, y, B, hA, hB, hx, hy, hleft, hright⟩ := h.split
  have hyb : y ≠ some b := by
    rintro rfl
    have hmem : some b ∈ l2.map some ++ [none] := by rw [hB]; exact mem_cons_self
    simp only [mem_append, mem_map, mem_singleton] at hmem hb
    rcases hmem with ⟨a, ha, he⟩ | he
    · cases he; exact hb (.inr ha)
    · cases he
  have hk : k.unlink b = ⟨update k.next x y, update k.prev y x⟩ := by
    unfold Links.unlink
    dsimp only
    rw [hy.1, update_of_ne hyb.symm, hx.2]
  -- a pair that does not touch `b` starts before `x` or ends after `y`
  have hpair : ∀ u v, u ≠ some b → v ≠ some b → Linked k u v → Linked (k.unlink b) u v := by
    intro u v hu hv huv
    have hux : u ≠ x := by rintro rfl; exact hv (huv.1.symm.trans hx.1)
    have hvy : v ≠ y := by rintro rfl; exact hu (huv.2.symm.trans hy.2)
    rw [hk]
    exact ⟨(update_of_ne hux _ _).trans huv.1, (update_of_ne hvy _ _).trans huv.2⟩
  have hAb : ∀ u ∈ A ++ [x], u ≠ some b := by
    rw [← hA]
    rintro u hu rfl
    simp only [mem_cons, mem_map] at hu
    rcases hu with he | ⟨a, ha, he⟩
    · cases he
    · cases he; exact hb (mem_append_left _ ha)
  have hBb : ∀ v ∈ y :: B, v ≠ some b := by
    rw [← hB]
    rintro u hu rfl
    simp only [mem_append, mem_map, mem_singleton] at hu
    rcases hu with ⟨a, ha, he⟩ | he
    · cases he; exact hb (mem_append_right _ ha)
    · cases he
  have hc : circle (l1 ++ l2) = A ++ x :: y :: B := by
    unfold circle
    rw [map_append, append_assoc, hB, ← cons_append, hA, append_assoc, singleton_append]
  refine ⟨(nodup_middle.mp hnd).of_cons, ?_⟩
  rw [hc, isChain_append_cons_cons]
  refine ⟨hleft.imp_of_mem_imp fun u v hu hv => hpair u v (hAb u hu) (hAb v hv), ?_,
    hright.imp_of_mem_imp fun u v hu hv => hpair u v (hBb u hu) (hBb v hv)⟩
  rw [hk]; exact ⟨update_self _ _ _, update_self _ _ _⟩

variable {l : List α} {n : ℕ}

/-- **An element is put in behind the head.** -/
theorem IsRing.pushFront (h : IsRing k l) (hb : b ∉ l) : IsRing (k.pushFront b) (b :: l) := by
  obtain ⟨y, B, hB⟩ : ∃ y B, l.map some ++ [none] = y :: B :=
    exists_cons_of_ne_nil (append_ne_nil_of_right_ne_nil _ (cons_ne_nil _ _))
  have hmem : ∀ u ∈ y :: B, u ≠ some b := by
    rw [← hB]
    rintro u hu rfl
    simp only [mem_append, mem_map, mem_singleton] at hu
    rcases hu with ⟨a, ha, he⟩ | he
    · cases he; exact hb ha
    · cases he
  have hnd : (y :: B).Nodup := by
    rw [← hB, nodup_append]
    refine ⟨h.nodup.map (Option.some_injective α), nodup_singleton _, ?_⟩
    rintro u hu v hv rfl
    rw [mem_singleton.mp hv] at hu; simp at hu
  have hl := h.linked
  unfold circle at hl
  rw [hB, isChain_cons_cons] at hl
  have hk : k.pushFront b = ⟨update (update k.next (some b) y) none (some b),
      update (update k.prev (some b) none) y (some b)⟩ := by
    unfold Links.pushFront
    dsimp only
    rw [update_of_ne (Option.some_ne_none b).symm, hl.1.1]
  have hyb : y ≠ some b := hmem y mem_cons_self
  refine ⟨nodup_cons.mpr ⟨hb, h.nodup⟩, ?_⟩
  show (none :: some b :: (l.map some ++ [none])).IsChain _
  rw [hB, isChain_cons_cons, isChain_cons_cons, hk]
  refine ⟨⟨?_, ?_⟩, ⟨?_, ?_⟩, ?_⟩
  · dsimp only
    rw [update_self]
  · dsimp only
    rw [update_of_ne hyb.symm, update_self]
  · dsimp only
    rw [update_of_ne (Option.some_ne_none b), update_self]
  · dsimp only
    rw [update_self]
  · -- the pairs behind `y` end after it, so they do not start at the head
    refine hl.2.imp_of_mem_tail_imp fun u v hu hv huv => ?_
    have hvy : v ≠ y := by rintro rfl; exact (nodup_cons.mp hnd).1 hv
    have hu0 : u ≠ none := by rintro rfl; exact hvy (huv.1.symm.trans hl.1.1)
    have hub := hmem u hu
    have hvb := hmem v (mem_cons_of_mem y hv)
    constructor
    · dsimp only
      rw [update_of_ne hu0, update_of_ne hub, huv.1]
    · dsimp only
      rw [update_of_ne hvy, update_of_ne hvb, huv.2]

theorem IsRing.foldl_pushFront (h : IsRing k l) :
    ∀ {bs : List α}, (bs ++ l).Nodup → IsRing (bs.foldl Links.pushFront k) (bs.reverse ++ l) := by
  intro bs
  induction bs generalizing k l with
  | nil => intro _; exact h
  | cons b bs ih =>
    intro hnd
    rw [cons_append, ← nodup_middle] at hnd
    have hb : b ∉ l := by have hl := (nodup_append.mp hnd).2.1; exact (nodup_cons.mp hl).1
    rw [reverse_cons, append_assoc]; exact ih (h.pushFront hb) hnd

omit [DecidableEq α]

/-- The first element with `p` that a loop meets which starts at a node and follows `f` up to the head,
in at most the given number of rounds. -/
def seek (f : Option α → Option α) (p : α → Bool) : ℕ → Option α → Option α
  | 0, _ | _ + 1, none => none
  | n + 1, some a => if p a then some a else seek f p n (f (some a))

theorem seek_of_chain (p : α → Bool) :
    ∀ {x : Option α} {n : ℕ}, (x :: (l.map some ++ [none])).IsChain (Linked k) → l.length ≤ n →
    seek k.next p n (k.next x) = l.find? p := by
  induction l with
  | nil =>
    intro x n h _
    have hx : k.next x = none := (isChain_pair.mp h).1
    rw [hx]
    cases n with
    | zero | succ n => rfl
  | cons a l ih =>
    intro x n h hn
    rw [map_cons, cons_append, isChain_cons_cons] at h
    obtain ⟨n, rfl⟩ : ∃ n', n = n' + 1 := ⟨n - 1, by rw [length_cons] at hn; omega⟩
    rw [h.1.1, seek, List.find?_cons]
    split
    · next hp => rw [hp]
    · next hp =>
      rw [Bool.not_eq_true] at hp
      rw [hp]; exact ih h.2 (by rw [length_cons] at hn; omega)

/-- **A search along `next`.** -/
theorem IsRing.seek_next (h : IsRing k l) (p : α → Bool)
    (hn : l.length ≤ n) : seek k.next p n (k.next none) = l.find? p :=
  seek_of_chain p h.linked hn

theorem IsRing.reverse (h : IsRing k l) : IsRing ⟨k.prev, k.next⟩ l.reverse := by
  refine ⟨nodup_reverse.mpr h.nodup, ?_⟩
  have hc : circle l.reverse = (circle l).reverse := by simp [circle]
  rw [hc, isChain_reverse]; exact h.linked.imp fun u v huv => ⟨huv.2, huv.1⟩

/-- **A search along `prev`.** -/
theorem IsRing.seek_prev (h : IsRing k l) (p : α → Bool)
    (hn : l.length ≤ n) : seek k.prev p n (k.prev none) = l.reverse.find? p :=
  h.reverse.seek_next p (by rwa [length_reverse])

end Xv6.Lib.Ring
