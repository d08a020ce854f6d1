import Mathlib.Logic.Function.Basic
import Mathlib.Logic.Relation
import Mathlib.Tactic.Common

/-!
# Parent pointers

`f x` is the parent of `x`, if it has one, and `Reaches f r x` says that following parents from `x`
leads to `r`.  Reaching `r` survives two changes of the pointers: any change at a node that nobody
has as its parent, for the other nodes, and pointing a node at `r` itself.
-/

namespace Xv6.Lib.Forest

variable {α : Type*} {f : α → Option α} {r i x y : α}

def Reaches (f : α → Option α) (r x : α) : Prop :=
  Relation.ReflTransGen (fun a b => f a = some b) x r

theorem Reaches.root : Reaches f r r := .refl

theorem Reaches.of_parent (h : f x = some y) (hy : Reaches f r y) : Reaches f r x := .head h hy

theorem Reaches.exists_parent (h : Reaches f r x) (hx : x ≠ r) : ∃ y, f x = some y := by
  rcases Relation.ReflTransGen.cases_head h with rfl | ⟨y, hy, -⟩
  · exact absurd rfl hx
  · exact ⟨y, hy⟩

theorem Reaches.eq_of_self (h : Reaches f r x) (hx : f x = some x) : x = r := by
  induction h using Relation.ReflTransGen.head_induction_on with
  | refl => rfl
  | head hab _ ih =>
    rw [hx] at hab
    cases hab; exact ih hx

variable [DecidableEq α]

theorem Reaches.update_leaf (h : Reaches f r x) (hi : ∀ y, f y ≠ some i) (hx : x ≠ i)
    (v : Option α) : Reaches (Function.update f i v) r x := by
  induction h using Relation.ReflTransGen.head_induction_on with
  | refl => exact .root
  | @head a b hab _ ih =>
    have hb : b ≠ i := by rintro rfl; exact hi a hab
    refine .of_parent ?_ (ih hb)
    rw [Function.update_of_ne hx, hab]

theorem Reaches.update_root (h : Reaches f r x) (i : α) : Reaches (Function.update f i (some r)) r x := by
  induction h using Relation.ReflTransGen.head_induction_on with
  | refl => exact .root
  | @head a b hab _ ih =>
    by_cases ha : a = i
    · subst ha; exact .of_parent (Function.update_self _ _ _) .root
    · refine .of_parent ?_ ih
      rw [Function.update_of_ne ha, hab]

end Xv6.Lib.Forest
