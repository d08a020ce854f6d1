import Mathlib.Data.List.Basic
import Mathlib.Data.List.TakeDrop
import Mathlib.Logic.Function.Basic
import Mathlib.Tactic.Common

/-!
# Crashes between writes

A store maps addresses to values and a program is seen as the list of its writes.  A crash keeps a
prefix of the list.  `Safe P d ws` is the crash condition: `P` holds of the store after every prefix of
`ws`, from `d` on.  It is proved write by write (`Safe.cons`) and part by part (`Safe.append`).
-/

namespace Xv6.Lib.Crash

open List Function

variable {A V : Type*} [DecidableEq A]

def applyWrites (d : A → V) (ws : List (A × V)) : A → V :=
  ws.foldl (fun d w => update d w.1 w.2) d

@[simp] theorem applyWrites_nil (d : A → V) : applyWrites d [] = d := rfl

@[simp] theorem applyWrites_cons (d : A → V) (a : A) (v : V) (ws : List (A × V)) :
    applyWrites d ((a, v) :: ws) = applyWrites (update d a v) ws := rfl

theorem applyWrites_append (d : A → V) (ws ws' : List (A × V)) :
    applyWrites d (ws ++ ws') = applyWrites (applyWrites d ws) ws' := foldl_append

theorem applyWrites_of_notMem {ws : List (A × V)} {a : A} (h : ∀ w ∈ ws, w.1 ≠ a) (d : A → V) :
    applyWrites d ws a = d a := by
  induction ws generalizing d with
  | nil => rfl
  | cons w ws ih =>
    obtain ⟨b, v⟩ := w
    have hb : a ≠ b := fun he => h (b, v) (by simp) he.symm
    rw [applyWrites_cons, ih (fun w hw => h w (by simp [hw])), update_of_ne hb]

theorem applyWrites_range_map {f : ℕ → A} {v : ℕ → V} {n : ℕ}
    (hf : ∀ i < n, ∀ j < n, f i = f j → i = j) (d : A → V) {i : ℕ} (hi : i < n) :
    applyWrites d ((List.range n).map fun i => (f i, v i)) (f i) = v i := by
  induction n with
  | zero => omega
  | succ n ih =>
    rw [range_succ, map_append, applyWrites_append, map_cons, map_nil, applyWrites_cons, applyWrites_nil]
    by_cases hin : i = n
    · rw [hin, update_self]
    · have hne : f i ≠ f n := fun h => hin (hf i hi n (by omega) h)
      rw [update_of_ne hne]
      exact ih (fun a ha b hb => hf a (by omega) b (by omega)) (by omega)

/-- `P` holds of the store after every prefix of the writes. -/
def Safe (P : (A → V) → Prop) (d : A → V) (ws : List (A × V)) : Prop :=
  ∀ k, P (applyWrites d (ws.take k))

variable {P : (A → V) → Prop} {d : A → V} {ws ws' : List (A × V)}

theorem Safe.nil (h : P d) : Safe P d [] := by
  intro k
  rw [take_nil]; exact h

theorem Safe.cons {a : A} {v : V} (h : P d) (hs : Safe P (update d a v) ws) : Safe P d ((a, v) :: ws) := by
  intro k
  cases k with
  | zero => exact h
  | succ k => exact hs k

theorem Safe.done (h : Safe P d ws) : P (applyWrites d ws) := by
  have := h ws.length; rwa [take_length] at this

theorem Safe.append (h : Safe P d ws) (h' : Safe P (applyWrites d ws) ws') : Safe P d (ws ++ ws') := by
  intro k
  rw [take_append, applyWrites_append]
  by_cases hk : k ≤ ws.length
  · rw [Nat.sub_eq_zero_of_le hk]; exact h k
  · rw [take_of_length_le (by omega)]; exact h' _

theorem Safe.of_forall (h : P d) (hw : ∀ w ∈ ws, ∀ d, P d → P (update d w.1 w.2)) : Safe P d ws := by
  induction ws generalizing d with
  | nil => exact Safe.nil h
  | cons w ws ih =>
    exact Safe.cons h (ih (hw w (by simp) d h) fun w' hw' => hw w' (by simp [hw']))

end Xv6.Lib.Crash
