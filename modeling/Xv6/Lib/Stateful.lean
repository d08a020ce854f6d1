import Mathlib.Logic.Basic
import Mathlib.Tactic.Common

/-!
# Stateful code that may fail

Code of the monad `StateT σ (Except ε)` and the weakest precondition of its results: `wp E m Q s` says
that `m`, started in `s`, returns a value and a state with `Q`, or fails with an error in `E`.  The rules
follow the structure of the code.
-/

namespace Xv6.Lib.Stateful

variable {σ ε α β γ : Type} {E E' : ε → Prop} {m : StateT σ (Except ε) α} {f : α → StateT σ (Except ε) β}
  {s s' : σ} {a : α}

/-- What `m` needs for `Q` to hold of its result and the final state, where errors in `E` are allowed. -/
def wp (E : ε → Prop) (m : StateT σ (Except ε) α) (Q : α → σ → Prop) (s : σ) : Prop :=
  match m s with
  | .ok (a, s') => Q a s'
  | .error e => E e

variable {Q : α → σ → Prop}

theorem wp_iff : wp E m Q s ↔ (∀ a s', m s = .ok (a, s') → Q a s') ∧ ∀ e, m s = .error e → E e := by
  unfold wp
  constructor
  · intro h
    refine ⟨fun a s' hm => ?_, fun e hm => ?_⟩ <;> rw [hm] at h <;> exact h
  · rintro ⟨hok, herr⟩
    split
    · exact hok _ _ (by assumption)
    · exact herr _ (by assumption)

theorem wp_ok (h : wp E m Q s) (hm : m s = .ok (a, s')) : Q a s' :=
  (wp_iff.mp h).1 a s' hm

variable {Q' : α → σ → Prop}

/-- **Consequence.** -/
theorem wp_mono (h : wp E m Q s) (hQ : ∀ a s, Q a s → Q' a s) : wp E m Q' s := by
  obtain ⟨hok, herr⟩ := wp_iff.mp h
  exact wp_iff.mpr ⟨fun a s' hm => hQ a s' (hok a s' hm), herr⟩

theorem wp_true : wp (fun _ => True) m (fun _ _ => True) s :=
  wp_iff.mpr ⟨fun _ _ _ => trivial, fun _ _ => trivial⟩

theorem wp_and (h : wp E m Q s) (h' : wp E' m Q' s) : wp E m (fun a s => Q a s ∧ Q' a s) s := by
  obtain ⟨hok, herr⟩ := wp_iff.mp h
  exact wp_iff.mpr ⟨fun a s' hm => ⟨hok a s' hm, wp_ok h' hm⟩, herr⟩

/-- **Code that must not fail returns.** -/
theorem wp_returns (h : wp (fun _ => False) m Q s) : ∃ a s', m s = .ok (a, s') ∧ Q a s' := by
  obtain ⟨hok, herr⟩ := wp_iff.mp h
  cases hm : m s with
  | ok r => exact ⟨r.1, r.2, rfl, hok r.1 r.2 hm⟩
  | error e => exact (herr e hm).elim

@[simp] theorem wp_pure : wp E (pure a) Q s ↔ Q a s := Iff.rfl

@[simp] theorem wp_get {Q : σ → σ → Prop} : wp E (get : StateT σ (Except ε) σ) Q s ↔ Q s s := Iff.rfl

@[simp] theorem wp_modify {g : σ → σ} {Q : Unit → σ → Prop} :
    wp E (modify g : StateT σ (Except ε) Unit) Q s ↔ Q () (g s) := Iff.rfl

@[simp] theorem wp_set {Q : PUnit → σ → Prop} : wp E (set s' : StateT σ (Except ε) PUnit) Q s ↔ Q ⟨⟩ s' := Iff.rfl

/-- **Composition.** -/
@[simp] theorem wp_bind {Q : β → σ → Prop} : wp E (m >>= f) Q s ↔ wp E m (fun a s => wp E (f a) Q s) s := by
  show wp E (StateT.bind m f) Q s ↔ _
  unfold wp StateT.bind
  cases hm : m s with
  | ok r | error e => simp only [bind, Except.bind]

theorem wp.bind {Q : β → σ → Prop} (h : wp E m (fun a s => wp E (f a) Q s) s) : wp E (m >>= f) Q s := wp_bind.mpr h

/-- **Composition**, with what holds in between. -/
theorem wp_seq {Q : β → σ → Prop} (h : wp E m Q' s) (hf : ∀ a s, Q' a s → wp E (f a) Q s) : wp E (m >>= f) Q s :=
  .bind (wp_mono h hf)

/-- **Loops** over a list: `I l` holds when the elements `l` are still to come. -/
theorem wp_forM {step : γ → StateT σ (Except ε) Unit} {Q : Unit → σ → Prop} (I : List γ → σ → Prop)
    (hstep : ∀ x l s, I (x :: l) s → wp E (step x) (fun _ => I l) s) (hQ : ∀ s, I [] s → Q () s)
    {l : List γ} (h : I l s) : wp E (l.forM step) Q s := by
  induction l generalizing s with
  | nil => exact hQ s h
  | cons x l ih => exact wp_seq (hstep x l s h) fun _ s hs => ih hs

theorem toOption_eq_some {x : Except ε α} (h : x.toOption = some a) : x = .ok a := by
  cases x with
  | error e => cases h
  | ok b => rw [Option.some.inj h]

end Xv6.Lib.Stateful
