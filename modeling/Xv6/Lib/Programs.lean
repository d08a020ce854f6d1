import Mathlib.Logic.Basic
import Mathlib.Tactic.Common

/-!
# Programs of commands

A program gives one command after another, each answered by a reply on which the rest may depend, and
then returns or fails.  What it means is said elsewhere: by what each command does to a state (`run`,
`trace`), or by what each command needs and leaves (`Meaning`).  `wp` carries a meaning of the commands
to whole programs, and its rules follow the structure of a program; `wp_iff` is the connection of the
two for commands that compute.
-/

namespace Xv6.Lib.Programs

open List

/-- A program with commands in `C`, where `c` is answered by an `R c`; it returns an `α` or fails with an
`E`. -/
inductive Prog (C : Type) (R : C → Type) (E α : Type)
  | ret (a : α)
  | fail (e : E)
  | cmd (c : C) (k : R c → Prog C R E α)

variable {C : Type} {R : C → Type} {E S α β γ : Type}

namespace Prog

def bind : Prog C R E α → (α → Prog C R E β) → Prog C R E β
  | .ret a, f => f a
  | .fail e, _ => .fail e
  | .cmd c k, f => .cmd c fun r => (k r).bind f

instance : Monad (Prog C R E) where
  pure := .ret
  bind := bind

def call (c : C) : Prog C R E (R c) := .cmd c .ret

def done : Prog C R E α → Bool
  | .ret _ => true
  | _ => false

/-- The result and the final state, where `h` says what a command replies and leaves. -/
def run (h : (c : C) → S → R c × S) : Prog C R E α → S → Except E (α × S)
  | .ret a, s => .ok (a, s)
  | .fail e, _ => .error e
  | .cmd c k, s => (k (h c s).1).run h (h c s).2

def trace (h : (c : C) → S → R c × S) : Prog C R E α → S → List C
  | .ret _, _ => []
  | .fail _, _ => []
  | .cmd c k, s => c :: (k (h c s).1).trace h (h c s).2

end Prog

/-- What a command needs for a property of the reply and the next state to hold, and when a failure is
allowed. -/
structure Meaning (C : Type) (R : C → Type) (E S : Type) where
  cmd : (c : C) → (R c → S → Prop) → S → Prop
  fail : E → S → Prop
  mono : ∀ (c : C) {Q Q' : R c → S → Prop}, (∀ r s, Q r s → Q' r s) → ∀ s, cmd c Q s → cmd c Q' s

/-- What a program needs for `Q` to hold of its result and the final state. -/
def wp (M : Meaning C R E S) : Prog C R E α → (α → S → Prop) → S → Prop
  | .ret a, Q, s => Q a s
  | .fail e, _, s => M.fail e s
  | .cmd c k, Q, s => M.cmd c (fun r => wp M (k r) Q) s

variable {M : Meaning C R E S} {p : Prog C R E α} {f : α → Prog C R E β} {s : S} {Q : β → S → Prop}

@[simp] theorem wp_pure {a : α} {Q : α → S → Prop} : wp M (pure a) Q s ↔ Q a s := Iff.rfl

/-- **Consequence.** -/
theorem wp_mono {Q Q' : α → S → Prop} (hQ : ∀ a s, Q a s → Q' a s) (h : wp M p Q s) : wp M p Q' s := by
  induction p generalizing s with
  | ret a => exact hQ a s h
  | fail e => exact h
  | cmd c k ih => exact M.mono c (fun r s hr => ih r hr) s h

/-- **Composition.** -/
theorem wp_bind : wp M (p >>= f) Q s ↔ wp M p (fun a => wp M (f a) Q) s := by
  induction p generalizing s with
  | ret a | fail e => exact Iff.rfl
  | cmd c k ih => exact ⟨M.mono c (fun r _ => (ih r).mp) s, M.mono c (fun r _ => (ih r).mpr) s⟩

theorem wp.bind (h : wp M p (fun a => wp M (f a) Q) s) : wp M (p >>= f) Q s := wp_bind.mpr h

/-- **Composition**, with what holds in between. -/
theorem wp_seq {Q' : α → S → Prop} (h : wp M p Q' s) (hf : ∀ a s, Q' a s → wp M (f a) Q s) : wp M (p >>= f) Q s :=
  .bind (wp_mono hf h)

/-- **Loops** over a list: `I l b` holds when the elements `l` are still to come. -/
theorem wp_foldlM {step : β → γ → Prog C R E β} (I : List γ → β → S → Prop)
    (hstep : ∀ x l b s, I (x :: l) b s → wp M (step b x) (I l) s) (hQ : ∀ b s, I [] b s → Q b s)
    {l : List γ} {b : β} (h : I l b s) : wp M (l.foldlM step b) Q s := by
  induction l generalizing b s with
  | nil => exact hQ b s h
  | cons x l ih => exact wp_seq (hstep x l b s h) fun b s hb => ih hb

/-- The commands do what `h` says; only those with `ok` may be given, and only failures with `bad` are
allowed. -/
def Meaning.of (h : (c : C) → S → R c × S) (ok : C → Prop) (bad : E → Prop) : Meaning C R E S where
  cmd c Q s := ok c ∧ Q (h c s).1 (h c s).2
  fail e _ := bad e
  mono _ _ _ hQ _ hc := ⟨hc.1, hQ _ _ hc.2⟩

variable {h : (c : C) → S → R c × S} {ok ok' : C → Prop} {bad bad' : E → Prop} {Q : α → S → Prop}

/-- **The connection**: the precondition holds if and only if the program gives only commands with `ok`,
the postcondition holds when it returns, and it fails only with `bad`. -/
theorem wp_iff : wp (Meaning.of h ok bad) p Q s ↔ (∀ c ∈ p.trace h s, ok c) ∧
    (∀ a s', p.run h s = .ok (a, s') → Q a s') ∧ ∀ e, p.run h s = .error e → bad e := by
  induction p generalizing s with
  | ret a =>
    constructor
    · intro hq
      refine ⟨fun c hc => (not_mem_nil hc).elim, fun a' s' ha => ?_, fun e he => by cases he⟩
      cases ha; exact hq
    · rintro ⟨-, hq, -⟩; exact hq a s rfl
  | fail e =>
    constructor
    · intro hb
      refine ⟨fun c hc => (not_mem_nil hc).elim, fun a s' ha => (by cases ha), fun e' he => ?_⟩
      obtain rfl := Except.error.inj he; exact hb
    · rintro ⟨-, -, hb⟩; exact hb e rfl
  | cmd c k ih =>
    constructor
    · rintro ⟨hc, hk⟩
      obtain ⟨ht, hr⟩ := (ih _).mp hk
      refine ⟨fun d hd => ?_, hr⟩
      rcases mem_cons.mp hd with rfl | hd
      · exact hc
      · exact ht d hd
    · rintro ⟨ht, hr⟩
      exact ⟨ht c mem_cons_self, (ih _).mpr ⟨fun d hd => ht d (mem_cons_of_mem _ hd), hr⟩⟩

theorem wp_weaken (hok : ∀ c, ok c → ok' c) (hbad : ∀ e, bad e → bad' e)
    (hp : wp (Meaning.of h ok bad) p Q s) : wp (Meaning.of h ok' bad') p Q s := by
  obtain ⟨ht, hq, hb⟩ := wp_iff.mp hp
  exact wp_iff.mpr ⟨fun c hc => hok c (ht c hc), hq, fun e he => hbad e (hb e he)⟩

end Xv6.Lib.Programs
