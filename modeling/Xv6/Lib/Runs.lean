import Mathlib.Data.List.Basic
import Mathlib.Tactic.Common

/-!
# Runs of a labelled transition system

A `Sys` has initial states and labelled steps.  `Run T h s` says that `s` is reached from an initial state, where
`h` lists the steps taken, each as the state it was taken in and its label.

* `Run.inv`: what holds initially and is kept by every step holds along every run;
* `Run.inv_of_ok`: the same for the runs whose steps all meet a condition;
* `Run.forall_iff_ok`: if a step keeps `P` exactly when it meets `C`, a run stays in `P` exactly when its steps
  do.

`Sys.hist` adds a history variable to a system without losing a run (`Run.lift`).
-/

namespace Xv6.Lib.Runs

open List Option

structure Sys (σ ε : Type*) where
  init : σ → Prop
  step : σ → ε → σ → Prop

variable {σ ε γ : Type*} {T : Sys σ ε}

inductive Run (T : Sys σ ε) : List (σ × ε) → σ → Prop
  | start {s : σ} (h : T.init s) : Run T [] s
  | next {h : List (σ × ε)} {s s' : σ} {e : ε} (hr : Run T h s) (hs : T.step s e s') :
      Run T (h ++ [(s, e)]) s'

def Reachable (T : Sys σ ε) (s : σ) : Prop := ∃ h, Run T h s

theorem Reachable.start {s : σ} (h : T.init s) : Reachable T s := ⟨[], .start h⟩

theorem Reachable.next {s s' : σ} {e : ε} (h : Reachable T s) (hs : T.step s e s') : Reachable T s' := by
  obtain ⟨l, hl⟩ := h; exact ⟨_, hl.next hs⟩

/-- **The invariant rule under a condition on the steps.** -/
theorem Run.inv_of_ok {I : σ → Prop} {C : σ → ε → Prop} (h0 : ∀ s, T.init s → I s)
    (hstep : ∀ s e s', I s → C s e → T.step s e s' → I s') {h : List (σ × ε)} {s : σ}
    (hr : Run T h s) (hok : ∀ x ∈ h, C x.1 x.2) : I s := by
  induction hr with
  | start h => exact h0 _ h
  | next hr hs ih =>
    refine hstep _ _ _ (ih fun x hx => hok x (by simp [hx])) ?_ hs
    exact hok (_, _) (by simp)

/-- **The invariant rule.** -/
theorem Run.inv {I : σ → Prop} (h0 : ∀ s, T.init s → I s)
    (hstep : ∀ s e s', I s → T.step s e s' → I s') {h : List (σ × ε)} {s : σ} (hr : Run T h s) : I s :=
  hr.inv_of_ok (C := fun _ _ => True) h0 (fun s e s' hi _ => hstep s e s' hi) fun _ _ => trivial

theorem Reachable.inv {I : σ → Prop} (h0 : ∀ s, T.init s → I s)
    (hstep : ∀ s e s', I s → T.step s e s' → I s') {s : σ} (hr : Reachable T s) : I s := by
  obtain ⟨h, hr⟩ := hr; exact hr.inv h0 hstep

/-- **When a run stays inside `P`.**  `J` is an invariant of all runs that the one-step fact may
use. -/
theorem Run.forall_iff_ok {J P : σ → Prop} {C : σ → ε → Prop} (hJ0 : ∀ s, T.init s → J s)
    (hJ : ∀ s e s', J s → T.step s e s' → J s') (hP0 : ∀ s, T.init s → P s)
    (hP : ∀ s e s', J s → P s → T.step s e s' → (P s' ↔ C s e)) {h : List (σ × ε)} {s : σ}
    (hr : Run T h s) : (P s ∧ ∀ x ∈ h, P x.1) ↔ ∀ x ∈ h, C x.1 x.2 := by
  induction hr with
  | start h => simp [hP0 _ h]
  | @next h s s' e hr hs ih =>
    have hj : J s := hr.inv hJ0 hJ
    simp only [mem_append, mem_singleton]
    constructor
    · rintro ⟨hp', hall⟩ x (hx | rfl)
      · exact ih.mp ⟨hall _ (.inr rfl), fun y hy => hall y (.inl hy)⟩ x hx
      · exact (hP s e s' hj (hall (s, e) (.inr rfl)) hs).mp hp'
    · intro hok
      obtain ⟨hp, hall⟩ := ih.mpr fun x hx => hok x (.inl hx)
      refine ⟨(hP s e s' hj hp hs).mpr (hok (s, e) (.inr rfl)), ?_⟩
      rintro x (hx | rfl)
      · exact hall x hx
      · exact hp

/-- What every round does, and what is reflexive and transitive, the whole loop does. -/
theorem foldlM_rel {α : Type*} {f : σ → α → Option σ} {R : σ → σ → Prop} (hrefl : ∀ s, R s s)
    (htrans : ∀ {a b c}, R a b → R b c → R a c) (hstep : ∀ s x s', f s x = some s' → R s s') :
    ∀ (l : List α) {s s' : σ}, l.foldlM f s = some s' → R s s'
  | [], s, s', h => by
    cases h; exact hrefl s
  | x :: l, s, s', h => by
    rw [foldlM_cons] at h
    obtain ⟨u, hu, h⟩ := bind_eq_some_iff.mp h
    exact htrans (hstep s x u hu) (foldlM_rel hrefl htrans hstep l h)

theorem foldlM_isSome {α : Type*} {f : σ → α → Option σ} {I : σ → Prop}
    (hstep : ∀ s x, I s → ∃ s', f s x = some s' ∧ I s') :
    ∀ (l : List α) {s : σ}, I s → ∃ s', l.foldlM f s = some s' ∧ I s'
  | [], s, h => ⟨s, rfl, h⟩
  | x :: l, s, h => by
    obtain ⟨u, hu, hi⟩ := hstep s x h
    obtain ⟨s', hs', hi'⟩ := foldlM_isSome hstep l hi
    refine ⟨s', ?_, hi'⟩
    rw [foldlM_cons, hu]; exact hs'

/-- What round `x` establishes of `x`, and every round keeps, holds of all rounds at the end. -/
theorem foldlM_forall {α : Type*} {f : σ → α → Option σ} {Q : α → σ → Prop}
    (hnew : ∀ s x s', f s x = some s' → Q x s') (hkeep : ∀ s x s' y, f s x = some s' → Q y s → Q y s') :
    ∀ (l : List α) {s s' : σ}, l.foldlM f s = some s' → ∀ x ∈ l, Q x s'
  | [], _, _, _, x, hx => absurd hx (by simp)
  | y :: l, s, s', h, x, hx => by
    rw [foldlM_cons] at h
    obtain ⟨u, hu, hl⟩ := bind_eq_some_iff.mp h
    rcases mem_cons.mp hx with rfl | hx
    · exact foldlM_rel (R := fun a b => Q x a → Q x b) (fun _ => id) (fun h1 h2 => h2 ∘ h1)
        (fun a z b hz => hkeep a z b x hz) l hl (hnew s x u hu)
    · exact foldlM_forall hnew hkeep l hl x hx

section
variable {α β α' β' ι : Type*} {R : α → β → Prop} {S : α' → β' → Prop}

theorem rel_map {f : α → α'} {g : β → β'} {x : Option α} {y : Option β} (h : Option.Rel R x y)
    (hf : ∀ a b, x = some a → R a b → S (f a) (g b)) : Option.Rel S (x.map f) (y.map g) := by
  cases h with
  | some h => exact .some (hf _ _ rfl h)
  | none => exact .none

theorem rel_bind {f : α → Option α'} {g : β → Option β'} {x : Option α} {y : Option β}
    (h : Option.Rel R x y) (hf : ∀ a b, x = some a → R a b → Option.Rel S (f a) (g b)) :
    Option.Rel S (x.bind f) (y.bind g) := by
  cases h with
  | some h => exact hf _ _ rfl h
  | none => exact .none

theorem rel_foldlM {f : α → ι → Option α} {g : β → ι → Option β}
    (hstep : ∀ x a b, R a b → Option.Rel R (f a x) (g b x)) :
    ∀ (l : List ι) {a : α} {b : β}, R a b → Option.Rel R (l.foldlM f a) (l.foldlM g b)
  | [], _, _, h => .some h
  | x :: l, a, b, h => by
    rw [foldlM_cons, foldlM_cons]
    exact rel_bind (hstep x a b h) fun a' b' _ h' => rel_foldlM hstep l h'

theorem rel_eq_some {x : Option α} {y : Option β} (h : Option.Rel R x y) {a : α}
    (hx : x = some a) : ∃ b, y = some b ∧ R a b := by
  cases h with
  | some h =>
    cases hx; exact ⟨_, rfl, h⟩
  | none => cases hx

theorem rel_eq_none {x : Option α} {y : Option β} (h : Option.Rel R x y) (hx : x = none) : y = none := by
  cases h with
  | some h => cases hx
  | none => rfl

end

/-- The steps `f` takes from `s` with the labels `es`, each with the state it is taken in. -/
def stepsOf (f : σ → ε → Option σ) (s : σ) : List ε → List (σ × ε)
  | [] => []
  | e :: es => (s, e) :: (match f s e with | none => [] | some s' => stepsOf f s' es)

theorem Run.foldlM {f : σ → ε → Option σ} (hf : ∀ s e s', f s e = some s' → T.step s e s') :
    ∀ {es : List ε} {h : List (σ × ε)} {s s' : σ}, Run T h s → es.foldlM f s = some s' →
    Run T (h ++ stepsOf f s es) s' ∧ (stepsOf f s es).map Prod.snd = es := by
  intro es
  induction es with
  | nil =>
    intro h s s' hr hs
    have hss : s = s' := Option.some.inj hs
    rw [← hss, stepsOf, append_nil]; exact ⟨hr, rfl⟩
  | cons e es ih =>
    intro h s s' hr hs
    obtain ⟨u, hu, hs⟩ := bind_eq_some_iff.mp hs
    obtain ⟨hrun, hmap⟩ := ih (hr.next (hf s e u hu)) hs
    rw [append_assoc] at hrun
    simp only [stepsOf, hu, map_cons, hmap]; exact ⟨hrun, trivial⟩

/-- Labels that `f` can follow, with a test that holds at the end, give a run to such a state. -/
theorem exists_run {f : σ → ε → Option σ} (hf : ∀ s e s', f s e = some s' → T.step s e s') {s0 : σ}
    (h0 : T.init s0) (es : List ε) (t : σ → Bool) (h : (es.foldlM f s0).any t = true) :
    ∃ s, Run T (stepsOf f s0 es) s ∧ (stepsOf f s0 es).map Prod.snd = es ∧ t s = true := by
  cases hs : es.foldlM f s0 with
  | none => rw [hs] at h; cases h
  | some s =>
    rw [hs] at h
    obtain ⟨hrun, hmap⟩ := Run.foldlM hf (Run.start h0) hs
    exact ⟨s, by simpa using hrun, hmap, h⟩

/-- The state that a call leaves when it is made and does not fail. -/
def okOf {E : Type*} (r : Option (Except E σ)) : Option σ := r.bind Except.toOption

theorem okOf_eq_some {E : Type*} {r : Option (Except E σ)} {s : σ} (h : okOf r = some s) : r = some (.ok s) := by
  obtain ⟨x, rfl, hx⟩ := bind_eq_some_iff.mp h
  cases x with
  | error e => cases hx
  | ok t => rw [Option.some.inj hx]

/-- The system with a history variable, started at `g₀` and updated from each step taken. -/
def Sys.hist (T : Sys σ ε) (g₀ : γ) (upd : σ → ε → σ → γ → γ) : Sys (σ × γ) ε where
  init x := T.init x.1 ∧ x.2 = g₀
  step x e y := T.step x.1 e y.1 ∧ y.2 = upd x.1 e y.1 x.2

theorem Run.lift (g0 : γ) (upd : σ → ε → σ → γ → γ) {h : List (σ × ε)} {s : σ} (hr : Run T h s) :
    ∃ h' g, Run (T.hist g0 upd) h' (s, g) ∧ h'.map (fun y => (y.1.1, y.2)) = h := by
  induction hr with
  | start h => exact ⟨[], g0, .start ⟨h, rfl⟩, rfl⟩
  | @next h s s' e hr hs ih =>
    obtain ⟨h', g, hr', rfl⟩ := ih
    refine ⟨h' ++ [((s, g), e)], upd s e s' g, hr'.next ⟨hs, rfl⟩, ?_⟩
    simp

def histStep (f : σ → ε → Option σ) (upd : σ → ε → σ → γ → γ) (x : σ × γ) (e : ε) : Option (σ × γ) :=
  (f x.1 e).map fun s' => (s', upd x.1 e s' x.2)

/-- Labels that `f` can follow, with a test that holds at the end of the state and its history. -/
theorem exists_run_hist {f : σ → ε → Option σ} (hf : ∀ s e s', f s e = some s' → T.step s e s')
    {s0 : σ} (h0 : T.init s0) (g0 : γ) (upd : σ → ε → σ → γ → γ) (es : List ε) (t : σ × γ → Bool)
    (h : (es.foldlM (histStep f upd) (s0, g0)).any t = true) :
    ∃ x, Run (T.hist g0 upd) (stepsOf (histStep f upd) (s0, g0) es) x ∧
      (stepsOf (histStep f upd) (s0, g0) es).map Prod.snd = es ∧ t x = true := by
  have hx : (T.hist g0 upd).init (s0, g0) := ⟨h0, rfl⟩
  refine exists_run (fun x e y hy => ?_) hx es t h
  obtain ⟨s', hs, rfl⟩ := map_eq_some_iff.mp hy; exact ⟨hf _ _ _ hs, rfl⟩

end Xv6.Lib.Runs
