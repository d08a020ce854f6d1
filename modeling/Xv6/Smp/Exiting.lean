import Mathlib.Logic.Relation
import Xv6.Smp.Defs

/-!
# An exit that nobody disturbs

The invariants say what the steps of the CPUs keep; this module says that `exit` gets to its end.
While only one CPU takes steps (`Solo`), the loops of `reparent` and `wakeup` go through the whole
table (`solo_reparent`, `solo_wakeup`), and

* `solo_exit`: a process without children whose parent does not sleep becomes a `ZOMBIE` with its
  exit status and hands its lock to the scheduler of the CPU; nothing else changes.
-/

namespace Xv6.Smp.Exiting

open Relation Function
open Param Sched.Defs Lib.Runs Smp.Defs

/-- CPU `c` takes steps, the others none. -/
def Solo (c : ℕ) : State → State → Prop := ReflTransGen fun s s' => Step s c s'

variable {s s' s'' : State} {c : ℕ} {t : Tid} {p : Slot} {pc pc' : Pc} {a : Act} {n : Next}
  {k : WakeCaller} {chan : Chan} {status : Word} {i : ℕ} {L : Lock}

theorem Solo.trans (h : Solo c s s') (h' : Solo c s' s'') : Solo c s s'' :=
  ReflTransGen.trans h h'

theorem Solo.reachable (hs : Solo c s s') (h : Reachable sys s) : Reachable sys s' := by
  induction hs with
  | refl => exact h
  | tail _ hs ih => exact ih.next hs

theorem lock_acquire : ((Act.acquire L).apply c s).lock L = some c :=
  update_self _ _ _

theorem lock_acquire_of_ne {L L' : Lock} (hL : L' ≠ L) : ((Act.acquire L).apply c s).lock L' = s.lock L' :=
  update_of_ne hL _ _

theorem setThread_setThread (th th' : Thread) : (s.setThread t th).setThread t th' = s.setThread t th' := by
  simp [State.setThread]

abbrev atPoint (s : State) (t : Tid) (pc : Pc) : State := s.setThread t ⟨pc, none⟩

theorem step_instr (hc : s.cur c = t) (hi : Instr t (atPoint s t pc) pc a (.goto pc'))
    (he : a.Enabled c s) (ha : ∀ np, a ≠ .store (.alloc np) := by simp) :
    Step (atPoint s t pc) c (atPoint (a.apply c s) t pc') := by
  subst hc
  have hth : (atPoint s (s.cur c) pc).th (s.cur c) = ⟨pc, none⟩ := update_self _ _ _
  have hnext : (atPoint s (s.cur c) pc).after c a (.goto pc') = a.apply c (atPoint s (s.cur c) pc') := by
    rw [atPoint, atPoint, ← setThread_setThread ⟨pc, none⟩ ⟨pc', none⟩]
    unfold State.after
    congr 2; exact congrArg (fun th : Thread => th.next (.goto pc')) hth
  have hcomm : a.apply c (atPoint s (s.cur c) pc') = atPoint (a.apply c s) (s.cur c) pc' := by
    cases a with
    | store e =>
      cases e with
      | alloc np => exact absurd rfl (ha np)
      | _ => rfl
    | _ => rfl
  have hexec : Exec (atPoint s (s.cur c) pc) c a (.goto pc') := by
    change Instr (s.cur c) _ ((atPoint s (s.cur c) pc).th (s.cur c)).pc a (.goto pc')
    rw [hth]; exact hi
  have hen : a.Enabled c (atPoint s (s.cur c) pc) := by
    cases a <;> exact he
  rw [← hcomm, ← hnext]; exact .instr hexec hen

theorem solo_instr (hc : s.cur c = t) (hi : Instr t (atPoint s t pc) pc a (.goto pc'))
    (he : a.Enabled c s) (ha : ∀ np, a ≠ .store (.alloc np) := by simp) :
    Solo c (atPoint s t pc) (atPoint (a.apply c s) t pc') :=
  .single (step_instr hc hi he ha)

theorem solo_reparent (hc : s.cur c = .proc p) (hkids : ∀ q, (s.proc q).parent ≠ some p) (hi : i ≤ NPROC) :
    Solo c (atPoint s (.proc p) (.exitReparent 0 status)) (atPoint s (.proc p) (.exitReparent i status)) := by
  induction i with
  | zero => exact .refl
  | succ i ih =>
    let q : Slot := ⟨i, by omega⟩
    have hnext : Solo c (atPoint s (.proc p) (.exitReparent q status))
        (atPoint s (.proc p) (.exitReparent (q + 1) status)) :=
      solo_instr hc (.inr (.exitSkip (hkids q))) trivial
    exact (ih (by omega)).trans hnext

theorem lock_unlock (hL : s.lock L = none) : (Act.release L).apply c ((Act.acquire L).apply c s) = s := by
  have hlock : update (update s.lock L (some c)) L none = s.lock := by
    rw [update_idem, ← hL, update_eq_self]
  exact congrArg (fun l => { s with lock := l }) hlock

theorem wakeup_loop {R : State → State → Prop} {V : Pc → Prop}
    (hR : ∀ {s : State} {pc pc' : Pc} {a : Act}, s.cur c = t → Instr t (atPoint s t pc) pc a (.goto pc') →
      a.Enabled c s → (∀ np, a ≠ .store (.alloc np)) → V pc' → R (atPoint s t pc) (atPoint (a.apply c s) t pc'))
    (hscan : ∀ j, V (.wakeScan k chan j)) (htest : ∀ q, V (.wakeTest k chan q)) (hc : s.cur c = t)
    (hfree : ∀ q, s.lock (.proc q) = none)
    (hmiss : ∀ q, ¬ ((s.proc q).state = .sleeping ∧ (s.proc q).chan = chan)) (j : ℕ) (hi : j + i ≤ NPROC) :
    ReflTransGen R (atPoint s t (.wakeScan k chan j)) (atPoint s t (.wakeScan k chan (j + i))) := by
  induction i with
  | zero => exact .refl
  | succ i ih =>
    let q : Slot := ⟨j + i, by omega⟩
    refine (ih (by omega)).trans ?_
    by_cases ht : t = .proc q
    · exact .single (hR hc (.inl (.scanSelf ht)) trivial (by simp) (hscan _))
    · have h1 : R (atPoint s t (.wakeScan k chan q))
          (atPoint ((Act.acquire (.proc q)).apply c s) t (.wakeTest k chan q)) :=
        hR hc (.inl (.scan ht)) (hfree q) (by simp) (htest q)
      have h2 : R (atPoint ((Act.acquire (.proc q)).apply c s) t (.wakeTest k chan q))
          (atPoint ((Act.release (.proc q)).apply c ((Act.acquire (.proc q)).apply c s)) t
            (.wakeScan k chan (q + 1))) :=
        hR hc (.inl (.miss (hmiss q))) lock_acquire (by simp) (hscan _)
      rw [lock_unlock (hfree q)] at h2; exact .tail (.single h1) h2

theorem solo_wakeup (hc : s.cur c = t) (hfree : ∀ q, s.lock (.proc q) = none)
    (hmiss : ∀ q, ¬ ((s.proc q).state = .sleeping ∧ (s.proc q).chan = chan)) :
    Solo c (atPoint s t (.wakeScan k chan 0)) (atPoint s t (.wakeScan k chan NPROC)) := by
  have h := wakeup_loop (R := fun s s' => Step s c s') (V := fun _ => True) (k := k)
    (fun hc hi he ha _ => step_instr hc hi he ha) (fun _ => trivial) (fun _ => trivial) hc hfree hmiss 0
    (Nat.zero_add NPROC).le
  exact h

def exited (s : State) (c : ℕ) (p : Slot) (status : Word) : State :=
  { s with
    proc := update s.proc p { s.proc p with xstate := status, state := .zombie }
    lock := update s.lock (.proc p) (some c)
    cur := update s.cur c (.cpu c)
    th := update s.th (.proc p) ⟨.exitDead, none⟩ }

theorem solo_exit (hc : s.cur c = .proc p) (hth : s.th (.proc p) = ⟨.exitWait status, none⟩)
    (hp : p ≠ initproc) (hwait : s.lock .wait = none) (hfree : ∀ q, s.lock (.proc q) = none)
    (hkids : ∀ q, (s.proc q).parent ≠ some p)
    (hmiss : ∀ q, ¬ ((s.proc q).state = .sleeping ∧ (s.proc q).chan = Chan.ofProc (s.proc p).parent)) :
    Solo c s (exited s c p status) := by
  have hs : atPoint s (.proc p) (.exitWait status) = s := by
    unfold atPoint State.setThread
    rw [← hth, update_eq_self]
  -- under `wait_lock`: the children, then the parent
  let s1 := (Act.acquire .wait).apply c s
  have h1 : Solo c (atPoint s (.proc p) (.exitWait status)) (atPoint s1 (.proc p) (.exitReparent 0 status)) :=
    solo_instr hc (.inr (.exitWait hp)) hwait
  have h2 : Solo c (atPoint s1 (.proc p) (.exitReparent 0 status))
      (atPoint s1 (.proc p) (.exitReparent NPROC status)) :=
    solo_reparent hc hkids (Nat.le_refl NPROC)
  have h3 : Solo c (atPoint s1 (.proc p) (.exitReparent NPROC status))
      (atPoint s1 (.proc p) (.wakeScan (.exit status) (Chan.ofProc (s.proc p).parent) 0)) :=
    solo_instr (s := s1) hc (.inr (.exitWake (Nat.le_refl NPROC)))
      trivial
  have hne : ∀ q, Lock.proc q ≠ .wait := fun q => Lock.noConfusion
  have hfree1 : ∀ q, s1.lock (.proc q) = none := fun q =>
    (lock_acquire_of_ne (hne q)).trans (hfree q)
  have h4 := solo_wakeup (s := s1) (k := .exit status) hc hfree1 hmiss
  have h5 : Solo c (atPoint s1 (.proc p) (.wakeScan (.exit status) (Chan.ofProc (s.proc p).parent) NPROC))
      (atPoint s1 (.proc p) (.exitLock status)) :=
    solo_instr (s := s1) hc (.inl (.scanEnd (Nat.le_refl NPROC)))
      trivial
  -- under both locks: `ZOMBIE`, and the way to the scheduler
  let s2 := (Act.acquire (.proc p)).apply c s1
  let s3 := (Act.store (.zombie p status)).apply c s2
  let s4 := (Act.release .wait).apply c s3
  have h6 : Solo c (atPoint s1 (.proc p) (.exitLock status)) (atPoint s2 (.proc p) (.exitSet status)) :=
    solo_instr hc (.inr .exitLock) (hfree1 p)
  have h7 : Solo c (atPoint s2 (.proc p) (.exitSet status)) (atPoint s3 (.proc p) .exitUnwait) :=
    solo_instr hc (.inr .exitSet) trivial
  have hwait2 : s2.lock .wait = some c := (lock_acquire_of_ne (hne p).symm).trans lock_acquire
  have h8 : Solo c (atPoint s3 (.proc p) .exitUnwait) (atPoint s4 (.proc p) .exitSched) :=
    solo_instr hc (.inr .exitUnwait) hwait2
  have h9 : Solo c (atPoint s4 (.proc p) .exitSched)
      (atPoint (Act.swtchBack.apply c s4) (.proc p) .exitDead) :=
    solo_instr hc (.inr .exitSched) trivial
  have hlock : s4.lock = update s.lock (.proc p) (some c) := by
    change update (update (update s.lock .wait (some c)) (.proc p) (some c)) .wait none = _
    rw [update_comm (hne p), update_idem, ← hwait, update_eq_self]
  have hend : atPoint (Act.swtchBack.apply c s4) (.proc p) .exitDead = exited s c p status :=
    congrArg (fun l => { exited s c p status with lock := l }) hlock
  rw [hs] at h1
  rw [hend] at h9
  exact h1.trans (h2.trans (h3.trans (h4.trans (h5.trans (h6.trans (h7.trans (h8.trans h9)))))))

end Xv6.Smp.Exiting
