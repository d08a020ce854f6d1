import Xv6.Sched.Running

/-!
# The moves of the run queues

For the MLFQ queues only the states, the levels, the arrays and the policy matter: the `View` of a kernel state.
Every step of the kernel is a sequence of *moves* (`Move`), with three exceptions (`exec_cases`): `kill` wakes a
sleeper without enqueueing it, `set_sched` changes the policy, and a branch other than the MLFQ one dispatches a
process without removing its entry.
-/

namespace Xv6.Sched.Moves

open Relation Option Function
open Lib.Runs Param Sched.Defs Sched.Queues Sched.Ops Sched.Step Sched.Facts
open Sched.Running

@[ext] structure View where
  state : Slot → ProcState
  lvl : Slot → ℕ
  mlfq : Mlfq
  policy : SchedPolicy

def view (k : Kernel) : View :=
  ⟨fun p => (k.proc p).state, fun p => (k.proc p).queueLevel, k.mlfq, k.currentPolicy⟩

inductive Move : View → View → Prop
  | idle {v : View} {p : Slot} {s : ProcState} {l : ℕ} (hp : v.state p ≠ .runnable)
      (hs : s ≠ .runnable) (hl : l < QUEUE_LEVELS ∨ l = v.lvl p) :
      Move v ⟨update v.state p s, update v.lvl p l, v.mlfq, v.policy⟩
  | ready {v : View} {p : Slot} {l : ℕ} {q : Mlfq} (hp : v.state p ≠ .runnable)
      (hl : l < QUEUE_LEVELS ∨ l = v.lvl p)
      (hq : v.policy = .mlfq → enqueueToMlfq v.mlfq l p = some q)
      (hq' : v.policy ≠ .mlfq → q = v.mlfq) :
      Move v ⟨update v.state p .runnable, update v.lvl p l, q, v.policy⟩
  | again {v : View} {p : Slot} {q : Mlfq} (hp : v.state p = .runnable)
      (hq : enqueueToMlfq v.mlfq (v.lvl p) p = some q) :
      Move v ⟨v.state, v.lvl, q, v.policy⟩
  | take {v : View} {p : Slot} {l i : ℕ} (hp : v.state p = .runnable) (hl : l < QUEUE_LEVELS)
      (hi : i < v.mlfq.qsize l) (hq : v.mlfq.queue l i = some p) :
      Move v ⟨update v.state p .running, v.lvl, removeAt v.mlfq l i, v.policy⟩

abbrev MovesTo : View → View → Prop := ReflTransGen Move

variable {k k' : Kernel} {c : ℕ} {p : Slot} {f : Proc → Proc} {v v' : View} {me : Option Slot} {chan : Chan}
variable {op : Op}

theorem view_modProc (k : Kernel) (p : Slot) (f : Proc → Proc) :
    view (k.modProc p f) = ⟨update (view k).state p (f (k.proc p)).state,
      update (view k).lvl p (f (k.proc p)).queueLevel, k.mlfq, k.currentPolicy⟩ := by
  unfold view
  ext q
  · simp only [modProc_proc, update_apply]
    split_ifs <;> rfl
  · simp only [modProc_proc, update_apply]
    split_ifs <;> rfl
  · rfl
  · rfl

theorem view_modProc_same (k : Kernel) (p : Slot) (hs : (f (k.proc p)).state = (k.proc p).state)
    (hl : (f (k.proc p)).queueLevel = (k.proc p).queueLevel) : view (k.modProc p f) = view k := by
  rw [view_modProc, hs, hl]
  ext q
  · simp [view]
  · simp [view]
  · rfl
  · rfl

theorem view_schedBack (k : Kernel) (c : ℕ) (p : Slot) : view (schedBack k c p) = view k := by
  unfold view
  ext q
  · obtain ⟨w, hw⟩ := schedBack_proc k c p q; simp [hw]
  · obtain ⟨w, hw⟩ := schedBack_proc k c p q; simp [hw]
  · simp
  · simp

theorem view_setCpu (k : Kernel) (c : ℕ) (v : Cpu) : view (k.setCpu c v) = view k := rfl

theorem view_dispatch (k : Kernel) (c : ℕ) (b : SchedPolicy) (p : Slot) : view (dispatch k c b p) =
      ⟨update (view k).state p .running, (view k).lvl, k.mlfq, k.currentPolicy⟩ := by
  have hrun : ((k.proc p).startRun b k.ticks).resume.state = .running := by
    unfold Proc.resume; split <;> rfl
  have hlvl : ((k.proc p).startRun b k.ticks).resume.queueLevel = (k.proc p).queueLevel := by
    unfold Proc.resume; split <;> rfl
  unfold dispatch
  rw [view_setCpu, view_modProc, hrun, hlvl]
  ext q
  · rfl
  · simp [view]
  · rfl
  · rfl

/-! ## Moves of the operations -/

theorem moves_modProc (hp : (k.proc p).state ≠ .runnable) (hf : (f (k.proc p)).state ≠ .runnable)
    (hl : (f (k.proc p)).queueLevel < QUEUE_LEVELS ∨ (f (k.proc p)).queueLevel = (k.proc p).queueLevel) :
    MovesTo (view k) (view (k.modProc p f)) := by
  rw [view_modProc]; exact .single (.idle hp hf hl)

theorem moves_ready {q : Mlfq} (hp : (k.proc p).state ≠ .runnable) (hf : (f (k.proc p)).state = .runnable)
    (hl : (f (k.proc p)).queueLevel < QUEUE_LEVELS ∨ (f (k.proc p)).queueLevel = (k.proc p).queueLevel)
    (hq : k.currentPolicy = .mlfq → enqueueToMlfq k.mlfq (f (k.proc p)).queueLevel p = some q)
    (hq' : k.currentPolicy ≠ .mlfq → q = k.mlfq) : MovesTo (view k) (view { k.modProc p f with mlfq := q }) := by
  have he : view { k.modProc p f with mlfq := q } = ⟨update (view k).state p .runnable,
        update (view k).lvl p (f (k.proc p)).queueLevel, q, (view k).policy⟩ := by
    have h := view_modProc k p f
    rw [hf] at h
    have h1 := congrArg View.state h
    have h2 := congrArg View.lvl h
    ext r
    · exact congrFun h1 r
    · exact congrFun h2 r
    · rfl
    · rfl
  rw [he]; exact .single (.ready hp hl hq hq')

theorem moves_wakeupAt (h : wakeupAt me chan k p = some k') : MovesTo (view k) (view k') := by
  unfold wakeupAt at h
  split_ifs at h with hme hs
  · obtain ⟨q, rfl, hq, hq'⟩ := enqueueIfMlfq_eq h
    have hp : (k.proc p).state ≠ .runnable := by rw [hs.1]; simp
    exact moves_ready hp rfl (.inr rfl) (fun hb => by simpa using hq hb) hq'
  · cases h; exact .refl
  · cases h; exact .refl

theorem moves_wakeup (h : wakeup me chan k = some k') : MovesTo (view k) (view k') :=
  foldlM_rel (R := fun a b => MovesTo (view a) (view b)) (fun _ => .refl) ReflTransGen.trans
    (fun _ _ _ => moves_wakeupAt) slots h

theorem moves_reparent (h : reparent p k = some k') : MovesTo (view k) (view k') := by
  refine foldlM_rel (R := fun a b => MovesTo (view a) (view b)) (fun _ => .refl) ReflTransGen.trans
    (fun m q m' hm => ?_) slots h
  unfold reparentAt at hm
  split_ifs at hm
  · have := moves_wakeup hm; rwa [view_modProc_same m q rfl rfl] at this
  · cases hm; exact .refl

theorem moves_clockintr (h : clockintr k c = some k') : MovesTo (view k) (view k') := by
  unfold clockintr at h
  split_ifs at h
  · exact moves_wakeup (k := { k with ticks := k.ticks + 1 }) h
  · cases h; exact .refl

section
variable (hp : (k.proc p).state = .running)
include hp

theorem moves_exit {status : Word} (h : exit k c p status = some k') : MovesTo (view k) (view k') := by
  unfold exit at h
  split_ifs at h
  obtain ⟨k1, h1, h⟩ := bind_eq_some_iff.mp h
  obtain ⟨k2, h2, h⟩ := bind_eq_some_iff.mp h
  cases h
  have hrun : (k2.proc p).state = .running :=
    (wakeup_woken h2).reparented.running ((reparent_reparented h1).running hp)
  rw [view_schedBack]
  refine (moves_reparent h1).trans ((moves_wakeup h2).trans (moves_modProc ?_ ?_ (.inr rfl)))
  · rw [hrun]; simp
  · simp [Proc.exitStart]

theorem moves_yield (h : yield k c p = some k') : MovesTo (view k) (view k') := by
  obtain ⟨q, rfl, hq, hq'⟩ := yield_eq h
  rw [view_schedBack]
  exact moves_ready (by rw [hp]; simp) rfl (.inr rfl) hq hq'

theorem moves_sleep (chan : Chan) : MovesTo (view k) (view (sleep k c p chan)) := by
  unfold sleep
  rw [view_schedBack]
  exact moves_modProc (by rw [hp]; simp) (by simp [Proc.sleepStart]) (.inr rfl)

end

theorem moves_forkWith {start : Word → Proc → Proc} (hst : ∀ t v, (start t v).state = .runnable)
    (hlv : ∀ t v, (start t v).queueLevel = 0) {a : Alloc} {r : Word}
    (h : forkWith start k p a = some (r, k')) : MovesTo (view k) (view k') := by
  have h0 : 0 < QUEUE_LEVELS := by decide
  rcases forkWith_cases h with ⟨-, rfl⟩ | ⟨np, w, hun, -, hw, rfl⟩ | ⟨np, q, hun, -, rfl, hq, hq'⟩
  · exact .refl
  · refine moves_modProc (k := { k with nextpid := k.nextpid + 1 }) (by rw [hun]; simp)
      (by simp [Proc.freeproc]) ?_
    rcases hw with rfl | rfl
    · exact .inr rfl
    · exact .inl h0
  · have hlvl : (child start k p np).queueLevel < QUEUE_LEVELS := by
      simp only [child, hlv]; exact h0
    exact moves_ready
      (f := fun _ => child start k p np) (by rw [hun]; simp) (hst _ _) (.inl hlvl) hq hq'

theorem moves_usertrapTimer (hrun : (k.proc p).state = .running)
    (h : usertrapTimer k c p = some k') : MovesTo (view k) (view k') := by
  obtain ⟨k1, h1, h⟩ := usertrapTimer_cases h
  have hrun1 : (k1.proc p).state = .running := (clockintr_woken h1).reparented.running hrun
  refine (moves_clockintr h1).trans ?_
  rcases h with h | ⟨f, hf, k2, rfl, h⟩
  · exact moves_exit hrun1 h
  let w : Proc := f { k1.proc p with totalTicks := (k1.proc p).totalTicks + 1 }
  have hw : w.state = .running ∧ (w.queueLevel < QUEUE_LEVELS ∨ w.queueLevel = (k1.proc p).queueLevel) := by
    dsimp only [w]
    rcases hf with rfl | rfl
    · exact ⟨hrun1, .inr rfl⟩
    · unfold tickSlice
      split_ifs with hx hl
      · exact ⟨hrun1, .inl (by simp only [QUEUE_LEVELS] at hl ⊢; omega)⟩
      · exact ⟨hrun1, .inr rfl⟩
      · exact ⟨hrun1, .inr rfl⟩
  have hmv : MovesTo (view k1) (view (k1.modProc p fun v => f { v with totalTicks := v.totalTicks + 1 })) :=
    moves_modProc (by rw [hrun1]; simp) (by rw [hw.1]; simp) hw.2
  rcases h with rfl | h
  · exact hmv
  · refine hmv.trans (moves_yield ?_ h)
    rw [modProc_proc_self]; exact hw.1

theorem moves_refill (h : refill k = some k') : MovesTo (view k) (view k') := by
  unfold refill at h
  split_ifs at h
  · refine foldlM_rel (R := fun a b => MovesTo (view a) (view b)) (fun _ => .refl) ReflTransGen.trans
      (fun m q m' hm => ?_) slots h
    unfold refillAt enqueue at hm
    split_ifs at hm with hr
    · obtain ⟨m1, h1, rfl⟩ := map_eq_some_iff.mp hm
      obtain ⟨q', hq', rfl⟩ := map_eq_some_iff.mp h1
      rw [view_modProc_same _ q rfl rfl]; exact .single (.again hr hq')
    · cases hm; exact .refl
  · cases h; exact .refl

theorem exec_cases (hb : Base k) (h : exec k op = some k') : MovesTo (view k) (view k') ∨
    (∃ c pid p, op = .kill c pid ∧ findPid k pid = some p ∧ (k.proc p).state = .sleeping ∧
      view k' = { view k with state := update (view k).state p .runnable }) ∨
    (∃ c mode b, op = .setSched c mode ∧ SchedPolicy.ofMode mode = some b ∧ view k' = { view k with policy := b }) ∨
    ∃ c p, op = .schedule c ∧ otherPick k c = some p ∧ (k.proc p).state = .runnable ∧
      view k' = { view k with state := update (view k).state p .running } := by
  cases exec_ran h with
  | fork hf | forkWithPriority hf => exact .inl (moves_forkWith (fun _ _ => rfl) (fun _ _ => rfl) hf)
  | yield hp h => exact .inl (moves_yield (hb.running _ _ hp) h)
  | sleep hp | waitSleep hp => exact .inl (moves_sleep (hb.running _ _ hp) _)
  | wakeup h => exact .inl (moves_wakeup h)
  | @kill c pid p hp =>
    by_cases hs : (k.proc p).state = .sleeping
    · refine .inr (.inl ⟨c, pid, p, rfl, hp, hs, ?_⟩)
      rw [view_modProc]; simp [Proc.kill, hs, view]
    · left
      rw [view_modProc_same k p (by simp [Proc.kill, hs]) rfl]
  | killNone | waitNone | setSchedNone | setPriorityNone => exact .inl .refl
  | @setkilled _ p =>
    left
    unfold setkilled
    rw [view_modProc_same k p rfl rfl]
  | exit hp h => exact .inl (moves_exit (hb.running _ _ hp) h)
  | reap hz => exact .inl (moves_modProc (by rw [hz]; simp) (by simp [Proc.freeproc]) (.inr rfl))
  | @setSched c mode b hm => exact .inr (.inr (.inl ⟨c, mode, b, rfl, hm, rfl⟩))
  | @setPriority _ _ _ p | @forkret _ p =>
    left
    rw [view_modProc_same k p rfl rfl]
  | usertrapTimer hp h => exact .inl (moves_usertrapTimer (hb.running _ _ hp) h)
  | kerneltrapTimer h =>
    obtain ⟨k1, h1, h⟩ := kerneltrapTimer_cases h
    left
    rcases h with rfl | ⟨p, hp, h⟩
    · exact moves_clockintr h1
    · exact (moves_clockintr h1).trans (moves_yield ((hb.clockintr h1).running _ p hp) h)
  | @schedule c _ _ hs =>
    rcases schedule_cases hs with ⟨-, k2, h2, rfl⟩ | ⟨p, b, -, -, hp, hr, rfl⟩ |
      ⟨k2, l, i, p, -, h2, hl, hi, hq, hr, rfl⟩
    · left
      rcases h2 with rfl | h2
      · exact .refl
      · rw [view_setCpu]; exact moves_refill h2
    · refine .inr (.inr (.inr ⟨c, p, rfl, hp, hr, ?_⟩))
      rw [view_dispatch]; rfl
    · left
      refine (moves_refill h2).trans (.single ?_)
      rw [view_dispatch]; exact .take hr hl hi hq

theorem MovesTo.inv {P : View → Prop} (h : MovesTo v v')
    (hstep : ∀ u u', Move u u' → P u → P u') (h0 : P v) : P v' := by
  induction h with
  | refl => exact h0
  | tail _ h1 ih => exact hstep _ _ h1 ih

theorem Move.ok (h : Move v v') (hq : v.mlfq.Ok) : v'.mlfq.Ok := by
  cases h with
  | idle => exact hq
  | @ready p l q _ _ he hne =>
    by_cases hb : v.policy = .mlfq
    · exact hq.enqueueToMlfq (he hb)
    · rw [hne hb]; exact hq
  | again _ he => exact hq.enqueueToMlfq he
  | take _ _ hi _ => exact hq.removeAt hi

theorem Move.lvl (h : Move v v') (hl : ∀ p, v.lvl p < QUEUE_LEVELS) : ∀ p, v'.lvl p < QUEUE_LEVELS := by
  have hupd : ∀ (p : Slot) (l : ℕ), (l < QUEUE_LEVELS ∨ l = v.lvl p) →
      ∀ q, update v.lvl p l q < QUEUE_LEVELS := by
    intro p l hor q
    rw [update_apply]
    split_ifs
    · rcases hor with h | h
      · exact h
      · rw [h]; exact hl p
    · exact hl q
  cases h with
  | idle _ _ hor | ready _ hor _ _ => exact hupd _ _ hor
  | again _ _ | take _ _ _ _ => exact hl

/-- What holds of the queues in every run: processes on CPUs run, the queues are well formed, and
every level is a level. -/
structure Sound (k : Kernel) : Prop where
  base : Base k
  ok : k.mlfq.Ok
  lvl : ∀ p, (k.proc p).queueLevel < QUEUE_LEVELS

theorem Sound.exec (hs : Sound k) (h : exec k op = some k') : Sound k' := by
  have hb' := hs.base.exec h
  have key : (view k').mlfq.Ok ∧ ∀ p, (view k').lvl p < QUEUE_LEVELS := by
    rcases exec_cases hs.base h with hm | ⟨_, _, _, _, _, _, hv⟩ | ⟨_, _, _, _, _, hv⟩ |
      ⟨_, _, _, _, _, hv⟩
    · exact hm.inv (P := fun v => v.mlfq.Ok ∧ ∀ p, v.lvl p < QUEUE_LEVELS)
        (fun _ _ h1 hi => ⟨h1.ok hi.1, h1.lvl hi.2⟩) ⟨hs.ok, hs.lvl⟩
    · rw [hv]; exact ⟨hs.ok, hs.lvl⟩
    · rw [hv]; exact ⟨hs.ok, hs.lvl⟩
    · rw [hv]; exact ⟨hs.ok, hs.lvl⟩
  exact ⟨hb', key.1, key.2⟩

theorem Sound.boot : Sound boot := by
  refine ⟨Base.boot, Mlfq.ok_init, fun p => ?_⟩
  show (update procinit.proc 0 _ p).queueLevel < QUEUE_LEVELS
  rw [update_apply]
  split_ifs
  · decide
  · exact Nat.zero_lt_succ 2

theorem Sound.run {h : List (Kernel × Op)} (hr : Run sys h k) : Sound k :=
  hr.inv (fun _ h0 => sys_init h0 ▸ Sound.boot) fun _ _ _ hs he => hs.exec he

end Xv6.Sched.Moves
