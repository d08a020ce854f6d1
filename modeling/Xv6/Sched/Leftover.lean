import Xv6.Sched.Bursts

/-!
# What a slot keeps of its earlier occupants

`freeproc` leaves the scheduling fields in the slot; `allocproc` and the two forks overwrite some of them.  Two
kernel states that differ in what was left behind are run side by side, with queries by `get_waiting_time`.

Neither fork stores `waiting_time` or `runtime_start_ticks`, and `fork_with_priority` does not store `ready_time`.  A
record (`Stale`) marks the slots whose field still stems from what an earlier occupant left.  Queries read
`waiting_time`; the HRRN branch reads `last_runtime`, which a process that yields before the end of `forkret` computes
from `runtime_start_ticks`.  All else is overwritten before it is read (`low_exec`).
-/

namespace Xv6.Sched.Leftover

open Lib.Runs Param Sched.Defs Sched.Queues Sched.Ops Sched.Step Sched.Facts
open Sched.Running Sched.Life Sched.Waiting Sched.Bursts

variable {k k' : Kernel} {c : ℕ} {p : Slot} {op : Op}

/-! ## Observations -/

/-- An operation of the kernel, or a call of `get_waiting_time`. -/
inductive Call
  | op (op : Op)
  | getWaitingTime (pid : Word)

/-- What a sequence of calls shows: the process each round of a scheduler dispatches, and the answers
to the queries. -/
inductive Obs
  | dispatched (p : Option Slot)
  | waiting (t : Word)
  deriving DecidableEq

def live (k : Kernel) (pid : Word) : Bool :=
  slots.any fun p => (k.proc p).state ≠ .unused ∧ (k.proc p).pid = pid

def shows (k : Kernel) : Op → List Obs
  | .schedule c => (schedule k c).toList.map fun x => .dispatched x.1
  | _ => []

/-- What the calls show, up to one that cannot be made or panics; queries count for live `pid`s. -/
def observe : Kernel → List Call → List Obs
  | _, [] => []
  | k, .getWaitingTime pid :: cs =>
    (if live k pid then [.waiting (getWaitingTime k pid)] else []) ++ observe k cs
  | k, .op o :: cs =>
    shows k o ++ (match exec k o with
      | none => []
      | some k' => observe k' cs)

def OtherTimes (v w : Proc) : Prop :=
  ∃ at_ pr lr rs ql ts tt rt st wt, w = { v with
    arrivalTime := at_, priority := pr, lastRuntime := lr, runtimeStartTicks := rs, queueLevel := ql,
    timeSlice := ts, totalTicks := tt, readyTime := rt, runStartTime := st, waitingTime := wt }

/-- The states differ only in the scheduling fields of unused slots. -/
structure SameLive (k k' : Kernel) : Prop where
  live : ∀ p, (k.proc p).state ≠ .unused → k'.proc p = k.proc p
  unused : ∀ p, (k.proc p).state = .unused → OtherTimes (k.proc p) (k'.proc p)
  rest : k' = { k with proc := k'.proc }

/-- The slots whose `ready_time`, `waiting_time`, `runtime_start_ticks` and `last_runtime` stem from what was left
behind in the first state. -/
structure Stale where
  ready : Slot → Bool
  wait : Slot → Bool
  start : Slot → Bool
  last : Slot → Bool

def Stale.left (k : Kernel) : Stale :=
  let unused := fun p => decide ((k.proc p).state = .unused)
  ⟨unused, unused, unused, unused⟩

/-- `fork` and `wakeup` store `ready_time`; a dispatch stores `waiting_time` out of `ready_time`.  The HRRN branch
and `forkret` store `runtime_start_ticks`; both forks store `last_runtime`, and `yield` computes it out of
`runtime_start_ticks`.  When a process sleeps or exits, the HRRN branch may have computed it. -/
def Stale.step (k : Kernel) (op : Op) (k' : Kernel) (g : Stale) : Stale where
  ready p := if Becomes k k' p ∧ forgets (k.proc p) op = false then false else g.ready p
  wait p := if Dispatched k k' p then g.ready p else g.wait p
  start p := if LeftForkret k k' p ∨ Dispatched k k' p ∧ hrrnRound k' op = true then false else g.start p
  last p :=
    if (k'.proc p).state = .unused then true
    else if (k.proc p).state = .unused then false
    else if (k.proc p).state = .running ∧ (k'.proc p).state ≠ .running then
      g.start p || ((k'.proc p).state ≠ .runnable && g.last p)
    else g.last p

/-- Every query of a live `pid` finds a `waiting_time` that does not stem from what was left behind. -/
def ownReads : Stale → Kernel → List Call → Bool
  | _, _, [] => true
  | g, k, .getWaitingTime pid :: cs =>
    (!live k pid || (findPid k pid).all fun p => !g.wait p) && ownReads g k cs
  | g, k, .op o :: cs =>
    match exec k o with
    | none => true
    | some k' => ownReads (g.step k o k') k' cs

/-- If the operation starts an HRRN round, the `last_runtime` of no runnable process stems from what was left
behind. -/
def ownBurst (g : Stale) (k : Kernel) : Op → Bool
  | .schedule c => ((k.cpus c).pc = .top ∧ k.currentPolicy = .hrrn) →
      ∀ p, (k.proc p).state = .runnable → g.last p = false
  | _ => true

def ownBursts : Stale → Kernel → List Call → Bool
  | _, _, [] => true
  | g, k, .getWaitingTime _ :: cs => ownBursts g k cs
  | g, k, .op o :: cs => ownBurst g k o && match exec k o with
    | none => true
    | some k' => ownBursts (g.step k o k') k' cs

/-! ## Entries side by side -/

/-- An entry without the fields that may stem from what was left behind: five times, and in an unused slot all
scheduling fields. -/
def core (v : Proc) : Proc :=
  let w := { v with
    lastRuntime := 0, runtimeStartTicks := 0, readyTime := 0, runStartTime := 0, waitingTime := 0 }
  if v.state = .unused then
    { w with arrivalTime := 0, priority := 0, queueLevel := 0, timeSlice := 0, totalTicks := 0 }
  else w

variable {v v' : Proc} {k1 k1' : Kernel} {q : Slot} {L : ProcState → Prop}

theorem core_inUse (h : v.state ≠ .unused) : core v = { v with
    lastRuntime := 0, runtimeStartTicks := 0, readyTime := 0, runStartTime := 0, waitingTime := 0 } := if_neg h

@[simp] theorem core_state (v : Proc) : (core v).state = v.state := by unfold core; split_ifs <;> rfl
@[simp] theorem core_chan (v : Proc) : (core v).chan = v.chan := by unfold core; split_ifs <;> rfl
@[simp] theorem core_killed (v : Proc) : (core v).killed = v.killed := by unfold core; split_ifs <;> rfl
@[simp] theorem core_pid (v : Proc) : (core v).pid = v.pid := by unfold core; split_ifs <;> rfl
@[simp] theorem core_parent (v : Proc) : (core v).parent = v.parent := by unfold core; split_ifs <;> rfl
@[simp] theorem core_inForkret (v : Proc) : (core v).inForkret = v.inForkret := by unfold core; split_ifs <;> rfl

theorem core_otherTimes (h : core v' = core v) (hs : v.state ≠ .unused) : ∃ lr rs rt st wt, v' = { v with
    lastRuntime := lr, runtimeStartTicks := rs, readyTime := rt, runStartTime := st, waitingTime := wt } := by
  have hs' : v'.state ≠ .unused := by rw [← core_state, h, core_state]; exact hs
  rw [core_inUse hs, core_inUse hs'] at h
  refine ⟨v'.lastRuntime, v'.runtimeStartTicks, v'.readyTime, v'.runStartTime, v'.waitingTime, ?_⟩
  cases v
  cases v'
  simp_all

/-- Stores that make of the core of an entry what they make of the entry, but for its core. -/
def Respects (L : ProcState → Prop) (f : Proc → Proc) : Prop := ∀ v, L v.state → core (f (core v)) = core (f v)

theorem respects_freeproc : Respects L Proc.freeproc := by
  intro v _
  simp only [core, Proc.freeproc]; split_ifs <;> rfl

theorem respects_parent (pa : Option Slot) : Respects L fun v => { v with parent := pa } := by
  intro v _
  simp only [core]; split_ifs <;> simp_all

theorem respects_killed : Respects L fun v => { v with killed := true } := by
  intro v _
  simp only [core]; split_ifs <;> simp_all

theorem respects_priority (n : Word) : Respects L fun v => { v with priority := n } := by
  intro v _
  simp only [core]; split_ifs <;> simp_all

theorem respects_timeSlice (n : ℕ) : Respects L fun v => { v with timeSlice := n } := by
  intro v _
  simp only [core]; split_ifs <;> simp_all

theorem respects_kill : Respects L Proc.kill := by
  intro v _
  simp only [core, Proc.kill]; split_ifs <;> simp_all

theorem respects_afterRun (b : SchedPolicy) (t : Word) : Respects L (Proc.afterRun b t) := by
  intro v _
  simp only [core, Proc.afterRun]; split_ifs <;> simp_all

theorem respects_forkret (t : Word) : Respects L (Proc.forkret t) := by
  intro v _
  simp only [core, Proc.forkret]; split_ifs <;> simp_all

theorem respects_wake (t : Word) : Respects (· ≠ .unused) (Proc.wake t) := by
  intro v hv; simp [core, Proc.wake, hv]

theorem respects_yieldStart (t : Word) : Respects (· ≠ .unused) (Proc.yieldStart t) := by
  intro v hv; simp [core, Proc.yieldStart, hv]

theorem respects_sleepStart (chan : Chan) : Respects (· ≠ .unused) (Proc.sleepStart chan) := by
  intro v hv; simp [core, Proc.sleepStart, hv]

theorem respects_exitStart (status : Word) : Respects (· ≠ .unused) (Proc.exitStart status) := by
  intro v hv; simp [core, Proc.exitStart, hv]

theorem respects_addTick : Respects (· ≠ .unused) fun v => { v with totalTicks := v.totalTicks + 1 } := by
  intro v hv; simp [core, hv]

theorem respects_tickSlice : Respects (· ≠ .unused) tickSlice := by
  intro v hv
  rw [core_inUse hv]
  unfold tickSlice
  split_ifs <;> simp [core, hv]

theorem respects_startRun (b : SchedPolicy) (t : Word) :
    Respects (· ≠ .unused) fun v => (v.startRun b t).resume := by
  intro v hv
  rw [core_inUse hv]
  unfold Proc.resume Proc.startRun
  dsimp only
  split <;> simp [core]

theorem respects_allocFound (pid : Word) : Respects L fun v => (v.allocFound pid).freeproc := by
  intro v _
  simp only [core, Proc.allocFound, Proc.freeproc]; split_ifs <;> rfl

theorem respects_allocInit (pid t : Word) : Respects L fun v => ((v.allocFound pid).allocInit t).freeproc := by
  intro v _; simp only [core, Proc.allocFound, Proc.allocInit, Proc.freeproc]

theorem respects_fork (pid t : Word) (p : Slot) :
    Respects L fun v => Proc.forkStart t { (v.allocFound pid).allocInit t with parent := some p } := by
  intro v _
  simp only [core, Proc.forkStart, Proc.allocInit, Proc.allocFound]; split_ifs <;> simp_all

theorem respects_forkWithPriority (pid t n : Word) (p : Slot) :
    Respects L fun v => Proc.forkStartPriority n { (v.allocFound pid).allocInit t with parent := some p } := by
  intro v _
  simp only [core, Proc.forkStartPriority, Proc.allocInit, Proc.allocFound]; split_ifs <;> simp_all

/-! ## Kernels side by side -/

inductive Low : Kernel → Kernel → Prop
  | mk {k : Kernel} (P : Slot → Proc) (h : ∀ p, core (P p) = core (k.proc p)) : Low k { k with proc := P }

section
variable (h : Low k k')
include h

theorem Low.core (p : Slot) : core (k'.proc p) = core (k.proc p) := by
  obtain ⟨P, h⟩ := h; exact h p

/-- What the core of an entry has is the same on both sides. -/
theorem Low.same {α : Type} {f : Proc → α} (hf : ∀ v, f (Leftover.core v) = f v) (p : Slot) :
    f (k'.proc p) = f (k.proc p) := by
  rw [← hf, h.core, hf]

theorem Low.state (p : Slot) : (k'.proc p).state = (k.proc p).state := h.same core_state p

/-- All but the table is the same on both sides. -/
theorem Low.rest : k' = { k with proc := k'.proc } := by
  obtain ⟨P, h⟩ := h; rfl

theorem Low.ticks : k'.ticks = k.ticks := by rw [h.rest]
theorem Low.cpus : k'.cpus = k.cpus := by rw [h.rest]
theorem Low.mlfq : k'.mlfq = k.mlfq := by rw [h.rest]
theorem Low.policy : k'.currentPolicy = k.currentPolicy := by rw [h.rest]
theorem Low.initproc : k'.initproc = k.initproc := by rw [h.rest]
theorem Low.myproc (c : ℕ) : k'.myproc c = k.myproc c := by rw [h.rest]; rfl

theorem Low.modProc {f : Proc → Proc} (hf : Respects L f) (hL : L (k.proc p).state) :
    Low (k.modProc p f) (k'.modProc p f) := by
  have hs := h.state p
  obtain ⟨P, h⟩ := h
  refine Low.mk (Function.update P p (f (P p))) fun q => ?_
  by_cases hq : q = p
  · subst hq
    rw [modProc_proc_self, Function.update_self, ← hf _ (hs ▸ hL), h, hf _ hL]
  · rw [modProc_proc_ne _ hq, Function.update_of_ne hq]; exact h q

theorem Low.modEach {f : Proc → Proc} (hf : Respects (fun _ => True) f) :
    Low (k.modProc p f) (k'.modProc p f) := h.modProc hf trivial

theorem Low.setCpu (c : ℕ) (x : Cpu) : Low (k.setCpu c x) (k'.setCpu c x) := by
  obtain ⟨P, h⟩ := h; exact Low.mk P h

theorem Low.setMlfq (q : Mlfq) : Low { k with mlfq := q } { k' with mlfq := q } := by
  obtain ⟨P, h⟩ := h; exact Low.mk P h

theorem low_enqueue (hs : (k.proc p).state ≠ .unused) : Option.Rel Low (enqueue k p) (enqueue k' p) := by
  have hl : (k'.proc p).queueLevel = (k.proc p).queueLevel := by
    obtain ⟨_, _, _, _, _, he⟩ := core_otherTimes (h.core p) hs
    rw [he]
  unfold Ops.enqueue
  rw [hl, h.mlfq]
  cases enqueueToMlfq k.mlfq (k.proc p).queueLevel p with
  | none => exact .none
  | some q => exact .some (h.setMlfq q)

theorem low_enqueueIfMlfq (hs : (k.proc p).state ≠ .unused) :
    Option.Rel Low (enqueueIfMlfq k p) (enqueueIfMlfq k' p) := by
  unfold Ops.enqueueIfMlfq
  rw [h.policy]
  split_ifs
  · exact low_enqueue h hs
  · exact .some h

theorem low_forkWith {start : Word → Proc → Proc} (hstart : Respects (fun _ => True) fun v =>
      start k.ticks { (v.allocFound k.nextpid).allocInit k.ticks with parent := some p })
    (hlive : ∀ v, (start k.ticks v).state = .runnable) (a : Alloc) :
    Option.Rel (fun x y => Low x.2 y.2) (forkWith start k p a) (forkWith start k' p a) := by
  obtain ⟨P, h⟩ := h
  have hst : ∀ q, (P q).state = (k.proc q).state := (Low.mk P h).state
  have h1 : Low { k with nextpid := k.nextpid + 1 } { k with nextpid := k.nextpid + 1, proc := P } :=
    Low.mk P h
  rw [forkWith_eq, forkWith_eq]
  simp only [hst]
  cases slots.find? fun q => (k.proc q).state = .unused with
  | none => exact .some (Low.mk P h)
  | some np =>
    split_ifs
    · refine rel_map (low_enqueueIfMlfq (h1.modEach hstart) ?_) fun a b _ hab => hab
      rw [modProc_proc_self, hlive]; simp
    · exact .some (h1.modEach (respects_allocInit k.nextpid k.ticks))
    · exact .some (h1.modEach (respects_allocFound k.nextpid))

theorem low_schedBack : Low (schedBack k c p) (schedBack k' c p) := by
  obtain ⟨P, h⟩ := h
  unfold Ops.schedBack
  dsimp only
  split
  · next b hb => exact ((Low.mk P h).modEach (respects_afterRun b k.ticks)).setCpu c _
  · exact (Low.mk P h).setCpu c _

section
variable (hs : (k.proc p).state = .running)
include hs

theorem low_yield : Option.Rel Low (yield k c p) (yield k' c p) := by
  unfold Ops.yield
  rw [h.ticks]
  refine rel_map (low_enqueueIfMlfq (h.modProc (respects_yieldStart k.ticks) (by simp [hs])) ?_)
    fun a b _ hab => low_schedBack hab
  simp [Proc.yieldStart]

theorem low_sleep (chan : Chan) : Low (sleep k c p chan) (sleep k' c p chan) :=
  low_schedBack (h.modProc (respects_sleepStart chan) (by simp [hs]))

end

theorem low_wakeupAt (me : Option Slot) (chan : Chan) (q : Slot) :
    Option.Rel Low (wakeupAt me chan k q) (wakeupAt me chan k' q) := by
  unfold Ops.wakeupAt
  rw [h.state q, h.same core_chan q, h.ticks]
  split_ifs with hme hs
  · refine low_enqueueIfMlfq (h.modProc (respects_wake k.ticks) (by simp [hs.1])) ?_
    simp [Proc.wake]
  · exact .some h
  · exact .some h

theorem low_wakeup (me : Option Slot) (chan : Chan) : Option.Rel Low (wakeup me chan k) (wakeup me chan k') :=
  rel_foldlM (fun q _ _ h => low_wakeupAt h me chan q) slots h

theorem low_reparentAt (q : Slot) : Option.Rel Low (reparentAt p k q) (reparentAt p k' q) := by
  unfold Ops.reparentAt
  rw [h.same core_parent q, h.initproc]
  split_ifs
  · exact low_wakeup (h.modEach (respects_parent k.initproc)) _ _
  · exact .some h

theorem low_exit (hs : (k.proc p).state = .running) (status : Word) :
    Option.Rel Low (exit k c p status) (exit k' c p status) := by
  unfold Ops.exit
  rw [h.initproc]
  split_ifs
  · exact .none
  · refine rel_bind (rel_foldlM (fun q _ _ h => low_reparentAt h q) slots h) fun a b ha hab => ?_
    rw [hab.same core_parent p]
    refine rel_bind (low_wakeup hab _ _) fun a1 b1 ha1 hab1 => ?_
    have hrun : (a1.proc p).state = .running :=
      (wakeup_woken ha1).reparented.running ((reparent_reparented ha).running hs)
    exact .some (low_schedBack (hab1.modProc (respects_exitStart status) (by simp [hrun])))

theorem low_wait (hs : (k.proc p).state = .running) (copyout : Option Bool) :
    Low (wait k c p copyout).2 (wait k' c p copyout).2 := by
  unfold Ops.wait
  simp only [h.state, h.same core_parent, h.same core_killed]
  cases slots.find? fun pp => (k.proc pp).parent = some p ∧ (k.proc pp).state = .zombie with
  | none =>
    dsimp only
    split_ifs
    · exact h
    · exact low_sleep h hs _
  | some pp =>
    dsimp only
    split_ifs
    · exact h
    · exact h.modEach respects_freeproc

theorem low_clockintr : Option.Rel Low (clockintr k c) (clockintr k' c) := by
  obtain ⟨P, h⟩ := h
  unfold Ops.clockintr
  split_ifs
  · exact low_wakeup (Low.mk (k := { k with ticks := k.ticks + 1 }) P h) _ _
  · exact .some (.mk P h)

theorem low_usertrapTimer (hs : (k.proc p).state = .running) :
    Option.Rel Low (usertrapTimer k c p) (usertrapTimer k' c p) := by
  refine rel_bind (low_clockintr h) fun a b ha hab => ?_
  have hrun : (a.proc p).state = .running := (clockintr_woken ha).reparented.running hs
  have h1 := hab.modProc respects_addTick (show (a.proc p).state ≠ .unused by simp [hrun])
  have hrun1 : ((a.modProc p fun v => { v with totalTicks := v.totalTicks + 1 }).proc p).state =
      .running := by
    rw [modProc_proc_self]; exact hrun
  rw [hab.same core_killed p]
  split_ifs
  · exact low_exit hab hrun _
  · generalize ha1 : (a.modProc p fun v => { v with totalTicks := v.totalTicks + 1 }) = a1 at *
    generalize hb1 : (b.modProc p fun v => { v with totalTicks := v.totalTicks + 1 }) = b1 at *
    obtain ⟨_, _, _, _, _, he⟩ := core_otherTimes (h1.core p) (by simp [hrun1])
    have hexp : maxTicks (b1.proc p).queueLevel ≤ (b1.proc p).timeSlice + 1 ↔
        maxTicks (a1.proc p).queueLevel ≤ (a1.proc p).timeSlice + 1 := by
      rw [he]
    have h2 := h1.modProc respects_tickSlice (show (a1.proc p).state ≠ .unused by simp [hrun1])
    have hrun2 : ((a1.modProc p tickSlice).proc p).state = .running := by
      rw [modProc_proc_self]
      unfold tickSlice
      split_ifs <;> exact hrun1
    dsimp only
    rw [h1.policy]
    cases a1.currentPolicy with
    | rr => exact low_yield h1 hrun1
    | mlfq =>
      by_cases hx : maxTicks (a1.proc p).queueLevel ≤ (a1.proc p).timeSlice + 1
      · rw [if_pos hx, if_pos (hexp.mpr hx)]; exact low_yield h2 hrun2
      · rw [if_neg hx, if_neg fun h => hx (hexp.mp h)]
        exact .some h2
    | fcfs | priority | hrrn => exact .some h1

end

theorem low_kerneltrapTimer (hb : Base k) (h : Low k k') :
    Option.Rel Low (kerneltrapTimer k c) (kerneltrapTimer k' c) := by
  refine rel_bind (low_clockintr h) fun a b ha hab => ?_
  have hbase := hb.clockintr ha
  rw [hab.myproc, hab.policy]
  cases hp : a.myproc c with
  | none => exact .some hab
  | some p =>
    split_ifs
    · exact low_yield hab (hbase.running c p hp)
    · exact .some hab

/-- The scans find the same, the one of the HRRN branch if it finds the same `last_runtime`s. -/
theorem scan_congr {b : SchedPolicy} {t : Word} {P Q : Slot → Proc} (h : ∀ p, core (Q p) = core (P p))
    (hown : b = .hrrn → ∀ p, (P p).state = .runnable → (Q p).lastRuntime = (P p).lastRuntime) :
    scan b t Q = scan b t P := by
  have hst : ∀ p, (Q p).state = (P p).state := fun p => by rw [← core_state, h, core_state]
  have hq : ∀ p, (P p).state = .runnable → (Q p).arrivalTime = (P p).arrivalTime ∧
      (Q p).priority = (P p).priority := by
    intro p hs
    obtain ⟨_, _, _, _, _, he⟩ := core_otherTimes (h p) (by simp [hs])
    rw [he]; exact ⟨rfl, rfl⟩
  have key : ∀ (l : List Slot) (a a' : Scan), a'.chosen = a.chosen → a'.minArrival = a.minArrival →
      (b = .hrrn → a' = a) → (∀ q, a.chosen = some q → (P q).state = .runnable) →
      (l.foldl (Scan.step b t Q) a').chosen = (l.foldl (Scan.step b t P) a).chosen := by
    intro l
    induction l with
    | nil => exact fun a a' hch _ _ _ => hch
    | cons p l ih =>
      intro a a' hch hmin hrr ha
      have hbet : (P p).state = .runnable → a'.better b t Q p = a.better b t P p := by
        intro hs
        obtain ⟨h1, h2⟩ := hq p hs
        cases b with
        | fcfs => simp only [Scan.better, h1, hmin]
        | hrrn => simp only [hrr rfl, Scan.better, ratioNum, service, h1, hown rfl p hs]
        | rr | priority | mlfq =>
          simp only [Scan.better, hch]
          cases hc : a.chosen with
          | none => rfl
          | some q => simp only [h2, (hq q (ha q hc)).2]
      rw [List.foldl_cons, List.foldl_cons]
      by_cases hx : (P p).state = .runnable ∧ a.better b t P p = true
      · have htake : b = .hrrn → Scan.take t Q p = Scan.take t P p := fun hb => by
          simp only [Scan.take, ratioNum, service, (hq p hx.1).1, hown hb p hx.1]
        rw [Scan.step, Scan.step, if_pos hx, if_pos ⟨(hst p).trans hx.1, (hbet hx.1).trans hx.2⟩]
        exact ih _ _ rfl (hq p hx.1).1 htake fun q hc => by cases hc; exact hx.1
      · have hx' : ¬((Q p).state = .runnable ∧ a'.better b t Q p = true) := fun hx' =>
          hx ⟨hst p ▸ hx'.1, hbet (hst p ▸ hx'.1) ▸ hx'.2⟩
        rw [Scan.step, Scan.step, if_neg hx, if_neg hx']
        exact ih _ _ hch hmin hrr ha
  exact key slots .start .start rfl rfl (fun _ => rfl) nofun

theorem low_dispatch (h : Low k k') (hs : (k.proc p).state = .runnable) (b : SchedPolicy) :
    Low (dispatch k c b p) (dispatch k' c b p) := by
  unfold dispatch
  rw [h.ticks]
  exact (h.modProc (respects_startRun b k.ticks) (by simp [hs])).setCpu c _

theorem low_refillAt (h : Low k k') (q : Slot) : Option.Rel Low (refillAt k q) (refillAt k' q) := by
  unfold refillAt
  rw [h.state q]
  split_ifs with hs
  · exact rel_map (low_enqueue h (by simp [hs])) fun a b _ hab =>
      hab.modEach (respects_timeSlice 0)
  · exact .some h

theorem low_refill (h : Low k k') : Option.Rel Low (refill k) (refill k') := by
  unfold refill
  rw [h.mlfq]
  split_ifs
  · exact rel_foldlM (fun q _ _ h => low_refillAt h q) slots h
  · exact .some h

def SameRound (x y : Option Slot × Kernel) : Prop := x.1 = y.1 ∧ Low x.2 y.2

section
variable (h : Low k k')
include h

theorem low_schedRr (i : ℕ) : SameRound (schedRr k c i) (schedRr k' c i) := by
  unfold schedRr
  simp only [h.state]
  cases hp : slots.find? fun p : Slot => i ≤ (p : ℕ) ∧ (k.proc p).state = .runnable with
  | none => exact ⟨rfl, h.setCpu c _⟩
  | some p =>
    have hs := List.find?_some hp
    simp only [decide_eq_true_eq] at hs; exact ⟨rfl, low_dispatch h hs.2 .rr⟩

theorem low_schedScan (b : SchedPolicy)
    (hown : b = .hrrn → ∀ p, (k.proc p).state = .runnable → (k'.proc p).lastRuntime = (k.proc p).lastRuntime) :
    SameRound (schedScan k c b) (schedScan k' c b) := by
  unfold schedScan
  rw [h.ticks, scan_congr h.core hown]
  cases hp : scan b k.ticks k.proc with
  | none => exact ⟨rfl, h.setCpu c _⟩
  | some p => exact ⟨rfl, low_dispatch h (scan_runnable hp) b⟩

theorem low_scanMlfq : SameRound (scanMlfq k c) (scanMlfq k' c) := by
  have hr : runnableAt k' = runnableAt k := by
    funext x
    unfold runnableAt
    rw [h.mlfq]
    split
    · rfl
    · rw [h.state]
  unfold scanMlfq
  rw [h.mlfq, hr]
  cases hx : (positions k.mlfq).find? (runnableAt k) with
  | none => exact ⟨rfl, h.setCpu c _⟩
  | some x =>
    have hs := List.find?_some hx
    unfold runnableAt at hs
    dsimp only
    cases hq : k.mlfq.queue x.1 x.2 with
    | none => exact ⟨rfl, h⟩
    | some p =>
      rw [hq] at hs
      exact ⟨rfl, low_dispatch (h.setMlfq _) (by simpa using hs) .mlfq⟩

theorem low_schedule (hown : (k.cpus c).pc = .top ∧ k.currentPolicy = .hrrn →
      ∀ p, (k.proc p).state = .runnable → (k'.proc p).lastRuntime = (k.proc p).lastRuntime) :
    Option.Rel SameRound (schedule k c) (schedule k' c) := by
  unfold Step.schedule
  rw [h.cpus, h.policy]
  cases hpc : (k.cpus c).pc with
  | swtch b => exact .none
  | rr i found => exact .some (low_schedRr h i)
  | top =>
    cases hpol : k.currentPolicy with
    | rr => exact .some (low_schedRr h 0)
    | mlfq => exact rel_map (low_refill h) fun a b _ hab => low_scanMlfq hab
    | fcfs | priority => exact .some (low_schedScan h _ nofun)
    | hrrn => exact .some (low_schedScan h .hrrn fun _ => hown ⟨hpc, hpol⟩)

end

/-- The `last_runtime`s that an operation reads are the same on both sides. -/
def SameBursts (k k' : Kernel) : Op → Prop
  | .schedule c => (k.cpus c).pc = .top ∧ k.currentPolicy = .hrrn →
      ∀ p, (k.proc p).state = .runnable → (k'.proc p).lastRuntime = (k.proc p).lastRuntime
  | _ => True

theorem low_exec (hb : Base k) (h : Low k k') (op : Op) (hown : SameBursts k k' op) :
    Option.Rel Low (exec k op) (exec k' op) := by
  have hpid : ∀ pid, findPid k' pid = findPid k pid := by
    intro pid; simp only [findPid, h.same core_pid]
  have hrel : ∀ x : Option Slot, Option.Rel Eq x x := fun x => by
    cases x with
    | none => exact .none
    | some p => exact .some rfl
  have hcall : ∀ c, k'.caller c = k.caller c := fun c => by
    unfold Kernel.caller; simp only [h.myproc, h.same core_inForkret]
  have hme : ∀ c, Option.Rel Eq (k.caller c) (k'.caller c) := fun c => hcall c ▸ hrel _
  have hst : ∀ c, k'.starter c = k.starter c := fun c => by
    unfold Kernel.starter; simp only [h.myproc, h.same core_inForkret]
  have hrun : ∀ {c p}, k.caller c = some p → (k.proc p).state = .running := fun hp =>
    hb.running _ _ (Option.filter_eq_some_iff.mp hp).1
  cases op with
  | fork c a =>
    refine rel_bind (hme c) fun | p, _, _, rfl => ?_
    exact rel_map (low_forkWith h (respects_fork _ _ p) (fun _ => rfl) a) fun _ _ _ hab => hab
  | forkWithPriority c n a =>
    refine rel_bind (hme c) fun | p, _, _, rfl => ?_
    exact rel_map (low_forkWith h (respects_forkWithPriority _ _ n p) (fun _ => rfl) a) fun _ _ _ hab => hab
  | yield c => exact rel_bind (hme c) fun | p, _, hp, rfl => low_yield h (hrun hp)
  | sleep c chan =>
    simp only [exec, hcall, hst, h.initproc]
    refine rel_map (hrel _) fun | p, _, hp, rfl => low_sleep h ?_ chan
    rcases Option.or_eq_some_iff.mp hp with hp | ⟨-, hp⟩
    · exact hrun hp
    · exact hb.running c p (Option.filter_eq_some_iff.mp (Option.filter_eq_some_iff.mp hp).1).1
  | wakeup c chan => simp only [exec, h.myproc]; exact low_wakeup h _ chan
  | kill c pid =>
    refine rel_map (hme c) fun _ _ _ _ => ?_
    simp only [kill, hpid]
    cases findPid k pid with
    | none => exact h
    | some q => exact h.modEach respects_kill
  | setkilled c =>
    exact rel_map (hme c) fun | p, _, _, rfl => h.modEach respects_killed
  | exit c status => exact rel_bind (hme c) fun | p, _, hp, rfl => low_exit h (hrun hp) status
  | wait c copyout => exact rel_map (hme c) fun | p, _, hp, rfl => low_wait h (hrun hp) copyout
  | setSched c mode =>
    refine rel_map (hme c) fun _ _ _ _ => ?_
    simp only [setSched]
    cases SchedPolicy.ofMode mode with
    | none => exact h
    | some b =>
      obtain ⟨P, h⟩ := h; exact Low.mk P h
  | setPriority c pid prio =>
    refine rel_map (hme c) fun _ _ _ _ => ?_
    simp only [setPriority, hpid]
    cases findPid k pid with
    | none => exact h
    | some q => exact h.modEach (respects_priority prio)
  | usertrapTimer c => exact rel_bind (hme c) fun | p, _, hp, rfl => low_usertrapTimer h (hrun hp)
  | kerneltrapTimer c => exact low_kerneltrapTimer hb h
  | schedule c => exact rel_map (low_schedule h hown) fun _ _ _ hab => hab.2
  | forkret c =>
    simp only [exec, hst, h.ticks]
    exact rel_map (hrel _) fun | p, _, _, rfl => h.modEach (respects_forkret _)

/-! ## The times -/

theorem effect_times (h : Effect k op k' q) :
    (k'.proc q).readyTime = (if Becomes k k' q ∧ forgets (k.proc q) op = false then
      k.ticks + ticked op else (k.proc q).readyTime) ∧
    (k'.proc q).waitingTime = (if Dispatched k k' q then
      k.ticks + ticked op - (k.proc q).readyTime else (k.proc q).waitingTime) ∧
    (k'.proc q).runtimeStartTicks = if LeftForkret k k' q ∨ Dispatched k k' q ∧ hrrnRound k' op = true then
      k.ticks + ticked op else (k.proc q).runtimeStartTicks := by
  unfold Becomes Dispatched LeftForkret
  rcases h with ⟨pa, pr, l, s, n, hv⟩ | ⟨c, hop, hv⟩ | ⟨c, hop, hs, hv⟩ | ⟨hop, hs, w, hw, hv⟩ |
    ⟨c, -, hs, w, hw, f, hf, hv⟩ | ⟨c, b, hop, hs, hc, w, hw, hv⟩ | ⟨c, o, hop, hs, hv⟩ |
    ⟨hs, w, hw, hv⟩ | ⟨c, a, p, hop, hs, hv⟩ | ⟨c, n, a, p, hop, hs, hv⟩ | ⟨c, hop, hs, hf, hv⟩
  · simp only [hv]; grind
  · simp only [hv, hop, Proc.kill, forgets]; grind
  · simp [hv, hs]
  · obtain ⟨pa, pr, l, s, n, rfl⟩ := hw
    -- `kill` wakes a sleeper too, without a store; it is the case before
    have hfor : forgets (k.proc q) op = false := by
      unfold forgets
      rw [hs]
      cases op <;> first | rfl | exact absurd rfl (hop _ _)
    simp [hv, hs, Proc.wake, hfor]
  · obtain ⟨r, hr⟩ := backFrom_eq (k.cpus c).pc (k.ticks + ticked op) (f w)
    obtain ⟨pa, pr, l, s, n, rfl⟩ := hw
    simp only [hv.trans hr, hs, forgets]
    cases hf <;> cases (k.proc q).inForkret <;> simp [Proc.yieldStart, Proc.sleepStart, Proc.exitStart]
  · obtain ⟨pa, pr, l, s, n, rfl⟩ := hw
    simp only [hv, hs, hop, hrrnRound, hc]
    unfold Proc.resume Proc.startRun
    cases b <;> (split <;> simp)
  · simp [hv, hs, Proc.freeproc]
  · rcases hw with rfl | rfl <;> simp [hv, hs, Proc.freeproc, Proc.allocInit]
  · simp [hv, hs, hop, child, forgets, ticked, Proc.forkStart, Proc.allocInit, Proc.allocFound]
  · simp [hv, hs, hop, child, forgets, Proc.forkStartPriority, Proc.allocInit, Proc.allocFound]
  · simp [hv, hs, hop, hf, forgets, ticked, Proc.forkret]

theorem exec_lastRuntime (hb : Base k) (h : exec k op = some k') (hu : (k'.proc q).state ≠ .unused) :
    ((k.proc q).state = .unused → (k'.proc q).lastRuntime = 1) ∧
    ((k.proc q).state = .running → (k'.proc q).state ≠ .running → ∃ c, (k.cpus c).proc = some q ∧
      (k'.proc q).lastRuntime = if (k.cpus c).pc = .swtch .hrrn ∨ (k'.proc q).state = .runnable then
        (k.proc q).burst (k.ticks + ticked op) else (k.proc q).lastRuntime) ∧
    ((k.proc q).state ≠ .unused → ¬((k.proc q).state = .running ∧ (k'.proc q).state ≠ .running) →
      (k'.proc q).lastRuntime = (k.proc q).lastRuntime) := by
  rcases exec_burst hb h q with hq | ⟨c, hc, hl⟩ | ⟨c, b, -, -, hs, -, -, hlast⟩ | hu' | ⟨hs, hs', hlast⟩ | ⟨hs, -, hv⟩
  · have hst := hq.state
    refine ⟨fun h1 => ?_, fun h1 h2 => ?_, fun _ _ => hq.last⟩
    · simp [h1, hu] at hst
    · simp [h1, h2] at hst
  · have hst := hl.state
    refine ⟨fun h1 => ?_, fun _ _ => ⟨c, hc, hl.last⟩, fun _ h2 => ?_⟩
    · simp [hl.running] at h1
    · have hrun : (k'.proc q).state = .running := not_not.mp fun h3 => h2 ⟨hl.running, h3⟩
      simp [hrun] at hst
  · exact ⟨fun h1 => by simp [hs] at h1, fun h1 => by simp [hs] at h1, fun _ _ => hlast⟩
  · exact absurd hu' hu
  · exact ⟨fun _ => hlast, fun h1 => by simp [hs] at h1, fun h1 => absurd hs h1⟩
  · rw [hv]
    exact ⟨fun h1 => by simp [hs] at h1, fun _ h2 => absurd hs h2, fun _ _ => rfl⟩

/-- The two states agree, and a field that stems from what was left behind is related by `dr` or
`dw`, or not at all. -/
structure Agree (dr dw : Word → Word → Prop) (g : Stale) (k k' : Kernel) : Prop where
  low : Low k k'
  ready : ∀ p, if g.ready p then dr (k.proc p).readyTime (k'.proc p).readyTime
    else (k'.proc p).readyTime = (k.proc p).readyTime
  wait : ∀ p, if g.wait p then dw (k.proc p).waitingTime (k'.proc p).waitingTime
    else (k'.proc p).waitingTime = (k.proc p).waitingTime
  start : ∀ p, g.start p = false → (k'.proc p).runtimeStartTicks = (k.proc p).runtimeStartTicks
  last : ∀ p, g.last p = false → (k'.proc p).lastRuntime = (k.proc p).lastRuntime

theorem Low.base (h : Low k k') (hb : Base k) : Base k' := by
  have hst := h.state
  obtain ⟨P, h⟩ := h
  refine hb.congr rfl fun q hq => ?_
  rw [hst q]; exact hq

theorem forgets_congr (h : v'.state = v.state) (op : Op) : forgets v' op = forgets v op := by
  unfold forgets
  rw [h]

variable {dr dw : Word → Word → Prop} {g : Stale}

theorem Agree.last_step (hb : Base k) (h : Agree dr dw g k k') (he : exec k op = some k1)
    (he' : exec k' op = some k1') (h1 : Low k1 k1') (hl : (g.step k op k1).last p = false) :
    (k1'.proc p).lastRuntime = (k1.proc p).lastRuntime := by
  have hst := h.low.state p
  have hst1 := h1.state p
  simp only [Stale.step] at hl
  split_ifs at hl with hu hc hr
  · obtain ⟨e, -⟩ := exec_lastRuntime hb he hu
    obtain ⟨e', -⟩ := exec_lastRuntime (h.low.base hb) he' (hst1 ▸ hu)
    rw [e hc, e' (hst.trans hc)]
  · obtain ⟨-, e, -⟩ := exec_lastRuntime hb he hu
    obtain ⟨-, e', -⟩ := exec_lastRuntime (h.low.base hb) he' (hst1 ▸ hu)
    obtain ⟨c, hp, e⟩ := e hr.1 hr.2
    obtain ⟨c', hp', e'⟩ := e' (hst.trans hr.1) (hst1 ▸ hr.2)
    rw [h.low.cpus] at hp' e'
    cases hb.uniq c c' p hp hp'
    simp only [Bool.or_eq_false_iff, Bool.and_eq_false_iff, decide_eq_false_iff_not, not_not] at hl
    have hburst : (k'.proc p).burst (k'.ticks + ticked op) = (k.proc p).burst (k.ticks + ticked op) := by
      unfold Proc.burst
      rw [h.start p hl.1, h.low.ticks]
    rw [e, e', hst1, hburst]
    split_ifs with hif
    · rfl
    · exact h.last p (hl.2.resolve_left fun hs => hif (.inr hs))
  · obtain ⟨-, -, e⟩ := exec_lastRuntime hb he hu
    obtain ⟨-, -, e'⟩ := exec_lastRuntime (h.low.base hb) he' (hst1 ▸ hu)
    rw [e hc hr, e' (hst ▸ hc) (by rw [hst, hst1]; exact hr)]; exact h.last p hl

theorem Agree.step (hd : ∀ t a b, dr a b → dw (t - a) (t - b)) (hb : Base k)
    (h : Agree dr dw g k k') (he : exec k op = some k1)
    (he' : exec k' op = some k1') (h1 : Low k1 k1') : Agree dr dw (g.step k op k1) k1 k1' := by
  have hbec : ∀ p, Becomes k' k1' p ↔ Becomes k k1 p := fun p => by
    unfold Becomes
    rw [h.low.state, h1.state]
  have hdis : ∀ p, Dispatched k' k1' p ↔ Dispatched k k1 p := fun p => by
    unfold Dispatched
    rw [h.low.state, h1.state]
  have hleft : ∀ p, LeftForkret k' k1' p ↔ LeftForkret k k1 p := fun p => by
    unfold LeftForkret
    rw [h.low.same core_inForkret, h1.same core_inForkret]
  have hround : hrrnRound k1' op = hrrnRound k1 op := by rw [h1.rest]; rfl
  have ht := fun p => effect_times (exec_effect hb he p)
  have ht' := fun p => effect_times (exec_effect (h.low.base hb) he' p)
  simp only [hbec, hdis, hleft, hround, h.low.ticks, forgets_congr (h.low.state _)] at ht'
  refine ⟨h1, fun p => ?_, fun p => ?_, fun p hs => ?_, fun p => h.last_step hb he he' h1⟩
  · have hr := h.ready p
    rw [(ht p).1, (ht' p).1]
    simp only [Stale.step]
    by_cases hc : Becomes k k1 p ∧ forgets (k.proc p) op = false
    · simp [if_pos hc]
    · simpa only [if_neg hc] using hr
  · have hr := h.ready p
    have hw := h.wait p
    rw [(ht p).2.1, (ht' p).2.1]
    simp only [Stale.step]
    by_cases hc : Dispatched k k1 p
    · simp only [if_pos hc]
      split_ifs at hr ⊢
      · exact hd _ _ _ hr
      · rw [hr]
    · simpa only [if_neg hc] using hw
  · simp only [Stale.step] at hs
    rw [(ht p).2.2, (ht' p).2.2]
    split_ifs at hs ⊢
    · rfl
    · exact h.start p hs

theorem Agree.sameFind (h : Agree dr dw g k k') (pid : Word) :
    findPid k' pid = findPid k pid ∧ live k' pid = live k pid := by
  unfold findPid live; simp only [h.low.same core_pid, h.low.state, and_self]

theorem Agree.sameAnswer (h : Agree dr dw g k k') (pid : Word) :
    ((findPid k pid).all fun p => !g.wait p) = true → getWaitingTime k' pid = getWaitingTime k pid := by
  intro hall
  unfold getWaitingTime
  rw [(h.sameFind pid).1]
  cases hp : findPid k pid with
  | none => rfl
  | some p =>
    have hw := h.wait p
    rw [hp] at hall
    have hg : g.wait p = false := by simpa using hall
    rw [hg] at hw; simpa using hw

theorem Agree.own_of_sameAnswer (hne : ∀ a b, dw a b → a ≠ b) (h : Agree dr dw g k k') (pid : Word)
    (heq : getWaitingTime k' pid = getWaitingTime k pid) : ((findPid k pid).all fun p => !g.wait p) = true := by
  unfold getWaitingTime at heq
  rw [(h.sameFind pid).1] at heq
  cases hp : findPid k pid with
  | none => rfl
  | some p =>
    rw [hp] at heq
    have hw := h.wait p
    cases hg : g.wait p with
    | false => simp [hg]
    | true => rw [hg] at hw; exact absurd heq.symm (hne _ _ (by simpa using hw))

theorem Agree.sameBursts (h : Agree dr dw g k k') (hown : ownBurst g k op = true) : SameBursts k k' op := by
  cases op with
  | schedule c => exact fun hc p hp => h.last p (of_decide_eq_true hown hc p hp)
  | _ => trivial

theorem shows_eq (h : Low k k') (hown : SameBursts k k' op) : shows k' op = shows k op := by
  cases op with
  | schedule c =>
    have hs := low_schedule (c := c) h hown
    simp only [shows]
    cases hk : schedule k c with
    | none => rw [rel_eq_none hs hk]
    | some x =>
      obtain ⟨y, hy, hxy⟩ := rel_eq_some hs hk; simp [hy, hxy.1]
  | _ => rfl

theorem observe_agree (hd : ∀ t a b, dr a b → dw (t - a) (t - b)) (cs : List Call) (hb : Base k)
    (h : Agree dr dw g k k') (hown : ownBursts g k cs = true) :
    (ownReads g k cs = true → observe k' cs = observe k cs) ∧
    ((∀ a b, dw a b → a ≠ b) → observe k' cs = observe k cs → ownReads g k cs = true) := by
  induction cs generalizing k k' g with
  | nil => exact ⟨fun _ => rfl, fun _ _ => rfl⟩
  | cons x cs ih =>
    cases x with
    | getWaitingTime pid =>
      have hi := ih hb h hown
      simp only [observe, ownReads, (h.sameFind pid).2, Bool.and_eq_true, Bool.or_eq_true]
      cases live k pid with
      | false => simpa using hi
      | true =>
        simp only [if_true, List.singleton_append, List.cons.injEq, Obs.waiting.injEq]
        refine ⟨fun ho => ⟨h.sameAnswer pid (by simpa using ho.1), hi.1 ho.2⟩, fun hne ho => ?_⟩
        exact ⟨.inr (h.own_of_sameAnswer hne pid ho.1), hi.2 hne ho.2⟩
    | op o =>
      rw [ownBursts, Bool.and_eq_true] at hown
      have hbur := h.sameBursts hown.1
      have hl := low_exec hb h.low o hbur
      simp only [observe, ownReads, shows_eq h.low hbur, List.append_cancel_left_eq]
      cases he : exec k o with
      | none => rw [rel_eq_none hl he]; exact ⟨fun _ => rfl, fun _ _ => rfl⟩
      | some k1 =>
        obtain ⟨k1', he', h1⟩ := rel_eq_some hl he
        have hrest := hown.2
        rw [he] at hrest
        rw [he']; exact ih (hb.exec he) (h.step hd hb he he' h1) hrest

/-! ## The result -/

theorem SameLive.low (h : SameLive k k') : Low k k' := by
  rw [h.rest]
  refine .mk _ fun p => ?_
  by_cases hs : (k.proc p).state = .unused
  · obtain ⟨at_, pr, lr, rs, ql, ts, tt, rt, st, wt, hv⟩ := h.unused p hs
    rw [hv]; simp [core, hs]
  · rw [h.live p hs]

theorem SameLive.agree (h : SameLive k k')
    (hr : ∀ p, (k.proc p).state = .unused → dr (k.proc p).readyTime (k'.proc p).readyTime)
    (hw : ∀ p, (k.proc p).state = .unused → dw (k.proc p).waitingTime (k'.proc p).waitingTime) :
    Agree dr dw (Stale.left k) k k' := by
  have hlive : ∀ p, decide ((k.proc p).state = .unused) = false → k'.proc p = k.proc p := fun p hs =>
    h.live p (of_decide_eq_false hs)
  refine ⟨h.low, fun p => ?_, fun p => ?_, fun p hs => by rw [hlive p hs], fun p hs => by rw [hlive p hs]⟩
  · by_cases hs : (k.proc p).state = .unused
    · simpa [Stale.left, hs] using hr p hs
    · simp [Stale.left, hs, h.live p hs]
  · by_cases hs : (k.proc p).state = .unused
    · simpa [Stale.left, hs] using hw p hs
    · simp [Stale.left, hs, h.live p hs]

/-- The state with other times left behind: each `ready_time` a tick later, each `waiting_time` a tick
shorter. -/
def shifted (k : Kernel) : Kernel :=
  { k with
    proc := fun p => if (k.proc p).state = .unused then
      { k.proc p with
        readyTime := (k.proc p).readyTime + 1, waitingTime := (k.proc p).waitingTime - 1 }
      else k.proc p }

theorem sameLive_shifted (k : Kernel) : SameLive k (shifted k) := by
  refine ⟨fun p hs => if_neg hs, fun p hs => ?_, rfl⟩
  have he : (shifted k).proc p = { k.proc p with
      readyTime := (k.proc p).readyTime + 1, waitingTime := (k.proc p).waitingTime - 1 } := if_pos hs
  rw [he]; exact ⟨_, _, _, _, _, _, _, _, _, _, rfl⟩

/-- **When nothing left behind is seen**: in a reachable state, calls whose HRRN rounds read no `last_runtime` that
stems from the scheduling fields of unused slots show the same whatever these fields hold exactly if every query of a
live `pid` reads a `waiting_time` that does not stem from them either. -/
theorem unseen_iff (hk : Reachable sys k) (cs : List Call) (hown : ownBursts (Stale.left k) k cs = true) :
    (∀ k', SameLive k k' → observe k' cs = observe k cs) ↔ ownReads (Stale.left k) k cs = true := by
  have hb : Base k := by
    refine hk.inv (fun s h0 => ?_) fun s op s' hs he => hs.exec he
    rw [sys_init h0]; exact Base.boot
  constructor
  · intro h
    have ha : Agree (fun a b => b = a + 1) (fun a b => b = a - 1) (Stale.left k) k (shifted k) := by
      refine (sameLive_shifted k).agree (fun p hs => ?_) fun p hs => ?_
      · simp [shifted, hs]
      · simp [shifted, hs]
    refine (observe_agree (fun t a b hab => ?_) cs hb ha hown).2 (fun a b hab => ?_) (h _ (sameLive_shifted k))
    · bv_omega
    · bv_omega
  · intro h k' hs
    have ha : Agree (fun _ _ => True) (fun _ _ => True) (Stale.left k) k k' :=
      hs.agree (fun _ _ => trivial) fun _ _ => trivial
    exact (observe_agree (fun _ _ _ _ => trivial) cs hb ha hown).1 h

def forked : List Call :=
  [.op (.schedule 0), .op (.forkret 0), .op (.setSched 0 3), .op (.fork 0 ⟨true, true, true⟩), .op (.schedule 1),
    .op (.forkret 1), .op (.yield 1), .op (.schedule 1), .getWaitingTime 2]

theorem unseen_iff_forked :
    observe boot forked = [.dispatched (some 0), .dispatched (some 1), .dispatched (some 1), .waiting 0] ∧
    ∀ k', SameLive boot k' → observe k' forked = observe boot forked := by
  refine ⟨by decide +kernel, (unseen_iff ⟨_, .start userinit_procinit⟩ forked ?_).mpr ?_⟩
  · decide +kernel
  · decide +kernel

def waited : List Op :=
  [.schedule 0, .forkret 0, .setSched 0 1, .fork 0 ⟨true, true, true⟩, .kerneltrapTimer 0, .schedule 1, .forkret 1,
    .exit 1 0, .wait 0 none]

def ranAtOnce : List Op :=
  [.schedule 0, .forkret 0, .setSched 0 1, .fork 0 ⟨true, true, true⟩, .schedule 1, .forkret 1, .kerneltrapTimer 0,
    .exit 1 0, .wait 0 none]

/-- A child is dispatched by the FCFS branch at tick 2 and yields before the end of `forkret`. -/
def preempted : List Call :=
  [.op (.schedule 0), .op (.forkret 0), .op (.setSched 0 1), .op (.fork 0 ⟨true, true, true⟩),
    .op (.fork 0 ⟨true, true, true⟩), .op (.kerneltrapTimer 0), .op (.kerneltrapTimer 0), .op (.schedule 1),
    .op (.setSched 0 0), .op (.kerneltrapTimer 1), .op (.setSched 0 3), .op (.schedule 1)]

/-- The state `k` with other times in slot 1. -/
def leaving (k : Kernel) (rs st wt : Word) : Kernel :=
  k.modProc 1 fun v => { v with runtimeStartTicks := rs, runStartTime := st, waitingTime := wt }

theorem sameLive_leaving (hu : (k.proc 1).state = .unused) (rs st wt : Word) : SameLive k (leaving k rs st wt) := by
  refine ⟨fun p hp => ?_, fun p hp => ?_, rfl⟩
  · have hp1 : p ≠ 1 := fun he => hp (he ▸ hu)
    exact modProc_proc_ne _ hp1 _
  · unfold leaving
    by_cases hp1 : p = 1
    · subst hp1; exact ⟨_, _, _, _, _, _, _, _, _, _, rfl⟩
    · rw [modProc_proc_ne _ hp1]; exact ⟨_, _, _, _, _, _, _, _, _, _, rfl⟩

/-- `get_waiting_time` of a new child tells how long the last occupant of its slot had waited; and which of two
children an HRRN round takes tells when the last occupant of the slot of the first was dispatched. -/
theorem leftovers_seen : (∃ k₁ k₂ k₃, Reachable sys k₁ ∧ SameLive k₁ k₂ ∧
    Reachable sys k₃ ∧ (∀ p, k₃.proc p = k₂.proc p) ∧
    observe k₁ [.op (.fork 0 ⟨true, true, true⟩), .getWaitingTime 3] = [.waiting 1] ∧
    observe k₂ [.op (.fork 0 ⟨true, true, true⟩), .getWaitingTime 3] = [.waiting 0]) ∧
    ∃ k', SameLive boot k' ∧
      observe boot preempted = [.dispatched (some 0), .dispatched (some 1), .dispatched (some 2)] ∧
      observe k' preempted = [.dispatched (some 0), .dispatched (some 1), .dispatched (some 1)] := by
  obtain ⟨k₁, hr1, -, ht⟩ := run_of_ops waited (fun k₁ => (ranAtOnce.foldlM exec boot).any fun k₃ =>
    (k₁.proc 1).state = .unused ∧ (∀ p, k₃.proc p = (leaving k₁ 0 0 0).proc p) ∧
    observe k₁ [.op (.fork 0 ⟨true, true, true⟩), .getWaitingTime 3] = [.waiting 1] ∧
    observe (leaving k₁ 0 0 0) [.op (.fork 0 ⟨true, true, true⟩), .getWaitingTime 3] = [.waiting 0])
    (by decide +kernel)
  obtain ⟨k₃, hr3, -, ht⟩ := run_of_ops ranAtOnce _ ht
  obtain ⟨hu, hp, ho1, ho2⟩ := of_decide_eq_true ht
  refine ⟨⟨k₁, leaving k₁ 0 0 0, k₃, ⟨_, hr1⟩, sameLive_leaving hu 0 0 0, ⟨_, hr3⟩, hp, ho1, ho2⟩, ?_⟩
  exact ⟨leaving boot 2 0 0, sameLive_leaving (by decide +kernel) 2 0 0, by decide +kernel, by decide +kernel⟩

end Xv6.Sched.Leftover
