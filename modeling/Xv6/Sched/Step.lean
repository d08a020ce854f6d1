import Xv6.Lib.Runs
import Xv6.Sched.Ops

/-!
# The scheduler, and the kernel as a transition system

`scheduler` is cut at its context switches: `schedule k c` runs the scheduler thread of CPU `c` from
where it is to its next dispatch, or to the end of the current round of its loop if it finds nothing
to run.  The policy is tested at the head of the loop only, so a round-robin pass goes on over the
rest of the table after `current_policy` has changed.

`sys` is the kernel: boot is `userinit`, a step is one operation of `Op` run by one CPU.
-/

namespace Xv6.Sched.Step

open Lib.Runs Param Sched.Defs Sched.Queues Sched.Ops

def dispatch (k : Kernel) (c : ℕ) (b : SchedPolicy) (p : Slot) : Kernel :=
  (k.modProc p fun v => (v.startRun b k.ticks).resume).setCpu c ⟨some p, .swtch b⟩

def schedScan (k : Kernel) (c : ℕ) (b : SchedPolicy) : Option Slot × Kernel :=
  match scan b k.ticks k.proc with
  | some p => (some p, dispatch k c b p)
  | none => (none, k.setCpu c ⟨none, .top⟩)

/-- The round-robin branch, from slot `i` on. -/
def schedRr (k : Kernel) (c i : ℕ) : Option Slot × Kernel :=
  match slots.find? fun p : Slot => i ≤ (p : ℕ) ∧ (k.proc p).state = .runnable with
  | some p => (some p, dispatch k c .rr p)
  | none => (none, k.setCpu c ⟨none, .top⟩)

def totalQsize (q : Mlfq) : ℕ := ((List.range QUEUE_LEVELS).map q.qsize).sum

def refillAt (k : Kernel) (q : Slot) : Option Kernel :=
  if (k.proc q).state = .runnable then
    (enqueue k q).map fun k => k.modProc q fun v => { v with timeSlice := 0 }
  else some k

def refill (k : Kernel) : Option Kernel :=
  if totalQsize k.mlfq = 0 then slots.foldlM refillAt k else some k

def positions (q : Mlfq) : List (ℕ × ℕ) :=
  (List.range QUEUE_LEVELS).flatMap fun l => (List.range (q.qsize l)).map fun i => (l, i)

/-- The entry at a position is a process in state `RUNNABLE`. -/
def runnableAt (k : Kernel) (x : ℕ × ℕ) : Bool :=
  match k.mlfq.queue x.1 x.2 with
  | none => false
  | some p => (k.proc p).state = .runnable

def scanMlfq (k : Kernel) (c : ℕ) : Option Slot × Kernel :=
  match (positions k.mlfq).find? (runnableAt k) with
  | none => (none, k.setCpu c ⟨none, .top⟩)
  | some x =>
    match k.mlfq.queue x.1 x.2 with
    | none => (none, k)
    | some p => (some p, dispatch { k with mlfq := removeAt k.mlfq x.1 x.2 } c .mlfq p)

/-- One iteration of the MLFQ branch: the process dispatched (none if the branch ends in `wfi`) and
the state after it. -/
def schedMlfq (k : Kernel) (c : ℕ) : Option (Option Slot × Kernel) :=
  (refill k).map fun k => scanMlfq k c

/-- The scheduler thread of CPU `c`, to its next dispatch or the end of the round. -/
def schedule (k : Kernel) (c : ℕ) : Option (Option Slot × Kernel) :=
  match (k.cpus c).pc with
  | .swtch _ => none
  | .rr i _ => some (schedRr k c i)
  | .top =>
    match k.currentPolicy with
    | .rr => some (schedRr k c 0)
    | .mlfq => schedMlfq k c
    | b => some (schedScan k c b)

/-- The process that a branch other than the MLFQ one picks when the scheduler thread of CPU `c`
goes on. -/
def otherPick (k : Kernel) (c : ℕ) : Option Slot :=
  match (k.cpus c).pc with
  | .swtch _ => none
  | .rr i _ => slots.find? fun p : Slot => i ≤ (p : ℕ) ∧ (k.proc p).state = .runnable
  | .top =>
    match k.currentPolicy with
    | .rr => slots.find? fun p : Slot => 0 ≤ (p : ℕ) ∧ (k.proc p).state = .runnable
    | .mlfq => none
    | b => scan b k.ticks k.proc

inductive Op
  | fork (c : ℕ) (a : Alloc)
  | forkWithPriority (c : ℕ) (priority : Word) (a : Alloc)
  | yield (c : ℕ)
  | sleep (c : ℕ) (chan : Chan)
  | wakeup (c : ℕ) (chan : Chan)
  | kill (c : ℕ) (pid : Word)
  | setkilled (c : ℕ)
  | exit (c : ℕ) (status : Word)
  | wait (c : ℕ) (copyout : Option Bool)
  | setSched (c : ℕ) (mode : Word)
  | setPriority (c : ℕ) (pid prio : Word)
  | usertrapTimer (c : ℕ)
  | kerneltrapTimer (c : ℕ)
  | schedule (c : ℕ)
  | forkret (c : ℕ)
  deriving DecidableEq

/-- The effect of an operation; `none` if CPU `c` has no process to run it, or the kernel panics.
A system call and a call of `yield` or `sleep` are made by a process that has left `forkret`; in `forkret`
`init` may sleep, in `fsinit`.  Interrupts come at any time, and `wakeup` also from their handlers. -/
def exec (k : Kernel) : Op → Option Kernel
  | .fork c a => (k.caller c).bind fun p => (fork k p a).map Prod.snd
  | .forkWithPriority c n a => (k.caller c).bind fun p => (forkWithPriority n k p a).map Prod.snd
  | .yield c => (k.caller c).bind fun p => yield k c p
  | .sleep c chan =>
    ((k.caller c).or ((k.starter c).filter (k.initproc = some ·))).map fun p => sleep k c p chan
  | .wakeup c chan => wakeup (k.myproc c) chan k
  | .kill c pid => (k.caller c).map fun _ => (kill k pid).2
  | .setkilled c => (k.caller c).map fun p => setkilled k p
  | .exit c status => (k.caller c).bind fun p => exit k c p status
  | .wait c copyout => (k.caller c).map fun p => (wait k c p copyout).2
  | .setSched c mode => (k.caller c).map fun _ => (setSched k mode).2
  | .setPriority c pid prio => (k.caller c).map fun _ => (setPriority k pid prio).2
  | .usertrapTimer c => (k.caller c).bind fun p => usertrapTimer k c p
  | .kerneltrapTimer c => kerneltrapTimer k c
  | .schedule c => (schedule k c).map Prod.snd
  | .forkret c => (k.starter c).map fun p => k.modProc p (Proc.forkret k.ticks)

/-- **The kernel.** -/
def sys : Sys Kernel Op where
  init k := userinit procinit = some k
  step k op k' := exec k op = some k'

/-- The state at boot: `init` alone, in slot `0`. -/
def boot : Kernel :=
  { procinit with
    proc := Function.update procinit.proc 0 ((((({} : Proc).allocFound 1).allocInit 0).allocInit 0).wake 0)
    nextpid := 2
    initproc := some 0 }

theorem userinit_procinit : userinit procinit = some boot := by
  have hfind : (slots.find? fun p => (procinit.proc p).state = .unused) = some 0 :=
    find_slots_zero rfl
  unfold userinit allocproc
  rw [hfind]; simp [enqueueIfMlfq, procinit, Kernel.modProc, boot]

theorem sys_init {k : Kernel} (h : sys.init k) : k = boot := by
  have h' : userinit procinit = some k := h
  rw [userinit_procinit] at h'; exact (Option.some.inj h').symm

theorem run_of_ops (ops : List Op) (t : Kernel → Bool) (h : (ops.foldlM exec boot).any t = true) :
    ∃ k, Run sys (stepsOf exec boot ops) k ∧ (stepsOf exec boot ops).map Prod.snd = ops ∧ t k = true :=
  exists_run (fun _ _ _ h => h) userinit_procinit ops t h

theorem hist_of_ops {γ : Type} (g0 : γ) (upd : Kernel → Op → Kernel → γ → γ) (ops : List Op)
    (t : Kernel × γ → Bool) (h : (ops.foldlM (histStep exec upd) (boot, g0)).any t = true) :
    ∃ x, Run (sys.hist g0 upd) (stepsOf (histStep exec upd) (boot, g0) ops) x ∧
      (stepsOf (histStep exec upd) (boot, g0) ops).map Prod.snd = ops ∧ t x = true :=
  exists_run_hist (fun _ _ _ h => h) userinit_procinit g0 upd ops t h

end Xv6.Sched.Step
