import Mathlib.Data.List.FinRange
import Mathlib.Logic.Function.Basic
import Xv6.Param

/-!
# The process table entry

`struct proc` of `kernel/proc.h`, as far as scheduling, sleeping and the process tree use it, with the
stores each kernel function makes in one entry.  A table slot stands for a `struct proc *`, `none`
for the null pointer.  `int` and `uint` fields are 32-bit words; comparisons read them as signed or
unsigned as the C types say.  The memory and file fields (`sz`, `pagetable`, `trapframe`, `ofile`,
`cwd`, `name`) are read by nothing here; whether the allocations made for them succeed is an input
(`Alloc`).
-/

namespace Xv6.Sched.Defs

open Param

def QUEUE_LEVELS : ℕ := 3

abbrev Slot := Fin NPROC

/-- The table in the order of the loops `for(p = proc; p < &proc[NPROC]; p++)`. -/
def slots : List Slot := List.finRange NPROC

@[simp] theorem mem_slots (p : Slot) : p ∈ slots := List.mem_finRange p

@[simp] theorem length_slots : slots.length = NPROC := List.length_finRange

theorem find_slots_zero {f : Slot → Bool} (h : f 0 = true) : slots.find? f = some 0 := by
  obtain ⟨l, hl⟩ : ∃ l, slots = 0 :: l := ⟨_, List.finRange_succ⟩
  rw [hl, List.find?_cons_of_pos h]

instance decidableForallSlot {P : Slot → Prop} [DecidablePred P] : Decidable (∀ p, P p) :=
  decidable_of_iff (slots.all (fun p => P p) = true) (by simp)

attribute [irreducible] slots

inductive ProcState
  | unused | used | sleeping | runnable | running | zombie
  deriving DecidableEq, Repr

inductive SchedPolicy
  | rr | fcfs | priority | hrrn | mlfq
  deriving DecidableEq, Repr

def SchedPolicy.ofMode (mode : Word) : Option SchedPolicy :=
  if mode = 0 then some .rr
  else if mode = 1 then some .fcfs
  else if mode = 2 then some .priority
  else if mode = 3 then some .hrrn
  else if mode = 4 then some .mlfq
  else none

/-- What a sleep channel points at: nothing, a process, the tick counter, or another kernel
object. -/
inductive Chan
  | null
  | proc (p : Slot)
  | ticks
  | obj (a : ℕ)
  deriving DecidableEq

def Chan.ofProc : Option Slot → Chan
  | none => .null
  | some p => .proc p

/-- Where `swtch` resumes a process that is not running. -/
inductive Context
  | forkret | yield | sleep
  deriving DecidableEq, Repr

/-- The table entry, with two facts about the kernel thread: where it goes on, and whether it has the store
of `runtime_start_ticks` at the end of `forkret` still ahead. -/
structure Proc where
  state : ProcState := .unused
  chan : Chan := .null
  killed : Bool := false
  xstate : Word := 0
  pid : Word := 0
  parent : Option Slot := none
  context : Context := .forkret
  inForkret : Bool := false
  arrivalTime : Word := 0
  priority : Word := 0
  lastRuntime : Word := 0
  runtimeStartTicks : Word := 0
  queueLevel : ℕ := 0
  timeSlice : ℕ := 0
  totalTicks : Word := 0
  readyTime : Word := 0
  runStartTime : Word := 0
  waitingTime : Word := 0
  deriving DecidableEq

/-- The outcomes of the allocations a fork makes: the trapframe page, the page table, the copy of
the parent's memory. -/
structure Alloc where
  trapframe : Bool
  pagetable : Bool
  uvmcopy : Bool
  deriving DecidableEq, Repr

/-! ## The stores in one entry -/

namespace Proc

def freeproc (v : Proc) : Proc :=
  { v with pid := 0, parent := none, chan := .null, killed := false, xstate := 0, state := .unused }

def allocFound (pid : Word) (v : Proc) : Proc := { v with pid := pid, state := .used }

/-- `allocproc`, once the pages are there. -/
def allocInit (ticks : Word) (v : Proc) : Proc :=
  { v with context := .forkret, inForkret := true, arrivalTime := ticks, priority := 10, lastRuntime := 1,
           queueLevel := 0, timeSlice := 0, totalTicks := 0 }

def forkStart (ticks : Word) (v : Proc) : Proc :=
  { v with priority := 10, lastRuntime := 1, queueLevel := 0, timeSlice := 0, totalTicks := 0,
           state := .runnable, readyTime := ticks }

/-- The last stores of `fork_with_priority` in the child: `ready_time` keeps what the slot held. -/
def forkStartPriority (priority : Word) (v : Proc) : Proc :=
  { v with priority := priority, lastRuntime := 1, queueLevel := 0, timeSlice := 0,
           totalTicks := 0, state := .runnable }

/-- `delta > 0 ? delta : 1` for the ticks since `runtime_start_ticks`. -/
def burst (ticks : Word) (v : Proc) : Word :=
  if (0 : Word).slt (ticks - v.runtimeStartTicks) then ticks - v.runtimeStartTicks else 1

def yieldStart (ticks : Word) (v : Proc) : Proc :=
  { v with lastRuntime := v.burst ticks, state := .runnable, context := .yield }

def sleepStart (chan : Chan) (v : Proc) : Proc :=
  { v with chan := chan, state := .sleeping, context := .sleep }

/-- `wakeup`, for an entry it wakes. -/
def wake (ticks : Word) (v : Proc) : Proc := { v with state := .runnable, readyTime := ticks }

/-- `kill`, for the entry it finds: neither `ready_time` nor a queue is touched. -/
def kill (v : Proc) : Proc :=
  { v with killed := true, state := if v.state = .sleeping then .runnable else v.state }

def exitStart (status : Word) (v : Proc) : Proc := { v with xstate := status, state := .zombie }

/-- The stores every branch of `scheduler` makes in the process it picks; only the HRRN branch
stores `runtime_start_ticks`. -/
def startRun (b : SchedPolicy) (ticks : Word) (v : Proc) : Proc :=
  { v with runStartTime := ticks, waitingTime := ticks - v.readyTime, state := .running,
           runtimeStartTicks := if b = .hrrn then ticks else v.runtimeStartTicks }

/-- What a process does under `p->lock` when `swtch` goes to it; `forkret` only releases the lock. -/
def resume (v : Proc) : Proc :=
  match v.context with
  | .forkret | .yield => v
  | .sleep => { v with chan := .null }

/-- The end of `forkret`, after the lock was released and, by `init`, `fsinit` was run. -/
def forkret (ticks : Word) (v : Proc) : Proc := { v with runtimeStartTicks := ticks, inForkret := false }

/-- What the branch of `scheduler` that dispatched the process stores when `swtch` returns. -/
def afterRun (b : SchedPolicy) (ticks : Word) (v : Proc) : Proc :=
  if b = .hrrn then { v with lastRuntime := v.burst ticks } else v

end Proc

structure Scan where
  chosen : Option Slot
  minArrival : Word
  rrNum : Word
  rrDen : Word
  deriving DecidableEq

def Scan.start : Scan := ⟨none, -1, -1, 1⟩

def service (v : Proc) : Word := if (0 : Word).slt v.lastRuntime then v.lastRuntime else 1

def ratioNum (ticks : Word) (v : Proc) : Word := ticks - v.arrivalTime + service v

def Scan.better (b : SchedPolicy) (ticks : Word) (table : Slot → Proc) (a : Scan) (p : Slot) : Bool :=
  match b with
  | .fcfs => (table p).arrivalTime.ult a.minArrival
  | .hrrn => a.chosen.isNone ||
      (a.rrNum * service (table p)).slt (ratioNum ticks (table p) * a.rrDen)
  | _ =>
    match a.chosen with
    | none => true
    | some q => (table p).priority.slt (table q).priority

def Scan.take (ticks : Word) (table : Slot → Proc) (p : Slot) : Scan :=
  ⟨some p, (table p).arrivalTime, ratioNum ticks (table p), service (table p)⟩

def Scan.step (b : SchedPolicy) (ticks : Word) (table : Slot → Proc) (a : Scan) (p : Slot) : Scan :=
  if (table p).state = .runnable ∧ a.better b ticks table p = true then Scan.take ticks table p
  else a

def scan (b : SchedPolicy) (ticks : Word) (table : Slot → Proc) : Option Slot :=
  (slots.foldl (Scan.step b ticks table) Scan.start).chosen

theorem scan_runnable {b : SchedPolicy} {ticks : Word} {table : Slot → Proc} {p : Slot}
    (h : scan b ticks table = some p) : (table p).state = .runnable := by
  have key : ∀ (l : List Slot) (a : Scan), (∀ q, a.chosen = some q → (table q).state = .runnable) →
      ∀ q, (l.foldl (Scan.step b ticks table) a).chosen = some q → (table q).state = .runnable := by
    intro l
    induction l with
    | nil => intro a ha q hq; exact ha q hq
    | cons x l ih =>
      intro a ha
      refine ih _ fun q hq => ?_
      unfold Scan.step at hq
      split_ifs at hq with hx
      · cases hq; exact hx.1
      · exact ha q hq
  exact key slots Scan.start (fun q hq => by cases hq) p h

end Xv6.Sched.Defs
