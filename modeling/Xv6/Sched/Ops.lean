import Xv6.Sched.Queues

/-!
# Process operations

The functions of `kernel/proc.c`, `kernel/sysproc.c` and `kernel/trap.c` that change the process
table, each run to completion as one step.  `none` is a panic.  A process runs on a CPU whose
scheduler thread is inside `swtch`; giving the CPU up (`yield`, `sleep`, `exit`) returns to the branch
of `scheduler` that dispatched the process, which finishes there (`schedBack`).
-/

namespace Xv6.Sched.Ops

open Param Sched.Defs Sched.Queues

/-- Where the scheduler thread of a CPU is: at the head of its loop, inside the `for` of the
round-robin branch with the next slot and `found`, or inside `swtch` called by a branch. -/
inductive SchedPc
  | top
  | rr (next : ℕ) (found : Bool)
  | swtch (branch : SchedPolicy)
  deriving DecidableEq, Repr

/-- `struct cpu`, with the place of its scheduler thread. -/
structure Cpu where
  proc : Option Slot := none
  pc : SchedPc := .top
  deriving DecidableEq

structure Kernel where
  proc : Slot → Proc
  mlfq : Mlfq
  currentPolicy : SchedPolicy
  ticks : Word
  nextpid : Word
  initproc : Option Slot
  cpus : ℕ → Cpu

namespace Kernel

def modProc (k : Kernel) (p : Slot) (f : Proc → Proc) : Kernel :=
  { k with proc := Function.update k.proc p (f (k.proc p)) }

def setCpu (k : Kernel) (c : ℕ) (v : Cpu) : Kernel := { k with cpus := Function.update k.cpus c v }

def myproc (k : Kernel) (c : ℕ) : Option Slot := (k.cpus c).proc

/-- The process on CPU `c`, if it has left `forkret`. -/
def caller (k : Kernel) (c : ℕ) : Option Slot := (k.myproc c).filter fun p => !(k.proc p).inForkret

/-- The process on CPU `c`, if it is in `forkret`. -/
def starter (k : Kernel) (c : ℕ) : Option Slot := (k.myproc c).filter fun p => (k.proc p).inForkret

end Kernel

/-- The state `procinit` leaves, with the zero-initialised globals. -/
def procinit : Kernel where
  proc _ := {}
  mlfq := .init
  currentPolicy := .rr
  ticks := 0
  nextpid := 1
  initproc := none
  cpus _ := {}

def enqueue (k : Kernel) (p : Slot) : Option Kernel :=
  (enqueueToMlfq k.mlfq (k.proc p).queueLevel p).map fun q => { k with mlfq := q }

def enqueueIfMlfq (k : Kernel) (p : Slot) : Option Kernel :=
  if k.currentPolicy = .mlfq then enqueue k p else some k

def allocproc (k : Kernel) (a : Alloc) : Option Slot × Kernel :=
  match slots.find? fun p => (k.proc p).state = .unused with
  | none => (none, k)
  | some p =>
    -- `allocpid` and the stores at `found`
    let k := { k with nextpid := k.nextpid + 1 }.modProc p (Proc.allocFound k.nextpid)
    if !a.trapframe then (none, k.modProc p Proc.freeproc)
    else if !a.pagetable then (none, k.modProc p Proc.freeproc)
    else (some p, k.modProc p (Proc.allocInit k.ticks))

def userinit (k : Kernel) : Option Kernel :=
  match allocproc k ⟨true, true, true⟩ with
  | (none, _) => none
  | (some p, k) =>
    let k := { k with initproc := some p }.modProc p fun v =>
      (v.allocInit k.ticks).wake k.ticks
    enqueueIfMlfq k p

/-- The common text of `fork` and `fork_with_priority`, called by `p`; `start` makes the last stores
in the child. -/
def forkWith (start : Word → Proc → Proc) (k : Kernel) (p : Slot) (a : Alloc) : Option (Word × Kernel) :=
  match allocproc k a with
  | (none, k) => some (-1, k)
  | (some np, k) =>
    if !a.uvmcopy then some (-1, k.modProc np Proc.freeproc)
    else
      let pid := (k.proc np).pid
      let k := k.modProc np fun v => { v with parent := some p }
      let k := k.modProc np (start k.ticks)
      (enqueueIfMlfq k np).map fun k => (pid, k)

def fork : Kernel → Slot → Alloc → Option (Word × Kernel) := forkWith Proc.forkStart

def forkWithPriority (priority : Word) : Kernel → Slot → Alloc → Option (Word × Kernel) :=
  forkWith fun _ => Proc.forkStartPriority priority

/-- `swtch` returns to the scheduler thread of CPU `c`, which `p` was running on. -/
def schedBack (k : Kernel) (c : ℕ) (p : Slot) : Kernel :=
  match (k.cpus c).pc with
  | .swtch b => (k.modProc p (Proc.afterRun b k.ticks)).setCpu c
      ⟨none, if b = .rr then .rr (p + 1) true else .top⟩
  | pc => k.setCpu c ⟨none, pc⟩

def yield (k : Kernel) (c : ℕ) (p : Slot) : Option Kernel :=
  (enqueueIfMlfq (k.modProc p (Proc.yieldStart k.ticks)) p).map fun k => schedBack k c p

def sleep (k : Kernel) (c : ℕ) (p : Slot) (chan : Chan) : Kernel :=
  schedBack (k.modProc p (Proc.sleepStart chan)) c p

/-! ## Waking and killing -/

/-- One round of `wakeup`, `me` being `myproc()`. -/
def wakeupAt (me : Option Slot) (chan : Chan) (k : Kernel) (p : Slot) : Option Kernel :=
  if some p ≠ me then
    if (k.proc p).state = .sleeping ∧ (k.proc p).chan = chan then
      enqueueIfMlfq (k.modProc p (Proc.wake k.ticks)) p
    else some k
  else some k

def wakeup (me : Option Slot) (chan : Chan) (k : Kernel) : Option Kernel :=
  slots.foldlM (wakeupAt me chan) k

/-- The first slot whose `pid` field is `pid`: the search `kill`, `sys_set_priority` and
`get_waiting_time` make. -/
def findPid (k : Kernel) (pid : Word) : Option Slot := slots.find? fun p => (k.proc p).pid = pid

def kill (k : Kernel) (pid : Word) : Word × Kernel :=
  match findPid k pid with
  | some p => (0, k.modProc p Proc.kill)
  | none => (-1, k)

def setPriority (k : Kernel) (pid prio : Word) : Word × Kernel :=
  match findPid k pid with
  | some p => (0, k.modProc p fun v => { v with priority := prio })
  | none => (-1, k)

def getWaitingTime (k : Kernel) (pid : Word) : Word :=
  match findPid k pid with
  | some p => (k.proc p).waitingTime
  | none => -1

def setkilled (k : Kernel) (p : Slot) : Kernel := k.modProc p fun v => { v with killed := true }

def setSched (k : Kernel) (mode : Word) : Word × Kernel :=
  match SchedPolicy.ofMode mode with
  | some b => (0, { k with currentPolicy := b })
  | none => (-1, k)

def reparentAt (p : Slot) (k : Kernel) (pp : Slot) : Option Kernel :=
  if (k.proc pp).parent = some p then
    wakeup (some p) (.ofProc k.initproc) (k.modProc pp fun v => { v with parent := k.initproc })
  else some k

def reparent (p : Slot) (k : Kernel) : Option Kernel := slots.foldlM (reparentAt p) k

/-- `exit(status)`, called by `p` on CPU `c`; closing files is not part of this state. -/
def exit (k : Kernel) (c : ℕ) (p : Slot) (status : Word) : Option Kernel :=
  if k.initproc = some p then none
  else do
    let k ← reparent p k
    let k ← wakeup (some p) (.ofProc (k.proc p).parent) k
    return schedBack (k.modProc p (Proc.exitStart status)) c p

/-- `wait(addr)` up to its return or its sleep, called by `p` on CPU `c`.  `copyout` is `none` if
`addr` is null, else whether the copy of the exit status succeeds. -/
def wait (k : Kernel) (c : ℕ) (p : Slot) (copyout : Option Bool) : Option Word × Kernel :=
  match slots.find? fun pp => (k.proc pp).parent = some p ∧ (k.proc pp).state = .zombie with
  | some pp =>
    if copyout = some false then (some (-1), k)
    else (some (k.proc pp).pid, k.modProc pp Proc.freeproc)
  | none =>
    let havekids := slots.any fun pp => (k.proc pp).parent = some p
    if !havekids || (k.proc p).killed then (some (-1), k) else (none, sleep k c p (.proc p))

def clockintr (k : Kernel) (c : ℕ) : Option Kernel :=
  if c = 0 then wakeup (k.myproc c) .ticks { k with ticks := k.ticks + 1 } else some k

def maxTicks (level : ℕ) : ℕ := if level = 0 then 5 else if level = 1 then 10 else 20

/-- The stores `usertrap` makes for a tick under MLFQ. -/
def tickSlice (v : Proc) : Proc :=
  if maxTicks v.queueLevel ≤ v.timeSlice + 1 then
    { v with queueLevel := if v.queueLevel < QUEUE_LEVELS - 1 then v.queueLevel + 1
                           else v.queueLevel, timeSlice := 0 }
  else { v with timeSlice := v.timeSlice + 1 }

def usertrapTimer (k : Kernel) (c : ℕ) (p : Slot) : Option Kernel := do
  let k ← clockintr k c
  if (k.proc p).killed then exit k c p (-1)
  else
    let k := k.modProc p fun v => { v with totalTicks := v.totalTicks + 1 }
    match k.currentPolicy with
    | .rr => yield k c p
    | .mlfq =>
      let expired := maxTicks (k.proc p).queueLevel ≤ (k.proc p).timeSlice + 1
      let k := k.modProc p tickSlice
      if expired then yield k c p else some k
    | _ => some k

def kerneltrapTimer (k : Kernel) (c : ℕ) : Option Kernel := do
  let k ← clockintr k c
  match k.myproc c with
  | none => some k
  | some p =>
    if k.currentPolicy = .rr ∨ k.currentPolicy = .mlfq then yield k c p else some k

end Xv6.Sched.Ops
