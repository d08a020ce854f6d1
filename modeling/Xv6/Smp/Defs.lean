import Xv6.Lib.Runs
import Xv6.Sched.Defs

/-!
# The kernel on several CPUs, one lock operation at a time

`kernel/proc.c` as the CPUs interleave it.  Every kernel thread is at a program point (`Pc`), and a step is one
acquisition or release of a lock, one group of stores made under a lock, or one `swtch`.

A spinlock belongs to the CPU that acquired it.  Only the fields of `struct proc` that locking, sleeping and the
process tree use are kept; where the code tests `current_policy`, compares two candidates or reads a queue entry
without `mlfq.lock`, every outcome is a step.
-/

namespace Xv6.Smp.Defs

open Param Sched.Defs Lib.Runs Function

/-- `initproc`, set by `userinit`. -/
def initproc : Slot := 0

/-- `struct proc`, as far as it is used here. -/
structure Entry where
  state : ProcState := .unused
  chan : Chan := .null
  killed : Bool := false
  xstate : Word := 0
  pid : Word := 0
  parent : Option Slot := none
  deriving DecidableEq

/-- The spinlocks: `p->lock`, `wait_lock`, `mlfq.lock` and the locks of other kernel objects
(`tickslock`, those of pipes, sleep-locks, the log and the devices). -/
inductive Lock
  | proc (p : Slot)
  | wait
  | mlfq
  | obj (n : ℕ)
  deriving DecidableEq

/-- The lock `lk` that `sleep(chan, lk)` is called with. -/
inductive CondLock
  | wait
  | obj (n : ℕ)
  deriving DecidableEq

@[simp] def CondLock.lock : CondLock → Lock
  | .wait => .wait
  | .obj n => .obj n

/-- The kernel threads: one for every CPU's `scheduler()`, one for every process. -/
inductive Tid
  | cpu (c : ℕ)
  | proc (p : Slot)
  deriving DecidableEq

/-- Who called `wakeup`: `reparent`, on its way to slot `i`; `exit`, for the parent; code that holds
the lock of object `n`; an interrupt handler that holds it. -/
inductive WakeCaller
  | reparent (i : ℕ) (status : Word)
  | exit (status : Word)
  | obj (n : ℕ)
  | dev (n : ℕ)
  deriving DecidableEq

/-- Program points, named after the function they are in.  A slot argument `q` is the loop variable
once its lock is held, `i` the loop variable before.  At `user` the process is in user mode, or in
kernel code that touches nothing modelled here; the points `obj` and `dev` are those of system calls
and of interrupt handlers that take a lock and sleep or wake others under it. -/
inductive Pc
  | user
  | forkret
  | forkScan (i : ℕ)
  | forkTest (q : Slot)
  | forkMade (np : Slot)
  | forkFreed (np : Slot)
  | forkWait (np : Slot)
  | forkParent (np : Slot)
  | forkUnwait (np : Slot)
  | forkLock (np : Slot)
  | forkStart (np : Slot)
  | forkEnqueue (np : Slot)
  | forkEnqueued (np : Slot)
  | forkDone (np : Slot)
  | killScan (i : ℕ) (pid : Word)
  | killTest (q : Slot) (pid : Word)
  | killDone (q : Slot)
  | yieldLock
  | yieldSet
  | yieldEnqueue
  | yieldEnqueued
  | yieldSched
  | yieldBack
  | sleepLock (chan : Chan) (lk : CondLock)
  | sleepUnlock (chan : Chan) (lk : CondLock)
  | sleepSet (chan : Chan) (lk : CondLock)
  | sleepSched (lk : CondLock)
  | sleepBack (lk : CondLock)
  | sleepTidied (lk : CondLock)
  | sleepRelock (lk : CondLock)
  | objLock (n : ℕ)
  | objHeld (n : ℕ)
  | devLock (n : ℕ)
  | devHeld (n : ℕ)
  | wakeScan (k : WakeCaller) (chan : Chan) (i : ℕ)
  | wakeTest (k : WakeCaller) (chan : Chan) (q : Slot)
  | wakeEnqueue (k : WakeCaller) (chan : Chan) (q : Slot)
  | wakeEnqueued (k : WakeCaller) (chan : Chan) (q : Slot)
  | wakeDone (k : WakeCaller) (chan : Chan) (q : Slot)
  | exitWait (status : Word)
  | exitReparent (i : ℕ) (status : Word)
  | exitLock (status : Word)
  | exitSet (status : Word)
  | exitUnwait
  | exitSched
  | exitDead
  | waitLock
  | waitScan (i : ℕ) (havekids : Bool)
  | waitTest (q : Slot)
  | waitFreed (q : Slot) (pid : Word) (status : Option Word)
  | waitKilled
  | waitRet (result : Option Word) (status : Option Word)
  | schedTop
  | scan (b : SchedPolicy) (chosen : Option Slot) (i : ℕ)
  | scanTest (b : SchedPolicy) (chosen : Option Slot) (q : Slot)
  | rrScan (i : ℕ)
  | rrTest (q : Slot)
  | mlfqTop
  | mlfqRefill
  | mlfqScan
  | mlfqTest (q : Slot)
  | swtch (b : SchedPolicy) (p : Slot)
  | swtched (b : SchedPolicy) (p : Slot)
  | schedDone (b : SchedPolicy) (p : Slot)
  deriving DecidableEq

/-- A kernel thread: the point reached by the code it runs and, while an interrupt handler runs on
top of that, the point the handler has reached.  Handlers run with interrupts off, so there is at
most one. -/
structure Thread where
  base : Pc
  intr : Option Pc
  deriving DecidableEq

def Thread.pc (th : Thread) : Pc := th.intr.getD th.base

/-- The kernel: the process table, the holders of the locks, `c->proc` of every CPU, the thread it
runs, the threads, and `nextpid`. -/
structure State where
  proc : Slot → Entry
  lock : Lock → Option ℕ
  cproc : ℕ → Option Slot
  cur : ℕ → Tid
  th : Tid → Thread
  nextpid : Word

inductive Store
  | alloc (np : Slot)
  | free (np : Slot)
  | parent (np p : Slot)
  | start (np : Slot)
  | yield (p : Slot)
  | sleep (p : Slot) (chan : Chan)
  | tidy (p : Slot)
  | wake (q : Slot)
  | kill (q : Slot)
  | reparent (q : Slot)
  | zombie (p : Slot) (status : Word)
  | reap (q : Slot)
  | run (p : Slot)
  | idle
  deriving DecidableEq

def Entry.freeproc (v : Entry) : Entry :=
  { v with pid := 0, parent := none, chan := .null, killed := false, xstate := 0, state := .unused }

def Entry.kill (v : Entry) : Entry :=
  { v with killed := true, state := if v.state = .sleeping then .runnable else v.state }

def Store.entry (s : State) : Store → Option (Slot × Entry)
  | .alloc np => some (np, { s.proc np with pid := s.nextpid, state := .used })
  | .free np => some (np, (s.proc np).freeproc)
  | .parent np p => some (np, { s.proc np with parent := some p })
  | .start np => some (np, { s.proc np with state := .runnable })
  | .yield p => some (p, { s.proc p with state := .runnable })
  | .sleep p chan => some (p, { s.proc p with chan := chan, state := .sleeping })
  | .tidy p => some (p, { s.proc p with chan := .null })
  | .wake q => some (q, { s.proc q with state := .runnable })
  | .kill q => some (q, (s.proc q).kill)
  | .reparent q => some (q, { s.proc q with parent := some initproc })
  | .zombie p status => some (p, { s.proc p with xstate := status, state := .zombie })
  | .reap q => some (q, (s.proc q).freeproc)
  | .run p => some (p, { s.proc p with state := .running })
  | .idle => none

/-- The store made on CPU `c`.  `allocproc` also points the context of the new process at
`forkret`. -/
def Store.apply (c : ℕ) (s : State) (e : Store) : State :=
  { s with
    proc := match e.entry s with
      | some (q, v) => update s.proc q v
      | none => s.proc
    cproc := match e with
      | .run p => update s.cproc c (some p)
      | .idle => update s.cproc c none
      | _ => s.cproc
    th := match e with
      | .alloc np => update s.th (.proc np) ⟨.forkret, none⟩
      | _ => s.th
    nextpid := match e with
      | .alloc _ => s.nextpid + 1
      | _ => s.nextpid }

/-! ## The instructions at each point -/

inductive Act
  | tau
  | acquire (L : Lock)
  | release (L : Lock)
  | store (e : Store)
  | swtchTo (p : Slot)
  | swtchBack
  deriving DecidableEq

inductive Next
  | goto (pc : Pc)
  | ret
  deriving DecidableEq

/-- The point reached; `under` is the one that a return uncovers. -/
def Next.pc (under : Pc) : Next → Pc
  | .goto pc => pc
  | .ret => under

def WakeCaller.back : WakeCaller → Pc
  | .reparent i status => .exitReparent i status
  | .exit status => .exitLock status
  | .obj n => .objHeld n
  | .dev n => .devHeld n

def CondLock.back : CondLock → Pc
  | .wait => .waitScan 0 false
  | .obj n => .objHeld n

/-- `wakeup`, and the part of an interrupt handler that takes a lock and calls it; any thread `t`
may be running these. -/
inductive WakeInstr (t : Tid) (s : State) : Pc → Act → Next → Prop
  | scanEnd {k chan i} : NPROC ≤ i → WakeInstr t s (.wakeScan k chan i) .tau (.goto k.back)
  | scanSelf {k chan} {q : Slot} : t = .proc q →
      WakeInstr t s (.wakeScan k chan q) .tau (.goto (.wakeScan k chan (q + 1)))
  | scan {k chan} {q : Slot} : t ≠ .proc q →
      WakeInstr t s (.wakeScan k chan q) (.acquire (.proc q)) (.goto (.wakeTest k chan q))
  | miss {k chan q} : ¬ ((s.proc q).state = .sleeping ∧ (s.proc q).chan = chan) →
      WakeInstr t s (.wakeTest k chan q) (.release (.proc q)) (.goto (.wakeScan k chan (q + 1)))
  | hit {k chan q} : (s.proc q).state = .sleeping → (s.proc q).chan = chan →
      WakeInstr t s (.wakeTest k chan q) (.store (.wake q)) (.goto (.wakeDone k chan q))
  | hitMlfq {k chan q} : (s.proc q).state = .sleeping → (s.proc q).chan = chan →
      WakeInstr t s (.wakeTest k chan q) (.store (.wake q)) (.goto (.wakeEnqueue k chan q))
  | enqueue {k chan q} :
      WakeInstr t s (.wakeEnqueue k chan q) (.acquire .mlfq) (.goto (.wakeEnqueued k chan q))
  | enqueued {k chan q} : WakeInstr t s (.wakeEnqueued k chan q) (.release .mlfq) (.goto (.wakeDone k chan q))
  | done {k chan q} :
      WakeInstr t s (.wakeDone k chan q) (.release (.proc q)) (.goto (.wakeScan k chan (q + 1)))
  | devLock {n} : WakeInstr t s (.devLock n) (.acquire (.obj n)) (.goto (.devHeld n))
  | devWake {n} (chan : Chan) : WakeInstr t s (.devHeld n) .tau (.goto (.wakeScan (.dev n) chan 0))
  | devDone {n} : WakeInstr t s (.devHeld n) (.release (.obj n)) .ret

inductive ProcInstr (p : Slot) (s : State) : Pc → Act → Next → Prop
  | callFork : ProcInstr p s .user .tau (.goto (.forkScan 0))
  | callKill (pid : Word) : ProcInstr p s .user .tau (.goto (.killScan 0 pid))
  | callExit (status : Word) : ProcInstr p s .user .tau (.goto (.exitWait status))
  | callWait : ProcInstr p s .user .tau (.goto .waitLock)
  | callObj (n : ℕ) : ProcInstr p s .user .tau (.goto (.objLock n))
  | forkret : ProcInstr p s .forkret (.release (.proc p)) (.goto .user)
  | forkFull {i} : NPROC ≤ i → ProcInstr p s (.forkScan i) .tau .ret
  | forkScan {q : Slot} : ProcInstr p s (.forkScan q) (.acquire (.proc q)) (.goto (.forkTest q))
  | forkBusy {q} : (s.proc q).state ≠ .unused →
      ProcInstr p s (.forkTest q) (.release (.proc q)) (.goto (.forkScan (q + 1)))
  | forkFound {q} : (s.proc q).state = .unused →
      ProcInstr p s (.forkTest q) (.store (.alloc q)) (.goto (.forkMade q))
  -- an allocation fails, in allocproc or in uvmcopy
  | forkFail {np} : ProcInstr p s (.forkMade np) (.store (.free np)) (.goto (.forkFreed np))
  | forkFreed {np} : ProcInstr p s (.forkFreed np) (.release (.proc np)) .ret
  | forkMade {np} : ProcInstr p s (.forkMade np) (.release (.proc np)) (.goto (.forkWait np))
  | forkWait {np} : ProcInstr p s (.forkWait np) (.acquire .wait) (.goto (.forkParent np))
  | forkParent {np} : ProcInstr p s (.forkParent np) (.store (.parent np p)) (.goto (.forkUnwait np))
  | forkUnwait {np} : ProcInstr p s (.forkUnwait np) (.release .wait) (.goto (.forkLock np))
  | forkLock {np} : ProcInstr p s (.forkLock np) (.acquire (.proc np)) (.goto (.forkStart np))
  | forkStart {np} : ProcInstr p s (.forkStart np) (.store (.start np)) (.goto (.forkDone np))
  | forkStartMlfq {np} : ProcInstr p s (.forkStart np) (.store (.start np)) (.goto (.forkEnqueue np))
  | forkEnqueue {np} : ProcInstr p s (.forkEnqueue np) (.acquire .mlfq) (.goto (.forkEnqueued np))
  | forkEnqueued {np} : ProcInstr p s (.forkEnqueued np) (.release .mlfq) (.goto (.forkDone np))
  | forkDone {np} : ProcInstr p s (.forkDone np) (.release (.proc np)) .ret
  | killEnd {i pid} : NPROC ≤ i → ProcInstr p s (.killScan i pid) .tau .ret
  | killScan {q : Slot} {pid} : ProcInstr p s (.killScan q pid) (.acquire (.proc q)) (.goto (.killTest q pid))
  | killMiss {q pid} : (s.proc q).pid ≠ pid →
      ProcInstr p s (.killTest q pid) (.release (.proc q)) (.goto (.killScan (q + 1) pid))
  | killHit {q pid} : (s.proc q).pid = pid →
      ProcInstr p s (.killTest q pid) (.store (.kill q)) (.goto (.killDone q))
  | killDone {q} : ProcInstr p s (.killDone q) (.release (.proc q)) .ret
  | yieldLock : ProcInstr p s .yieldLock (.acquire (.proc p)) (.goto .yieldSet)
  | yieldSet : ProcInstr p s .yieldSet (.store (.yield p)) (.goto .yieldSched)
  | yieldSetMlfq : ProcInstr p s .yieldSet (.store (.yield p)) (.goto .yieldEnqueue)
  | yieldEnqueue : ProcInstr p s .yieldEnqueue (.acquire .mlfq) (.goto .yieldEnqueued)
  | yieldEnqueued : ProcInstr p s .yieldEnqueued (.release .mlfq) (.goto .yieldSched)
  | yieldSched : ProcInstr p s .yieldSched .swtchBack (.goto .yieldBack)
  | yieldBack : ProcInstr p s .yieldBack (.release (.proc p)) .ret
  | sleepLock {chan lk} :
      ProcInstr p s (.sleepLock chan lk) (.acquire (.proc p)) (.goto (.sleepUnlock chan lk))
  | sleepUnlock {chan lk} :
      ProcInstr p s (.sleepUnlock chan lk) (.release lk.lock) (.goto (.sleepSet chan lk))
  | sleepSet {chan lk} : ProcInstr p s (.sleepSet chan lk) (.store (.sleep p chan)) (.goto (.sleepSched lk))
  | sleepSched {lk} : ProcInstr p s (.sleepSched lk) .swtchBack (.goto (.sleepBack lk))
  | sleepBack {lk} : ProcInstr p s (.sleepBack lk) (.store (.tidy p)) (.goto (.sleepTidied lk))
  | sleepTidied {lk} : ProcInstr p s (.sleepTidied lk) (.release (.proc p)) (.goto (.sleepRelock lk))
  | sleepRelock {lk} : ProcInstr p s (.sleepRelock lk) (.acquire lk.lock) (.goto lk.back)
  -- the users of sleep and wakeup other than wait and exit; only wait sleeps on a process
  | objLock {n} : ProcInstr p s (.objLock n) (.acquire (.obj n)) (.goto (.objHeld n))
  | objSleep {n chan} : (∀ q, chan ≠ .proc q) →
      ProcInstr p s (.objHeld n) .tau (.goto (.sleepLock chan (.obj n)))
  | objWake {n} (chan : Chan) : ProcInstr p s (.objHeld n) .tau (.goto (.wakeScan (.obj n) chan 0))
  | objDone {n} : ProcInstr p s (.objHeld n) (.release (.obj n)) .ret
  -- exit; the kernel panics if init exits
  | exitWait {status} : p ≠ initproc →
      ProcInstr p s (.exitWait status) (.acquire .wait) (.goto (.exitReparent 0 status))
  | exitReparent {q : Slot} {status} : (s.proc q).parent = some p →
      ProcInstr p s (.exitReparent q status) (.store (.reparent q))
        (.goto (.wakeScan (.reparent (q + 1) status) (.proc initproc) 0))
  | exitSkip {q : Slot} {status} : (s.proc q).parent ≠ some p →
      ProcInstr p s (.exitReparent q status) .tau (.goto (.exitReparent (q + 1) status))
  | exitWake {i status} : NPROC ≤ i → ProcInstr p s (.exitReparent i status) .tau
        (.goto (.wakeScan (.exit status) (Chan.ofProc (s.proc p).parent) 0))
  | exitLock {status} : ProcInstr p s (.exitLock status) (.acquire (.proc p)) (.goto (.exitSet status))
  | exitSet {status} : ProcInstr p s (.exitSet status) (.store (.zombie p status)) (.goto .exitUnwait)
  | exitUnwait : ProcInstr p s .exitUnwait (.release .wait) (.goto .exitSched)
  | exitSched : ProcInstr p s .exitSched .swtchBack (.goto .exitDead)
  | waitLock : ProcInstr p s .waitLock (.acquire .wait) (.goto (.waitScan 0 false))
  | waitSkip {q : Slot} {havekids} : (s.proc q).parent ≠ some p →
      ProcInstr p s (.waitScan q havekids) .tau (.goto (.waitScan (q + 1) havekids))
  | waitChild {q : Slot} {havekids} : (s.proc q).parent = some p →
      ProcInstr p s (.waitScan q havekids) (.acquire (.proc q)) (.goto (.waitTest q))
  | waitLive {q} : (s.proc q).state ≠ .zombie →
      ProcInstr p s (.waitTest q) (.release (.proc q)) (.goto (.waitScan (q + 1) true))
  -- copyout of the exit status fails
  | waitNoCopy {q} : (s.proc q).state = .zombie →
      ProcInstr p s (.waitTest q) (.release (.proc q)) (.goto (.waitRet none none))
  -- addr = 0
  | waitReapNull {q} : (s.proc q).state = .zombie →
      ProcInstr p s (.waitTest q) (.store (.reap q)) (.goto (.waitFreed q (s.proc q).pid none))
  | waitReap {q} : (s.proc q).state = .zombie → ProcInstr p s (.waitTest q) (.store (.reap q))
        (.goto (.waitFreed q (s.proc q).pid (some (s.proc q).xstate)))
  | waitFreed {q pid status} : ProcInstr p s (.waitFreed q pid status) (.release (.proc q))
        (.goto (.waitRet (some pid) status))
  | waitChildless {i} : NPROC ≤ i → ProcInstr p s (.waitScan i false) .tau (.goto (.waitRet none none))
  | waitKids {i} : NPROC ≤ i → ProcInstr p s (.waitScan i true) (.acquire (.proc p)) (.goto .waitKilled)
  | waitKilled : (s.proc p).killed = true →
      ProcInstr p s .waitKilled (.release (.proc p)) (.goto (.waitRet none none))
  | waitSleep : (s.proc p).killed = false →
      ProcInstr p s .waitKilled (.release (.proc p)) (.goto (.sleepLock (.proc p) .wait))
  | waitRet {result status} : ProcInstr p s (.waitRet result status) (.release .wait) .ret

inductive SchedInstr (s : State) : Pc → Act → Next → Prop
  | topScan (b : SchedPolicy) : b ≠ .rr → b ≠ .mlfq → SchedInstr s .schedTop .tau (.goto (.scan b none 0))
  | topMlfq : SchedInstr s .schedTop .tau (.goto .mlfqTop)
  | topRr : SchedInstr s .schedTop .tau (.goto (.rrScan 0))
  -- FCFS, priority and HRRN: the candidate's lock is kept while the scan goes on
  | scanIdle {b i} : NPROC ≤ i → SchedInstr s (.scan b none i) .tau (.goto .schedTop)
  | scanPick {b p i} : NPROC ≤ i → SchedInstr s (.scan b (some p) i) (.store (.run p)) (.goto (.swtch b p))
  | scan {b chosen} {q : Slot} :
      SchedInstr s (.scan b chosen q) (.acquire (.proc q)) (.goto (.scanTest b chosen q))
  | scanSkip {b chosen q} :
      SchedInstr s (.scanTest b chosen q) (.release (.proc q)) (.goto (.scan b chosen (q + 1)))
  | scanFirst {b q} : (s.proc q).state = .runnable →
      SchedInstr s (.scanTest b none q) .tau (.goto (.scan b (some q) (q + 1)))
  | scanBetter {b r q} : (s.proc q).state = .runnable →
      SchedInstr s (.scanTest b (some r) q) (.release (.proc r)) (.goto (.scan b (some q) (q + 1)))
  | rrEnd {i} : NPROC ≤ i → SchedInstr s (.rrScan i) .tau (.goto .schedTop)
  | rrScan {q : Slot} : SchedInstr s (.rrScan q) (.acquire (.proc q)) (.goto (.rrTest q))
  | rrSkip {q} : (s.proc q).state ≠ .runnable →
      SchedInstr s (.rrTest q) (.release (.proc q)) (.goto (.rrScan (q + 1)))
  | rrPick {q} : (s.proc q).state = .runnable →
      SchedInstr s (.rrTest q) (.store (.run q)) (.goto (.swtch .rr q))
  -- MLFQ: the queue entry is read without mlfq.lock and may be any process
  | mlfqRefill : SchedInstr s .mlfqTop (.acquire .mlfq) (.goto .mlfqRefill)
  | mlfqRefilled : SchedInstr s .mlfqRefill (.release .mlfq) (.goto .mlfqScan)
  | mlfqNonempty : SchedInstr s .mlfqTop .tau (.goto .mlfqScan)
  | mlfqScan (q : Slot) : SchedInstr s .mlfqScan (.acquire (.proc q)) (.goto (.mlfqTest q))
  | mlfqEnd : SchedInstr s .mlfqScan .tau (.goto .schedTop)
  | mlfqSkip {q} : (s.proc q).state ≠ .runnable →
      SchedInstr s (.mlfqTest q) (.release (.proc q)) (.goto .mlfqScan)
  | mlfqPick {q} : (s.proc q).state = .runnable →
      SchedInstr s (.mlfqTest q) (.store (.run q)) (.goto (.swtch .mlfq q))
  -- the switch; a round-robin pass goes on behind the process it ran
  | swtch {b p} : SchedInstr s (.swtch b p) (.swtchTo p) (.goto (.swtched b p))
  | swtched {b p} : SchedInstr s (.swtched b p) (.store .idle) (.goto (.schedDone b p))
  | done {b p} : b ≠ .rr → SchedInstr s (.schedDone b p) (.release (.proc p)) (.goto .schedTop)
  | doneRr {p} : SchedInstr s (.schedDone .rr p) (.release (.proc p)) (.goto (.rrScan (p + 1)))

def Instr (t : Tid) (s : State) (pc : Pc) (a : Act) (n : Next) : Prop :=
  WakeInstr t s pc a n ∨
    match t with
    | .proc p => ProcInstr p s pc a n
    | .cpu _ => SchedInstr s pc a n

def own : Tid → List Lock
  | .proc p => [.proc p]
  | .cpu _ => []

def WakeCaller.holds : WakeCaller → List Lock
  | .reparent _ _ | .exit _ => [.wait]
  | .obj n | .dev n => [.obj n]

/-- The locks the CPU that runs thread `t` holds when the thread is at a point, the latest
first. -/
def holds (t : Tid) : Pc → List Lock
  | .user | .forkScan _ | .forkWait _ | .forkLock _ | .killScan _ _ | .yieldLock
  | .sleepRelock _ | .objLock _ | .devLock _ | .exitWait _ | .waitLock
  | .schedTop | .rrScan _ | .mlfqTop | .mlfqScan => []
  | .forkTest q | .forkMade q | .forkFreed q | .forkStart q | .forkEnqueue q | .forkDone q
  | .killTest q _ | .killDone q | .rrTest q | .mlfqTest q
  | .swtch _ q | .swtched _ q | .schedDone _ q => [.proc q]
  | .forkret | .yieldSet | .yieldEnqueue | .yieldSched | .yieldBack
  | .sleepSet _ _ | .sleepSched _ | .sleepBack _ | .sleepTidied _ | .exitSched
  | .exitDead => own t
  | .forkParent _ | .forkUnwait _ | .exitReparent _ _ | .exitLock _ | .waitScan _ _
  | .waitRet _ _ => [.wait]
  | .forkEnqueued q => [.mlfq, .proc q]
  | .yieldEnqueued => .mlfq :: own t
  | .sleepLock _ lk => [lk.lock]
  | .sleepUnlock _ lk => own t ++ [lk.lock]
  | .objHeld n | .devHeld n => [.obj n]
  | .wakeScan k _ _ => k.holds
  | .wakeTest k _ q | .wakeEnqueue k _ q | .wakeDone k _ q => .proc q :: k.holds
  | .wakeEnqueued k _ q => .mlfq :: .proc q :: k.holds
  | .exitSet _ | .exitUnwait | .waitKilled => own t ++ [.wait]
  | .waitTest q | .waitFreed q _ _ => [.proc q, .wait]
  | .scan _ chosen _ => chosen.toList.map .proc
  | .scanTest _ chosen q => .proc q :: chosen.toList.map .proc
  | .mlfqRefill => [.mlfq]

/-- The thread after an instruction: a handler that returns uncovers the code below it, a system
call that returns goes back to user mode. -/
def Thread.next (th : Thread) (n : Next) : Thread :=
  match th.intr, n with
  | none, n => { th with base := n.pc .user }
  | some _, .goto pc => { th with intr := some pc }
  | some _, .ret => { th with intr := none }

def State.setThread (s : State) (t : Tid) (th : Thread) : State :=
  { s with th := update s.th t th }

/-- `acquire` spins while the lock is held; `release` of a lock the CPU does not hold panics. -/
def Act.Enabled (c : ℕ) (s : State) : Act → Prop
  | .acquire L => s.lock L = none
  | .release L => s.lock L = some c
  | _ => True

def Act.apply (c : ℕ) (s : State) : Act → State
  | .tau => s
  | .acquire L => { s with lock := update s.lock L (some c) }
  | .release L => { s with lock := update s.lock L none }
  | .store e => e.apply c s
  | .swtchTo p => { s with cur := update s.cur c (.proc p) }
  | .swtchBack => { s with cur := update s.cur c (.cpu c) }

def State.after (s : State) (c : ℕ) (a : Act) (n : Next) : State :=
  a.apply c (s.setThread (s.cur c) ((s.th (s.cur c)).next n))

/-- The instruction that CPU `c` is about to execute. -/
abbrev Exec (s : State) (c : ℕ) (a : Act) (n : Next) : Prop :=
  Instr (s.cur c) s (s.th (s.cur c)).pc a n

/-- A step of CPU `c`: the next instruction of the thread it runs or, where that thread holds no
lock and so has interrupts on, the entry of a handler: a timer interrupt's `yield`, if the CPU has a
process, or a handler that takes a lock. -/
inductive Step (s : State) (c : ℕ) : State → Prop
  | instr {a : Act} {n : Next} : Exec s c a n → a.Enabled c s → Step s c (s.after c a n)
  | timer {p : Slot} {pc : Pc} : s.cur c = .proc p → s.th (.proc p) = ⟨pc, none⟩ →
      holds (.proc p) pc = [] → Step s c (s.setThread (.proc p) ⟨pc, some .yieldLock⟩)
  | device {pc : Pc} (n : ℕ) : s.th (s.cur c) = ⟨pc, none⟩ → holds (s.cur c) pc = [] →
      Step s c (s.setThread (s.cur c) ⟨pc, some (.devLock n)⟩)

/-- The kernel when the CPUs enter `scheduler()`: `userinit` has made the first process. -/
def boot : State where
  proc := update (fun _ => {}) initproc { state := .runnable, pid := 1 }
  lock _ := none
  cproc _ := none
  cur c := .cpu c
  th
    | .cpu _ => ⟨.schedTop, none⟩
    | .proc _ => ⟨.forkret, none⟩
  nextpid := 2

def sys : Sys State ℕ := ⟨fun s => s = boot, Step⟩

theorem reach {s : State} {a : Act} {n : Next} (h : Reachable sys s) (c : ℕ) (hi : Exec s c a n)
    (he : a.Enabled c s := by first | exact trivial | exact rfl) : Reachable sys (s.after c a n) :=
  h.next (.instr hi he)

end Xv6.Smp.Defs
