import Xv6.Lib.Counters
import Xv6.Lib.Runs
import Xv6.Param
import Xv6.Vm.Copy

/-!
# Pipes

`pipewrite`, `piperead` and `pipeclose` of `kernel/pipe.c` on one pipe, by any processes in any interleaving,
with `kill`.  `sleep` first releases the lock (`dozing`, with `p->lock` held) and then stores `SLEEPING`; `wakeup`
looks at each process under its lock.  What `copyin` gives and whether `copyout` succeeds is up to the user.

The counters are C `uint`s that are never reset; as 512 divides 2^32 the ring is a queue all the same.
-/

namespace Xv6.Ipc.Pipe

open Param Lib.Runs Lib.Counters Vm.Copy

def PIPESIZE : ℕ := 512

inductive Chan
  | nread
  | nwrite
  deriving DecidableEq

/-- Where a process is.  At `unlock` it returns after a last `release`. -/
inductive Pc
  | idle
  | writeLock (n : ℤ)
  | writeLoop (n : ℤ) (i : ℕ)
  | writeFull (n : ℤ) (i : ℕ)
  | writeSleep (n : ℤ) (i : ℕ)
  | writeAsleep (n : ℤ) (i : ℕ)
  | writeWake
  | readLock (n : ℤ)
  | readTop (n : ℤ)
  | readSleep (n : ℤ)
  | readAsleep (n : ℤ)
  | readLoop (n : ℤ) (i : ℕ)
  | readWake
  | closeLock (writable : Bool)
  | closeSet (writable : Bool)
  | closeWake (writable : Bool)
  | unlock
  deriving DecidableEq

/-- `p->state` and `p->chan`, as far as `sleep` sets them. -/
inductive Rest
  | awake
  | dozing (chan : Chan)
  | sleeping (chan : Chan)
  deriving DecidableEq

structure Thread where
  pc : Pc
  rest : Rest
  killed : Bool

/-- `struct pipe`, where `ring` has `data`, `nread` and `nwrite`, and the processes. -/
structure State (P : Type) where
  ring : Queue Byte 32
  readopen : Bool
  writeopen : Bool
  lock : Option P
  thread : P → Thread

variable {P : Type} [DecidableEq P]

def State.setThread (s : State P) (p : P) (t : Thread) : State P :=
  { s with thread := Function.update s.thread p t }

def State.goto (s : State P) (p : P) (pc : Pc) : State P :=
  s.setThread p { s.thread p with pc := pc }

def Thread.wake (chan : Chan) (t : Thread) : Thread :=
  { t with rest := if t.rest = .sleeping chan then .awake else t.rest }

def State.wakeup (s : State P) (chan : Chan) : State P :=
  { s with thread := fun p => (s.thread p).wake chan }

/-- `sleep` up to the release of `pi->lock`. -/
def State.doze (s : State P) (p : P) (chan : Chan) (pc : Pc) : State P :=
  { s.setThread p { s.thread p with pc := pc, rest := .dozing chan } with
    lock := none }

/-! ## The functions -/

/-- The loop of `pipewrite`; `ch` is what `copyin` gives. -/
def writeLoop (s : State P) (p : P) (n : ℤ) (i : ℕ) (ch : Option Byte) : State P :=
  if i < n then
    if s.readopen = false ∨ (s.thread p).killed = true then s.goto p .unlock
    else if s.ring.tail = s.ring.head + BitVec.ofNat 32 PIPESIZE then s.goto p (.writeFull n i)
    else
      match ch with
      | some ch => { s.goto p (.writeLoop n (i + 1)) with ring := s.ring.push PIPESIZE ch }
      | none => s.goto p .writeWake
  else s.goto p .writeWake

def readTop (s : State P) (p : P) (n : ℤ) : State P :=
  if s.ring.head = s.ring.tail ∧ s.writeopen = true then
    if (s.thread p).killed = true then s.goto p .unlock else s.goto p (.readSleep n)
  else s.goto p (.readLoop n 0)

/-- The second loop of `piperead`; `ok` is whether `copyout` succeeds.  The byte is gone in any case. -/
def readLoop (s : State P) (p : P) (n : ℤ) (i : ℕ) (ok : Bool) : State P :=
  if i < n ∧ s.ring.head ≠ s.ring.tail then
    { s.goto p (if ok then .readLoop n (i + 1) else .readWake) with ring := s.ring.pop }
  else s.goto p .readWake

def closeSet (s : State P) (p : P) (writable : Bool) : State P :=
  if writable then { s.goto p (.closeWake true) with writeopen := false }
  else { s.goto p (.closeWake false) with readopen := false }

/-- A step of a process: a call, an acquisition of the lock, a step under the lock with what the memory
of the user answers, the end of `sleep` before the switch; or a process is killed. -/
inductive Ev (P : Type)
  | write (p : P) (n : ℤ)
  | read (p : P) (n : ℤ)
  | close (p : P) (writable : Bool)
  | acquire (p : P)
  | step (p : P) (ch : Option Byte) (ok : Bool)
  | settle (p : P)
  | kill (p : P)

def locked : Pc → Option Pc
  | .writeLock n => some (.writeLoop n 0)
  | .writeAsleep n i => some (.writeLoop n i)
  | .readLock n | .readAsleep n => some (.readTop n)
  | .closeLock w => some (.closeSet w)
  | _ => none

def holds : Pc → Bool
  | .writeLoop _ _ | .writeFull _ _ | .writeSleep _ _ | .writeWake | .readTop _ | .readSleep _
  | .readLoop _ _ | .readWake | .closeSet _ | .closeWake _ | .unlock => true
  | _ => false

def stepPc (s : State P) (p : P) (ch : Option Byte) (ok : Bool) : Pc → State P
  | .writeLoop n i => writeLoop s p n i ch
  | .writeFull n i => (s.wakeup .nread).goto p (.writeSleep n i)
  | .writeSleep n i => s.doze p .nwrite (.writeAsleep n i)
  | .writeWake => (s.wakeup .nread).goto p .unlock
  | .readTop n => readTop s p n
  | .readSleep n => s.doze p .nread (.readAsleep n)
  | .readLoop n i => readLoop s p n i ok
  | .readWake => (s.wakeup .nwrite).goto p .unlock
  | .closeSet w => closeSet s p w
  | .closeWake true => (s.wakeup .nread).goto p .unlock
  | .closeWake false => (s.wakeup .nwrite).goto p .unlock
  | .unlock => { s.goto p .idle with lock := none }
  | _ => s

def wakes : Pc → Option Chan
  | .writeFull _ _ | .writeWake | .closeWake true => some .nread
  | .readWake | .closeWake false => some .nwrite
  | _ => none

def Rest.isDozing : Rest → Bool
  | .dozing _ => true
  | _ => false

/-- When an event can take place.  `wakeup` and `kill` take the locks of processes. -/
def Enabled (s : State P) : Ev P → Prop
  | .write p _ | .read p _ | .close p _ => (s.thread p).pc = .idle
  | .acquire p => s.lock = none ∧ (s.thread p).rest = .awake ∧ (locked (s.thread p).pc).isSome
  | .step p _ _ => holds (s.thread p).pc = true ∧
      ((wakes (s.thread p).pc).isSome → ∀ q, (s.thread q).rest.isDozing = false)
  | .settle p => (s.thread p).rest.isDozing = true
  | .kill p => (s.thread p).rest.isDozing = false

def Rest.settle : Rest → Rest
  | .dozing chan => .sleeping chan
  | r => r

def Thread.kill (t : Thread) : Thread :=
  { t with
    killed := true
    rest := match t.rest with
      | .sleeping _ => .awake
      | r => r }

def exec (s : State P) : Ev P → State P
  | .write p n => s.goto p (.writeLock n)
  | .read p n => s.goto p (.readLock n)
  | .close p w => s.goto p (.closeLock w)
  | .acquire p => { s.goto p ((locked (s.thread p).pc).getD .idle) with lock := some p }
  | .step p ch ok => stepPc s p ch ok (s.thread p).pc
  | .settle p => s.setThread p { s.thread p with rest := (s.thread p).rest.settle }
  | .kill p => s.setThread p (s.thread p).kill

/-- A new pipe, as `pipealloc` makes it. -/
def Fresh (s : State P) : Prop :=
  s.ring.head = 0 ∧ s.ring.tail = 0 ∧ s.readopen = true ∧ s.writeopen = true ∧ s.lock = none ∧
    ∀ p, (s.thread p).pc = .idle ∧ (s.thread p).rest = .awake

variable (P) in
def sys : Sys (State P) (Ev P) where
  init := Fresh
  step s e s' := Enabled s e ∧ s' = exec s e

structure Hist where
  stored : List Byte
  removed : List Byte

/-- What a step adds: a byte is stored when `nwrite` goes up, and removed when `nread` does. -/
def record (s : State P) (_ : Ev P) (s' : State P) (g : Hist) : Hist where
  stored := if s'.ring.tail = s.ring.tail then g.stored
    else g.stored ++ [s'.ring.data (s.ring.tail.toNat % PIPESIZE)]
  removed := if s'.ring.head = s.ring.head then g.removed else g.removed ++ [s.ring.front PIPESIZE]

instance decEnabled [Fintype P] (s : State P) : DecidablePred (Enabled s)
  | .write _ _ | .read _ _ | .close _ _ => inferInstanceAs (Decidable (_ = _))
  | .acquire _ => inferInstanceAs (Decidable (_ ∧ _))
  | .step _ _ _ => inferInstanceAs (Decidable (_ ∧ (_ → ∀ _, _)))
  | .settle _ | .kill _ => inferInstanceAs (Decidable (_ = _))

/-- The step that `sys` takes, if it can. -/
def next [Fintype P] (s : State P) (e : Ev P) : Option (State P) :=
  if Enabled s e then some (exec s e) else none

theorem sys_next [Fintype P] (s : State P) (e : Ev P) (s' : State P) (h : next s e = some s') :
    (sys P).step s e s' := by
  obtain ⟨he, h⟩ := Option.ite_none_right_eq_some.mp h
  exact ⟨he, (Option.some.inj h).symm⟩

/-- A new pipe and two processes that have not used it. -/
def newPipe : State Bool where
  ring := { data := fun _ => 0, head := 0, tail := 0 }
  readopen := true
  writeopen := true
  lock := none
  thread _ := { pc := .idle, rest := .awake, killed := false }

theorem fresh_newPipe : Fresh newPipe := ⟨rfl, rfl, rfl, rfl, rfl, fun _ => ⟨rfl, rfl⟩⟩

end Xv6.Ipc.Pipe
