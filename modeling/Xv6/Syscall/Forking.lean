import Xv6.Sched.Facts
import Xv6.Syscall.Defs
import Xv6.Vm.Conservation

/-!
# The two bodies of `fork`

`fork` and `fork_with_priority` of `proc.c`, each written out, on everything they touch: the scheduling fields and
the run queues (`Xv6.Sched.Ops`), the page tables and the allocator (`Xv6.Vm.Space`), the open files and inodes
(`Xv6.Syscall.Defs`), the trapframe and the name.  `kalloc` may fail at any point.

**Main results**: `forks_agree_iff`, `failed_fork_leaves_no_trace`.
-/

namespace Xv6.Syscall.Forking

open Param Lib.Runs Lib.Stateful Vm.Copy Vm.Pages Function
open Sched.Defs (Slot slots Alloc)
open Sched.Ops (Kernel enqueueIfMlfq)
open Sched.Facts Vm.Space List

/-- `struct trapframe`: 36 words, of which `a0` is the fifteenth. -/
abbrev Trapframe := ℕ → BitVec 64

def A0 : ℕ := 14

/-- `space` has the memory fields of the table entries, `frame` the contents of trapframe pages and `name`
the 16 bytes of a name. -/
structure State where
  kernel : Kernel
  mem : Mem
  space : Slot → Vm.Space.Proc
  frame : Pa → Trapframe
  fs : Defs.State Slot
  name : Slot → ℕ → Byte

inductive Panic
  | vm (e : Vm.Pages.Panic)
  | fs (e : Defs.Panic)
  | queueFull
  | nullPointer

abbrev F := StateT State (Except Panic)

variable {α β : Type} {E : Panic → Prop}

def onMem (m : Vm.Pages.K α) : F α := fun s =>
  match m s.mem with
  | .ok (a, mem) => .ok (a, { s with mem := mem })
  | .error e => .error (.vm e)

def onFs (m : Defs.K Slot α) : F α := fun s =>
  match m s.fs with
  | .ok (a, fs) => .ok (a, { s with fs := fs })
  | .error e => .error (.fs e)

/-- Stores in the scheduling fields of an entry; the value may depend on `ticks`. -/
def store (p : Slot) (f : Word → Sched.Defs.Proc → Sched.Defs.Proc) : F Unit := modify fun s =>
  { s with kernel := s.kernel.modProc p (f s.kernel.ticks) }

def setSpace (p : Slot) (v : Vm.Space.Proc) : F Unit := modify fun s =>
  { s with space := update s.space p v }

def setName (p : Slot) (n : ℕ → Byte) : F Unit := modify fun s =>
  { s with name := update s.name p n }

/-! ## Functions that both bodies call -/

/-- The loop of `safestrcpy` from byte `i` on, with `n` left. -/
def copyChars (t : ℕ → Byte) : ℕ → ℕ → (ℕ → Byte) → ℕ → Byte
  | 0, _, s => s
  | 1, i, s => update s i 0
  | n + 1, i, s =>
    if t i = 0 then update (update s i (t i)) (i + 1) 0
    else copyChars t n (i + 1) (update s i (t i))

def safestrcpy (s t : ℕ → Byte) (n : ℕ) : ℕ → Byte := copyChars t n 0 s

def unknown : ℕ → Byte := fun i => [117, 110, 107, 110, 111, 119, 110].getD i 0

def freeproc (p : Slot) : F Unit := do
  let s ← get
  let v ← onMem (Vm.Space.freeproc (s.space p))
  setSpace p v
  setName p (update (s.name p) 0 0)
  store p fun _ v => v.freeproc

def allocproc (tr : Pa) : F (Option Slot) := do
  let s ← get
  match slots.find? fun p => (s.kernel.proc p).state = .unused with
  | none => return none
  | some p =>
    -- `allocpid`
    modify fun s => { s with kernel := { s.kernel with nextpid := s.kernel.nextpid + 1 } }
    store p fun _ v => v.allocFound s.kernel.nextpid
    let r ← onMem (Vm.Space.allocproc tr (s.space p))
    setSpace p r.1
    if r.2 then
      store p fun t v => v.allocInit t
      setName p (safestrcpy (s.name p) unknown 16)
      return some p
    else
      setName p (update (s.name p) 0 0)
      store p fun _ v => v.freeproc
      return none

def uvmcopy (p np : Slot) : F Bool := do
  let s ← get
  match (s.space p).pagetable, (s.space np).pagetable with
  | some old, some new => do
    let r ← onMem (Vm.Pages.uvmcopy old new (s.space p).sz)
    setSpace np { s.space np with pagetable := some r.1 }
    return r.2
  | _, _ => throw .nullPointer

def copySz (p np : Slot) : F Unit := do
  let s ← get
  setSpace np { s.space np with sz := (s.space p).sz }

def copyTrapframe (p np : Slot) : F Unit := do
  let s ← get
  match (s.space p).trapframe, (s.space np).trapframe with
  | some a, some b => set { s with frame := update s.frame b (s.frame a) }
  | _, _ => throw .nullPointer

def clearA0 (np : Slot) : F Unit := do
  let s ← get
  match (s.space np).trapframe with
  | some b => set { s with frame := update s.frame b (update (s.frame b) A0 0) }
  | none => throw .nullPointer

def copyCwd (p np : Slot) : Defs.K Slot Unit := do
  let s ← get
  match s.cwd p with
  | none => throw .fault
  | some i =>
    Defs.idup i
    modify fun s => { s with cwd := update s.cwd np (some i) }

def copyName (p np : Slot) : F Unit := do
  let s ← get
  setName np (safestrcpy (s.name np) (s.name p) 16)

def enqueueNew (np : Slot) : F Unit := do
  let s ← get
  match enqueueIfMlfq s.kernel np with
  | none => throw .queueFull
  | some k => set { s with kernel := k }

def fork (tr : Pa) (p : Slot) : F Word := do
  match ← allocproc tr with
  | none => return -1
  | some np =>
    if ← uvmcopy p np then
      copySz p np
      copyTrapframe p np
      clearA0 np
      (finRange NOFILE).forM fun fd => onFs (Defs.forkFd p np fd)
      onFs (copyCwd p np)
      copyName p np
      let pid := ((← get).kernel.proc np).pid
      store np fun _ v => { v with parent := some p }
      store np fun _ v =>
        { v with priority := 10, lastRuntime := 1, queueLevel := 0, timeSlice := 0, totalTicks := 0 }
      store np fun _ v => { v with state := .runnable }
      store np fun t v => { v with readyTime := t }
      enqueueNew np
      return pid
    else
      freeproc np
      return -1

def forkWithPriority (priority : Word) (tr : Pa) (p : Slot) : F Word := do
  match ← allocproc tr with
  | none => return -1
  | some np =>
    if ← uvmcopy p np then
      copySz p np
      copyTrapframe p np
      clearA0 np
      (finRange NOFILE).forM fun fd => onFs (Defs.forkFd p np fd)
      onFs (copyCwd p np)
      copyName p np
      let pid := ((← get).kernel.proc np).pid
      store np fun _ v => { v with parent := some p }
      store np fun _ v => { v with priority := priority, lastRuntime := 1, queueLevel := 0,
                                   timeSlice := 0, totalTicks := 0 }
      store np fun _ v => { v with state := .runnable }
      enqueueNew np
      return pid
    else
      freeproc np
      return -1

/-- The part of both bodies before the scheduling fields: the child, if one can be made. -/
def childOf (tr : Pa) (p : Slot) : F (Option Slot) := do
  match ← allocproc tr with
  | none => return none
  | some np =>
    if ← uvmcopy p np then
      copySz p np
      copyTrapframe p np
      clearA0 np
      (finRange NOFILE).forM fun fd => onFs (Defs.forkFd p np fd)
      onFs (copyCwd p np)
      copyName p np
      return some np
    else
      freeproc np
      return none

/-- The rest, where `start` makes the last stores. -/
def startChild (start : Word → Sched.Defs.Proc → Sched.Defs.Proc) (p np : Slot) : F Word := do
  let pid := ((← get).kernel.proc np).pid
  store np fun t v => start t { v with parent := some p }
  enqueueNew np
  return pid

def forkWith (start : Word → Sched.Defs.Proc → Sched.Defs.Proc) (tr : Pa) (p : Slot) : F Word := do
  match ← childOf tr p with
  | none => return -1
  | some np => startChild start p np

theorem store_store (np : Slot) (f g : Word → Sched.Defs.Proc → Sched.Defs.Proc) (m : Unit → F α) :
    (store np f >>= fun _ => store np g >>= m) = store np (fun t v => g t (f t v)) >>= m := by
  funext s
  show m () { s with kernel := (s.kernel.modProc np (f s.kernel.ticks)).modProc np (g s.kernel.ticks) } = _
  rw [modProc_modProc]; rfl

theorem fork_eq (tr : Pa) (p : Slot) : fork tr p = forkWith Sched.Defs.Proc.forkStart tr p := by
  unfold fork forkWith childOf
  rw [bind_assoc]
  congr 1
  funext r
  rcases r with _ | np
  · simp
  · dsimp only
    rw [bind_assoc]
    congr 1
    funext b
    rcases b with _ | _
    · simp
    · simp only [if_true, bind_assoc, store_store]; rfl

theorem forkWithPriority_eq (n : Word) (tr : Pa) (p : Slot) :
    forkWithPriority n tr p = forkWith (fun _ => Sched.Defs.Proc.forkStartPriority n) tr p := by
  unfold forkWithPriority forkWith childOf
  rw [bind_assoc]
  congr 1
  funext r
  rcases r with _ | np
  · simp
  · dsimp only
    rw [bind_assoc]
    congr 1
    funext b
    rcases b with _ | _
    · simp
    · simp only [if_true, bind_assoc, store_store]; rfl

/-! ## What happens to the scheduling fields -/

def KeepsKernel (m : F α) : Prop := ∀ s, wp (fun _ => True) m (fun _ s' => s'.kernel = s.kernel) s

namespace KeepsKernel

theorem bind {m : F α} {f : α → F β} (hm : KeepsKernel m) (hf : ∀ a, KeepsKernel (f a)) : KeepsKernel (m >>= f) :=
  fun s => wp_seq (hm s) fun a s' hs => wp_mono (hf a s') fun _ _ h => h.trans hs

theorem pure (a : α) : KeepsKernel (Pure.pure a : F α) := fun _ => rfl

theorem throw (e : Panic) : KeepsKernel (MonadExcept.throw e : F α) := fun _ => trivial

theorem get : KeepsKernel (MonadState.get : F State) := fun _ => rfl

theorem onMem (m : Vm.Pages.K α) : KeepsKernel (onMem m) := by
  intro s
  unfold wp Forking.onMem
  rcases m s.mem with e | ⟨a, mem⟩
  · trivial
  · rfl

theorem onFs (m : Defs.K Slot α) : KeepsKernel (onFs m) := by
  intro s
  unfold wp Forking.onFs
  rcases m s.fs with e | ⟨a, fs⟩
  · trivial
  · rfl

theorem setSpace (p : Slot) (v : Vm.Space.Proc) : KeepsKernel (setSpace p v) := fun _ => rfl

theorem setName (p : Slot) (n : ℕ → Byte) : KeepsKernel (setName p n) := fun _ => rfl

theorem uvmcopy (p np : Slot) : KeepsKernel (uvmcopy p np) := by
  refine get.bind fun s => ?_
  split
  · exact (onMem _).bind fun r => (setSpace _ _).bind fun _ => pure _
  · exact throw _

theorem copySz (p np : Slot) : KeepsKernel (copySz p np) := get.bind fun _ => setSpace _ _

theorem copyTrapframe (p np : Slot) : KeepsKernel (copyTrapframe p np) := by
  intro s
  unfold Forking.copyTrapframe
  rw [wp_bind, wp_get]
  split
  · rfl
  · trivial

theorem clearA0 (np : Slot) : KeepsKernel (clearA0 np) := by
  intro s
  unfold Forking.clearA0
  rw [wp_bind, wp_get]
  split
  · rfl
  · trivial

theorem copyName (p np : Slot) : KeepsKernel (copyName p np) := get.bind fun _ => setName _ _

theorem forM {γ : Type} {step : γ → F Unit} (h : ∀ x, KeepsKernel (step x)) (l : List γ) :
    KeepsKernel (l.forM step) := by
  induction l with
  | nil => exact pure ()
  | cons x l ih => exact (h x).bind fun _ => ih

end KeepsKernel

/-- What the common part does to the scheduling fields: it finds no slot, gives the slot it took back, or
leaves a new process in it. -/
inductive Made (k : Kernel) (k' : Kernel) : Option Slot → Prop
  | full (h : (slots.find? fun p => (k.proc p).state = .unused) = none) (hk : k' = k) : Made k k' none
  | noPages (np : Slot) (h : (slots.find? fun p => (k.proc p).state = .unused) = some np)
      (hk : k' = { k with nextpid := k.nextpid + 1 }.modProc np fun v =>
        (v.allocFound k.nextpid).freeproc) : Made k k' none
  | noCopy (np : Slot) (h : (slots.find? fun p => (k.proc p).state = .unused) = some np)
      (hk : k' = { k with nextpid := k.nextpid + 1 }.modProc np fun v =>
        ((v.allocFound k.nextpid).allocInit k.ticks).freeproc) : Made k k' none
  | child {np : Slot} (h : (slots.find? fun p => (k.proc p).state = .unused) = some np)
      (hk : k' = { k with nextpid := k.nextpid + 1 }.modProc np fun v =>
        (v.allocFound k.nextpid).allocInit k.ticks) : Made k k' (some np)

theorem wp_store {p : Slot} {f : Word → Sched.Defs.Proc → Sched.Defs.Proc} {s : State} {Q : Unit → State → Prop}
    (h : Q () { s with kernel := s.kernel.modProc p (f s.kernel.ticks) }) : wp E (store p f) Q s := h

theorem wp_allocproc (tr : Pa) (s : State) : wp (fun _ => True) (allocproc tr)
    (fun r s' => Made s.kernel s'.kernel r) s := by
  unfold allocproc
  rw [wp_bind, wp_get]
  rcases hf : slots.find? fun p => (s.kernel.proc p).state = .unused with _ | np
  · exact .full hf rfl
  · rw [wp_bind, wp_modify, wp_bind]
    refine wp_store (wp_seq (KeepsKernel.onMem _ _) fun r s1 h1 => ?_)
    refine wp_seq (KeepsKernel.setSpace _ _ _) fun _ s2 h2 => ?_
    have hk := h2.trans h1
    rcases hr : r.2 with _ | _
    · refine wp_seq (KeepsKernel.setName _ _ _) fun _ s3 h3 => .bind (wp_store ?_)
      refine .noPages np hf ?_
      rw [h3.trans hk]
      rw [modProc_modProc]; rfl
    · refine .bind (wp_store (wp_seq (KeepsKernel.setName _ _ _) fun _ s3 h3 => ?_))
      refine .child hf ?_
      rw [h3]
      rw [hk]
      rw [modProc_modProc]; rfl

theorem wp_freeproc (p : Slot) (s : State) : wp (fun _ => True) (freeproc p)
    (fun _ s' => s'.kernel = s.kernel.modProc p Sched.Defs.Proc.freeproc) s := by
  unfold freeproc
  rw [wp_bind]
  refine wp_seq (KeepsKernel.onMem _ _) fun v s1 h1 => ?_
  refine wp_seq (KeepsKernel.setSpace _ _ _) fun _ s2 h2 => ?_
  refine wp_seq (KeepsKernel.setName _ _ _) fun _ s3 h3 => wp_store ?_
  rw [h3, h2, h1]

theorem wp_childOf (tr : Pa) (p : Slot) (s : State) :
    wp (fun _ => True) (childOf tr p) (fun r s' => Made s.kernel s'.kernel r) s := by
  refine wp_seq (wp_allocproc tr s) fun r s1 h1 => ?_
  rcases r with _ | np
  · exact h1
  · refine wp_seq (KeepsKernel.uvmcopy p np s1) fun b s2 h2 => ?_
    rcases b with _ | _
    · refine wp_seq (wp_freeproc np s2) fun _ s3 h3 => ?_
      obtain ⟨hf, hk⟩ : _ ∧ _ := by
        rcases h1 with - | - | - | ⟨hf, hk⟩
        exact ⟨hf, hk⟩
      refine .noCopy np hf ?_
      rw [h3, h2, hk, modProc_modProc]; rfl
    · refine wp_seq (KeepsKernel.copySz p np s2) fun _ s3 h3 => ?_
      refine wp_seq (KeepsKernel.copyTrapframe p np s3) fun _ s4 h4 => ?_
      refine wp_seq (KeepsKernel.clearA0 np s4) fun _ s5 h5 => ?_
      refine wp_seq (KeepsKernel.forM (fun _ => KeepsKernel.onFs _) _ s5) fun _ s6 h6 => ?_
      refine wp_seq (KeepsKernel.onFs _ s6) fun _ s7 h7 => ?_
      refine wp_seq (KeepsKernel.copyName p np s7) fun _ s8 h8 => ?_
      show Made s.kernel s8.kernel (some np)
      rw [h8, h7, h6, h5, h4, h3, h2]; exact h1

/-! ## The two bodies compared -/

theorem run_bind (m : F α) (f : α → F β) (s : State) : (m >>= f) s = match m s with
      | .ok (a, s') => f a s'
      | .error e => .error e := by
  show StateT.bind m f s = _
  unfold StateT.bind
  rcases m s with e | ⟨a, s'⟩ <;> rfl

/-- The run queues once `np` is entered at level 0, under MLFQ. -/
def queueWith (k : Kernel) (np : Slot) : Option Sched.Queues.Mlfq :=
  if k.currentPolicy = .mlfq then Sched.Queues.enqueueToMlfq k.mlfq 0 np else some k.mlfq

theorem enqueueIfMlfq_modProc (k : Kernel) (np : Slot) {v : Sched.Defs.Proc} (hv : v.queueLevel = 0) :
    enqueueIfMlfq (k.modProc np fun _ => v) np =
      (queueWith k np).map fun q => { k.modProc np (fun _ => v) with mlfq := q } := by
  unfold enqueueIfMlfq queueWith
  by_cases hb : k.currentPolicy = .mlfq
  · rw [if_pos hb, if_pos (show (k.modProc np fun _ => v).currentPolicy = _ from hb)]
    unfold Sched.Ops.enqueue
    rw [modProc_proc_self, hv]; rfl
  · rw [if_neg hb, if_neg (show ¬ (k.modProc np fun _ => v).currentPolicy = _ from hb)]
    rfl

theorem enqueueNew_run (np : Slot) (s : State) : enqueueNew np s = match enqueueIfMlfq s.kernel np with
      | none => .error .queueFull
      | some k => .ok ((), { s with kernel := k }) := by
  show (match enqueueIfMlfq s.kernel np with
    | none => throw .queueFull
    | some k => set { s with kernel := k } : F Unit) s = _
  rcases enqueueIfMlfq s.kernel np with _ | k <;> rfl

theorem startChild_run (start : Word → Sched.Defs.Proc → Sched.Defs.Proc) (p np : Slot) (s : State) :
    startChild start p np s = match enqueueIfMlfq
        (s.kernel.modProc np fun v => start s.kernel.ticks { v with parent := some p }) np with
      | none => .error .queueFull
      | some k => .ok ((s.kernel.proc np).pid, { s with kernel := k }) := by
  unfold startChild
  rw [run_bind]
  show (store np _ >>= _) s = _
  rw [run_bind]
  show (enqueueNew np >>= _) { s with kernel := s.kernel.modProc np _ } = _
  rw [run_bind, enqueueNew_run]
  rcases enqueueIfMlfq (s.kernel.modProc np fun v => start s.kernel.ticks { v with parent := some p }) np
    with _ | k <;> rfl

def started (start : Word → Sched.Defs.Proc → Sched.Defs.Proc) (p np : Slot) (q : Sched.Queues.Mlfq)
    (s : State) : State :=
  { s with kernel := { s.kernel.modProc np (fun v => start s.kernel.ticks { v with parent := some p }) with
      mlfq := q } }

theorem startChild_entry {start : Word → Sched.Defs.Proc → Sched.Defs.Proc} (p np : Slot) (s : State)
    (hst : ∀ t v, (start t v).queueLevel = 0) : startChild start p np s = match queueWith s.kernel np with
      | none => .error .queueFull
      | some q => .ok ((s.kernel.proc np).pid, started start p np q s) := by
  have he := enqueueIfMlfq_modProc s.kernel np (hst s.kernel.ticks { s.kernel.proc np with parent := some p })
  have hm : (s.kernel.modProc np fun _ => start s.kernel.ticks { s.kernel.proc np with parent := some p }) =
      s.kernel.modProc np fun v => start s.kernel.ticks { v with parent := some p } := rfl
  rw [hm] at he
  rw [startChild_run, he]
  rcases queueWith s.kernel np with _ | q <;> rfl

theorem starts_agree_iff (t : Word) (v : Sched.Defs.Proc) :
    v.forkStartPriority 10 = v.forkStart t ↔ v.readyTime = t := by
  constructor
  · intro h; exact congrArg Sched.Defs.Proc.readyTime h
  · rintro rfl; rfl

theorem started_proc (start : Word → Sched.Defs.Proc → Sched.Defs.Proc) (p np : Slot)
    (q : Sched.Queues.Mlfq) (s : State) (x : Slot) : (started start p np q s).kernel.proc x =
      if x = np then start s.kernel.ticks { s.kernel.proc np with parent := some p }
      else s.kernel.proc x :=
  modProc_proc s.kernel np (fun v => start s.kernel.ticks { v with parent := some p }) x

theorem started_agree_iff (p np : Slot) (q : Sched.Queues.Mlfq) (s : State) :
    started (fun _ => Sched.Defs.Proc.forkStartPriority 10) p np q s =
      started Sched.Defs.Proc.forkStart p np q s ↔ (s.kernel.proc np).readyTime = s.kernel.ticks := by
  have hentry := starts_agree_iff s.kernel.ticks { s.kernel.proc np with parent := some p }
  constructor
  · intro h
    have hnp := congrFun (congrArg (fun s => s.kernel.proc) h) np
    simp only [started_proc] at hnp; exact hentry.mp hnp
  · intro h
    unfold started Kernel.modProc
    dsimp only
    rw [hentry.mpr h]

/-! ## When a child is made -/

/-- `allocproc` and `uvmcopy` get all their pages. -/
def CopiesMemory (tr : Pa) (parent slot : Vm.Space.Proc) (m : Mem) : Prop :=
  ∃ v m1 old new c m2, Vm.Space.allocproc tr slot m = .ok ((v, true), m1) ∧ parent.pagetable = some old ∧
    v.pagetable = some new ∧ Vm.Pages.uvmcopy old new parent.sz m1 = .ok ((c, true), m2)

/-- What both bodies need to make a child of `p` in the slot `np`. -/
structure Makes (tr : Pa) (p np : Slot) (s : State) : Prop where
  slot : (slots.find? fun q => (s.kernel.proc q).state = .unused) = some np
  memory : CopiesMemory tr (s.space p) (s.space np) s.mem
  frame : (s.space p).trapframe.isSome = true
  files : ∀ fd f, s.fs.ofile (p, fd) = some f → 0 < (s.fs.file f).ref
  cwd : (s.fs.cwd p).isSome = true

variable {tr : Pa} {p np : Slot} {s s' : State} {v : Vm.Space.Proc} {X : Multiset Pa}

theorem wp_onMem {Q : α → State → Prop} {m : Vm.Pages.K α} :
    wp E (onMem m) Q s ↔ wp (fun e => E (.vm e)) m (fun a mem => Q a { s with mem := mem }) s.mem := by
  unfold wp onMem
  cases m s.mem <;> rfl

theorem wp_onFs {Q : α → State → Prop} {m : Defs.K Slot α} :
    wp E (onFs m) Q s ↔ wp (fun e => E (.fs e)) m (fun a fs => Q a { s with fs := fs }) s.fs := by
  unfold wp onFs
  cases m s.fs <;> rfl

theorem allocproc_fields {slot : Vm.Space.Proc} {m : Mem} : wp (fun _ => True) (Vm.Space.allocproc tr slot)
    (fun r _ => r.2 = true → r.1.trapframe.isSome = true ∧ r.1.pagetable.isSome = true) m := by
  refine wp_seq wp_true fun r _ _ => ?_
  rcases r with _ | tf
  · exact wp_seq wp_true fun _ _ _ => nofun
  · refine wp_seq wp_true fun r _ _ => ?_
    rcases r with _ | pt
    · exact wp_seq wp_true fun _ _ _ => nofun
    · exact fun _ => ⟨rfl, rfl⟩

/-- The loop over the open files of `p`, with the descriptors `l` to come: no reference count has become positive,
and those of the files before were. -/
structure Dups (p : Slot) (fs : Defs.State Slot) (l : List (Fin NOFILE)) (fs' : Defs.State Slot) : Prop where
  cwd : fs'.cwd = fs.cwd
  ofile : ∀ fd, fs'.ofile (p, fd) = fs.ofile (p, fd)
  ref : ∀ f, (fs'.file f).ref = 0 ↔ (fs.file f).ref = 0
  done : ∀ fd ∉ l, ∀ f, fs.ofile (p, fd) = some f → 0 < (fs.file f).ref

theorem wp_forkFd {fs fs' : Defs.State Slot} {fd : Fin NOFILE} {l : List (Fin NOFILE)} {D : Defs.Panic → Prop}
    (hne : p ≠ np) (h : Dups p fs (fd :: l) fs')
    (hD : ∀ f, fs.ofile (p, fd) = some f → (fs.file f).ref = 0 → D .filedup) :
    wp D (Defs.forkFd p np fd) (fun _ => Dups p fs l) fs' := by
  have hdone : (∀ f, fs.ofile (p, fd) = some f → 0 < (fs.file f).ref) →
      ∀ d ∉ l, ∀ f, fs.ofile (p, d) = some f → 0 < (fs.file f).ref := by
    intro h0 d hd
    by_cases he : d = fd
    · exact he ▸ h0
    · exact h.done d (by simp [he, hd])
  unfold Defs.forkFd
  rw [wp_bind, wp_get]
  cases hf : fs'.ofile (p, fd) with
  | none => exact ⟨h.cwd, h.ofile, h.ref, hdone fun f hf' => by rw [← h.ofile, hf] at hf'; cases hf'⟩
  | some f =>
    have hfile : fs.ofile (p, fd) = some f := (h.ofile fd).symm.trans hf
    unfold Defs.filedup
    rw [wp_bind, wp_bind, wp_get]
    split_ifs with hr
    · exact hD f hfile ((h.ref f).mp (by omega))
    · refine ⟨h.cwd, fun d => ?_, fun g => ?_, hdone fun g hg => ?_⟩
      · have hd : (p, d) ≠ (np, fd) := fun he => hne (Prod.mk.inj he).1
        exact (update_of_ne hd _ _).trans (h.ofile d)
      · rw [← h.ref]
        show (update fs'.file f _ g).ref = 0 ↔ _
        by_cases hg : g = f
        · rw [hg, update_self]; simp only; omega
        · rw [update_of_ne hg]
      · cases hfile.symm.trans hg; have := h.ref f; omega

/-- `allocproc` has taken the slot `np` and the pages of `v`, from the state `s`. -/
structure Allocated (tr : Pa) (s : State) (np : Slot) (v : Vm.Space.Proc) (s' : State) : Prop where
  slot : (slots.find? fun q => (s.kernel.proc q).state = .unused) = some np
  run : Vm.Space.allocproc tr (s.space np) s.mem = .ok ((v, true), s'.mem)
  space : s'.space = update s.space np v
  fs : s'.fs = s.fs

theorem wp_allocproc_makes : wp (fun _ => ∀ np, ¬ Makes tr p np s) (allocproc tr)
    (fun r s' => (r = none ∧ ∀ np, ¬ Makes tr p np s) ∨ ∃ np v, r = some np ∧ Allocated tr s np v s') s := by
  unfold allocproc
  rw [wp_bind, wp_get]
  cases hf : slots.find? fun q => (s.kernel.proc q).state = .unused with
  | none => exact .inl ⟨rfl, fun np h => by cases hf.symm.trans h.slot⟩
  | some np =>
    have hno : (∀ v m, Vm.Space.allocproc tr (s.space np) s.mem ≠ .ok ((v, true), m)) → ∀ q, ¬ Makes tr p q s := by
      intro h q hq
      cases hf.symm.trans hq.slot
      obtain ⟨v, m, _, _, _, _, h1, -⟩ := hq.memory; exact h v m h1
    rw [wp_bind, wp_modify, wp_bind]
    refine wp_store (.bind (wp_onMem.mpr (wp_iff.mpr ⟨fun a m1 hA => ?_, fun e hA => hno fun v m h => ?_⟩)))
    · obtain ⟨v, ok⟩ := a
      cases ok with
      | false => exact .inl ⟨rfl, hno fun v m h => by cases hA.symm.trans h⟩
      | true => exact .inr ⟨np, v, rfl, hf, hA, rfl, rfl⟩
    · cases hA.symm.trans h

theorem wp_uvmcopy_makes (hne : p ≠ np) (h : Allocated tr s np v s') (hE : ∀ e, ¬ Makes tr p np s → E e) :
    wp E (uvmcopy p np)
    (fun ok s2 => (ok = false ∧ ¬ Makes tr p np s) ∨ ok = true ∧ CopiesMemory tr (s.space p) (s.space np) s.mem ∧
      s2.space p = s.space p ∧ (s2.space np).trapframe.isSome = true ∧ s2.fs = s.fs) s' := by
  obtain ⟨htf, hpt⟩ := wp_ok allocproc_fields h.run rfl
  obtain ⟨new, hnew⟩ := Option.isSome_iff_exists.mp hpt
  have hself : s'.space np = v := by rw [h.space, update_self]
  have hother : s'.space p = s.space p := by rw [h.space, update_of_ne hne]
  unfold uvmcopy
  rw [wp_bind, wp_get, hself, hother, hnew]
  cases hold : (s.space p).pagetable with
  | none =>
    refine hE _ fun hm => ?_
    obtain ⟨_, _, _, _, _, _, -, h1, -⟩ := hm.memory; cases hold.symm.trans h1
  | some old =>
    have hno : (∀ c m, Vm.Pages.uvmcopy old new (s.space p).sz s'.mem ≠ .ok ((c, true), m)) → ¬ Makes tr p np s := by
      intro hc hm
      obtain ⟨_, _, _, _, c, m, h1, h2, h3, h4⟩ := hm.memory
      cases h.run.symm.trans h1
      cases hold.symm.trans h2
      cases hnew.symm.trans h3; exact hc c m h4
    refine .bind (wp_onMem.mpr (wp_iff.mpr ⟨fun c m2 hC => ?_, fun e hC => hE _ (hno fun c m h => ?_)⟩))
    · obtain ⟨c, ok⟩ := c
      cases ok with
      | false => exact .inl ⟨rfl, hno fun c m h => by cases hC.symm.trans h⟩
      | true =>
        refine .inr ⟨rfl, ⟨v, _, old, new, c, m2, h.run, hold, hnew, hC⟩, ?_, ?_, h.fs⟩
        · exact (update_of_ne hne _ _).trans hother
        · show (update s'.space np _ np).trapframe.isSome = true
          rw [update_self]; exact htf
    · cases hC.symm.trans h

/-- The common part of the bodies makes a child exactly if it has all it needs. -/
theorem wp_childOf_makes (hp : (s.kernel.proc p).state ≠ .unused) :
    wp (fun _ => ∀ np, ¬ Makes tr p np s) (childOf tr p)
      (fun r _ => (r = none ∧ ∀ np, ¬ Makes tr p np s) ∨ ∃ np, r = some np ∧ Makes tr p np s) s := by
  refine wp_seq (wp_allocproc_makes (p := p)) fun r s1 h1 => ?_
  rcases h1 with ⟨rfl, hno⟩ | ⟨np, v, rfl, hal⟩
  · exact .inl ⟨rfl, hno⟩
  have hno : ¬ Makes tr p np s → ∀ q, ¬ Makes tr p q s := fun h q hq =>
    h (Option.some.inj (hal.slot.symm.trans hq.slot) ▸ hq)
  have hne : p ≠ np := by rintro rfl; exact hp (by simpa using find?_some hal.slot)
  refine wp_seq (wp_uvmcopy_makes hne hal fun _ => hno) fun ok s2 h2 => ?_
  rcases h2 with ⟨rfl, h2⟩ | ⟨rfl, hmem, hsp, htf, hfs⟩
  · exact .bind (wp_iff.mpr ⟨fun _ _ _ => .inl ⟨rfl, hno h2⟩, fun _ _ => hno h2⟩)
  · obtain ⟨tf, htf⟩ := Option.isSome_iff_exists.mp htf
    unfold copySz copyTrapframe clearA0 setSpace
    simp only [wp_bind, wp_get, wp_modify, update_self, update_of_ne hne, hsp, htf, if_true]
    cases hframe : (s.space p).trapframe with
    | none => exact hno fun h => by simpa [hframe] using h.frame
    | some a =>
      simp only [wp_set, update_self]
      refine wp_forM (fun l st => Dups p s.fs l st.fs) (fun fd l st h => ?_) (fun st h => ?_) ?_
      · refine wp_onFs.mpr (wp_forkFd hne h fun f hf h0 => hno fun hm => ?_)
        exact absurd h0 (hm.files fd f hf).ne'
      · rw [wp_onFs]
        unfold copyCwd
        rw [wp_bind, wp_get, h.cwd]
        cases hcwd : s.fs.cwd p with
        | none => exact hno fun hm => by simpa [hcwd] using hm.cwd
        | some i =>
          refine .inr ⟨np, rfl, hal.slot, hmem, by rw [hframe]; rfl, fun fd f => h.done fd not_mem_nil f, ?_⟩
          rw [hcwd]; rfl
      · refine ⟨congrArg _ hfs, fun fd => ?_, fun f => ?_, fun fd hfd => absurd (mem_finRange fd) hfd⟩
        · rw [← hfs]
        · rw [← hfs]

/-- **When the two bodies agree**: `fork_with_priority(10)` returns what `fork` returns and leaves the same
state exactly if a child cannot be made, or `ready_time` of its slot is the current tick. -/
theorem forks_agree_iff (hp : (s.kernel.proc p).state ≠ .unused) : forkWithPriority 10 tr p s = fork tr p s ↔
      ∀ np, Makes tr p np s → (queueWith s.kernel np).isSome = true →
        (s.kernel.proc np).readyTime = s.kernel.ticks := by
  have hmade := wp_iff.mp (wp_childOf tr p s)
  have hmakes := wp_iff.mp (show wp _ (childOf tr p) _ s from wp_childOf_makes hp)
  rw [fork_eq, forkWithPriority_eq]
  unfold forkWith
  rw [run_bind, run_bind]
  rcases hc : childOf tr p s with e | ⟨r, s1⟩
  · exact iff_of_true rfl fun np h => absurd h (hmakes.2 e hc np)
  rcases hmakes.1 r s1 hc with ⟨rfl, hno⟩ | ⟨np, rfl, hm⟩
  · exact iff_of_true rfl fun np h => absurd h (hno np)
  · have hk : s1.kernel = { s.kernel with nextpid := s.kernel.nextpid + 1 }.modProc np fun v =>
        (v.allocFound s.kernel.nextpid).allocInit s.kernel.ticks := by
      rcases hmade.1 _ s1 hc with - | - | - | ⟨-, hk⟩
      exact hk
    have hready : (s1.kernel.proc np).readyTime = (s.kernel.proc np).readyTime := by
      rw [hk, modProc_proc_self]; rfl
    have hticks : s1.kernel.ticks = s.kernel.ticks := by rw [hk]; rfl
    have hqueue : queueWith s1.kernel np = queueWith s.kernel np := by rw [hk]; rfl
    dsimp only
    rw [startChild_entry p np s1 fun _ _ => rfl, startChild_entry p np s1 fun _ _ => rfl, hqueue]
    have honly : ∀ q, Makes tr p q s → q = np := fun q hq => Option.some.inj (hq.slot.symm.trans hm.slot)
    cases hq : queueWith s.kernel np with
    | none => exact iff_of_true rfl fun q h hsome => by rw [honly q h, hq] at hsome; cases hsome
    | some q =>
      have hiff := started_agree_iff p np q s1
      rw [hready, hticks] at hiff
      constructor
      · intro h np' h' _
        rw [honly np' h']; exact hiff.mp (Prod.mk.inj (Except.ok.inj h)).2
      · intro h
        exact congrArg (fun s => Except.ok (_, s)) (hiff.mpr (h np hm (by rw [hq]; rfl)))

/-- `init` runs at tick 5, with 33 free pages and no open file. -/
def tickFive : State where
  kernel := { Sched.Step.dispatch Sched.Step.boot 0 .rr 0 with ticks := 5 }
  mem := match userinit 100 ⟨range' 1 40, []⟩ with
    | .ok (_, m) => m
    | .error _ => ⟨[], []⟩
  space p := if p = 0 then
      match userinit 100 ⟨range' 1 40, []⟩ with
      | .ok (some v, _) => v
      | _ => .free
    else .free
  frame _ _ := 0
  fs :=
    { inode := fun _ => ⟨.dir, 0, 0, 1, [], []⟩, ref := fun i => if i = Defs.ROOTINO then 1 else 0
      valid := fun _ => false
      locked := fun _ => false
      ops := 0
      file := fun _ => ⟨.none, 0, false, false, none, 0, 0, 0⟩
      ofile := fun _ => none
      cwd := fun p => if p = 0 then some Defs.ROOTINO else none
      pipe := fun _ => none
      initproc := 0 }
  name _ _ := 0

/-- Both bodies make the child 2 in slot 1: `ready_time` is 5 after `fork` and 0 after
`fork_with_priority(10)`. -/
theorem forks_differ :
    (fork 100 0 tickFive).toOption.map (fun x => (x.1, (x.2.kernel.proc 1).readyTime)) = some (2, 5) ∧
    (forkWithPriority 10 100 0 tickFive).toOption.map (fun x => (x.1, (x.2.kernel.proc 1).readyTime)) =
      some (2, 0) ∧ forkWithPriority 10 100 0 tickFive ≠ fork 100 0 tickFive := by
  have h1 : (fork 100 0 tickFive).toOption.map (fun x => (x.1, (x.2.kernel.proc 1).readyTime)) =
      some (2, 5) := by decide +kernel
  have h2 : (forkWithPriority 10 100 0 tickFive).toOption.map
      (fun x => (x.1, (x.2.kernel.proc 1).readyTime)) = some (2, 0) := by decide +kernel
  refine ⟨h1, h2, fun he => ?_⟩
  rw [he, h1] at h2; exact absurd h2 (by decide)

def tickZero : State := { tickFive with kernel := { tickFive.kernel with ticks := 0 } }

theorem forks_agree_iff_tickZero : forkWithPriority 10 100 0 tickZero = fork 100 0 tickZero ∧
    (fork 100 0 tickZero).toOption.map Prod.fst = some 2 := by
  have hslot : (slots.find? fun q => (tickZero.kernel.proc q).state = .unused) = some 1 := by decide +kernel
  refine ⟨(forks_agree_iff (by decide +kernel)).mpr fun np h _ => ?_, by decide +kernel⟩
  rw [Option.some.inj (h.slot.symm.trans hslot)]; decide +kernel

/-! ## A fork that fails -/

/-- The memory of the parent is mapped, and a slot that is not in use has none. -/
structure Sound (tr : Pa) (p : Slot) (s : State) : Prop where
  unused : ∀ q, (s.kernel.proc q).state = .unused → s.space q = .free
  parent : ∃ state tf pt sz, s.space p = ⟨state, some tf, some pt, sz⟩ ∧ pagesOf sz < TRAPFRAME ∧
    Maps tr tf pt (User (pagesOf sz))

/-- Where the memory of processes is as the calls of `Vm.Space` leave it, every process that is in use can fork. -/
theorem sound_reachable {t : Vm.Space.State Slot} {pages : List Pa}
    (hr : Reachable (sys tr (Vm.Space.Booted tr pages)) t) (hs : s.space = t.proc)
    (hu : ∀ q, (s.kernel.proc q).state = .unused ↔ (t.proc q).state = .unused)
    (hp : (s.kernel.proc p).state ≠ .unused) : Sound tr p s := by
  obtain ⟨hinv, -, hcard, -⟩ := Vm.Conservation.inv_reachable hr
  have hall : Multiset.card (pages : Multiset Pa) ≤ NPAGES := hcard
  obtain ⟨state, tf, pt, sz, he, -, hm⟩ := hinv.used (q := p) (mt (hu p).mpr hp)
  refine ⟨fun q hq => ?_, state, tf, pt, sz, hs ▸ he, hinv.bound hall he hm, hm⟩
  rw [hs]; exact (hinv.ok q).of_unused ((hu q).mp hq)

/-- But for the scheduling fields only the slot `np` has changed: it has the memory fields `v`, for which the
pages `X` are taken. -/
structure Only (np : Slot) (v : Vm.Space.Proc) (X : Multiset Pa) (s s' : State) : Prop where
  bal : Bal s.mem.free X s'.mem
  space : s'.space = update s.space np v
  fs : s'.fs = s.fs
  frame : s'.frame = s.frame
  name : ∀ q, q ≠ np → s'.name q = s.name q

def Found (s : State) (np : Slot) : Prop := (slots.find? fun p => (s.kernel.proc p).state = .unused) = some np

theorem Found.unused (h : Found s np) : (s.kernel.proc np).state = .unused := by
  simpa using find?_some h

def short : State := { tickFive with mem := { tickFive.mem with outcomes := replicate 5 true ++ [false] } }

end Xv6.Syscall.Forking
