import Xv6.Lib.Runs
import Xv6.Vm.Pages

/-!
# The memory of processes

The system calls that create, replace, resize and free the memory of processes (`proc.c`, `exec.c`,
`sys_exec`), and the pages of pipes, over the page tables of `Vm.Pages`.  One call is one step; a call may
find that `kalloc` fails at any point.

`Keeps` says what each call does to the process it is about: its page table maps the pages below its size,
the trapframe and the trampoline, and the pages it held before are with it or on the free list.
-/

namespace Xv6.Vm.Space

open Lib.Runs Lib.Stateful Lib.Tables Vm.Copy Vm.Pages Multiset

def USERSTACK : ℕ := 1
def MAXARG : ℕ := 32

/-- `used` stands for all states of a process that is not a zombie. -/
inductive ProcState
  | unused | used | zombie
deriving DecidableEq

/-- The fields of `struct proc` that hold memory; null pointers are `none`. -/
structure Proc where
  state : ProcState
  trapframe : Option Pa
  pagetable : Option PageTable
  sz : ℕ

def Proc.free : Proc := ⟨.unused, none, none, 0⟩

def freeproc (p : Proc) : K Proc := do
  match p.trapframe with
  | some tf => kfree tf
  | none => pure ()
  match p.pagetable with
  | some pt => procFreepagetable pt p.sz
  | none => pure ()
  return .free

/-- `allocproc`, for the slot it has found. -/
def allocproc (tr : Pa) (np : Proc) : K (Proc × Bool) := do
  match ← kalloc with
  | none => do
    let np ← freeproc { np with state := .used, trapframe := none }
    return (np, false)
  | some tf => do
    match ← procPagetable tr tf with
    | none => do
      let np ← freeproc { np with state := .used, trapframe := some tf, pagetable := none }
      return (np, false)
    | some pt => return ({ np with state := .used, trapframe := some tf, pagetable := some pt }, true)

/-- `userinit` and `uvmfirst`; without memory for the first process the kernel does not start. -/
def userinit (tr : Pa) : K (Option Proc) := do
  let r ← allocproc tr .free
  match r.1.pagetable with
  | none => return none
  | some pt => do
    match ← kalloc with
    | none => return none
    | some mem => do
      let r' ← mappages pt 0 mem (PTE_W ||| PTE_R ||| PTE_X ||| PTE_U)
      if r'.2 then return some { r.1 with pagetable := some r'.1, sz := PGSIZE } else return none

def addSize (sz : ℕ) (n : BitVec 32) : ℕ := (((sz : ℤ) + n.toInt) % 2 ^ 64).toNat

def growproc (p : Proc) (n : BitVec 32) : K (Proc × Bool) :=
  match p.pagetable with
  | none => throw .walk
  | some pt =>
    if n.toInt > 0 then do
      let r ← uvmalloc pt p.sz (addSize p.sz n) PTE_W
      if r.2 = 0 then return ({ p with pagetable := some r.1 }, false)
      else return ({ p with pagetable := some r.1, sz := r.2 }, true)
    else if n.toInt < 0 then do
      let r ← uvmdealloc pt p.sz (addSize p.sz n)
      return ({ p with pagetable := some r.1, sz := r.2 }, true)
    else return (p, true)

/-- `fork`, for the slot that `allocproc` finds; returns the new process. -/
def fork (tr : Pa) (p np : Proc) : K (Proc × Bool) := do
  let r ← allocproc tr np
  if r.2 then
    match p.pagetable, r.1.pagetable with
    | some old, some new => do
      let c ← uvmcopy old new p.sz
      if c.2 then return ({ r.1 with pagetable := some c.1, sz := p.sz }, true)
      else do
        let np ← freeproc { r.1 with pagetable := some c.1 }
        return (np, false)
    | _, _ => throw .walk
  else return (r.1, false)

/-- `fork_with_priority` differs from `fork` in scheduling fields only. -/
def forkWithPriority (tr : Pa) (p np : Proc) : K (Proc × Bool) := fork tr p np

/-- A program header; `readable` and `loaded` say whether `readi` gives it and its segment. -/
structure Segment where
  readable : Bool
  load : Bool
  flags : BitVec 32
  vaddr : BitVec 64
  filesz : BitVec 64
  memsz : BitVec 64
  loaded : Bool

/-- The program file; `header` says that there is one with a valid header, `args` that the arguments fit
on the stack and can be copied to it. -/
structure Image where
  header : Bool
  segments : List Segment
  args : Bool

def flags2perm (flags : BitVec 32) : BitVec 10 :=
  (if flags &&& 1 ≠ 0 then PTE_X else 0) ||| (if flags &&& 2 ≠ 0 then PTE_W else 0)

/-- The loop of `exec` over the program headers: the table, the size and whether all are loaded. -/
def loadSegments : List Segment → PageTable → ℕ → K ((PageTable × ℕ) × Bool)
  | [], pt, sz => pure ((pt, sz), true)
  | ph :: rest, pt, sz =>
    if ph.readable = false then pure ((pt, sz), false)
    else if ph.load = false then loadSegments rest pt sz
    else if ph.memsz < ph.filesz then pure ((pt, sz), false)
    else if ph.vaddr + ph.memsz < ph.vaddr then pure ((pt, sz), false)
    else if ph.vaddr.toNat % PGSIZE ≠ 0 then pure ((pt, sz), false)
    else do
      let r ← uvmalloc pt sz (ph.vaddr + ph.memsz).toNat (flags2perm ph.flags)
      if r.2 = 0 then return ((r.1, sz), false)
      else if ph.loaded then loadSegments rest r.1 r.2
      else return (r, false)

def bad (p : Proc) (pt : PageTable) (sz : ℕ) : K (Proc × Bool) := do
  procFreepagetable pt sz
  return (p, false)

def setStack (p : Proc) (old : PageTable) (args : Bool) (pt : PageTable) (sz : ℕ) : K (Proc × Bool) := do
  let r ← uvmalloc pt sz (sz + (USERSTACK + 1) * PGSIZE) PTE_W
  if r.2 = 0 then bad p r.1 sz
  else do
    let pt ← uvmclear r.1 ((r.2 - (USERSTACK + 1) * PGSIZE) / PGSIZE)
    if args then do
      procFreepagetable old p.sz
      return ({ p with pagetable := some pt, sz := r.2 }, true)
    else bad p pt r.2

def exec (tr : Pa) (p : Proc) (img : Image) : K (Proc × Bool) :=
  match p.trapframe, p.pagetable with
  | some tf, some old =>
    if img.header = false then pure (p, false)
    else do
      match ← procPagetable tr tf with
      | none => return (p, false)
      | some pt => do
        let r ← loadSegments img.segments pt 0
        if r.2 then setStack p old img.args r.1.1 (pagesOf r.1.2 * PGSIZE)
        else bad p r.1.1 r.1.2
  | _, _ => throw .walk

/-- An argument of `exec`: whether its pointer and its text can be read. -/
structure Arg where
  fetched : Bool
  copied : Bool

/-- The loop of `sys_exec` from argument `i` on; `argv` are the pages it has allocated. -/
def fetchArgs : List Arg → ℕ → List Pa → K (List Pa × Bool)
  | [], i, argv => pure (argv, decide (i < MAXARG))
  | a :: rest, i, argv =>
    if i ≥ MAXARG then pure (argv, false)
    else if a.fetched = false then pure (argv, false)
    else do
      match ← kalloc with
      | none => return (argv, false)
      | some page => if a.copied then fetchArgs rest (i + 1) (argv ++ [page]) else return (argv ++ [page], false)

def sysExec (tr : Pa) (p : Proc) (args : List Arg) (img : Image) : K (Proc × Bool) := do
  let r ← fetchArgs args 0 []
  if r.2 then do
    let e ← exec tr p img
    r.1.forM kfree
    return e
  else do
    r.1.forM kfree
    return (p, false)

/-! ## Calls -/

structure State (P : Type) where
  free : List Pa
  proc : P → Proc
  pipes : List Pa
  permanent : List Pa

/-- `pipe` keeps the pipe or, without descriptors for it, closes it again; `close` of the last end of a
pipe frees its page; `wait` reaps a zombie if it can copy the exit status. -/
inductive Call (P : Type)
  | fork (p np : P)
  | forkWithPriority (p np : P)
  | exec (p : P) (args : List Arg) (img : Image)
  | sbrk (p : P) (n : BitVec 32)
  | exit (p : P)
  | wait (p child : P) (copied : Bool)
  | pipe (p : P) (kept : Bool)
  | close (p : P) (page : Pa)

def Call.target {P : Type} : Call P → Option P
  | .fork _ np | .forkWithPriority _ np => some np
  | .exec p _ _ | .sbrk p _ | .exit p => some p
  | .wait _ child _ => some child
  | .pipe _ _ | .close _ _ => none

variable {P : Type} [DecidableEq P]

def Enabled (s : State P) : Call P → Prop
  | .fork p np | .forkWithPriority p np => (s.proc p).state = .used ∧ (s.proc np).state = .unused
  | .exec p _ _ | .sbrk p _ | .exit p => (s.proc p).state = .used
  | .wait p child _ => (s.proc p).state = .used ∧ (s.proc child).state = .zombie
  | .pipe p _ => (s.proc p).state = .used
  | .close p page => (s.proc p).state = .used ∧ page ∈ s.pipes

instance decEnabled (s : State P) (c : Call P) : Decidable (Enabled s c) := by
  cases c <;> unfold Enabled <;> infer_instance

def procCall (tr : Pa) (s : State P) : Call P → K (Proc × Bool)
  | .fork p np => fork tr (s.proc p) (s.proc np)
  | .forkWithPriority p np => forkWithPriority tr (s.proc p) (s.proc np)
  | .exec p args img => sysExec tr (s.proc p) args img
  | .sbrk p n => growproc (s.proc p) n
  | .exit p => pure ({ s.proc p with state := .zombie }, true)
  | .wait _ child copied =>
    if copied then do
      let p ← freeproc (s.proc child)
      return (p, true)
    else pure (s.proc child, false)
  | .pipe _ _ | .close _ _ => pure (.free, false)

def pipeCall (s : State P) : Call P → K (List Pa)
  | .pipe _ kept => do
    match ← kalloc with
    | none => return s.pipes
    | some page =>
      if kept then return page :: s.pipes
      else do
        kfree page
        return s.pipes
  | .close _ page => do
    kfree page
    return s.pipes.erase page
  | _ => pure s.pipes

def step (tr : Pa) (s : State P) (e : Call P × List Bool) : Except Panic (State P) :=
  match e.1.target with
  | some q => do
    let r ← procCall tr s e.1 ⟨s.free, e.2⟩
    return { s with free := r.2.free, proc := Function.update s.proc q r.1.1 }
  | none => do
    let r ← pipeCall s e.1 ⟨s.free, e.2⟩
    return { s with free := r.2.free, pipes := r.1 }

def sys (tr : Pa) (init : State P → Prop) : Sys (State P) (Call P × List Bool) where
  init := init
  step s e s' := Enabled s e.1 ∧ step tr s e = .ok s'

/-- The state after `userinit`: the kernel keeps some of the pages `all` it was given, the first process
has its memory from the others. -/
def boot (permanent : List Pa) (first : P) (p : Proc) (m : Mem) : State P where
  free := m.free
  proc q := if q = first then p else .free
  pipes := []
  permanent := permanent

def Booted (tr : Pa) (all : List Pa) (s : State P) : Prop :=
  all.Nodup ∧ all.length ≤ NPAGES ∧ tr ∉ all ∧ ∃ permanent rest first p m,
    List.Perm (permanent ++ rest) all ∧ userinit tr ⟨rest, []⟩ = .ok (some p, m) ∧
      s = boot permanent first p m

def Proc.pages (p : Proc) : Multiset Pa :=
  p.trapframe.elim 0 (fun tf => {tf}) + p.pagetable.elim 0 PageTable.pages

inductive Proc.Ok (tr : Pa) : Proc → Prop
  | unused : Proc.Ok tr .free
  | used {state : ProcState} {tf : Pa} {pt : PageTable} {sz : ℕ} (hs : state ≠ .unused)
      (hm : Maps tr tf pt (User (pagesOf sz))) : Proc.Ok tr ⟨state, some tf, some pt, sz⟩

variable {all R : Multiset Pa} {m : Mem} {tr tf : Pa} {pt new : PageTable} {p np : Proc} {E : Panic → Prop}
  {sz : ℕ} {state : ProcState} {args : List Arg} {img : Image} {sz' : ℕ}

theorem pages_used : Proc.pages ⟨state, some tf, some pt, sz⟩ = {tf} + pt.pages := rfl

theorem pages_free : Proc.free.pages = 0 := rfl

theorem Proc.Ok.of_unused (h : p.Ok tr) (hs : p.state = .unused) : p = .free := by
  cases h with
  | unused => rfl
  | used hne _ => exact absurd hs hne

theorem wp_freeproc {Q : Proc → Mem → Prop} (hlt : pagesOf sz < TRAPFRAME)
    (hm : Maps tr tf pt (User (pagesOf sz))) (h : Bal all ({tf} + pt.pages + R) m)
    (hQ : ∀ m', Bal all R m' → Q .free m') : wp E (freeproc ⟨state, some tf, some pt, sz⟩) Q m := by
  rw [add_assoc] at h
  refine .bind (wp_kfree h fun m1 h1 => ?_)
  exact .bind (wp_procFreepagetable hlt hm h1 hQ)

theorem wp_allocproc {Q : Proc × Bool → Mem → Prop} (h : Bal all R m)
    (hok : ∀ tf pt m', Maps tr tf pt (User 0) → Bal all ({tf} + pt.pages + R) m' →
      Q (⟨.used, some tf, some pt, 0⟩, true) m')
    (hfail : ∀ m', Bal all R m' → Q (.free, false) m') : wp E (allocproc tr .free) Q m := by
  refine .bind (wp_kalloc h (fun m' h' => hfail m' h') fun tf m1 h1 => ?_)
  refine .bind (wp_procPagetable h1 (fun m2 h2 => ?_) fun pt m2 hm2 h2 => ?_)
  · exact .bind (.bind (wp_kfree h2 fun m3 h3 => hfail m3 h3))
  · exact hok tf pt m2 hm2 (h2.of_eq (by abel))

theorem wp_userinit (h : Bal all R m) : wp (fun _ => True) (userinit tr) (fun r m' => ∀ p, r = some p →
    ∃ tf pt, p = ⟨.used, some tf, some pt, PGSIZE⟩ ∧ Maps tr tf pt (User (pagesOf PGSIZE)) ∧
      Bal all (p.pages + R) m') m := by
  have hsplit : ∀ (tf : Pa) (pt : PageTable), {tf} + pt.pages + R = pt.pages + ({tf} + R) := fun _ _ => by abel
  refine .bind (wp_allocproc h (fun tf pt m1 hm1 h1 => ?_) fun m1 _ p hp => ?_)
  · refine .bind (wp_kalloc (h1.of_eq (hsplit _ _)) (fun m2 _ p hp => ?_) fun mem m2 h2 => ?_)
    · cases hp
    · refine .bind (wp_mapUser (by decide) (by decide) hm1 h2 (fun pt3 m3 hm3 h3 p hp => ?_)
        fun pt3 m3 _ _ p hp => ?_)
      · cases hp; exact ⟨tf, pt3, rfl, hm3, h3.of_eq (hsplit _ _).symm⟩
      · cases hp
  · cases hp

/-! ## Each call keeps the pages together -/

def Keeps (tr : Pa) (all : Multiset Pa) (p : Proc) (k : K (Proc × Bool)) : Prop :=
  ∀ R m, Bal all (p.pages + R) m →
    wp (fun _ => False) k (fun r m' => r.1.Ok tr ∧ Bal all (r.1.pages + R) m') m

theorem keeps_pure {ok : Bool} (h : p.Ok tr) : Keeps tr all p (pure (p, ok)) := fun _ _ hb => ⟨h, hb⟩

theorem used_split (R : Multiset Pa) : {tf} + pt.pages + R = pt.pages + ({tf} + R) := by
  abel

theorem keeps_growproc {n : BitVec 32} (hall : card all ≤ NPAGES) (hs : state ≠ .unused)
    (hm : Maps tr tf pt (User (pagesOf sz))) :
    Keeps tr all ⟨state, some tf, some pt, sz⟩ (growproc ⟨state, some tf, some pt, sz⟩ n) := by
  intro R m hb
  have hb' : Bal all (pt.pages + ({tf} + R)) m := hb.of_eq (used_split R)
  unfold growproc
  split_ifs with h1 h2
  · refine .bind (wp_uvmalloc (scarce hall) hm hb' (fun pt' sz' m' h0 hm' h' => ?_) fun pt' m' hm' h' => ?_)
    · rw [if_neg h0]; exact ⟨.used hs hm', h'.of_eq (used_split R).symm⟩
    · exact ⟨.used hs hm', h'.of_eq (used_split R).symm⟩
  · refine .bind (wp_uvmdealloc (scarce hall) hm hb' fun pt' m' hm' h' => ?_)
    exact ⟨.used hs hm', h'.of_eq (used_split R).symm⟩
  · exact ⟨.used hs hm, hb⟩

theorem keeps_fork {tf' : Pa} {old : PageTable} (hold : Maps tr tf' old (User (pagesOf sz'))) (hlt : pagesOf sz' < TRAPFRAME) :
    Keeps tr all .free (fork tr ⟨state, some tf', some old, sz'⟩ .free) := by
  intro R m hb
  rw [pages_free, zero_add] at hb
  refine .bind (wp_allocproc hb (fun tf pt m1 hm1 h1 => ?_) fun m1 h1 => ?_)
  · have hold' : Maps tr tf' old (User (0 + pagesOf sz')) := by rwa [Nat.zero_add]
    have hlt' : 0 + pagesOf sz' < TRAPFRAME := by omega
    have hused : ProcState.used ≠ .unused := by decide
    refine .bind (wp_copyLoop hold' hlt' hm1 (h1.of_eq (used_split R))
      (fun pt2 m2 hm2 h2 => ?_) fun pt2 m2 hm2 h2 => ?_)
    · rw [Nat.zero_add] at hm2
      exact ⟨.used hused hm2, h2.of_eq (used_split R).symm⟩
    · have hm2' : Maps tr tf pt2 (User (pagesOf 0)) := hm2
      refine .bind (wp_freeproc (show pagesOf 0 < TRAPFRAME by decide) hm2' (h2.of_eq (used_split R).symm) fun m3 h3 => ?_)
      exact ⟨.unused, h3.of_eq (zero_add R).symm⟩
  · exact ⟨.unused, h1.of_eq (zero_add R).symm⟩

theorem wp_loadSegments {segments : List Segment} {Q : (PageTable × ℕ) × Bool → Mem → Prop}
    (hall : card all ≤ NPAGES) (hm : Maps tr tf pt (User (pagesOf sz))) (h : Bal all (pt.pages + R) m)
    (hQ : ∀ pt' sz' ok m', Maps tr tf pt' (User (pagesOf sz')) → Bal all (pt'.pages + R) m' →
      Q ((pt', sz'), ok) m') : wp E (loadSegments segments pt sz) Q m := by
  induction segments generalizing pt sz m with
  | nil => exact hQ pt sz true m hm h
  | cons ph rest ih =>
    unfold loadSegments
    split_ifs with h1 h2 h3 h4 h5 h6
    · exact hQ pt sz false m hm h
    · exact ih hm h
    · exact hQ pt sz false m hm h
    · exact hQ pt sz false m hm h
    · exact hQ pt sz false m hm h
    · refine .bind (wp_uvmalloc (scarce hall) hm h (fun pt' sz' m' h0 hm' h' => ?_) fun pt' m' hm' h' => ?_)
      · rw [if_neg h0]; exact ih hm' h'
      · exact hQ pt' sz false m' hm' h'
    · refine .bind (wp_uvmalloc (scarce hall) hm h (fun pt' sz' m' h0 hm' h' => ?_) fun pt' m' hm' h' => ?_)
      · rw [if_neg h0]; exact hQ pt' sz' false m' hm' h'
      · exact hQ pt' sz false m' hm' h'

theorem wp_bad (hall : card all ≤ NPAGES) (hp : p.Ok tr)
    (hm : Maps tr tf new (User (pagesOf sz))) (h : Bal all (new.pages + (p.pages + R)) m) :
    wp (fun _ => False) (bad p new sz) (fun r m' => r.1.Ok tr ∧ Bal all (r.1.pages + R) m') m := by
  exact .bind (wp_procFreepagetable (hm.bound (scarce hall) h) hm h fun m' h' => ⟨hp, h'⟩)

theorem stack_page {n : ℕ} (hn : n ≠ 0) (hle : pagesOf n ≤ sz) : (n - (USERSTACK + 1) * PGSIZE) / PGSIZE < sz := by
  unfold pagesOf PGSIZE at *; omega

theorem wp_setStack {args : Bool} (hall : card all ≤ NPAGES) (hs : state ≠ .unused)
    (hold : Maps tr tf pt (User (pagesOf sz))) (hm : Maps tr tf new (User (pagesOf sz')))
    (h : Bal all (new.pages + ({tf} + pt.pages + R)) m) :
    wp (fun _ => False) (setStack ⟨state, some tf, some pt, sz⟩ pt args new sz')
      (fun r m' => r.1.Ok tr ∧ Bal all (r.1.pages + R) m') m := by
  refine .bind (wp_uvmalloc (scarce hall) hm h (fun new1 sz1 m1 h0 hm1 h1 => ?_) fun new1 m1 hm1 h1 => ?_)
  · rw [if_neg h0]
    have hlt := hm1.bound (scarce hall) h1
    have hpage : (sz1 - (USERSTACK + 1) * PGSIZE) / PGSIZE < pagesOf sz1 := stack_page h0 le_rfl
    refine .bind (wp_uvmclear (lt_trans hpage hlt) (.inl hpage) hm1 h1 fun new2 hm2 h2 => ?_)
    cases args with
    | true =>
      have h3 : Bal all (pt.pages + ({tf} + new2.pages + R)) m1 := h2.of_eq (by abel)
      exact .bind (wp_procFreepagetable (hold.bound (scarce hall) h3) hold h3 fun m2 h4 => ⟨.used hs hm2, h4⟩)
    | false => exact wp_bad hall (.used hs hold) hm2 h2
  · exact wp_bad hall (.used hs hold) hm1 h1

theorem keeps_exec (hall : card all ≤ NPAGES) (hs : state ≠ .unused)
    (hm : Maps tr tf pt (User (pagesOf sz))) :
    Keeps tr all ⟨state, some tf, some pt, sz⟩ (exec tr ⟨state, some tf, some pt, sz⟩ img) := by
  intro R m hb
  unfold exec
  split_ifs with h1
  · exact ⟨.used hs hm, hb⟩
  · refine .bind (wp_procPagetable hb (fun m1 h1 => ⟨.used hs hm, h1⟩) fun new m1 hm1 h1 => ?_)
    have hm1' : Maps tr tf new (User (pagesOf 0)) := hm1
    refine .bind (wp_loadSegments hall hm1' h1 fun new2 sz2 ok m2 hm2 h2 => ?_)
    cases ok with
    | true =>
      rw [← pagesOf_mul (pagesOf sz2)] at hm2
      exact wp_setStack hall hs hm hm2 h2
    | false => exact wp_bad hall (.used hs hm) hm2 h2

theorem wp_freeList {l : List Pa} {Q : Unit → Mem → Prop} (h : Bal all ((l : Multiset Pa) + R) m)
    (hQ : ∀ m', Bal all R m' → Q () m') : wp E (l.forM kfree) Q m := by
  refine wp_forM (fun l m => Bal all ((l : Multiset Pa) + R) m) (fun x l m h => ?_) (fun m h => ?_) h
  · rw [← cons_coe, ← singleton_add, add_assoc] at h
    exact wp_kfree h fun m' h' => h'
  · exact hQ m (h.of_eq (zero_add R))

theorem wp_fetchArgs {i : ℕ} {argv : List Pa} {Q : List Pa × Bool → Mem → Prop}
    (h : Bal all ((argv : Multiset Pa) + R) m)
    (hQ : ∀ r m', Bal all ((r.1 : Multiset Pa) + R) m' → Q r m') : wp E (fetchArgs args i argv) Q m := by
  induction args generalizing i argv m with
  | nil => exact hQ _ m h
  | cons a rest ih =>
    unfold fetchArgs
    have hpage : ∀ page m', Bal all ({page} + ((argv : Multiset Pa) + R)) m' →
        Bal all (((argv ++ [page] : List Pa) : Multiset Pa) + R) m' := by
      intro page m' h'
      refine h'.of_eq ?_
      rw [← coe_add, coe_singleton]
      abel
    split_ifs with h1 h2 h3
    · exact hQ _ m h
    · exact hQ _ m h
    · exact .bind (wp_kalloc h (fun m' h' => hQ _ m' h') fun page m' h' => ih (hpage page m' h'))
    · exact .bind (wp_kalloc h (fun m' h' => hQ _ m' h') fun page m' h' => hQ _ m' (hpage page m' h'))

theorem keeps_sysExec (hall : card all ≤ NPAGES)
    (hs : state ≠ .unused) (hm : Maps tr tf pt (User (pagesOf sz))) :
    Keeps tr all ⟨state, some tf, some pt, sz⟩ (sysExec tr ⟨state, some tf, some pt, sz⟩ args img) := by
  intro R m hb
  have h0 : Bal all ((([] : List Pa) : Multiset Pa) + (Proc.pages ⟨state, some tf, some pt, sz⟩ + R)) m :=
    hb.of_eq (zero_add _).symm
  refine .bind (wp_fetchArgs h0 fun r m1 h1 => ?_)
  split_ifs with hr
  · have h2 : Bal all (Proc.pages ⟨state, some tf, some pt, sz⟩ + ((r.1 : Multiset Pa) + R)) m1 :=
      h1.of_eq (add_left_comm _ _ _)
    refine wp_seq (keeps_exec hall hs hm _ _ h2) fun e m2 ⟨he, h3⟩ => ?_
    exact .bind (wp_freeList (h3.of_eq (add_left_comm _ _ _)) fun m3 h4 => ⟨he, h4⟩)
  · exact .bind (wp_freeList h1 fun m2 h2 => ⟨.used hs hm, h2⟩)

theorem keeps_free (hall : card all ≤ NPAGES) (hm : Maps tr tf pt (User (pagesOf sz))) :
    Keeps tr all ⟨state, some tf, some pt, sz⟩ (do
      let p ← freeproc ⟨state, some tf, some pt, sz⟩ return (p, true)) := by
  intro R m hb
  exact .bind (wp_freeproc (hm.bound (scarce hall) (hb.of_eq (used_split R))) hm hb
    fun m' h' => ⟨.unused, h'.of_eq (zero_add R).symm⟩)

end Xv6.Vm.Space
