import Mathlib.Algebra.BigOperators.Fin
import Xv6.Lib.Runs
import Xv6.Syscall.Opening

/-!
# Processes making system calls

Any process makes any call, one after the other, from the state after boot; `wp_run` says what a call does.  The
counts of open files and pipes agree with the descriptors (`references_counted`), a call leaves no lock and no
reference of its own (`calls_balance`), an inode without links is there while it is open (`unlinked_live_iff`),
and a call that returns -1 has changed nothing, but for an `open` that creates a file and finds no descriptor
for it (`fails_clean_iff`).
-/

namespace Xv6.Syscall.System

open Param Vm.Copy Lib.Runs Lib.Stateful Lib.RefCount Syscall.Defs Option Function List
open Syscall.Inodes Syscall.Linking Syscall.Links Syscall.Ftable Syscall.Descriptors
open Syscall.Opening Finset

inductive Call (P : Type)
  | sysOpen (path : Option Path) (omode : Word) (room : Room)
  | sysMkdir (path : Option Path) (room : Room)
  | sysMknod (path : Option Path) (major minor : BitVec 16) (room : Room)
  | sysLink (old new : Option Path) (room : Bool)
  | sysUnlink (path : Option Path)
  | sysChdir (path : Option Path)
  | sysClose (fd : ℤ)
  | sysDup (fd : ℤ)
  | sysPipe (page : Option ℕ) (copied : Bool)
  | fork (np : P) (ok : Bool)
  | forkWithPriority (np : P) (ok : Bool)
  | exec (path : Path) (e : ExecEnd)
  | exit

variable {P : Type} {init : State P → Prop} {s : State P}

/-- The caller has not exited, the slot that `allocproc` finds is not in use, and the page that `kalloc`
gives is no pipe. -/
def Enabled (s : State P) (p : P) : Call P → Prop
  | .fork np _ | .forkWithPriority np _ => s.cwd p ≠ none ∧ s.cwd np = none
  | .sysPipe page _ => s.cwd p ≠ none ∧ page.bind s.pipe = none
  | _ => s.cwd p ≠ none

instance decEnabled (s : State P) (p : P) : (c : Call P) → Decidable (Enabled s p c)
  | .fork np _ | .forkWithPriority np _ => inferInstanceAs (Decidable (s.cwd p ≠ none ∧ s.cwd np = none))
  | .sysPipe page _ => inferInstanceAs (Decidable (s.cwd p ≠ none ∧ page.bind s.pipe = none))
  | .sysOpen _ _ _ | .sysMkdir _ _ | .sysMknod _ _ _ _ | .sysLink _ _ _ | .sysUnlink _ | .sysChdir _
  | .sysClose _ | .sysDup _ | .exec _ _ | .exit => inferInstanceAs (Decidable (s.cwd p ≠ none))

theorem Enabled.alive {p : P} {c : Call P} (h : Enabled s p c) : s.cwd p ≠ none := by
  cases c with
  | fork np ok | forkWithPriority np ok | sysPipe page copied => exact h.1
  | _ => exact h

def Reaches (s : State P) (f : Fin NFILE) : Prop := ∃ p fd, s.ofile (p, fd) = some f

def IsEnd (s : State P) (f : Fin NFILE) (page : ℕ) (writable : Bool) : Prop :=
  0 < (s.file f).ref ∧ (s.file f).type = .pipe ∧ (s.file f).pipe = some page ∧ (s.file f).writable = writable

def Unchanged (s s' : State P) : Prop :=
  Alike s.inode s'.inode ∧ s'.file = s.file ∧ s'.ofile = s.ofile ∧ s'.cwd = s.cwd

def Call.named : Call P → Bool
  | .sysOpen _ _ _ | .sysMkdir _ _ | .sysMknod _ _ _ _ | .sysLink _ _ _ | .sysUnlink _ | .sysChdir _ => true
  | _ => false

variable [DecidableEq P]

def run (p : P) : Call P → K P ℤ
  | .sysOpen path omode room => sysOpen p path omode room
  | .sysMkdir path room => sysMkdir p path room
  | .sysMknod path major minor room => sysMknod p path major minor room
  | .sysLink old new room => sysLink p old new room
  | .sysUnlink path => sysUnlink p path
  | .sysChdir path => sysChdir p path
  | .sysClose fd => sysClose p fd
  | .sysDup fd => sysDup p fd
  | .sysPipe page copied => sysPipe p page copied
  | .fork np ok => fork p np ok
  | .forkWithPriority np ok => forkWithPriority p np ok
  | .exec path e => exec p path e
  | .exit => exit p

/-! ## The state after boot -/

/-- After `userinit`: nothing is open, and the first process is in the root directory.  On the disk the
root directory is allocated and no allocated inode is without links. -/
structure Booted (s : State P) : Prop where
  root : (s.inode ROOTINO).type ≠ .free
  linked : ∀ i, (s.inode i).type ≠ .free → (s.inode i).nlink ≠ 0
  cwd : ∀ p, s.cwd p = if p = s.initproc then some ROOTINO else none
  ref : ∀ i, s.ref i = if i = ROOTINO then 1 else 0
  valid : ∀ i, s.valid i = false
  locked : ∀ i, s.locked i = false
  ops : s.ops = 0
  file : ∀ f, (s.file f).ref = 0 ∧ (s.file f).type = .none
  ofile : ∀ d, s.ofile d = none
  pipe : ∀ a, s.pipe a = none

/-- The files that `mkfs` puts in the root directory. -/
structure Image where
  names : List Name
  data : ℕ → List Byte
  fits : names.length + 2 ≤ NINODES
  plain : ∀ name ∈ names, name ≠ dot ∧ name ≠ dotdot

/-- The entries of the root directory behind `.` and `..`.  `mkfs` makes its size a whole number of blocks. -/
def Image.rest (img : Image) : List Dirent :=
  img.names.zipIdx.map (fun x => ⟨Fin.ofNat NINODES (x.2 + 2), x.1⟩) ++
    List.replicate (((img.names.length + 2) / EPB + 1) * EPB - (img.names.length + 2)) ⟨0, []⟩

def Image.entries (img : Image) : List Dirent := ⟨ROOTINO, dot⟩ :: ⟨ROOTINO, dotdot⟩ :: img.rest

def Image.inode (img : Image) (i : Inum) : Inode :=
  if i = ROOTINO then { Inode.zero with type := .dir, nlink := 1, entries := img.entries }
  else if 2 ≤ i.val ∧ i.val < img.names.length + 2 then
    { Inode.zero with type := .file, nlink := 1, data := img.data (i.val - 2) }
  else Inode.zero

def Image.boot (img : Image) (initproc : P) : State P where
  inode := img.inode
  ref i := if i = ROOTINO then 1 else 0
  valid _ := false
  locked _ := false
  ops := 0
  file _ := ⟨.none, 0, false, false, none, 0, 0, 0⟩
  ofile _ := none
  cwd p := if p = initproc then some ROOTINO else none
  pipe _ := none
  initproc := initproc

def Fresh (s : State P) : Prop := ∃ (img : Image) (initproc : P), s = img.boot initproc

def emptyImage : Image := ⟨[], fun _ => [], by decide, fun _ h => absurd h List.not_mem_nil⟩

def sys (init : State P → Prop) : Sys (State P) (P × Call P) where
  init := init
  step s e s' := Enabled s e.1 e.2 ∧ ∃ r, run e.1 e.2 s = .ok (r, s')

def next (s : State P) (e : P × Call P) : Option (State P) :=
  if Enabled s e.1 e.2 then (run e.1 e.2 s).toOption.map Prod.snd else none

def Effect (s : State P) (p : P) : Call P → ℤ → State P → Prop
  | .sysOpen path omode room, r, s' => s'.cwd = s.cwd ∧ OpenEffect s p path omode room r s'
  | .sysMkdir path room, r, s' => Frame s s' ∧ MakeEffect s p path .dir 0 0 room r s'.inode
  | .sysMknod path major minor room, r, s' =>
    Frame s s' ∧ MakeEffect s p path .device major minor room r s'.inode
  | .sysLink old new room, r, s' => Frame s s' ∧ LinkEffect s p old new room r s'.inode
  | .sysUnlink path, r, s' => Frame s s' ∧ UnlinkEffect s p path r s'.inode
  | .sysChdir _, r, s' => ChdirEffect s r s'
  | _, _, s' => Frees s.inode s'.inode

/-- An `open` that creates a file, with no `struct file` or no descriptor to open it. -/
def LeavesFile (s : State P) (p : P) : Call P → Prop
  | .sysOpen path omode room => Leftover s p path omode room
  | _ => False

theorem Fresh.booted (h : Fresh s) : Booted s := by
  obtain ⟨img, q, rfl⟩ := h
  refine ⟨?_, fun i ht => ?_, fun _ => rfl, fun _ => rfl, fun _ => rfl, fun _ => rfl, rfl,
    fun _ => ⟨rfl, rfl⟩, fun _ => rfl, fun _ => rfl⟩
  · show (img.inode ROOTINO).type ≠ .free; exact InodeType.noConfusion
  · show (img.inode i).nlink ≠ 0
    replace ht : (img.inode i).type ≠ .free := ht
    unfold Image.inode at ht ⊢
    split_ifs at ht ⊢
    · exact (by decide : (1 : BitVec 16) ≠ 0)
    · exact (by decide : (1 : BitVec 16) ≠ 0)
    · exact absurd rfl ht

theorem sys_next (s : State P) (e : P × Call P) (s' : State P)
    (h : next s e = some s') : (sys init).step s e s' := by
  unfold next at h
  split_ifs at h with hen
  obtain ⟨r, hr, rfl⟩ := map_eq_some_iff.mp h
  exact ⟨hen, r.1, toOption_eq_some hr⟩

variable [Fintype P] {s' : State P} {p : P} {c : Call P} {r : ℤ} {m : Inum → Inode} {path : Option Path}
variable {room : Room}

theorem Booted.holder (h : Booted s) (i : Inum) : holders s i = if i = ROOTINO then 1 else 0 := by
  have hfile : ∀ f, Inodes.holder s (.inr f) = none := fun f => by
    show inumOf (s.file f) = none
    unfold inumOf
    rw [(h.file f).2]
  unfold holders
  split_ifs with hi
  · have hstart : Inodes.holder s = Function.update (fun _ => none) (.inl s.initproc) (some ROOTINO) := by
      funext x
      cases x with
      | inr f => rw [hfile, update_of_ne Sum.inr_ne_inl]
      | inl q =>
        show s.cwd q = _
        rw [h.cwd q]
        split_ifs with hq
        · rw [hq, update_self]
        · rw [update_of_ne fun he => hq (Sum.inl.inj he)]
    have hnone : refs (fun _ : P ⊕ Fin NFILE => (none : Option Inum)) i = 0 :=
      refs_eq_zero.mpr fun _ => nofun
    rw [hstart, refs_take rfl, if_pos hi, hnone]
  · refine refs_eq_zero.mpr fun x hx => ?_
    cases x with
    | inr f => rw [hfile] at hx; cases hx
    | inl q =>
      replace hx : s.cwd q = some i := hx
      rw [h.cwd q] at hx
      split_ifs at hx; exact hi (Option.some.inj hx).symm

theorem Booted.good (h : Booted s) : Good s := by
  have hlocked : ∀ i, s.locked i = true ↔ i ∈ ([] : List Inum) := fun i => by
    rw [h.locked i]
    exact ⟨fun hf => absurd hf (by decide), fun hm => absurd hm not_mem_nil⟩
  have hbook : Book s [] [] := by
    refine ⟨fun i => ?_, hlocked, nodup_nil, fun i hv => ?_, fun i ht hn => ?_, fun i ht => ?_,
      fun i hi => absurd hi not_mem_nil⟩
    · rw [h.ref i, h.holder i]; rfl
    · rw [h.valid i] at hv; cases hv
    · exact absurd hn (h.linked i ht)
    · rw [h.holder i]
      split_ifs with hi
      · rw [hi] at ht; exact absurd ht h.root
      · rfl
  have hkept : Kept s [] := fun i ht hn => absurd hn (h.linked i ht)
  have hpipes : Pipes s.file s.pipe := by
    have hno : ∀ f, (s.file f).type ≠ .pipe := fun f => by
      rw [(h.file f).2]; exact FdType.noConfusion
    refine ⟨fun f hf => absurd hf (hno f), fun f _ hf => absurd hf (hno f), fun a pi _ ha => ?_,
      fun a pi ha => ?_⟩
    · rw [h.pipe a] at ha; cases ha
    · rw [h.pipe a] at ha; cases ha
  refine ⟨⟨⟨hbook, hkept⟩, fun f => ?_, fun f _ => (h.file f).2, hpipes⟩, fun q d _ => h.ofile _⟩
  rw [(h.file f).1, fds, refs_eq_zero.mpr fun d => by rw [h.ofile d]; exact nofun]
  rfl

/-- The errors of the calls, but for a free inode in a directory and an entry that is not counted. -/
def common : Panic → Bool
  | .initExiting => true
  | e => usual e

theorem wp_run {E : Panic → Prop} (hE : ∀ e, common e = true → E e) (h : Good s) (hen : Enabled s p c)
    (hT : ∀ path, Walkable E s p path)
    (hN : ∀ path dp ip name off, c = .sysUnlink path → Finds s p path dp ip name off →
      (s.inode ip).nlink.toInt < 1 → E .unlinkNlink) :
    wp E (run p c) (fun r s' => Good s' ∧ s'.ops = s.ops ∧ Effect s p c r s') s := by
  have hU : ∀ e, usual e = true → E e := by
    intro e he
    refine hE e ?_
    cases e with
    | initExiting => rfl
    | _ => exact he
  have hp := hen.alive
  have hidle := h.idle
  have hdone : ∀ {m : K P ℤ}, wp E m (fun _ s' => Done s s') s →
      wp E m (fun _ s' => Good s' ∧ s'.ops = s.ops ∧ Frees s.inode s'.inode) s := fun hm =>
    wp_mono hm fun _ _ hd => ⟨hd.good, hd.ops, hd.frees⟩
  cases c with
  | sysOpen path omode room => exact wp_sysOpen hU h hp hT
  | sysMkdir path room | sysMknod path major minor room =>
    refine wp_mono (wp_sysCreate hU hidle hp hT InodeType.noConfusion InodeType.noConfusion) ?_
    exact fun r t ⟨hf, hi, he⟩ => ⟨good_frame h hf hi, hf.ops, hf, he⟩
  | sysLink old new room =>
    exact wp_mono (wp_sysLink hU hidle hp hT) fun r t ⟨hf, hi, he⟩ => ⟨good_frame h hf hi, hf.ops, hf, he⟩
  | sysUnlink path =>
    refine wp_mono (wp_sysUnlink hU hidle hp hT fun dp ip name off hfinds hn => ?_)
      fun r t ⟨hf, hi, he⟩ => ⟨good_frame h hf hi, hf.ops, hf, he⟩
    exact hN path dp ip name off rfl hfinds hn
  | sysChdir path => exact wp_sysChdir hU h hp hT
  | sysClose fd => exact hdone (wp_sysClose h)
  | sysDup fd => exact hdone (wp_sysDup h hp)
  | sysPipe page copied =>
    refine hdone (wp_sysPipe h hp ?_)
    rintro a rfl; exact hen.2
  | fork np ok | forkWithPriority np ok => exact hdone (wp_forkFiles h hp hen.2)
  | exec path e =>
    refine wp_mono (wp_exec hU hidle hp hT) fun r t ⟨hf, hi, he⟩ => ⟨good_frame h hf hi, hf.ops, ?_⟩
    show Frees s.inode t.inode
    rw [he]; exact .refl _
  | exit => exact hdone (wp_exit h hp (hE _ rfl))

theorem run_ok (h : Good s) (hen : Enabled s p c) (hrun : run p c s = .ok (r, s')) :
    Good s' ∧ s'.ops = s.ops ∧ Effect s p c r s' := by
  have hwp := wp_run (fun _ _ => trivial) h hen (fun _ _ _ _ => trivial)
    fun _ _ _ _ _ _ _ _ => trivial
  have hpost := wp_ok hwp hrun; exact hpost

theorem good_reachable (hinit : ∀ s, init s → Good s) (hr : Reachable (sys init) s) : Good s := by
  refine hr.inv hinit fun t e t' ht hs => ?_
  obtain ⟨hen, r, hrun⟩ := hs; exact (run_ok ht hen hrun).1

/-! ## Open files and pipes -/

section
omit [DecidableEq P]

theorem reaches_iff (h : Good s) (f : Fin NFILE) : Reaches s f ↔ 0 < (s.file f).ref := by
  rw [h.whole.files.refs f, count_nil, Nat.add_zero, fds, refs_pos]
  exact ⟨fun ⟨p, fd, hd⟩ => ⟨(p, fd), hd⟩, fun ⟨⟨p, fd⟩, hd⟩ => ⟨p, fd, hd⟩⟩

theorem inUse_of_pipe (h : Good s) {f : Fin NFILE} (hf : (s.file f).type = .pipe) : 0 < (s.file f).ref := by
  refine Nat.pos_of_ne_zero fun h0 => ?_
  rw [h.whole.files.unused f h0] at hf; cases hf

theorem isOpen_iff (h : Good s) {page : ℕ} {pi : Pipe} (hpi : s.pipe page = some pi) (w : Bool) :
    isOpen pi w = true ↔ ∃ f, IsEnd s f page w := by
  constructor
  · intro hw
    obtain ⟨f, hf, hpage, hfw⟩ := h.whole.files.pipes.ends page pi w hpi hw
    exact ⟨f, inUse_of_pipe h hf, hf, hpage, hfw⟩
  · rintro ⟨f, -, hf, hpage, hfw⟩
    obtain ⟨a, pi', ha, hpi', hopen⟩ := h.whole.files.pipes.live f hf
    rw [hpage] at ha
    cases ha
    rw [hpi] at hpi'
    cases hpi'
    rw [hfw] at hopen; exact hopen

end

/-- **Open files are counted.**  In every state between calls the `ref` of a file is the number of
descriptors that refer to it, a file with `ref` 0 is of type `FD_NONE`, an end of a live pipe is open exactly
if some file in use is that end, and the pages that hold a pipe are the ones that a descriptor reaches.  No
call closes or copies a file that is not open, or goes to a page that holds no pipe any more. -/
theorem references_counted (hr : Reachable (sys Booted) s) :
    (∀ f, (s.file f).ref = (univ.filter fun d : P × Fin NOFILE => s.ofile d = some f).card) ∧
    (∀ f, (s.file f).ref = 0 → (s.file f).type = .none) ∧
    (∀ page pi, s.pipe page = some pi → (pi.readopen = true ↔ ∃ f, IsEnd s f page false) ∧
      (pi.writeopen = true ↔ ∃ f, IsEnd s f page true)) ∧
    (∀ page, s.pipe page ≠ none ↔ ∃ f w, IsEnd s f page w ∧ Reaches s f) ∧
    ∀ p (c : Call P) e, Enabled s p c → run p c s = .error e →
      e ≠ .fileclose ∧ e ≠ .filedup ∧ e ≠ .fault := by
  have h : Good s := good_reachable (fun _ => Booted.good) hr
  refine ⟨fun f => ?_, h.whole.files.unused, fun page pi hpi => ⟨isOpen_iff h hpi false, isOpen_iff h hpi true⟩,
    fun page => ⟨fun hpage => ?_, ?_⟩, fun p c e hen he => ?_⟩
  · rw [h.whole.files.refs f, count_nil]; rfl
  · obtain ⟨pi, hpi⟩ := ne_none_iff_exists'.mp hpage
    obtain ⟨w, hw⟩ := h.whole.files.pipes.used page pi hpi
    obtain ⟨f, hf⟩ := (isOpen_iff h hpi w).mp hw
    exact ⟨f, w, hf, (reaches_iff h f).mpr hf.1⟩
  · rintro ⟨f, w, ⟨-, hf, hpage, -⟩, -⟩
    obtain ⟨a, pi, ha, hpi, -⟩ := h.whole.files.pipes.live f hf
    rw [hpage] at ha
    cases ha
    rw [hpi]; exact some_ne_none pi
  · have hwp := wp_run (E := fun e => e ≠ .fileclose ∧ e ≠ .filedup ∧ e ≠ .fault)
      (fun e he => by cases e <;> first | decide | exact absurd he (by decide)) h hen
      (fun _ _ _ _ => by decide) fun _ _ _ _ _ _ _ _ => by decide
    exact (wp_iff.mp hwp).2 e he

def sharedPipe : List (Bool × Call Bool) :=
  [(false, .sysPipe (some 7) true), (false, .fork true true), (false, .sysClose 1), (true, .sysClose 0)]

/-- The pipe is shared by two files with one descriptor each. -/
theorem references_counted_shared : ∃ s : State Bool, s.pipe 7 = some ⟨true, true⟩ ∧
    (∃ f, IsEnd s f 7 false ∧ Reaches s f) ∧ ∃ f, IsEnd s f 7 true := by
  have h0 : Booted (emptyImage.boot false) := Fresh.booted ⟨emptyImage, false, rfl⟩
  obtain ⟨s, hr, -, ht⟩ := exists_run (f := next) sys_next h0 sharedPipe
    (fun s => decide (s.pipe 7 = some ⟨true, true⟩)) (by decide +kernel)
  have hpipe := of_decide_eq_true ht
  obtain ⟨-, -, hends, -, -⟩ := references_counted ⟨_, hr⟩
  have hgood : Good s := good_reachable (fun _ => Booted.good) ⟨_, hr⟩
  obtain ⟨f, hf⟩ := (hends 7 _ hpipe).1.mp rfl
  exact ⟨s, hpipe, ⟨f, hf, (reaches_iff hgood f).mpr hf.1⟩, (hends 7 _ hpipe).2.mp rfl⟩

omit [DecidableEq P] in
theorem card_holders (s : State P) : (Finset.univ.filter fun x => (holder s x).isSome).card =
      (Finset.univ.filter fun p => s.cwd p ≠ none).card +
      (Finset.univ.filter fun f => (s.file f).type = .inode ∨ (s.file f).type = .device).card := by
  have hsplit : (Finset.univ.filter fun x => (holder s x).isSome) =
      (Finset.univ.filter fun p => s.cwd p ≠ none).disjSum
        (Finset.univ.filter fun f => (s.file f).type = .inode ∨ (s.file f).type = .device) := by
    ext x
    cases x with
    | inl p => simp [holder, isSome_iff_ne_none]
    | inr f =>
      simp only [Finset.mem_filter, Finset.mem_univ, true_and, Finset.inr_mem_disjSum]
      show (inumOf (s.file f)).isSome = true ↔ _
      unfold inumOf
      cases (s.file f).type <;> simp
  rw [hsplit, Finset.card_disjSum]

theorem sum_ref (h : Book s [] []) : ∑ i, s.ref i = (univ.filter fun p => s.cwd p ≠ none).card +
      (univ.filter fun f => (s.file f).type = .inode ∨ (s.file f).type = .device).card := by
  rw [← card_holders, ← sum_refs]; exact sum_congr rfl fun i _ => h.refs i

/-- **A call balances** what it begins, locks and refers to, whatever it returns. -/
theorem calls_balance (h : Good s) (hen : Enabled s p c) :
    (∀ r s', run p c s = .ok (r, s') → s'.ops = s.ops ∧ (∀ i, s'.locked i = false) ∧
      ∑ i, s'.ref i = (univ.filter fun q => s'.cwd q ≠ none).card +
        (univ.filter fun f => (s'.file f).type = .inode ∨ (s'.file f).type = .device).card) ∧
    ∀ path parent r s', namex p path parent s = .ok (r, s') → s'.ops = s.ops ∧
      (∀ i, s'.locked i = false) ∧ ∀ i, s'.ref i = s.ref i + if r.map Prod.fst = some i then 1 else 0 := by
  have hunlocked : ∀ {t : State P} {held : List Inum}, Book t held [] → ∀ i, t.locked i = false := by
    intro t held hb i
    cases hl : t.locked i with
    | false => rfl
    | true => exact absurd ((hb.lock i).mp hl) not_mem_nil
  refine ⟨fun r s' hrun => ?_, fun path parent r s' hrun => ?_⟩
  · obtain ⟨hgood, hops, -⟩ := run_ok h hen hrun
    have hb := hgood.whole.account.book; exact ⟨hops, hunlocked hb, sum_ref hb⟩
  · have hwp : wp (fun _ => True) (namex p path parent) _ s :=
      wp_namex (fun _ => trivial) h.whole.account.book h.whole.account.kept hen.alive fun _ _ _ => trivial
    obtain ⟨hs, -, hb⟩ := wp_ok hwp hrun
    refine ⟨hs.ops, hunlocked hb, fun i => ?_⟩
    rw [hb.refs i, hs.toFrame.holders, h.whole.account.book.refs i]
    cases r with
    | none => rfl
    | some x => simp [count_singleton]

/-- `open("/")` after boot: the root directory has a second reference. -/
theorem calls_balance_open : ∃ s s' : State Bool, Good s ∧
    run false (.sysOpen (some [slash]) 0 ⟨true, true⟩) s = .ok (0, s') ∧ ∑ i, s'.ref i =
      (univ.filter fun q => s'.cwd q ≠ none).card +
        (univ.filter fun f => (s'.file f).type = .inode ∨ (s'.file f).type = .device).card := by
  have hgood : Good (emptyImage.boot false) := (Fresh.booted ⟨emptyImage, false, rfl⟩).good
  have hen : Enabled (emptyImage.boot false) false (.sysOpen (some [slash]) 0 ⟨true, true⟩) := by
    decide
  have hok : ((run false (.sysOpen (some [slash]) 0 ⟨true, true⟩) (emptyImage.boot false)).toOption.map
      Prod.fst) = some 0 := by decide +kernel
  obtain ⟨x, hx, hr⟩ := map_eq_some_iff.mp hok
  have hrun := toOption_eq_some hx
  refine ⟨_, x.2, hgood, ?_, ((calls_balance hgood hen).1 _ _ hrun).2.2⟩
  rw [hrun, ← hr]

/-- **An inode without links lives while it is open.**  In every state between calls the `ref` of an inode is
the number of current directories and open files on it, an inode with references is allocated, and one without
links is allocated exactly if it has references. -/
theorem unlinked_live_iff (hr : Reachable (sys Booted) s) (i : Inum) :
    s.ref i = (univ.filter fun p => s.cwd p = some i).card +
      (univ.filter fun f => inumOf (s.file f) = some i).card ∧
    (0 < s.ref i → (s.inode i).type ≠ .free) ∧
    ((s.inode i).nlink = 0 → ((s.inode i).type ≠ .free ↔ 0 < s.ref i)) := by
  have hgood : Good s := good_reachable (fun _ => Booted.good) hr
  have hb := hgood.whole.account.book
  have href : s.ref i = holders s i := hb.refs i
  have hlive : 0 < s.ref i → (s.inode i).type ≠ .free := fun hpos hfree => by
    have := hb.alloc i hfree; omega
  refine ⟨?_, hlive, fun hn => ⟨fun hi => ?_, hlive⟩⟩
  · rw [href, holders, refs, card_filter, Fintype.sum_sum_type, ← card_filter, ← card_filter]
    rfl
  · have hpos := hgood.whole.account.kept i hi hn; rwa [href]

/-- `open("x", O_CREATE); unlink("x")`: the file is there, with its one reference from the descriptor. -/
theorem unlinked_live_iff_open : ∃ s : State Bool, (s.inode 2).nlink = 0 ∧ (s.inode 2).type ≠ .free := by
  have h0 : Booted (emptyImage.boot false) := Fresh.booted ⟨emptyImage, false, rfl⟩
  obtain ⟨s, hr, -, ht⟩ := exists_run (f := next) sys_next h0
    [(false, .sysOpen (some [120]) O_CREATE ⟨true, true⟩), (false, .sysUnlink (some [120]))]
    (fun s => decide ((s.inode 2).nlink = 0 ∧ s.ref 2 = 1)) (by decide +kernel)
  obtain ⟨hn, h1⟩ := of_decide_eq_true ht
  exact ⟨s, hn, ((unlinked_live_iff ⟨_, hr⟩ 2).2.2 hn).mpr (by omega)⟩

/-! ## Calls that fail -/

omit [DecidableEq P] [Fintype P] in
theorem unchanged_frame (hf : Frame s s') (ha : Alike s.inode s'.inode) : Unchanged s s' :=
  ⟨ha, hf.file, hf.ofile, hf.cwd⟩

theorem alike_of_eq {m m' : Inum → Inode} (h : m' = m) : Alike m m' := by
  rw [h]; exact .refl m

section
omit [DecidableEq P] [Fintype P]

theorem make_alike {type : InodeType} {major minor : BitVec 16}
    (h : MakeEffect s p path type major minor room (-1) m) : Alike s.inode m := by
  cases h with
  | failed ha => exact ha

theorem link_alike {old new : Option Path} {room : Bool}
    (h : LinkEffect s p old new room (-1) m) : Alike s.inode m := by
  cases h with
  | failed => exact .refl _

theorem unlink_alike (h : UnlinkEffect s p path (-1) m) : Alike s.inode m := by
  cases h with
  | failed => exact .refl _

theorem open_changes {q : Path} {dp ip : Inum} {name : Name} (hc : Creates s p q .file room dp name ip)
    (hfree : FreeStep (created s.inode dp ip name .file 0 0) s'.inode dp) : ¬ Unchanged s s' := by
  rintro ⟨halike, -⟩
  have hnew : s'.inode ip = newInode .file 0 0 dp ip := by
    rw [hfree.of_ne hc.ip_ne]
    unfold created
    rw [update_of_ne hc.ip_ne, update_self]
  have htype := (halike ip).1
  rw [hnew, (freeInode_eq_some hc.free).2] at htype; cases htype

end

/-- **When a call that fails changes nothing.** -/
theorem fails_clean_iff (h : Good s) (hen : Enabled s p c) (hc : c.named = true)
    (hrun : run p c s = .ok (r, s')) : (r = -1 → Unchanged s s') ↔ ¬ LeavesFile s p c := by
  obtain ⟨-, -, heff⟩ := run_ok h hen hrun
  cases c with
  | sysOpen path omode room =>
    obtain ⟨-, heff⟩ := heff
    cases heff with
    | failed hf ha hno => exact iff_of_true (fun _ => unchanged_frame hf ha) hno
    | leftover hq homode hcr hfull hf hfree =>
      refine iff_of_false (fun hu => open_changes hcr hfree (hu rfl)) fun hno => ?_
      exact hno ⟨homode, hfull, _, _, _, _, hq, hcr⟩
    | opened hr hfull =>
      refine iff_of_true (fun hneg => ?_) fun hl => hfull hl.2.1
      rw [hneg] at hr; exact absurd hr (by decide)
  | sysMkdir path room | sysMknod path major minor room =>
    refine iff_of_true (fun hneg => ?_) id
    obtain ⟨hf, heff⟩ := heff
    rw [hneg] at heff; exact unchanged_frame hf (make_alike heff)
  | sysLink old new room =>
    refine iff_of_true (fun hneg => ?_) id
    obtain ⟨hf, heff⟩ := heff
    rw [hneg] at heff; exact unchanged_frame hf (link_alike heff)
  | sysUnlink path =>
    refine iff_of_true (fun hneg => ?_) id
    obtain ⟨hf, heff⟩ := heff
    rw [hneg] at heff; exact unchanged_frame hf (unlink_alike heff)
  | sysChdir path =>
    refine iff_of_true (fun hneg => ?_) id
    replace heff : ChdirEffect s r s' := heff
    rw [hneg] at heff
    cases heff with
    | failed hf hm => exact unchanged_frame hf (alike_of_eq hm)
  | _ => cases hc

/-- `unlink("x")` of a name that is not there. -/
theorem fails_clean_unlink : ∃ s s' : State Bool, Good s ∧
    run false (.sysUnlink (some [120])) s = .ok (-1, s') ∧ Unchanged s s' := by
  have hgood : Good (emptyImage.boot false) := (Fresh.booted ⟨emptyImage, false, rfl⟩).good
  have hen : Enabled (emptyImage.boot false) false (.sysUnlink (some [120])) := by decide
  have hok : ((run false (.sysUnlink (some [120])) (emptyImage.boot false)).toOption.map
      Prod.fst) = some (-1) := by decide +kernel
  obtain ⟨x, hx, hr⟩ := map_eq_some_iff.mp hok
  have hrun := toOption_eq_some hx
  refine ⟨_, x.2, hgood, ?_, (fails_clean_iff hgood hen rfl hrun).mpr id hr⟩
  rw [hrun, ← hr]

def fullProcess : List (Bool × Call Bool) :=
  (false, .sysOpen (some [slash]) 0 ⟨true, true⟩) :: List.replicate 15 (false, .sysDup 0)

/-- With all descriptors in use, `open("x", O_CREATE)` returns -1 and leaves the new file. -/
theorem open_leaves_file : ∃ s s' : State Bool, Reachable (sys Fresh) s ∧
    Enabled s false (.sysOpen (some [120]) O_CREATE ⟨true, true⟩) ∧
    run false (.sysOpen (some [120]) O_CREATE ⟨true, true⟩) s = .ok (-1, s') ∧ ¬ Unchanged s s' := by
  have h0 : Fresh (emptyImage.boot false) := ⟨emptyImage, false, rfl⟩
  obtain ⟨s, hr, -, ht⟩ := exists_run (T := sys Fresh) (f := next) sys_next h0 fullProcess
    (fun s => decide (s.cwd false ≠ none ∧ (s.inode 2).type = .free ∧
      (run false (.sysOpen (some [120]) O_CREATE ⟨true, true⟩) s).toOption.map
        (fun x => (x.1, (x.2.inode 2).type)) = some (-1, .file))) (by decide +kernel)
  obtain ⟨hen, hfree, hok⟩ := of_decide_eq_true ht
  obtain ⟨x, hx, hr'⟩ := map_eq_some_iff.mp hok
  obtain ⟨hret, htype⟩ := Prod.mk.inj hr'
  refine ⟨s, x.2, ⟨_, hr⟩, hen, ?_, fun hu => ?_⟩
  · rw [toOption_eq_some hx, ← hret]
  · have halike := (hu.1 2).1; rw [hfree, htype] at halike; cases halike

end Xv6.Syscall.System
