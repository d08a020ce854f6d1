import Xv6.Fs.Names
import Xv6.Syscall.System
import Xv6.Vm.Conservation

/-!
# `exec`

The whole of `exec.c`: the inode of the program and its transaction (`Xv6.Syscall.Defs`), the new page table and
the allocator (`Xv6.Vm.Pages`), the contents of the pages, and the fields of the process.  The file may have any
contents, `kalloc` may fail anywhere, and `readi` may move fewer bytes than it is asked for.

Until the last step `exec` writes only pages that it has taken from the free list (`Going`).
-/

namespace Xv6.Syscall.Exec

open Param Lib.Runs Lib.Stateful Vm.Copy Vm.Pages Multiset List Option BitVec
open Vm.Space (USERSTACK MAXARG flags2perm)
open Syscall.Defs (Inum Path slash namei beginOp endOp ilock iunlockput)
open Syscall.Inodes Syscall.Links Syscall.Descriptors Syscall.System

/-- The part of `struct trapframe` that `exec` sets, and the other registers. -/
structure Trapframe where
  epc : BitVec 64
  sp : BitVec 64
  a1 : BitVec 64
  rest : Fin 33 → BitVec 64

/-- The fields of `struct proc` that `exec` reads or sets, with the contents of the trapframe. -/
structure Proc where
  trapframe : Pa
  pagetable : PageTable
  sz : ℕ
  frame : Trapframe
  name : List Byte

abbrev Page := ℕ → Byte

/-- `short` says which calls of `readi` move at most that many bytes. -/
structure State (P : Type) where
  fs : Defs.State P
  mem : Mem
  ram : Pa → Page
  proc : Proc
  short : List (Option ℕ)

inductive Panic
  | fs (e : Defs.Panic)
  | vm (e : Vm.Pages.Panic)
  | loadseg

abbrev X (P : Type) := StateT (State P) (Except Panic)

variable {P α : Type}

def onFs (k : Defs.K P α) : X P α := fun s =>
  match k s.fs with
  | .ok (a, fs) => .ok (a, { s with fs := fs })
  | .error e => .error (.fs e)

/-- The pages after calls of the allocator: one that is taken is filled with zeros, and one that is freed
with ones. -/
def refill (free free' : List Pa) (ram : Pa → Page) : Pa → Page := fun a =>
  if a ∈ free ∧ a ∉ free' then fun _ => 0 else if a ∉ free ∧ a ∈ free' then fun _ => 1 else ram a

def onMem (k : Vm.Pages.K α) : X P α := fun s =>
  match k s.mem with
  | .ok (a, m) => .ok (a, { s with mem := m, ram := refill s.mem.free m.free s.ram })
  | .error e => .error (.vm e)

def store (pa : Pa) (off : ℕ) (bytes : List Byte) : X P Unit := modify fun s =>
  { s with ram := Function.update s.ram pa fun j =>
      if off ≤ j then bytes.getD (j - off) (s.ram pa j) else s.ram pa j }

/-! ## Reading the file -/

def fileBytes (ip : Defs.Inode) : List Byte :=
  if ip.type = .dir then
    (ip.entries.map fun de => Fs.Files.Dirent.put (Fs.Names.cstr de.name) (BitVec.ofNat 16 de.inum)).flatten
  else ip.data

def readi (ip : Inum) (off n : BitVec 32) : X P (List Byte) := do
  let s ← get
  modify fun s => { s with short := s.short.tail }
  let bytes := fileBytes (s.fs.inode ip)
  if BitVec.ofNat 32 bytes.length < off ∨ off + n < off then return []
  else
    match s.short with
    | some k :: _ => return ((bytes.drop off.toNat).take n.toNat).take k
    | _ => return (bytes.drop off.toNat).take n.toNat

def le : List Byte → ℕ
  | [] => 0
  | b :: bytes => b.toNat + 256 * le bytes

def field (bytes : List Byte) (off n : ℕ) : ℕ := le ((bytes.drop off).take n)

def ELF_MAGIC : BitVec 32 := 0x464C457F
def ELF_PROG_LOAD : BitVec 32 := 1

structure Elfhdr where
  magic : BitVec 32
  entry : BitVec 64
  phoff : BitVec 64
  phnum : ℕ

def elfhdr (b : List Byte) : Elfhdr where
  magic := BitVec.ofNat 32 (field b 0 4)
  entry := BitVec.ofNat 64 (field b 24 8)
  phoff := BitVec.ofNat 64 (field b 32 8)
  phnum := field b 56 2

structure Proghdr where
  type : BitVec 32
  flags : BitVec 32
  off : BitVec 64
  vaddr : BitVec 64
  filesz : BitVec 64
  memsz : BitVec 64

def proghdr (b : List Byte) : Proghdr where
  type := BitVec.ofNat 32 (field b 0 4)
  flags := BitVec.ofNat 32 (field b 4 4)
  off := BitVec.ofNat 64 (field b 8 8)
  vaddr := BitVec.ofNat 64 (field b 16 8)
  filesz := BitVec.ofNat 64 (field b 32 8)
  memsz := BitVec.ofNat 64 (field b 40 8)

/-- The entry that `walk` finds for a page, if it is valid and has the flags. -/
def entryWith (pt : PageTable) (flags : BitVec 10) (v : ℕ) : Option Pa :=
  if v ≥ MAXPAGE ∨ pt.present v = false then none
  else match pt.leaf.get v with
  | none => none
  | some pte => if pte.flags &&& flags = flags then some pte.pa else none

def walkaddr (pt : PageTable) (v : ℕ) : Option Pa := entryWith pt PTE_U v

def loadsegLoop (pt : PageTable) (va : BitVec 64) (ip : Inum) (offset sz : BitVec 32) : ℕ → ℕ → X P Bool
  | 0, _ => return true
  | rounds + 1, i =>
    if i < sz.toNat then
      match walkaddr pt ((va + BitVec.ofNat 64 i).toNat / PGSIZE) with
      | none => throw .loadseg
      | some pa => do
        let n := min (sz.toNat - i) PGSIZE
        let bytes ← readi ip (offset + BitVec.ofNat 32 i) (BitVec.ofNat 32 n)
        store pa 0 bytes
        if bytes.length ≠ n then return false
        else loadsegLoop pt va ip offset sz rounds (i + PGSIZE)
    else return true

def loadseg (pt : PageTable) (va : BitVec 64) (ip : Inum) (offset sz : BitVec 32) : X P Bool :=
  loadsegLoop pt va ip offset sz (pagesOf sz.toNat) 0

def loadLoop (ip : Inum) : ℕ → PageTable → ℕ → BitVec 32 → X P ((PageTable × ℕ) × Bool)
  | 0, pt, sz, _ => return ((pt, sz), true)
  | phnum + 1, pt, sz, off => do
    let b ← readi ip off 56
    let ph := proghdr b
    if b.length ≠ 56 then return ((pt, sz), false)
    else if ph.type ≠ ELF_PROG_LOAD then loadLoop ip phnum pt sz (off + 56)
    else if ph.memsz < ph.filesz then return ((pt, sz), false)
    else if ph.vaddr + ph.memsz < ph.vaddr then return ((pt, sz), false)
    else if ph.vaddr.toNat % PGSIZE ≠ 0 then return ((pt, sz), false)
    else
      let r ← onMem (uvmalloc pt sz (ph.vaddr + ph.memsz).toNat (flags2perm ph.flags))
      if r.2 = 0 then return ((r.1, sz), false)
      else
        let ok ← loadseg r.1 ph.vaddr ip (ph.off.setWidth 32) (ph.filesz.setWidth 32)
        if ok then loadLoop ip phnum r.1 r.2 (off + 56)
        else return (r, false)

/-- What `sys_exec` passes: fewer than `MAXARG` strings, each in a page. -/
structure Argv where
  args : List (List Byte)
  count : args.length < MAXARG
  inPage : ∀ a ∈ args, a.length < PGSIZE

def copyoutLoop (pt : PageTable) : ℕ → ℕ → List Byte → X P Bool
  | 0, _, _ => return true
  | rounds + 1, dstva, src =>
    if 0 < src.length then
      match entryWith pt (PTE_U ||| PTE_W) (dstva / PGSIZE) with
      | none => return false
      | some pa => do
        let n := min (PGSIZE - dstva % PGSIZE) src.length
        store pa (dstva % PGSIZE) (src.take n)
        copyoutLoop pt rounds ((dstva / PGSIZE + 1) * PGSIZE) (src.drop n)
    else return true

def copyout (pt : PageTable) (dstva : ℕ) (src : List Byte) : X P Bool := copyoutLoop pt src.length dstva src

/-- The loop that pushes the argument strings: the stack pointer and `ustack`.  A string is shorter than a
page and the stack is not in the first page, so `sp` does not wrap. -/
def pushArgs (pt : PageTable) (stackbase : ℕ) : List (List Byte) → ℕ → ℕ → List ℕ → X P (Option (ℕ × List ℕ))
  | [], _, sp, ustack => return some (sp, ustack)
  | a :: rest, argc, sp, ustack =>
    if argc ≥ MAXARG then return none
    else
      let sp := sp - (a.length + 1)
      let sp := sp - sp % 16
      if sp < stackbase then return none
      else do
        let ok ← copyout pt sp (a ++ [0])
        if ok then pushArgs pt stackbase rest (argc + 1) sp (ustack ++ [sp]) else return none

def bytes64 (n : ℕ) : List Byte := (List.range 8).map fun i => BitVec.ofNat 8 (n / 256 ^ i)

def pushAll (pt : PageTable) (stackbase : ℕ) (argv : Argv) (sp : ℕ) : X P (Option ℕ) := do
  match ← pushArgs pt stackbase argv.args 0 sp [] with
  | none => return none
  | some (sp, ustack) =>
    let sp := sp - (argv.args.length + 1) * 8
    let sp := sp - sp % 16
    if sp < stackbase then return none
    else do
      let ok ← copyout pt sp (ustack.flatMap bytes64 ++ bytes64 0)
      return if ok then some sp else none

/-- The loop that finds the part of the path after the last `/`. -/
def lastElem : Path → Path → Path
  | [], last => last
  | c :: s, last => lastElem s (if c = slash then s else last)

/-- `safestrcpy(p->name, last, sizeof(p->name))`. -/
def newName (path : Path) : List Byte := (lastElem path path).take 15

def bad (pagetable : Option (PageTable × ℕ)) (ip : Option Inum) : X P ℤ := do
  match pagetable with
  | some (pt, sz) => onMem (procFreepagetable pt sz)
  | none => pure ()
  match ip with
  | some ip => do
    onFs (iunlockput ip)
    onFs endOp
  | none => pure ()
  return -1

def Proc.commit (p : Proc) (path : Path) (entry : BitVec 64) (pt : PageTable) (sz sp : ℕ) : Proc where
  trapframe := p.trapframe
  pagetable := pt
  sz := sz
  frame := { p.frame with a1 := BitVec.ofNat 64 sp, epc := entry, sp := BitVec.ofNat 64 sp }
  name := newName path

def setStack (path : Path) (argv : Argv) (entry : BitVec 64) (pt : PageTable) (sz : ℕ) : X P ℤ := do
  let r ← onMem (uvmalloc pt sz (sz + (USERSTACK + 1) * PGSIZE) PTE_W)
  if r.2 = 0 then bad (some (r.1, sz)) none
  else
    let pt ← onMem (uvmclear r.1 ((r.2 - (USERSTACK + 1) * PGSIZE) / PGSIZE))
    match ← pushAll pt (r.2 - USERSTACK * PGSIZE) argv r.2 with
    | none => bad (some (pt, r.2)) none
    | some sp => do
      let s ← get
      modify fun s => { s with proc := s.proc.commit path entry pt r.2 sp }
      onMem (procFreepagetable s.proc.pagetable s.proc.sz)
      return argv.args.length

def exec (tr : Pa) (p : P) (path : Path) (argv : Argv) : X P ℤ := do
  onFs beginOp
  match ← onFs (namei p path) with
  | none => do
    onFs endOp
    return -1
  | some ip => do
    onFs (ilock ip)
    let b ← readi ip 0 64
    if b.length ≠ 64 then bad none (some ip)
    else if (elfhdr b).magic ≠ ELF_MAGIC then bad none (some ip)
    else
      let s ← get
      match ← onMem (procPagetable tr s.proc.trapframe) with
      | none => bad none (some ip)
      | some pt => do
        let r ← loadLoop ip (elfhdr b).phnum pt 0 ((elfhdr b).phoff.setWidth 32)
        if r.2 then
          onFs (iunlockput ip)
          onFs endOp
          setStack path argv (elfhdr b).entry r.1.1 (pagesOf r.1.2 * PGSIZE)
        else bad (some r.1) (some ip)

def findProgram (p : P) (path : Path) : Defs.K P (Option Inum) := do
  beginOp
  match ← namei p path with
  | none => return none
  | some ip => do
    ilock ip
    return some ip

variable {va : BitVec 64} {rounds i : ℕ}

/-! ## What `exec` changes before its last step -/

variable {Q : α → State P → Prop} {E : Panic → Prop} {s : State P}

theorem wp_onFs {k : Defs.K P α} :
    wp E (onFs k) Q s ↔ wp (fun e => E (.fs e)) k (fun a fs => Q a { s with fs := fs }) s.fs := by
  unfold wp onFs
  cases k s.fs <;> rfl

theorem wp_onMem {k : Vm.Pages.K α} : wp E (onMem k) Q s ↔ wp (fun e => E (.vm e)) k
      (fun a m => Q a { s with mem := m, ram := refill s.mem.free m.free s.ram }) s.mem := by
  unfold wp onMem
  cases k s.mem <;> rfl

/-- `exec` has the pages `X`, and has changed nothing in the others, `R`, that are not free; the process is
as it was, and the file system is `F`. -/
structure Going (all R : Multiset Pa) (s₀ : State P) (F : Defs.State P) (X : Multiset Pa) (s : State P) :
    Prop where
  bal : Bal all (X + R) s.mem
  ram : ∀ a ∈ R, s.ram a = s₀.ram a
  proc : s.proc = s₀.proc
  fs : s.fs = F

variable {all R X X' : Multiset Pa} {s₀ : State P} {F F' : Defs.State P} {m : Mem} {tr tf pa : Pa}
  {pt : PageTable} {ip : Inum} {n v sz : ℕ}

def inodePanic : Panic → Prop
  | .fs e => usual e = true ∨ e = .ilockNoType
  | _ => False

theorem not_free (hnd : all.Nodup) (h : Bal all (X + R) m) {a : Pa} (ha : a ∈ X + R) : a ∉ m.free := by
  rw [← h, nodup_add] at hnd
  exact fun hf => disjoint_left.mp hnd.2.2 (mem_coe.mpr hf) ha

theorem refill_kept {ram : Pa → Page} {m' : Mem} {R' : Multiset Pa} (hnd : all.Nodup) (hb : Bal all (X + R) m)
    (hb' : Bal all (X' + R') m') (h : pa ∈ X + R) (h' : pa ∈ X' + R') : refill m.free m'.free ram pa = ram pa := by
  have h1 := not_free hnd hb h
  have h2 := not_free hnd hb' h'
  unfold refill
  rw [if_neg fun hc => h1 hc.1, if_neg fun hc => h2 hc.2]

section
variable (h : Going all R s₀ F X s)
include h

theorem Going.mem (hnd : all.Nodup) (hb : Bal all (X' + R) m) :
    Going all R s₀ F X' { s with mem := m, ram := refill s.mem.free m.free s.ram } := by
  refine ⟨hb, fun a ha => ?_, h.proc, h.fs⟩
  exact (refill_kept hnd h.bal hb (mem_add.mpr (.inr ha)) (mem_add.mpr (.inr ha))).trans (h.ram a ha)

theorem Going.store (hnd : all.Nodup) (hpa : pa ∈ X) (page : Page) :
    Going all R s₀ F X { s with ram := Function.update s.ram pa page } := by
  refine ⟨h.bal, fun a ha => ?_, h.proc, h.fs⟩
  have hb := h.bal
  rw [← hb, nodup_add, nodup_add] at hnd
  have hne : a ≠ pa := fun he => disjoint_left.mp hnd.2.1.2.2 (he ▸ hpa) ha
  exact (Function.update_of_ne hne _ _).trans (h.ram a ha)

theorem Going.toFs : Going all R s₀ F' X { s with fs := F' } :=
  ⟨h.bal, h.ram, h.proc, rfl⟩

end

theorem mem_pages {pte : Pte} (hv : v < TRAPFRAME) (h : pt.leaf.get v = some pte) : pte.pa ∈ pt.pages := by
  unfold PageTable.pages
  rw [Lib.Tables.total_erase h, weigh_user hv]; simp

theorem entryWith_mem {flags : BitVec 10} (hv : v < TRAPFRAME) (h : entryWith pt flags v = some pa) :
    pa ∈ pt.pages := by
  unfold entryWith at h
  split_ifs at h
  split at h
  · cases h
  · rename_i pte hpte
    split_ifs at h
    cases h; exact mem_pages hv hpte

theorem wp_readi {off len : BitVec 32} (h : Going all R s₀ F X s) {Q : List Byte → State P → Prop}
    (hQ : ∀ bytes s', Going all R s₀ F X s' → Q bytes s') : wp E (readi ip off len) Q s := by
  have h' : Going all R s₀ F X { s with short := s.short.tail } := ⟨h.bal, h.ram, h.proc, h.fs⟩
  unfold readi
  rw [wp_bind, wp_get, wp_bind]
  dsimp only
  split_ifs
  · exact hQ _ _ h'
  · split
    · exact hQ _ _ h'
    · exact hQ _ _ h'

theorem wp_store {off : ℕ} {bytes : List Byte} (hnd : all.Nodup) (h : Going all R s₀ F X s) (hpa : pa ∈ X)
    {Q : Unit → State P → Prop} (hQ : ∀ s', Going all R s₀ F X s' → Q () s') : wp E (store pa off bytes) Q s :=
  hQ _ (h.store hnd hpa _)

def UserPages (pt : PageTable) : Prop :=
  ∀ v < TRAPFRAME, ∀ pte, pt.leaf.get v = some pte → pte.flags &&& PTE_U = PTE_U

theorem userPages_zero (hm : Maps tr tf pt (User 0)) : UserPages pt := by
  have hTT : TRAPFRAME < TRAMPOLINE := by decide
  intro v hv pte hpte
  rcases (hm.dom v).mp (isSome_iff_exists.mpr ⟨pte, hpte⟩) with h | h | h
  · exact absurd h (Nat.not_lt_zero v)
  · omega
  · omega

theorem walkaddr_isSome (hm : Maps tr tf pt (User n)) (hu : UserPages pt) (hn : n < TRAPFRAME) (hv : v < n) :
    ∃ pa, walkaddr pt v = some pa := by
  have hmax : TRAPFRAME < MAXPAGE := by decide
  obtain ⟨pte, hpte⟩ := isSome_iff_exists.mp ((hm.dom v).mpr (.inl hv))
  have hno : ¬ (v ≥ MAXPAGE ∨ pt.present v = false) := by
    rintro (h | h)
    · omega
    · rw [hm.present v (.inl hv)] at h; cases h
  refine ⟨pte.pa, ?_⟩
  unfold walkaddr entryWith
  rw [if_neg hno, hpte]; exact if_pos (hu v (lt_trans hv hn) pte hpte)

theorem wp_loadsegLoop {offset len : BitVec 32} (hnd : all.Nodup) (hn : n < TRAPFRAME)
    (hm : Maps tr tf pt (User n)) (hu : UserPages pt)
    (hva : ∀ i < len.toNat, (va + BitVec.ofNat 64 i).toNat / PGSIZE < n)
    (h : Going all R s₀ F pt.pages s) {Q : Bool → State P → Prop}
    (hQ : ∀ ok s', Going all R s₀ F pt.pages s' → Q ok s') :
    wp E (loadsegLoop pt va ip offset len rounds i) Q s := by
  induction rounds generalizing s i with
  | zero => exact hQ _ _ h
  | succ rounds ih =>
    unfold loadsegLoop
    split_ifs with hi
    · obtain ⟨pa, hpa⟩ := walkaddr_isSome hm hu hn (hva i hi)
      have hmem := entryWith_mem (lt_trans (hva i hi) hn) hpa
      rw [hpa]
      refine .bind (wp_readi h fun bytes s1 h1 => .bind (wp_store hnd h1 hmem fun s2 h2 => ?_))
      split_ifs
      · exact hQ _ _ h2
      · exact ih h2
    · exact hQ _ _ h

theorem walk_leaf : wp (fun _ => True) (Vm.Pages.walk pt v) (fun r _ => r.1.leaf = pt.leaf) m := by
  unfold Vm.Pages.walk
  split_ifs
  · trivial
  · refine .bind (wp_mono wp_true fun r1 m1 _ => ?_)
    split_ifs
    · exact .bind (wp_mono wp_true fun _ _ _ => rfl)
    · rfl

variable {perm : BitVec 10} {oldsz newsz : ℕ}

theorem mappages_leaf : wp (fun _ => True) (mappages pt v pa perm)
    (fun r _ => r.1.leaf = if r.2 then pt.leaf.insert v ⟨pa, perm ||| PTE_V⟩ else pt.leaf) m := by
  refine .bind (wp_mono walk_leaf fun r1 m1 h1 => ?_)
  split_ifs
  · trivial
  · exact congrArg (Lib.Tables.Table.insert · v ⟨pa, perm ||| PTE_V⟩) h1
  · exact h1

theorem user_flag (a b c : BitVec 10) : (a ||| PTE_U ||| b ||| c) &&& PTE_U = PTE_U := by
  ext i hi
  simp only [getElem_and, getElem_or]
  cases PTE_U[i] <;> simp

theorem allocLoop_user {a0 a : ℕ} (h : UserPages pt) :
    wp (fun _ => True) (allocLoop a0 perm rounds pt a) (fun r _ => r.2 = true → UserPages r.1) m := by
  induction rounds generalizing pt a m with
  | zero => exact fun _ => h
  | succ rounds ih =>
    refine .bind (wp_mono wp_true fun mem m1 _ => ?_)
    cases mem with
    | none => exact .bind (wp_mono wp_true fun _ _ _ hf => (by cases hf))
    | some mem =>
      refine .bind (wp_mono mappages_leaf fun r m2 h2 => ?_)
      split_ifs with hr
      · refine ih fun u hu pte hpte => ?_
        rw [h2, if_pos hr] at hpte
        rcases Lib.Tables.get_insert_cases hpte with ⟨-, rfl⟩ | hpte
        · exact user_flag _ _ _
        · exact h u hu pte hpte
      · exact .bind (wp_mono wp_true fun _ _ _ =>
          .bind (wp_mono wp_true fun _ _ _ hf => (by cases hf)))

theorem wp_uvmalloc_size : wp (fun _ => True) (uvmalloc pt oldsz newsz perm)
    (fun r _ => r.2 ≠ 0 → newsz ≤ r.2 ∧ (UserPages pt → UserPages r.1)) m := by
  unfold uvmalloc
  split_ifs with hlt
  · exact fun _ => ⟨hlt.le, id⟩
  · have hloop : wp (fun _ => True) (allocLoop (pagesOf oldsz) perm (pagesOf newsz - pagesOf oldsz) pt
        (pagesOf oldsz)) (fun r _ => r.2 = true → UserPages pt → UserPages r.1) m :=
      wp_iff.mpr ⟨fun r m' hm hr hu => wp_ok (allocLoop_user hu) hm hr, fun _ _ => trivial⟩
    refine .bind (wp_mono hloop fun r m' hr => ?_)
    split_ifs with h2
    · exact fun _ => ⟨le_rfl, hr h2⟩
    · exact fun h0 => absurd rfl h0

theorem wp_grow (hall : Scarce all R) (hnd : all.Nodup)
    (hm : Maps tr tf pt (User (pagesOf oldsz))) (h : Going all R s₀ F pt.pages s)
    {Q : PageTable × ℕ → State P → Prop} (hok : ∀ pt' sz s', sz ≠ 0 → newsz ≤ sz → (UserPages pt → UserPages pt') →
      Maps tr tf pt' (User (pagesOf sz)) → Going all R s₀ F pt'.pages s' → Q (pt', sz) s')
    (hfail : ∀ pt' s', Maps tr tf pt' (User (pagesOf oldsz)) → Going all R s₀ F pt'.pages s' → Q (pt', 0) s') :
    wp E (onMem (uvmalloc pt oldsz newsz perm)) Q s := by
  have hsize : wp (fun _ => True) (uvmalloc pt oldsz newsz perm)
      (fun r _ => r.2 ≠ 0 → newsz ≤ r.2 ∧ (UserPages pt → UserPages r.1)) s.mem := wp_uvmalloc_size
  refine wp_onMem.mpr (wp_mono (wp_and (Q := fun r m => (r.2 ≠ 0 →
    Maps tr tf r.1 (User (pagesOf r.2))) ∧ (r.2 = 0 → Maps tr tf r.1 (User (pagesOf oldsz))) ∧
    Bal all (r.1.pages + R) m) ?_ hsize) fun r m' hr => ?_)
  · exact wp_uvmalloc hall hm h.bal (fun pt' sz m' h0 hm' hb' => ⟨fun _ => hm', fun hz => absurd hz h0, hb'⟩)
      fun pt' m' hm' hb' => ⟨fun h0 => absurd rfl h0, fun _ => hm', hb'⟩
  · obtain ⟨⟨hne, heq, hb⟩, hsz⟩ := hr
    obtain ⟨pt', sz⟩ := r
    by_cases h0 : sz = 0
    · subst h0; exact hfail pt' _ (heq rfl) (h.mem hnd hb)
    · obtain ⟨hle, hu⟩ := hsz h0
      exact hok pt' sz _ h0 hle hu (hne h0) (h.mem hnd hb)

theorem segment_page {memsz filesz : BitVec 64} (hf : ¬ memsz < filesz) (ho : ¬ va + memsz < va)
    (hsz : (va + memsz).toNat ≤ sz) (hi : i < (filesz.setWidth 32).toNat) :
    (va + BitVec.ofNat 64 i).toNat / PGSIZE < pagesOf sz := by
  have h1 : memsz.toNat ≥ filesz.toNat := Nat.not_lt.mp hf
  have h2 : ¬ (va + memsz).toNat < va.toNat := ho
  have hP : PGSIZE = 4096 := rfl
  rw [toNat_setWidth] at hi
  rw [toNat_add] at h2 hsz ⊢
  rw [toNat_ofNat]
  unfold pagesOf
  rw [hP]; omega

theorem wp_loadLoop (hall : Scarce all R) (hnd : all.Nodup) {phnum : ℕ} {off : BitVec 32}
    (hm : Maps tr tf pt (User (pagesOf sz))) (hu : UserPages pt) (h : Going all R s₀ F pt.pages s)
    {Q : (PageTable × ℕ) × Bool → State P → Prop}
    (hQ : ∀ pt' sz' ok s', Maps tr tf pt' (User (pagesOf sz')) → Going all R s₀ F pt'.pages s' →
      Q ((pt', sz'), ok) s') : wp E (loadLoop ip phnum pt sz off) Q s := by
  induction phnum generalizing pt sz off s with
  | zero => exact hQ _ _ _ _ hm h
  | succ phnum ih =>
    refine .bind (wp_readi h fun b s1 h1 => ?_)
    dsimp only
    split_ifs with hlen htype hmem hover halign
    · exact hQ _ _ _ _ hm h1
    · exact ih hm hu h1
    · exact hQ _ _ _ _ hm h1
    · exact hQ _ _ _ _ hm h1
    · exact hQ _ _ _ _ hm h1
    · refine .bind (wp_grow hall hnd hm h1 (fun pt2 sz2 s2 h0 hle hu2 hm2 h2 => ?_) fun pt2 s2 hm2 h2 => ?_)
      · rw [if_neg h0]
        have hlt := hm2.bound hall h2.bal
        refine .bind (wp_loadsegLoop hnd hlt hm2 (hu2 hu) (fun i hi => segment_page hmem hover hle hi) h2
          fun ok s3 h3 => ?_)
        cases ok with
        | true => exact ih hm2 (hu2 hu) h3
        | false => exact hQ _ _ _ _ hm2 h3
      · exact hQ _ _ _ _ hm2 h2

theorem wp_copyoutLoop (hnd : all.Nodup) (hn : pagesOf sz < TRAPFRAME) {dstva : ℕ} {src : List Byte}
    (hrange : 0 < src.length → dstva + src.length ≤ sz) (h : Going all R s₀ F pt.pages s)
    {Q : Bool → State P → Prop} (hQ : ∀ ok s', Going all R s₀ F pt.pages s' → Q ok s') :
    wp E (copyoutLoop pt rounds dstva src) Q s := by
  have hP : PGSIZE = 4096 := rfl
  induction rounds generalizing s dstva src with
  | zero => exact hQ _ _ h
  | succ rounds ih =>
    unfold copyoutLoop
    split_ifs with hs
    · split
      · exact hQ _ _ h
      · rename_i pa hpa
        have hv : dstva / PGSIZE < TRAPFRAME := by
          refine lt_of_lt_of_le ?_ hn.le
          unfold pagesOf
          rw [hP]; omega
        refine .bind (wp_store hnd h (entryWith_mem hv hpa) fun s1 h1 => ih (fun hpos => ?_) h1)
        rw [length_drop, hP] at hpos ⊢; omega
    · exact hQ _ _ h

theorem wp_pushArgs (hnd : all.Nodup) (hn : pagesOf sz < TRAPFRAME) {stackbase argc sp : ℕ}
    (hbase : 0 < stackbase) {args : List (List Byte)} {ustack : List ℕ} (hsp : sp ≤ sz)
    (h : Going all R s₀ F pt.pages s) {Q : Option (ℕ × List ℕ) → State P → Prop}
    (hQ : ∀ r s', (∀ x, r = some x → x.1 ≤ sz ∧ x.2.length = ustack.length + args.length) →
      Going all R s₀ F pt.pages s' → Q r s') : wp E (pushArgs pt stackbase args argc sp ustack) Q s := by
  induction args generalizing s argc sp ustack with
  | nil =>
    refine hQ _ _ (fun x hx => ?_) h
    cases hx; exact ⟨hsp, rfl⟩
  | cons a rest ih =>
    unfold pushArgs
    dsimp only
    split_ifs with hargc hlow
    · exact hQ _ _ (fun x hx => by cases hx) h
    · exact hQ _ _ (fun x hx => by cases hx) h
    · refine .bind (wp_copyoutLoop hnd hn (fun _ => ?_) h fun ok s1 h1 => ?_)
      · rw [length_append, length_singleton]; omega
      · cases ok with
        | true =>
          refine ih (by omega) h1 fun r s2 hr h2 => hQ r s2 (fun x hx => ?_) h2
          obtain ⟨hle, hlen⟩ := hr x hx
          refine ⟨hle, ?_⟩
          rw [hlen, length_append, length_singleton, length_cons]; omega
        | false => exact hQ _ _ (fun x hx => by cases hx) h1

theorem length_bytes64 (k : ℕ) : (bytes64 k).length = 8 := by
  rw [bytes64, length_map, length_range]

theorem length_pointers (ustack : List ℕ) :
    (ustack.flatMap bytes64 ++ bytes64 0).length = (ustack.length + 1) * 8 := by
  rw [length_append, length_flatMap]
  simp only [length_bytes64]; simp; omega

theorem wp_pushAll (hnd : all.Nodup) (hn : pagesOf sz < TRAPFRAME) {stackbase : ℕ} (hbase : 0 < stackbase)
    {argv : Argv} (h : Going all R s₀ F pt.pages s) {Q : Option ℕ → State P → Prop}
    (hQ : ∀ r s', (∀ sp, r = some sp → stackbase ≤ sp ∧ sp < sz) → Going all R s₀ F pt.pages s' → Q r s') :
    wp E (pushAll pt stackbase argv sz) Q s := by
  refine .bind (wp_pushArgs hnd hn hbase le_rfl h fun r s1 hr h1 => ?_)
  cases r with
  | none => exact hQ _ _ nofun h1
  | some x =>
    obtain ⟨hle, hlen⟩ := hr _ rfl
    dsimp only at hle hlen ⊢
    rw [length_nil] at hlen
    split_ifs with hlow
    · exact hQ _ _ nofun h1
    · refine .bind (wp_copyoutLoop hnd hn (fun _ => ?_) h1 fun ok s2 h2 => hQ _ _ (fun sp' hsp => ?_) h2)
      · rw [length_pointers]; omega
      · cases ok with
        | true =>
          cases hsp; omega
        | false => cases hsp

/-! ## The two ends -/

section
variable [Fintype P] {p : P} {O : Multiset Pa} {f t : Defs.State P}

structure Back (f t : Defs.State P) : Prop extends Same f t where
  ref : t.ref = f.ref
  locked : t.locked = f.locked
  good : Good t

theorem back_endOp (h : Good f) (hs : Same (State.inOp f) t) (hb : Book t [] []) :
    Back f { t with ops := t.ops - 1 } := by
  have hidle := h.idle
  have hf := frame_endOp hs.toFrame
  have hb' : Book { t with ops := t.ops - 1 } [] [] := Book.op hb _
  refine ⟨⟨hf, hs.inode⟩, funext fun i => ?_, funext fun i => ?_,
    ⟨⟨⟨hb', Kept.op (hidle.inOp.kept.same hs) _⟩, ?_⟩, fun q d hq => ?_⟩⟩
  · rw [hb'.refs i, hidle.book.refs i, hf.holders]
  · have h1 : ¬ f.locked i = true := fun hl => absurd ((hidle.book.lock i).mp hl) not_mem_nil
    have h2 : ¬ t.locked i = true := fun hl => absurd ((hb.lock i).mp hl) not_mem_nil
    exact (Bool.not_eq_true _ ▸ h2 : t.locked i = false).trans (Bool.not_eq_true _ ▸ h1).symm
  · rw [hf.ofile]; exact h.whole.files.congr hf.file hf.pipe
  · rw [hf.cwd] at hq; rw [hf.ofile]; exact h.dead q d hq

theorem wp_release (hg : Good f) (hs : Same (State.inOp f) F) (hb : Book F [ip] [ip])
    (h : Going all R s₀ F X s) {k : Exec.X P α} (hQ : ∀ F' s', Back f F' → Going all R s₀ F' X s' → wp E k Q s') :
    wp E (do onFs (iunlockput ip); onFs endOp; k) Q s := by
  have hk : Kept F [] := hg.idle.inOp.kept.same hs
  rw [wp_bind, wp_onFs, h.fs]
  refine wp_mono (wp_iunlockput_same hb hk) fun _ F1 h1 => ?_
  exact hQ _ _ (back_endOp hg (hs.trans h1.1) h1.2) h.toFs

omit [Fintype P] in
theorem wp_freeNew (hall : Scarce all R) (hnd : all.Nodup)
    (hm : Maps tr tf pt (User (pagesOf sz))) (h : Going all R s₀ F pt.pages s) {Q : Unit → State P → Prop}
    (hQ : ∀ s', Going all R s₀ F 0 s' → Q () s') : wp E (onMem (procFreepagetable pt sz)) Q s := by
  refine wp_onMem.mpr (wp_procFreepagetable (hm.bound hall h.bal) hm h.bal fun m' hb => hQ _ (h.mem hnd ?_))
  rw [zero_add]; exact hb

def userByte (s : State P) (va : ℕ) : Option Byte :=
  (s.proc.pagetable.leaf.get (va / PGSIZE)).map fun pte => s.ram pte.pa (va % PGSIZE)

/-- A process that may call `exec`: its page table maps its memory, and each page is free, in the page table
or one of the `others`. -/
structure Ready (tr : Pa) (all others : Multiset Pa) (p : P) (s : State P) : Prop where
  good : Good s.fs
  cwd : s.fs.cwd p ≠ none
  nodup : all.Nodup
  card : card all ≤ NPAGES
  maps : Maps tr s.proc.trapframe s.proc.pagetable (User (pagesOf s.proc.sz))
  bal : Bal all (s.proc.pagetable.pages + others) s.mem

/-- The same, with a bound on the free pages and on the process only. -/
structure Prepared (tr : Pa) (all others : Multiset Pa) (p : P) (s : State P) : Prop where
  good : Good s.fs
  cwd : s.fs.cwd p ≠ none
  nodup : all.Nodup
  scarce : s.mem.free.length < TRAPFRAME
  small : pagesOf s.proc.sz < TRAPFRAME
  maps : Maps tr s.proc.trapframe s.proc.pagetable (User (pagesOf s.proc.sz))
  bal : Bal all (s.proc.pagetable.pages + others) s.mem

theorem Ready.prepared (h : Ready tr all O p s) : Prepared tr all O p s := by
  have hcard := congrArg Multiset.card h.bal
  rw [card_add, coe_card] at hcard
  have hle := h.card
  have : NPAGES < TRAPFRAME := by decide
  exact ⟨h.good, h.cwd, h.nodup, by omega, h.maps.bound (scarce h.card) h.bal, h.maps, h.bal⟩

theorem Prepared.few (h : Prepared tr all O p s) : Scarce all (s.proc.pagetable.pages + O) := by
  have hcard := congrArg card h.bal
  rw [card_add, coe_card] at hcard
  have := h.scarce
  unfold Scarce; omega

/-- **Every process may call `exec`**: in reachable states of the accounts of pages and of files, they are as
it needs them. -/
theorem ready_reachable [DecidableEq P] {pages : List Pa} {v : Vm.Space.State P} {state : Vm.Space.ProcState}
    (hv : Reachable (Vm.Space.sys tr (Vm.Space.Booted tr pages)) v) (hf : Reachable (System.sys Booted) s.fs)
    (hp : v.proc p = ⟨state, some s.proc.trapframe, some s.proc.pagetable, s.proc.sz⟩)
    (hfree : s.mem.free = v.free) (hcwd : s.fs.cwd p ≠ none) : Ready tr pages ({s.proc.trapframe} +
      (∑ r ∈ Finset.univ.erase p, (v.proc r).pages + (v.pipes + v.permanent))) p s := by
  obtain ⟨hi, hnd, hlen, -⟩ := Vm.Conservation.inv_reachable hv
  have hb := hi.split p s.mem.outcomes
  have hok := hi.ok p
  rw [hp] at hb hok
  cases hok with
  | used hne hm =>
    refine ⟨good_reachable (fun _ => Booted.good) hf, hcwd, coe_nodup.mpr hnd, hlen, hm, ?_⟩
    rw [← hfree] at hb; exact hb.of_eq (Vm.Space.used_split _)

structure Undone (s s' : State P) : Prop where
  proc : s'.proc = s.proc
  memory : ∀ va < s.proc.sz, userByte s' va = userByte s va
  free : (s'.mem.free : Multiset Pa) = s.mem.free

/-- The process has a new page table, size, stack pointer and name, and the pages of the old table are free. -/
structure Replaced (path : Path) (s s' : State P) : Prop where
  proc : ∃ entry pt sz sp, sz - USERSTACK * PGSIZE ≤ sp ∧ sp < sz ∧ s'.proc = s.proc.commit path entry pt sz sp
  freed : s.proc.pagetable.pages ≤ (s'.mem.free : Multiset Pa)

structure Ends (tr : Pa) (all others : Multiset Pa) (p : P) (path : Path) (argv : Argv) (s : State P) (r : ℤ)
    (s' : State P) : Prop where
  fs : Back s.fs s'.fs
  ram : ∀ a ∈ others, s'.ram a = s.ram a
  ready : card all ≤ NPAGES → Ready tr all others p s'
  ends : r = -1 ∧ Undone s s' ∨ r = argv.args.length ∧ Replaced path s s'

variable {path : Path} {argv : Argv} {entry : BitVec 64}

section
variable (hr : Prepared tr all O p s₀)
include hr

theorem Going.undone (hf : Back s₀.fs F)
    (h : Going all (s₀.proc.pagetable.pages + O) s₀ F 0 s) : Ends tr all O p path argv s₀ (-1) s := by
  have hfs : s.fs = F := h.fs
  have hbal : Bal all (s₀.proc.pagetable.pages + O) s.mem := h.bal.of_eq (zero_add _)
  refine ⟨hfs ▸ hf, fun a ha => h.ram a (mem_add.mpr (.inr ha)),
    fun hc => ⟨hfs ▸ hf.good, ?_, hr.nodup, hc, ?_, ?_⟩, .inl ⟨rfl, h.proc, fun va hva => ?_, ?_⟩⟩
  · rw [hfs, hf.cwd]; exact hr.cwd
  · rw [h.proc]; exact hr.maps
  · rw [h.proc]; exact hbal
  · have hv : va / PGSIZE < TRAPFRAME := by
      refine lt_of_lt_of_le ?_ hr.small.le
      unfold pagesOf PGSIZE; omega
    unfold userByte
    rw [h.proc]
    cases hpte : s₀.proc.pagetable.leaf.get (va / PGSIZE) with
    | none => rfl
    | some pte =>
      have hmem := h.ram pte.pa (mem_add.mpr (.inl (mem_pages hv hpte)))
      exact congrArg some (congrFun hmem _)
  · exact add_right_cancel (hbal.trans hr.bal.symm)

theorem wp_badImage (hs : Same (State.inOp s₀.fs) F) (hb : Book F [ip] [ip])
    (hm : Maps tr tf pt (User (pagesOf sz))) (h : Going all (s₀.proc.pagetable.pages + O) s₀ F pt.pages s) :
    wp E (bad (some (pt, sz)) (some ip)) (Ends tr all O p path argv s₀) s := by
  refine .bind (wp_freeNew hr.few hr.nodup hm h fun s1 h1 => ?_)
  exact wp_release hr.good hs hb h1 fun F' s2 hf h2 => h2.undone hr hf

theorem wp_badHeader (hs : Same (State.inOp s₀.fs) F) (hb : Book F [ip] [ip])
    (h : Going all (s₀.proc.pagetable.pages + O) s₀ F 0 s) :
    wp E (bad none (some ip)) (Ends tr all O p path argv s₀) s :=
  wp_release hr.good hs hb h fun _ _ hf h2 => h2.undone hr hf

section
variable (hf : Back s₀.fs F)
include hf

theorem wp_badStack (hm : Maps tr tf pt (User (pagesOf sz)))
    (h : Going all (s₀.proc.pagetable.pages + O) s₀ F pt.pages s) :
    wp E (bad (some (pt, sz)) none) (Ends tr all O p path argv s₀) s :=
  .bind (wp_freeNew hr.few hr.nodup hm h fun _ h1 => h1.undone hr hf)

theorem wp_commit {sp : ℕ} (hm : Maps tr s₀.proc.trapframe pt (User (pagesOf sz)))
    (hlow : sz - USERSTACK * PGSIZE ≤ sp) (hsp : sp < sz)
    (h : Going all (s₀.proc.pagetable.pages + O) s₀ F pt.pages s) :
    wp E (onMem (procFreepagetable s.proc.pagetable s.proc.sz))
      (fun _ s' => Ends tr all O p path argv s₀ argv.args.length s')
      { s with proc := s.proc.commit path entry pt sz sp } := by
  have hbal : Bal all (s₀.proc.pagetable.pages + (pt.pages + O)) s.mem := h.bal.of_eq (by abel)
  have hold : Maps tr s₀.proc.trapframe s.proc.pagetable (User (pagesOf s.proc.sz)) := h.proc ▸ hr.maps
  refine wp_onMem.mpr (wp_procFreepagetable (h.proc ▸ hr.small) hold (h.proc ▸ hbal) fun m' hb => ?_)
  have hfs : s.fs = F := h.fs
  refine ⟨hfs ▸ hf, fun a ha => ?_, fun hc => ⟨hfs ▸ hf.good, ?_, hr.nodup, hc, ?_, hb⟩,
    .inr ⟨rfl, ⟨entry, pt, sz, sp, hlow, hsp, ?_⟩, ?_⟩⟩
  · have hO := mem_add.mpr (.inr ha : a ∈ pt.pages ∨ a ∈ O)
    exact (refill_kept hr.nodup hbal hb (mem_add.mpr (.inr hO)) hO).trans (h.ram a (mem_add.mpr (.inr ha)))
  · rw [hfs, hf.cwd]; exact hr.cwd
  · rw [h.proc]; exact hm
  · rw [h.proc]
  · have hfree : (m'.free : Multiset Pa) = s.mem.free + s₀.proc.pagetable.pages := by
      refine add_right_cancel (hb.trans (hbal.symm.trans ?_))
      abel
    rw [hfree]; exact le_add_left _ _

theorem wp_setStack (hm : Maps tr s₀.proc.trapframe pt (User (pagesOf sz)))
    (h : Going all (s₀.proc.pagetable.pages + O) s₀ F pt.pages s) :
    wp E (setStack path argv entry pt sz) (Ends tr all O p path argv s₀) s := by
  refine .bind (wp_grow hr.few hr.nodup hm h (fun pt1 sz1 s1 h0 hle _ hm1 h1 => ?_) fun pt1 s1 hm1 h1 => ?_)
  · rw [if_neg h0]
    have hlt := hm1.bound hr.few h1.bal
    have hpage : (sz1 - (USERSTACK + 1) * PGSIZE) / PGSIZE < pagesOf sz1 := Vm.Space.stack_page h0 le_rfl
    refine .bind (wp_onMem.mpr (wp_uvmclear (lt_trans hpage hlt) (.inl hpage) hm1 h1.bal fun pt2 hm2 hb2 => ?_))
    have hbase : 0 < sz1 - USERSTACK * PGSIZE := by
      have : USERSTACK * PGSIZE < (USERSTACK + 1) * PGSIZE := by decide
      omega
    refine .bind (wp_pushAll hr.nodup hlt hbase (h1.mem hr.nodup hb2) fun r s3 hsp h3 => ?_)
    cases r with
    | none => exact wp_badStack hr hf hm2 h3
    | some sp =>
      obtain ⟨hlow, hhigh⟩ := hsp sp rfl
      rw [wp_bind, wp_get, wp_bind, wp_modify, wp_bind]
      exact wp_commit hr hf hm2 hlow hhigh h3
  · exact wp_badStack hr hf hm1 h1

end

end

theorem wp_findProgram (path : Path) (hr : Prepared tr all O p s) :
    wp (fun e => inodePanic (.fs e)) (findProgram p path) (fun r F => Same (State.inOp s.fs) F ∧
      Book F r.toList r.toList) s.fs := by
  have hidle := hr.good.idle
  have hE : ∀ e, usual e = true → inodePanic (.fs e) := fun _ he => .inl he
  unfold findProgram
  rw [wp_bind]
  refine wp_seq (wp_namei (fun _ => hE _ rfl) hidle.inOp.book hidle.inOp.kept hr.cwd fun _ _ _ => .inr rfl) fun r F1 hn => ?_
  obtain ⟨hs1, -, hb1⟩ := hn
  cases r with
  | none => exact ⟨hs1, hb1⟩
  | some ip =>
    refine wp_seq (wp_ilock (fun _ => hE _ rfl) hb1 mem_cons_self fun _ => .inr rfl) fun _ F2 h2 => ?_
    exact ⟨hs1.trans h2.1, h2.2.1⟩

theorem wp_exec (hr : Prepared tr all O p s)
    (hE : wp (fun e => E (.fs e)) (findProgram p path) (fun _ _ => True) s.fs) :
    wp E (exec tr p path argv) (Ends tr all O p path argv s) s := by
  have hfind := wp_and hE (wp_findProgram path hr)
  unfold findProgram at hfind
  rw [wp_bind] at hfind
  have hname := wp_bind.mp (show wp _ (namei p path >>= _) _ (State.inOp s.fs) from hfind)
  have h0 : Going all (s.proc.pagetable.pages + O) s (State.inOp s.fs) 0 { s with fs := State.inOp s.fs } :=
    ⟨hr.bal.of_eq (zero_add _).symm, fun _ _ => rfl, rfl, rfl⟩
  unfold exec
  rw [wp_bind]
  show wp E _ _ { s with fs := State.inOp s.fs }
  rw [wp_bind, wp_onFs]
  refine wp_mono hname fun r F1 hn => ?_
  cases r with
  | none =>
    obtain ⟨-, hs, hb⟩ := hn
    exact Going.undone hr (back_endOp hr.good hs hb) h0.toFs
  | some ip =>
    rw [wp_bind, wp_onFs]
    refine wp_mono (wp_bind.mp hn) fun _ F2 h2 => ?_
    obtain ⟨-, hs, hb2⟩ := h2
    have hgo : Going all (s.proc.pagetable.pages + O) s F2 0 { s with fs := F2 } := h0.toFs
    refine .bind (wp_readi hgo fun b s3 h3 => ?_)
    split_ifs
    · exact wp_badHeader hr hs hb2 h3
    · exact wp_badHeader hr hs hb2 h3
    · rw [wp_bind, wp_get, wp_bind, wp_onMem]
      refine wp_procPagetable (h3.bal.of_eq (zero_add _)) (fun m' hb => ?_) fun pt m' hm hb => ?_
      · exact wp_badHeader hr hs hb2 (h3.mem hr.nodup (hb.of_eq (zero_add _).symm))
      · refine .bind (wp_loadLoop hr.few hr.nodup hm (userPages_zero hm) (h3.mem hr.nodup hb)
          fun pt' sz' ok s4 hm' h4 => ?_)
        have hproc : s3.proc = s.proc := h3.proc
        rw [hproc] at hm'
        cases ok with
        | true =>
          refine wp_release hr.good hs hb2 h4 fun F5 s5 hf h5 => ?_
          refine wp_setStack hr hf ?_ h5
          rw [pagesOf_mul]; exact hm'
        | false => exact wp_badImage hr hs hb2 hm' h4

/-- **`exec` is all or nothing.**  Either it returns -1 and the process has its page table, size, memory,
trapframe and name, and each page is given back; or it returns the number of arguments, the pages of the old
page table are free, and the new one is installed.  In both cases the open files and the directory are as they
were, the references and locks on inodes are given back and the transaction is ended.  No file makes the
functions on page tables or `loadseg` panic. -/
theorem exec_all_or_nothing {others : Multiset Pa} (h : Ready tr all others p s) :
    (∀ r s', exec tr p path argv s = .ok (r, s') →
      (r = -1 ∧ Undone s s' ∨ r = argv.args.length ∧ Replaced path s s') ∧ Back s.fs s'.fs ∧
        (∀ a ∈ others, s'.ram a = s.ram a) ∧ Ready tr all others p s') ∧
    ∀ e, exec tr p path argv s = .error e → inodePanic e := by
  have hwp : wp inodePanic (exec tr p path argv) (Ends tr all others p path argv s) s :=
    wp_exec h.prepared (wp_mono (wp_findProgram path h.prepared) fun _ _ _ => trivial)
  obtain ⟨hok, herr⟩ := wp_iff.mp hwp
  refine ⟨fun r s' hr => ?_, herr⟩
  have hend := hok r s' hr
  exact ⟨hend.ends, hend.fs, hend.ram, hend.ready h.card⟩

/-- **No file makes `exec` panic**: it returns -1 or the number of arguments, unless the path cannot be looked
up.  Only the free pages are bounded. -/
theorem exec_never_panics {others : Multiset Pa} (h : Prepared tr all others p s) :
    (∃ r s', exec tr p path argv s = .ok (r, s') ∧ (r = -1 ∨ r = argv.args.length)) ∨
      ∃ e, exec tr p path argv s = .error (.fs e) ∧ findProgram p path s.fs = .error e := by
  have hE : wp (fun e => ∃ e', Panic.fs e = .fs e' ∧ findProgram p path s.fs = .error e') (findProgram p path)
      (fun _ _ => True) s.fs := wp_iff.mpr ⟨fun _ _ _ => trivial, fun e he => ⟨e, rfl, he⟩⟩
  have hwp : wp _ (exec tr p path argv) _ s := wp_exec (E := fun e => ∃ e', e = .fs e' ∧
    findProgram p path s.fs = .error e') h hE
  obtain ⟨hok, herr⟩ := wp_iff.mp hwp
  cases hexec : exec tr p path argv s with
  | ok x =>
    refine .inl ⟨x.1, x.2, rfl, ?_⟩
    rcases (hok x.1 x.2 hexec).ends with hend | hend
    · exact .inl hend.1
    · exact .inr hend.1
  | error e =>
    obtain ⟨e', rfl, he⟩ := herr e hexec; exact .inr ⟨e', rfl, he⟩

end

def oneProgram : Image where
  names := [[120]]
  data _ := [127, 69, 76, 70] ++ List.replicate 60 0
  fits := by decide
  plain := by decide

def caller (outcomes : List Bool) (pt : PageTable) (free : List Pa) : State Bool where
  fs := oneProgram.boot false
  mem := ⟨free, outcomes⟩
  ram _ _ := 0
  proc := ⟨0, pt, 0, ⟨0, 0, 0, fun _ => 0⟩, []⟩
  short := []

def beforeExec (outcomes : List Bool) : Option (State Bool) :=
  match procPagetable 100 0 ⟨List.range' 1 20, []⟩ with
  | .ok (some pt, m) => some (caller outcomes pt m.free)
  | _ => none

def oneArg : Argv := ⟨[[120]], by decide, by decide⟩

theorem beforeExec_ready {outcomes : List Bool} {s : State Bool} (h : beforeExec outcomes = some s) :
    Ready 100 (Multiset.range 21) {0} false s := by
  have hgood : Good (oneProgram.boot false) := (Fresh.booted ⟨oneProgram, false, rfl⟩).good
  have hbal : Bal (Multiset.range 21) {0} ⟨List.range' 1 20, []⟩ := by unfold Bal; decide
  have hpt : wp (fun _ => False) (procPagetable 100 0) (fun r m => ∀ pt, r = some pt →
      Maps 100 0 pt (User 0) ∧ Bal (Multiset.range 21) (pt.pages + {0}) m) ⟨List.range' 1 20, []⟩ :=
    wp_procPagetable hbal (fun _ _ => nofun) fun pt m hm hb pt' he => Option.some.inj he ▸ ⟨hm, hb⟩
  unfold beforeExec at h
  split at h
  · rename_i pt m hrun
    cases h
    obtain ⟨hm, hb⟩ := wp_ok hpt hrun pt rfl
    have hzero : pagesOf 0 = 0 := by decide
    rw [← hzero] at hm
    exact ⟨hgood, some_ne_none _, nodup_range 21, by decide, hm, hb⟩
  · cases h

theorem exec_all_or_nothing_program : (∃ s s' : State Bool, exec 100 false [120] oneArg s = .ok (1, s') ∧
      Replaced [120] s s') ∧
    ∃ s s' : State Bool, exec 100 false [120] oneArg s = .ok (-1, s') ∧ s.mem.free.length = 17 ∧
      Undone s s' := by
  have hok : ((beforeExec []).bind fun s =>
      (exec 100 false [120] oneArg s).toOption.map fun x => x.1) = some 1 := by
    decide +kernel
  have hbad : ((beforeExec [true, true, true, true, false]).bind fun s =>
      (exec 100 false [120] oneArg s).toOption.map fun x => (x.1, s.mem.free.length)) = some (-1, 17) := by
    decide +kernel
  refine ⟨?_, ?_⟩
  · obtain ⟨s, hs, hrun⟩ := bind_eq_some_iff.mp hok
    obtain ⟨x, hx, hr⟩ := map_eq_some_iff.mp hrun
    have hexec := toOption_eq_some hx
    obtain ⟨⟨hneg, -⟩ | ⟨-, hnew⟩, -⟩ := (exec_all_or_nothing (beforeExec_ready hs)).1 _ _ hexec
    · rw [hr] at hneg; cases hneg
    · exact ⟨s, x.2, hr ▸ hexec, hnew⟩
  · obtain ⟨s, hs, hrun⟩ := bind_eq_some_iff.mp hbad
    obtain ⟨x, hx, hr⟩ := map_eq_some_iff.mp hrun
    obtain ⟨hret, hfree⟩ := Prod.mk.inj hr
    have hexec := toOption_eq_some hx
    obtain ⟨⟨-, hsame⟩ | ⟨hpos, -⟩, -⟩ := (exec_all_or_nothing (beforeExec_ready hs)).1 _ _ hexec
    · exact ⟨s, x.2, hret ▸ hexec, hfree, hsame⟩
    · rw [hret] at hpos; cases hpos

theorem exec_never_panics_program : ∃ s : State Bool, beforeExec [] = some s ∧
    ∃ r s', exec 100 false [120] oneArg s = .ok (r, s') ∧ (r = -1 ∨ r = 1) := by
  have hfind : ((beforeExec []).bind fun s => (findProgram false [120] s.fs).toOption.map fun _ => ()) =
      some () := by
    decide +kernel
  obtain ⟨s, hs, hrun⟩ := bind_eq_some_iff.mp hfind
  obtain ⟨x, hx, -⟩ := map_eq_some_iff.mp hrun
  have hret : _ ∨ ∃ e, exec 100 false [120] oneArg s = _ ∧ _ := exec_never_panics (beforeExec_ready hs).prepared
  refine ⟨s, hs, ?_⟩
  rcases hret with h | ⟨e, -, he⟩
  · exact h
  · rw [toOption_eq_some hx] at he; cases he

end Xv6.Syscall.Exec
