import Mathlib.Algebra.Order.Ring.Int
import Mathlib.Data.Fintype.Prod
import Xv6.Fs.Layout
import Xv6.Lib.Stateful

/-!
# System calls on files

The system calls of `kernel/sysfile.c`, with what `fork`, `exec` and `exit` do to files, over the functions of
`kernel/fs.c` on inodes and paths and of `kernel/file.c`.  A call runs from its beginning to its end.

There is one copy of the fields of an inode, as each change of `ip->…` is followed by an `iupdate` under the same
lock.  A directory is its list of entries, where an entry with number 0 is free.  What the rest of the kernel
answers is a parameter of a call: `path` is `none` when `argstr` fails, `room` tells whether the disk has a block,
`page` is what `kalloc` gives.  To wait for a lock that it has itself is an error (`deadlock`).
-/

namespace Xv6.Syscall.Defs

open Param Vm.Copy Fs.Layout List Function

def NINODES : ℕ := 200

instance : NeZero NINODES := ⟨by decide⟩

abbrev Inum := Fin NINODES

def ROOTINO : Inum := 1

inductive InodeType
  | free
  | dir
  | file
  | device
  deriving DecidableEq

abbrev Name := List Byte

abbrev Path := List Byte

structure Dirent where
  inum : Inum
  name : Name
  deriving DecidableEq

/-- `struct dinode`, with the content in place of `size` and `addrs`: entries of a directory, or bytes. -/
structure Inode where
  type : InodeType
  major : BitVec 16
  minor : BitVec 16
  nlink : BitVec 16
  entries : List Dirent
  data : List Byte
  deriving DecidableEq

/-- `memset(dip, 0, sizeof(*dip))`. -/
def Inode.zero : Inode := ⟨.free, 0, 0, 0, [], []⟩

inductive FdType
  | none
  | pipe
  | inode
  | device
  deriving DecidableEq

structure File where
  type : FdType
  ref : ℕ
  readable : Bool
  writable : Bool
  pipe : Option ℕ
  ip : Inum
  off : ℕ
  major : BitVec 16
  deriving DecidableEq

structure Pipe where
  readopen : Bool
  writeopen : Bool
  deriving DecidableEq

/-- `ref`, `valid` and `locked` are of the entry of an inode in `itable`; there is one if `ref` is not 0.
`ops` is `log.outstanding`.  A slot `np` of the process table has a `cwd` while a process in it has not
exited.  A page is in `pipe` while it holds a pipe. -/
structure State (P : Type) where
  inode : Inum → Inode
  ref : Inum → ℕ
  valid : Inum → Bool
  locked : Inum → Bool
  ops : ℤ
  file : Fin NFILE → File
  ofile : P × Fin NOFILE → Option (Fin NFILE)
  cwd : P → Option Inum
  pipe : ℕ → Option Pipe
  initproc : P

/-- The panics, and what should not happen either: to wait for oneself, or to use an address that is not a
pipe or an inode. -/
inductive Panic
  | igetNoInodes
  | ilock
  | ilockNoType
  | iunlock
  | dirlookupNotDir
  | unlinkNlink
  | filedup
  | fileclose
  | initExiting
  | deadlock
  | fault
  deriving DecidableEq

abbrev K (P : Type) := StateT (State P) (Except Panic)

variable {P : Type}

/-! ## Inodes -/

def State.setInode (s : State P) (i : Inum) (ip : Inode) : State P :=
  { s with inode := update s.inode i ip }

def State.setRef (s : State P) (i : Inum) (ref : ℕ) (valid : Bool) : State P :=
  { s with ref := update s.ref i ref, valid := update s.valid i valid }

def State.setLocked (s : State P) (i : Inum) (locked : Bool) : State P :=
  { s with locked := update s.locked i locked }

def State.inTable (s : State P) : ℕ := (Finset.univ.filter fun i => 0 < s.ref i).card

def beginOp : K P Unit := modify fun s => { s with ops := s.ops + 1 }

def endOp : K P Unit := modify fun s => { s with ops := s.ops - 1 }

def iget (i : Inum) : K P Unit := do
  let s ← get
  if 0 < s.ref i then modify fun s => s.setRef i (s.ref i + 1) (s.valid i)
  else if s.inTable < NINODE then modify fun s => s.setRef i 1 false
  else throw .igetNoInodes

def idup (i : Inum) : K P Unit := modify fun s => s.setRef i (s.ref i + 1) (s.valid i)

def ilock (i : Inum) : K P Unit := do
  let s ← get
  if s.ref i < 1 then throw .ilock
  else if s.locked i then throw .deadlock
  else
    modify fun s => s.setLocked i true
    if s.valid i then pure ()
    else
      modify fun s => s.setRef i (s.ref i) true
      if (s.inode i).type = .free then throw .ilockNoType else pure ()

def iunlock (i : Inum) : K P Unit := do
  let s ← get
  if s.locked i = false ∨ s.ref i < 1 then throw .iunlock
  else modify fun s => s.setLocked i false

def Inode.freed (ip : Inode) : Inode := { ip with type := .free, entries := [], data := [] }

def iput (i : Inum) : K P Unit := do
  let s ← get
  if s.ref i = 1 ∧ s.valid i = true ∧ (s.inode i).nlink = 0 then
    if s.locked i then throw .deadlock
    else
      modify fun s => s.setInode i (s.inode i).freed
      modify fun s => s.setRef i (s.ref i - 1) false
  else modify fun s => s.setRef i (s.ref i - 1) (s.valid i)

def iunlockput (i : Inum) : K P Unit := do
  iunlock i
  iput i

def State.freeInode (s : State P) : Option Inum :=
  (List.finRange NINODES).find? fun i => decide (i ≠ 0 ∧ (s.inode i).type = .free)

def ialloc (type : InodeType) : K P (Option Inum) := do
  let s ← get
  match s.freeInode with
  | none => return none
  | some i =>
    modify fun s => s.setInode i { Inode.zero with type := type }
    iget i
    return some i

def dot : Name := [46]

def dotdot : Name := [46, 46]

/-- The loop of `dirlookup`: the entry with a name, and its place from `off` on. -/
def lookup (name : Name) : ℕ → List Dirent → Option (Inum × ℕ)
  | _, [] => none
  | off, de :: es => if de.inum ≠ 0 ∧ de.name = name then some (de.inum, off) else lookup name (off + 1) es

def dirlookup (dp : Inum) (name : Name) : K P (Option (Inum × ℕ)) := do
  let s ← get
  if (s.inode dp).type = .dir then
    match lookup name 0 (s.inode dp).entries with
    | none => return none
    | some (i, off) =>
      iget i
      return some (i, off)
  else throw .dirlookupNotDir

def EPB : ℕ := BSIZE / 16

/-- The place that `dirlink` writes to: the first free entry. -/
def emptySlot (es : List Dirent) : Option ℕ := es.findIdx? fun de => decide (de.inum = 0)

/-- Whether the `writei` of `dirlink` succeeds.  A block is needed at the end of a block only. -/
def hasRoom (es : List Dirent) (room : Bool) : Bool :=
  (emptySlot es).isSome || (decide (es.length < MAXFILE * EPB) && (decide (es.length % EPB ≠ 0) || room))

def putEntry (es : List Dirent) (de : Dirent) : List Dirent :=
  match emptySlot es with
  | some off => es.set off de
  | none => es ++ [de]

def dirlink (dp : Inum) (name : Name) (inum : Inum) (room : Bool) : K P Bool := do
  match ← dirlookup dp name with
  | some (ip, _) =>
    iput ip
    return false
  | none =>
    let s ← get
    if hasRoom (s.inode dp).entries room then
      modify fun s => s.setInode dp { s.inode dp with entries := putEntry (s.inode dp).entries ⟨inum, name⟩ }
      return true
    else return false

/-! ## Paths -/

def slash : Byte := 47

def skipelem (path : Path) : Option (Name × Path) :=
  match path.dropWhile (· = slash) with
  | [] => none
  | c :: s => some (((c :: s).takeWhile (· ≠ slash)).take DIRSIZ,
      ((c :: s).dropWhile (· ≠ slash)).dropWhile (· = slash))

def elementsLoop : ℕ → Path → List Name
  | 0, _ => []
  | rounds + 1, path =>
    match skipelem path with
    | none => []
    | some (name, rest) => name :: elementsLoop rounds rest

/-- The elements that `namex` goes through.  Each has a character at least. -/
def elements (path : Path) : List Name := elementsLoop path.length path

theorem skipelem_length {path rest : Path} {name : Name} (h : skipelem path = some (name, rest)) :
    rest.length < path.length := by
  unfold skipelem at h
  split at h
  · cases h
  · rename_i c s hs
    cases h
    have hc : c ≠ slash := by
      have hhead := List.head?_dropWhile_not (fun b : Byte => decide (b = slash)) path
      rw [hs] at hhead; simpa using hhead
    have h1 : (c :: s).length ≤ path.length := by rw [← hs]; exact (dropWhile_suffix _).length_le
    have h2 : ((c :: s).dropWhile (· ≠ slash)).length ≤ s.length := by
      rw [dropWhile_cons_of_pos (by simp [hc])]
      exact (dropWhile_suffix _).length_le
    have h3 := (dropWhile_suffix (fun b : Byte => decide (b = slash))
      (l := (c :: s).dropWhile (· ≠ slash))).length_le
    rw [length_cons] at h1; omega

theorem elementsLoop_congr {n m : ℕ} {path : Path} (hn : path.length ≤ n) (hm : path.length ≤ m) :
    elementsLoop n path = elementsLoop m path := by
  induction n generalizing m path with
  | zero =>
    obtain rfl : path = [] := length_eq_zero_iff.mp (Nat.le_zero.mp hn)
    cases m <;> rfl
  | succ n ih =>
    cases m with
    | zero =>
      obtain rfl : path = [] := length_eq_zero_iff.mp (Nat.le_zero.mp hm); rfl
    | succ m =>
      rw [elementsLoop, elementsLoop]
      cases hs : skipelem path with
      | none => rfl
      | some r =>
        have hlen : r.2.length < path.length := skipelem_length hs
        exact congrArg (r.1 :: ·) (ih (by omega) (by omega))

theorem elements_eq (path : Path) : elements path = match skipelem path with
    | none => []
    | some (name, rest) => name :: elements rest := by
  cases hs : skipelem path with
  | none =>
    cases path with
    | nil => rfl
    | cons c path =>
      show elementsLoop (path.length + 1) (c :: path) = []
      rw [elementsLoop, hs]
  | some r =>
    have hlen : r.2.length < path.length := skipelem_length hs
    have h1 : elements path = elementsLoop (path.length + 1) path :=
      elementsLoop_congr le_rfl (Nat.le_succ _)
    rw [h1, elementsLoop, hs]
    exact congrArg (r.1 :: ·) (elementsLoop_congr (by omega) le_rfl)

theorem elements_slash (path : Path) : elements (slash :: path) = elements path := by
  have hskip : skipelem (slash :: path) = skipelem path := by
    unfold skipelem
    rw [dropWhile_cons_of_pos (by simp)]
  rw [elements_eq, hskip, ← elements_eq]

/-- The loop of `namex`, with the elements to come and the one before: the inode, and the last element. -/
def namexLoop (parent : Bool) : List Name → Name → Inum → K P (Option (Inum × Name))
  | [], name, ip =>
    if parent then do
      iput ip
      return none
    else return some (ip, name)
  | name :: rest, _, ip => do
    ilock ip
    let s ← get
    if (s.inode ip).type ≠ .dir then
      iunlockput ip
      return none
    else if parent = true ∧ rest = [] then
      iunlock ip
      return some (ip, name)
    else
      match ← dirlookup ip name with
      | none =>
        iunlockput ip
        return none
      | some (next, _) =>
        iunlockput ip
        namexLoop parent rest name next

def State.start (s : State P) (p : P) (path : Path) : Option Inum :=
  if path.head? = some slash then some ROOTINO else s.cwd p

def getStart (path : Path) (ip : Inum) : K P Unit := if path.head? = some slash then iget ip else idup ip

def namex (p : P) (path : Path) (parent : Bool) : K P (Option (Inum × Name)) := do
  let s ← get
  match s.start p path with
  | none => throw .fault
  | some ip =>
    getStart path ip
    namexLoop parent (elements path) [] ip

def namei (p : P) (path : Path) : K P (Option Inum) := do
  let r ← namex p path false
  return r.map Prod.fst

def nameiparent (p : P) (path : Path) : K P (Option (Inum × Name)) := namex p path true

/-! ## Open files -/

def State.setFile (s : State P) (f : Fin NFILE) (file : File) : State P :=
  { s with file := update s.file f file }

def State.freeFile (s : State P) : Option (Fin NFILE) :=
  (List.finRange NFILE).find? fun f => decide ((s.file f).ref = 0)

def filealloc : K P (Option (Fin NFILE)) := do
  let s ← get
  match s.freeFile with
  | none => return none
  | some f =>
    modify fun s => s.setFile f { s.file f with ref := 1 }
    return some f

def filedup (f : Fin NFILE) : K P Unit := do
  let s ← get
  if (s.file f).ref < 1 then throw .filedup
  else modify fun s => s.setFile f { s.file f with ref := (s.file f).ref + 1 }

/-- `pipeclose`, with the `kfree` of a pipe that is closed at both ends. -/
def pipeclose (page : Option ℕ) (writable : Bool) : K P Unit := do
  let s ← get
  match page with
  | none => throw .fault
  | some a =>
    match s.pipe a with
    | none => throw .fault
    | some pi =>
      let pi := if writable then { pi with writeopen := false } else { pi with readopen := false }
      modify fun s => { s with
        pipe := update s.pipe a (if pi.readopen ∨ pi.writeopen then some pi else none) }

def fileclose (f : Fin NFILE) : K P Unit := do
  let s ← get
  let ff := s.file f
  if ff.ref < 1 then throw .fileclose
  else if 0 < ff.ref - 1 then modify fun s => s.setFile f { ff with ref := ff.ref - 1 }
  else
    modify fun s => s.setFile f { ff with ref := 0, type := .none }
    match ff.type with
    | .pipe => pipeclose ff.pipe ff.writable
    | .inode | .device =>
      beginOp
      iput ff.ip
      endOp
    | .none => return ()

/-- `pipealloc`, where `page` is what `kalloc` gives. -/
def pipealloc (page : Option ℕ) : K P (Option (Fin NFILE × Fin NFILE)) := do
  match ← filealloc with
  | none => return none
  | some f0 =>
    match ← filealloc with
    | none =>
      fileclose f0
      return none
    | some f1 =>
      match page with
      | none =>
        fileclose f0
        fileclose f1
        return none
      | some a =>
        modify fun s => { s with pipe := update s.pipe a (some ⟨true, true⟩) }
        modify fun s => s.setFile f0
          { s.file f0 with type := .pipe, readable := true, writable := false, pipe := some a }
        modify fun s => s.setFile f1
          { s.file f1 with type := .pipe, readable := false, writable := true, pipe := some a }
        return some (f0, f1)

variable [DecidableEq P]

def State.setOfile (s : State P) (p : P) (fd : Fin NOFILE) (f : Option (Fin NFILE)) : State P :=
  { s with ofile := update s.ofile (p, fd) f }

def State.argfd (s : State P) (p : P) (fd : ℤ) : Option (Fin NOFILE × Fin NFILE) :=
  if h : 0 ≤ fd ∧ fd < NOFILE then
    (s.ofile (p, ⟨fd.toNat, by omega⟩)).map fun f => (⟨fd.toNat, by omega⟩, f)
  else none

def State.freeFd (s : State P) (p : P) : Option (Fin NOFILE) :=
  (List.finRange NOFILE).find? fun fd => decide (s.ofile (p, fd) = none)

def fdalloc (p : P) (f : Fin NFILE) : K P (Option (Fin NOFILE)) := do
  let s ← get
  match s.freeFd p with
  | none => return none
  | some fd =>
    modify fun s => s.setOfile p fd (some f)
    return some fd

/-! ## System calls -/

def sysDup (p : P) (fd : ℤ) : K P ℤ := do
  let s ← get
  match s.argfd p fd with
  | none => return -1
  | some (_, f) =>
    match ← fdalloc p f with
    | none => return -1
    | some fd =>
      filedup f
      return fd.val

def sysClose (p : P) (fd : ℤ) : K P ℤ := do
  let s ← get
  match s.argfd p fd with
  | none => return -1
  | some (fd, f) =>
    modify fun s => s.setOfile p fd none
    fileclose f
    return 0

def linkBad (ip : Inum) : K P ℤ := do
  ilock ip
  modify fun s => s.setInode ip { s.inode ip with nlink := (s.inode ip).nlink - 1 }
  iunlockput ip
  endOp
  return -1

def sysLink (p : P) (old new : Option Path) (room : Bool) : K P ℤ := do
  match old, new with
  | some old, some new =>
    beginOp
    match ← namei p old with
    | none =>
      endOp
      return -1
    | some ip =>
      ilock ip
      let s ← get
      if (s.inode ip).type = .dir then
        iunlockput ip
        endOp
        return -1
      else
        modify fun s => s.setInode ip { s.inode ip with nlink := (s.inode ip).nlink + 1 }
        iunlock ip
        match ← nameiparent p new with
        | none => linkBad ip
        | some (dp, name) =>
          ilock dp
          if ← dirlink dp name ip room then
            iunlockput dp
            iput ip
            endOp
            return 0
          else
            iunlockput dp
            linkBad ip
  | _, _ => return -1

def isdirempty (es : List Dirent) : Bool := (es.drop 2).all fun de => decide (de.inum = 0)

def unlinkBad (dp : Inum) : K P ℤ := do
  iunlockput dp
  endOp
  return -1

def sysUnlink (p : P) (path : Option Path) : K P ℤ := do
  match path with
  | none => return -1
  | some path =>
    beginOp
    match ← nameiparent p path with
    | none =>
      endOp
      return -1
    | some (dp, name) =>
      ilock dp
      if name = dot ∨ name = dotdot then unlinkBad dp
      else
        match ← dirlookup dp name with
        | none => unlinkBad dp
        | some (ip, off) =>
          ilock ip
          let s ← get
          if (s.inode ip).nlink.toInt < 1 then throw .unlinkNlink
          else if (s.inode ip).type = .dir ∧ isdirempty (s.inode ip).entries = false then
            iunlockput ip
            unlinkBad dp
          else
            -- the entry is there, so this writei cannot fail
            modify fun s => s.setInode dp { s.inode dp with entries := (s.inode dp).entries.set off ⟨0, []⟩ }
            modify fun s =>
              if (s.inode ip).type = .dir then
                s.setInode dp { s.inode dp with nlink := (s.inode dp).nlink - 1 }
              else s
            iunlockput dp
            modify fun s => s.setInode ip { s.inode ip with nlink := (s.inode ip).nlink - 1 }
            iunlockput ip
            endOp
            return 0

/-- What `balloc` answers to `create`: for the first entry of a new directory, and for the entry of what is
created. -/
structure Room where
  dot : Bool
  entry : Bool

def createFail (dp ip : Inum) : K P (Option Inum) := do
  modify fun s => s.setInode ip { s.inode ip with nlink := 0 }
  iunlockput ip
  iunlockput dp
  return none

def createEntry (dp ip : Inum) (name : Name) (type : InodeType) (room : Bool) : K P (Option Inum) := do
  if ← dirlink dp name ip room then
    modify fun s =>
      if type = .dir then s.setInode dp { s.inode dp with nlink := (s.inode dp).nlink + 1 } else s
    iunlockput dp
    return some ip
  else createFail dp ip

/-- `create` from the `ilock` of the new inode on.  The second entry of a new directory is in the block of
the first. -/
def createNew (dp ip : Inum) (name : Name) (type : InodeType) (major minor : BitVec 16) (room : Room) :
    K P (Option Inum) := do
  ilock ip
  modify fun s => s.setInode ip { s.inode ip with major := major, minor := minor, nlink := 1 }
  if type = .dir then
    if ← dirlink ip dot ip room.dot then
      if ← dirlink ip dotdot dp false then createEntry dp ip name type room.entry
      else createFail dp ip
    else createFail dp ip
  else createEntry dp ip name type room.entry

/-- `create` when the directory has the name. -/
def createPresent (dp ip : Inum) (type : InodeType) : K P (Option Inum) := do
  iunlockput dp
  ilock ip
  let s ← get
  if type = .file ∧ ((s.inode ip).type = .file ∨ (s.inode ip).type = .device) then return some ip
  else
    iunlockput ip
    return none

/-- `create` from `ialloc` on. -/
def createAbsent (dp : Inum) (name : Name) (type : InodeType) (major minor : BitVec 16) (room : Room) :
    K P (Option Inum) := do
  match ← ialloc type with
  | none =>
    iunlockput dp
    return none
  | some ip => createNew dp ip name type major minor room

def create (p : P) (path : Path) (type : InodeType) (major minor : BitVec 16) (room : Room) :
    K P (Option Inum) := do
  match ← nameiparent p path with
  | none => return none
  | some (dp, name) =>
    ilock dp
    match ← dirlookup dp name with
    | some (ip, _) => createPresent dp ip type
    | none => createAbsent dp name type major minor room

def O_WRONLY : Word := 0x001
def O_RDWR : Word := 0x002
def O_CREATE : Word := 0x200
def O_TRUNC : Word := 0x400

/-- `sys_open` from the check of the device on, with `ip` locked. -/
def openFile (p : P) (ip : Inum) (omode : Word) : K P ℤ := do
  let s ← get
  if (s.inode ip).type = .device ∧ ((s.inode ip).major.toInt < 0 ∨ NDEV ≤ (s.inode ip).major.toInt) then
    iunlockput ip
    endOp
    return -1
  else
    match ← filealloc with
    | none =>
      iunlockput ip
      endOp
      return -1
    | some f =>
      match ← fdalloc p f with
      | none =>
        fileclose f
        iunlockput ip
        endOp
        return -1
      | some fd =>
        modify fun s => s.setFile f { s.file f with
            type := if (s.inode ip).type = .device then .device else .inode
            major := if (s.inode ip).type = .device then (s.inode ip).major else (s.file f).major
            off := if (s.inode ip).type = .device then (s.file f).off else 0
            ip := ip
            readable := decide (omode &&& O_WRONLY = 0)
            writable := decide (omode &&& O_WRONLY ≠ 0 ∨ omode &&& O_RDWR ≠ 0) }
        modify fun s =>
          if omode &&& O_TRUNC ≠ 0 ∧ (s.inode ip).type = .file then
            s.setInode ip { s.inode ip with data := [] }
          else s
        iunlock ip
        endOp
        return fd.val

def sysOpen (p : P) (path : Option Path) (omode : Word) (room : Room) : K P ℤ := do
  match path with
  | none => return -1
  | some path =>
    beginOp
    if omode &&& O_CREATE ≠ 0 then
      match ← create p path .file 0 0 room with
      | none =>
        endOp
        return -1
      | some ip => openFile p ip omode
    else
      match ← namei p path with
      | none =>
        endOp
        return -1
      | some ip =>
        ilock ip
        let s ← get
        if (s.inode ip).type = .dir ∧ omode ≠ 0 then
          iunlockput ip
          endOp
          return -1
        else openFile p ip omode

def sysCreate (p : P) (path : Option Path) (type : InodeType) (major minor : BitVec 16) (room : Room) :
    K P ℤ := do
  beginOp
  match path with
  | none =>
    endOp
    return -1
  | some path =>
    match ← create p path type major minor room with
    | none =>
      endOp
      return -1
    | some ip =>
      iunlockput ip
      endOp
      return 0

def sysMkdir (p : P) (path : Option Path) (room : Room) : K P ℤ := sysCreate p path .dir 0 0 room

def sysMknod (p : P) (path : Option Path) (major minor : BitVec 16) (room : Room) : K P ℤ :=
  sysCreate p path .device major minor room

def putCwd (p : P) : K P Unit := do
  let s ← get
  match s.cwd p with
  | none => throw .fault
  | some i => iput i

def sysChdir (p : P) (path : Option Path) : K P ℤ := do
  beginOp
  match path with
  | none =>
    endOp
    return -1
  | some path =>
    match ← namei p path with
    | none =>
      endOp
      return -1
    | some ip =>
      ilock ip
      let s ← get
      if (s.inode ip).type ≠ .dir then
        iunlockput ip
        endOp
        return -1
      else
        iunlock ip
        putCwd p
        endOp
        modify fun s => { s with cwd := update s.cwd p (some ip) }
        return 0

/-- `sys_pipe`; `copied` tells whether both `copyout`s succeed. -/
def sysPipe (p : P) (page : Option ℕ) (copied : Bool) : K P ℤ := do
  match ← pipealloc page with
  | none => return -1
  | some (rf, wf) =>
    match ← fdalloc p rf with
    | none =>
      fileclose rf
      fileclose wf
      return -1
    | some fd0 =>
      match ← fdalloc p wf with
      | none =>
        modify fun s => s.setOfile p fd0 none
        fileclose rf
        fileclose wf
        return -1
      | some fd1 =>
        if copied then return 0
        else
          modify fun s => s.setOfile p fd0 none
          modify fun s => s.setOfile p fd1 none
          fileclose rf
          fileclose wf
          return -1

/-- A round of the loop of `fork` over the descriptors. -/
def forkFd (p np : P) (fd : Fin NOFILE) : K P Unit := do
  let s ← get
  match s.ofile (p, fd) with
  | none => return ()
  | some f =>
    filedup f
    modify fun s => s.setOfile np fd (some f)

/-- `fork` and `fork_with_priority` as to files, where `np` is the slot that `allocproc` finds and `ok` tells
whether `allocproc` and `uvmcopy` succeed. -/
def forkFiles (p np : P) (ok : Bool) : K P ℤ := do
  if ok then
    (List.finRange NOFILE).forM (forkFd p np)
    let s ← get
    match s.cwd p with
    | none => throw .fault
    | some i =>
      idup i
      modify fun s => { s with cwd := update s.cwd np (some i) }
      return 1
  else return -1

def fork (p np : P) (ok : Bool) : K P ℤ := forkFiles p np ok

def forkWithPriority (p np : P) (ok : Bool) : K P ℤ := forkFiles p np ok

/-- How `exec` ends after it has found the file: at `bad` with the inode still locked, at `bad` after it has
been put, or with the new image. -/
inductive ExecEnd
  | badImage
  | badStack
  | ok (argc : ℕ)

def exec (p : P) (path : Path) (e : ExecEnd) : K P ℤ := do
  beginOp
  match ← namei p path with
  | none =>
    endOp
    return -1
  | some ip =>
    ilock ip
    match e with
    | .badImage =>
      iunlockput ip
      endOp
      return -1
    | .badStack =>
      iunlockput ip
      endOp
      return -1
    | .ok argc =>
      iunlockput ip
      endOp
      return argc

/-- A round of the loop of `exit` over the descriptors. -/
def exitFd (p : P) (fd : Fin NOFILE) : K P Unit := do
  let s ← get
  match s.ofile (p, fd) with
  | none => return ()
  | some f =>
    fileclose f
    modify fun s => s.setOfile p fd none

def exit (p : P) : K P ℤ := do
  let s ← get
  if p = s.initproc then throw .initExiting
  else
    (List.finRange NOFILE).forM (exitFd p)
    beginOp
    putCwd p
    endOp
    modify fun s => { s with cwd := update s.cwd p none }
    return 0

end Xv6.Syscall.Defs
