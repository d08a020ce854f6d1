import Xv6.Fs.Layout
import Xv6.Lib.Programs

/-!
# Blocks, inodes and directories

The functions of `kernel/fs.c` that use buffers, as programs of the calls they make to `kernel/bio.c` and
`kernel/log.c`.  A buffer is named by its block: the code never has two of one block.  A function that
changes the in-memory inode returns it; `ip->lock` keeps others from it.  What `readi` and `writei` copy
from or to is the memory of the user, or bytes of the kernel.
-/

namespace Xv6.Fs.Files

open Param Vm.Copy Lib.Programs Fs.Layout
open Fs.LogOps (Block)

inductive Fn
  | balloc
  | bfree
  deriving DecidableEq

/-- A call, or a store to `bp->data` of the buffer of a block (`store`), or the mark that a function is
entered, which does nothing. -/
inductive Cmd
  | bread (b : Word)
  | store (b : Word) (data : Block)
  | logWrite (b : Word)
  | brelse (b : Word)
  | enter (f : Fn)

def Cmd.Reply : Cmd → Type
  | .bread _ => Block
  | _ => Unit

inductive Panic
  | freeingFreeBlock
  | bmapOutOfRange
  | ilockNoType
  | dirlookupNotDir
  | dirlookupRead
  | dirlinkRead
  | igetNoInodes
  deriving DecidableEq

abbrev Code := Prog Cmd Cmd.Reply Panic

def bread (b : Word) : Code Block := .call (Cmd.bread b)
def store (b : Word) (data : Block) : Code Unit := .call (Cmd.store b data)
def logWrite (b : Word) : Code Unit := .call (Cmd.logWrite b)
def brelse (b : Word) : Code Unit := .call (Cmd.brelse b)
def enter (f : Fn) : Code Unit := .call (Cmd.enter f)

def putBack (b : Word) (data : Block) : Code Unit := do
  store b data
  logWrite b
  brelse b

variable (sb : Superblock)

def bzero (bno : Word) : Code Unit := do
  let _ ← bread bno
  putBack bno zeroBlock

/-- The first clear bit of a block of the bitmap that begins with block `b`. -/
def freeBit (data : Block) (b : ℕ) : Option ℕ :=
  (List.range (min BPB (sb.size - b))).find? fun bi => !bit data bi

/-- The outer loop of `balloc`, over the first blocks `b` that a block of the bitmap tells of. -/
def ballocLoop : List ℕ → Code Word
  | [] => pure 0
  | b :: bs => do
    let data ← bread (sb.BBLOCK b)
    match freeBit sb data b with
    | some bi =>
      putBack (sb.BBLOCK b) (setBit data bi true)
      bzero (BitVec.ofNat 32 (b + bi))
      return BitVec.ofNat 32 (b + bi)
    | none =>
      brelse (sb.BBLOCK b)
      ballocLoop bs

def bitmapStarts : List ℕ := (List.range ((sb.size + BPB - 1) / BPB)).map (· * BPB)

def balloc : Code Word := do
  enter .balloc
  ballocLoop sb (bitmapStarts sb)

def bfree (b : Word) : Code Unit := do
  enter .bfree
  let data ← bread (sb.BBLOCK b.toNat)
  if bit data (b.toNat % BPB) then
    putBack (sb.BBLOCK b.toNat) (setBit data (b.toNat % BPB) false)
  else .fail .freeingFreeBlock

/-- The part of `struct inode` that `ip->lock` protects, and its number. -/
structure Inode extends Dinode where
  inum : ℕ

def Inode.setAddr (ip : Inode) (i : Fin (NDIRECT + 1)) (addr : Word) : Inode :=
  { ip with addrs := Function.update ip.addrs i addr }

/-- The loop of `ialloc`, over the inode numbers to try. -/
def iallocLoop (type : BitVec 16) : List ℕ → Code (Option ℕ)
  | [] => pure none
  | inum :: inums => do
    let data ← bread (sb.IBLOCK inum)
    if (getDinode data (inum % IPB)).type = 0 then
      putBack (sb.IBLOCK inum) (setDinode data (inum % IPB) { Dinode.zero with type := type })
      return some inum
    else
      brelse (sb.IBLOCK inum)
      iallocLoop type inums

/-- `ialloc` up to `iget`: the number of the inode. -/
def ialloc (type : BitVec 16) : Code (Option ℕ) := iallocLoop sb type (List.range' 1 (sb.ninodes - 1))

def iupdate (ip : Inode) : Code Unit := do
  let data ← bread (sb.IBLOCK ip.inum)
  putBack (sb.IBLOCK ip.inum) (setDinode data (ip.inum % IPB) ip.toDinode)

/-- What `ilock` does when `ip->valid` is 0. -/
def ilockRead (inum : ℕ) : Code Inode := do
  let data ← bread (sb.IBLOCK inum)
  brelse (sb.IBLOCK inum)
  if (getDinode data (inum % IPB)).type = 0 then .fail .ilockNoType
  else return ⟨getDinode data (inum % IPB), inum⟩

/-- The address at `i`, allocating if it is 0; 0 if there is no block. -/
def mapAddr (ip : Inode) (i : Fin (NDIRECT + 1)) : Code (Word × Inode) :=
  if ip.addrs i = 0 then do
    let addr ← balloc sb
    if addr = 0 then return (0, ip)
    else return (addr, ip.setAddr i addr)
  else return (ip.addrs i, ip)

def mapEntry (addr : Word) (bn : ℕ) : Code Word := do
  let a ← bread addr
  if a.word bn = 0 then
    let e ← balloc sb
    if e = 0 then
      brelse addr
      return 0
    else
      putBack addr (a.setWord bn e)
      return e
  else
    brelse addr
    return a.word bn

def bmap (ip : Inode) (bn : ℕ) : Code (Word × Inode) :=
  if h : bn < NDIRECT then mapAddr sb ip ⟨bn, by omega⟩
  else if bn - NDIRECT < NINDIRECT then do
    let (addr, ip) ← mapAddr sb ip (Fin.last NDIRECT)
    if addr = 0 then return (0, ip)
    let e ← mapEntry sb addr (bn - NDIRECT)
    return (e, ip)
  else .fail .bmapOutOfRange

def truncAddr (ip : Inode) (i : Fin NDIRECT) : Code Inode :=
  if ip.addrs i.castSucc = 0 then return ip
  else do
    bfree sb (ip.addrs i.castSucc)
    return ip.setAddr i.castSucc 0

def truncEntry (a : Block) (_ : Unit) (j : ℕ) : Code Unit :=
  if a.word j = 0 then return ()
  else bfree sb (a.word j)

def truncIndirect (ip : Inode) : Code Inode :=
  if ip.addrs (Fin.last NDIRECT) = 0 then return ip
  else do
    let a ← bread (ip.addrs (Fin.last NDIRECT))
    (List.range NINDIRECT).foldlM (truncEntry sb a) ()
    brelse (ip.addrs (Fin.last NDIRECT))
    bfree sb (ip.addrs (Fin.last NDIRECT))
    return ip.setAddr (Fin.last NDIRECT) 0

def itrunc (ip : Inode) : Code Inode := do
  let ip ← (List.finRange NDIRECT).foldlM (truncAddr sb) ip
  let ip ← truncIndirect sb ip
  let ip := { ip with size := 0 }
  iupdate sb ip
  return ip

/-- What `iput` does when the last reference to an inode without links goes. -/
def iputFree (ip : Inode) : Code Inode := do
  let ip ← itrunc sb ip
  let ip := { ip with type := 0 }
  iupdate sb ip
  return ip

/-! ## Reading and writing -/

/-- Where `readi` copies to: the bytes that the kernel has got so far, or an address of the user. -/
inductive Dst
  | kernel (bytes : List Byte)
  | user (mem : UserMem) (va : ℕ)

def eitherCopyout (dst : Dst) (tot : ℕ) (src : List Byte) : Dst × Bool :=
  match dst with
  | .kernel bytes => (.kernel (bytes ++ src), true)
  | .user mem va => (.user (copyout mem (va + tot) src).1 va, (copyout mem (va + tot) src).2)

inductive Src
  | kernel (bytes : List Byte)
  | user (mem : UserMem) (va : ℕ)

/-- `either_copyin` of `len` bytes from the place `tot` bytes after the start: the bytes moved, and
whether it succeeds. -/
def eitherCopyin (src : Src) (tot len : ℕ) : List Byte × Bool :=
  match src with
  | .kernel bytes => ((bytes.drop tot).take len, true)
  | .user mem va => copyin mem (va + tot) len

/-- The bytes of one round of `readi` or `writei`: those up to the end of the block. -/
def chunk (n tot off : ℕ) : ℕ := min (n - tot) (BSIZE - off % BSIZE)

/-- The loop of `readi`, with a bound on its rounds: each reads a byte at least. -/
def readLoop (n : ℕ) : ℕ → Inode → Dst → ℕ → ℕ → Code (Inode × Dst × ℤ)
  | 0, ip, dst, tot, _ => return (ip, dst, tot)
  | rounds + 1, ip, dst, tot, off =>
    if tot < n then do
      let (addr, ip) ← bmap sb ip (off / BSIZE)
      if addr = 0 then return (ip, dst, tot)
      let data ← bread addr
      let m := chunk n tot off
      let (dst, ok) := eitherCopyout dst tot (getBytes data (off % BSIZE) m)
      brelse addr
      if ok then readLoop n rounds ip dst (tot + m) (off + m)
      else return (ip, dst, -1)
    else return (ip, dst, tot)

def readi (ip : Inode) (dst : Dst) (off n : Word) : Code (Inode × Dst × ℤ) :=
  if ip.size < off ∨ off + n < off then return (ip, dst, 0)
  else
    let n := if ip.size < off + n then ip.size - off else n
    readLoop sb n.toNat n.toNat ip dst 0 off.toNat

def storeChunk (addr : Word) (data : Block) (off : ℕ) (bytes : List Byte) : Code Unit :=
  if bytes = [] then return ()
  else store addr (setBytes data (off % BSIZE) bytes)

/-- The loop of `writei`, with a bound on its rounds: each writes a byte at least. -/
def writeLoop (src : Src) (n : ℕ) : ℕ → Inode → ℕ → ℕ → Code (Inode × ℕ)
  | 0, ip, tot, _ => return (ip, tot)
  | rounds + 1, ip, tot, off =>
    if tot < n then do
      let (addr, ip) ← bmap sb ip (off / BSIZE)
      if addr = 0 then return (ip, tot)
      let data ← bread addr
      let m := chunk n tot off
      let (bytes, ok) := eitherCopyin src tot m
      storeChunk addr data off bytes
      if ok then
        logWrite addr
        brelse addr
        writeLoop src n rounds ip (tot + m) (off + m)
      else
        brelse addr
        return (ip, tot)
    else return (ip, tot)

def Inode.extend (ip : Inode) (off : ℕ) : Inode :=
  if ip.size.toNat < off then { ip with size := BitVec.ofNat 32 off } else ip

def writei (ip : Inode) (src : Src) (off n : Word) : Code (Inode × ℤ) :=
  if ip.size < off ∨ off + n < off then return (ip, -1)
  else if MAXFILE * BSIZE < (off + n).toNat then return (ip, -1)
  else do
    let (ip, tot) ← writeLoop sb src n.toNat n.toNat ip 0 off.toNat
    let ip := ip.extend (off.toNat + tot)
    iupdate sb ip
    return (ip, tot)

/-! ## Directories -/

def T_DIR : BitVec 16 := 1

def strncmpLoop (p q : ℕ → Byte) : ℕ → ℕ → Bool
  | 0, _ => true
  | n + 1, i => if p i ≠ 0 ∧ p i = q i then strncmpLoop p q n (i + 1) else p i = q i

def namecmp (s t : ℕ → Byte) : Bool := strncmpLoop s t DIRSIZ 0

def strncpyLoop (t : ℕ → Byte) : ℕ → ℕ → List Byte
  | 0, _ => []
  | n + 1, i => if t i = 0 then List.replicate (n + 1) 0 else t i :: strncpyLoop t n (i + 1)

structure Dirent where
  inum : BitVec 16
  name : ℕ → Byte

def Dirent.get (bytes : List Byte) : Dirent where
  inum := bytes.getD 1 0 ++ bytes.getD 0 0
  name i := bytes.getD (2 + i) 0

def Dirent.put (name : ℕ → Byte) (inum : BitVec 16) : List Byte :=
  inum.extractLsb' 0 8 :: inum.extractLsb' 8 8 :: strncpyLoop name DIRSIZ 0

/-- `0`, `sizeof(de)`, … below `size`. -/
def direntOffs (size : Word) : List ℕ := (List.range ((size.toNat + 15) / 16)).map (16 * ·)

def Dst.bytes : Dst → List Byte
  | .kernel bytes => bytes
  | .user _ _ => []

/-- `readi` of the entry at `off`, which panics if there are not enough bytes. -/
def readDirent (e : Panic) (dp : Inode) (off : ℕ) : Code (Inode × Dirent) := do
  let (dp, dst, r) ← readi sb dp (.kernel []) (BitVec.ofNat 32 off) 16
  if r = 16 then return (dp, Dirent.get dst.bytes)
  else .fail e

/-- The loop of `dirlookup`, over the offsets to try. -/
def lookupLoop (name : ℕ → Byte) : List ℕ → Inode → Code (Inode × Option (ℕ × ℕ))
  | [], dp => return (dp, none)
  | off :: offs, dp => do
    let (dp, de) ← readDirent sb .dirlookupRead dp off
    if de.inum ≠ 0 ∧ namecmp name de.name then return (dp, some (de.inum.toNat, off))
    else lookupLoop name offs dp

/-- `dirlookup` up to `iget`: the number of the inode, and the offset of the entry. -/
def dirlookup (dp : Inode) (name : ℕ → Byte) : Code (Inode × Option (ℕ × ℕ)) :=
  if dp.type = T_DIR then lookupLoop sb name (direntOffs dp.size) dp
  else .fail .dirlookupNotDir

/-- The loop of `dirlink`, over the offsets to try: the offset of an empty entry, or the one after
all. -/
def emptyLoop : List ℕ → Inode → ℕ → Code (Inode × ℕ)
  | [], dp, next => return (dp, next)
  | off :: offs, dp, _ => do
    let (dp, de) ← readDirent sb .dirlinkRead dp off
    if de.inum = 0 then return (dp, off)
    else emptyLoop offs dp (off + 16)

/-- What `dirlink` has done: it has found the name, has not been able to write, or has made an entry. -/
inductive Linked
  | present (inum : ℕ)
  | failed
  | ok

/-- `dirlink`; an inode that it has found is still to be put. -/
def dirlink (dp : Inode) (name : ℕ → Byte) (inum : BitVec 16) : Code (Inode × Linked) := do
  let (dp, found) ← dirlookup sb dp name
  match found with
  | some (i, _) => return (dp, .present i)
  | none =>
    let (dp, off) ← emptyLoop sb (direntOffs dp.size) dp 0
    let (dp, r) ← writei sb dp (.kernel (Dirent.put name inum)) (BitVec.ofNat 32 off) 16
    return (dp, if r = 16 then .ok else .failed)

end Xv6.Fs.Files
