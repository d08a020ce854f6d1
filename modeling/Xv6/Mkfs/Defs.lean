import Xv6.Fs.Names

/-!
# Building the image

The program `mkfs/mkfs.c`.  Its state is the image with the numbers of the next inode and of the next
block; a failed system call (`die`) or assertion ends it.  The first loop of `main` has written `FSSIZE`
blocks of zeros, and every later write is to a block that has been read, so the image stays of this size.
What `read` returns for an input file is given as the list of its pieces.
-/

namespace Xv6.Mkfs.Defs

open Param Vm.Copy Fs.Layout Fs.Files Fs.Store
open Fs.LogOps (Block BWORDS)
open Fs.Names (ROOTINO cstr)
open Syscall.Defs (slash)

def FSSIZE : ℕ := 2000

def NINODES : ℕ := 200

def FSMAGIC : Word := 0x10203040

def nbitmap : ℕ := FSSIZE / (BSIZE * 8) + 1

def ninodeblocks : ℕ := NINODES / IPB + 1

def nlog : ℕ := LOGSIZE

def nmeta : ℕ := 2 + nlog + ninodeblocks + nbitmap

def superblock : Block := fun j =>
  [FSMAGIC, BitVec.ofNat 32 FSSIZE, BitVec.ofNat 32 (FSSIZE - nmeta), BitVec.ofNat 32 NINODES,
    BitVec.ofNat 32 nlog, 2, BitVec.ofNat 32 mkfsSb.inodestart, BitVec.ofNat 32 mkfsSb.bmapstart].getD j 0

inductive Failure
  | die
  | assertion

structure State where
  img : Blocks
  freeinode : ℕ
  freeblock : ℕ

abbrev Tool := StateT State (Except Failure)

def assert (c : Prop) [Decidable c] : Tool Unit := if c then pure () else throw .assertion

def wsect (sec : Word) (buf : Block) : Tool Unit :=
  modify fun s => { s with img := Function.update s.img sec buf }

/-- `rsect`; there is nothing to read after the last block. -/
def rsect (sec : Word) : Tool Block := do
  let s ← get
  if sec.toNat < FSSIZE then return s.img sec else throw .die

/-! ## Inodes -/

def winode (inum : ℕ) (ip : Dinode) : Tool Unit := do
  let buf ← rsect (mkfsSb.IBLOCK inum)
  wsect (mkfsSb.IBLOCK inum) (setDinode buf (inum % IPB) ip)

def rinode (inum : ℕ) : Tool Dinode := do
  let buf ← rsect (mkfsSb.IBLOCK inum)
  return getDinode buf (inum % IPB)

def ialloc (type : BitVec 16) : Tool ℕ := do
  let s ← get
  modify fun s => { s with freeinode := s.freeinode + 1 }
  winode s.freeinode { Dinode.zero with type := type, nlink := 1 }
  return s.freeinode

def takeBlock : Tool Word := do
  let s ← get
  modify fun s => { s with freeblock := s.freeblock + 1 }
  return BitVec.ofNat 32 s.freeblock

def fillAddr (din : Dinode) (i : Fin (NDIRECT + 1)) : Tool Dinode :=
  if din.addrs i = 0 then do
    let b ← takeBlock
    return { din with addrs := Function.update din.addrs i b }
  else return din

def fillEntry (sec : Word) (i : ℕ) : Tool Word := do
  let indirect ← rsect sec
  if indirect.word i = 0 then
    let b ← takeBlock
    wsect sec (indirect.setWord i b)
    return b
  else return indirect.word i

def findBlock (din : Dinode) (fbn : ℕ) : Tool (Word × Dinode) :=
  if h : fbn < NDIRECT then do
    let din ← fillAddr din (Fin.castSucc ⟨fbn, h⟩)
    return (din.addrs (Fin.castSucc ⟨fbn, h⟩), din)
  else do
    let din ← fillAddr din (Fin.last NDIRECT)
    let x ← fillEntry (din.addrs (Fin.last NDIRECT)) (fbn - NDIRECT)
    return (x, din)

/-- The loop of `iappend`, with a bound on its rounds: each appends a byte at least. -/
def iappendLoop : ℕ → Dinode → ℕ → List Byte → Tool (Dinode × ℕ)
  | 0, din, off, _ => return (din, off)
  | rounds + 1, din, off, p =>
    if 0 < p.length then do
      let fbn := off / BSIZE
      assert (fbn < MAXFILE)
      let (x, din) ← findBlock din fbn
      let n1 := min p.length ((fbn + 1) * BSIZE - off)
      let buf ← rsect x
      wsect x (setBytes buf (off - fbn * BSIZE) (p.take n1))
      iappendLoop rounds din (off + n1) (p.drop n1)
    else return (din, off)

def iappend (inum : ℕ) (p : List Byte) : Tool Unit := do
  let din ← rinode inum
  let (din, off) ← iappendLoop p.length din din.size.toNat p
  winode inum { din with size := BitVec.ofNat 32 off }

/-- The bitmap with the first bits set: the loop of `balloc`. -/
def firstBits : ℕ → Block
  | 0 => zeroBlock
  | i + 1 => setBit (firstBits i) i true

def balloc (used : ℕ) : Tool Unit := do
  assert (used < BPB)
  wsect (BitVec.ofNat 32 mkfsSb.bmapstart) (firstBits used)

/-! ## The program -/

def T_FILE : BitVec 16 := 2

/-- An argument of `mkfs`, and what `read` returns for it until there is no more. -/
structure Input where
  arg : List Byte
  reads : List (List Byte)
  string : 0 ∉ arg
  sized : ∀ piece ∈ reads, 0 < piece.length ∧ piece.length ≤ BSIZE

namespace Input

variable (f : Input)

def content : List Byte := f.reads.flatten

/-- The argument without `user/`. -/
def base : List Byte := if f.arg.take 5 = [117, 115, 101, 114, 47] then f.arg.drop 5 else f.arg

def shortname : List Byte := if f.base.head? = some 95 then f.base.tail else f.base

end Input

def dirent (name : List Byte) (inum : ℕ) : List Byte := Dirent.put (cstr name) (BitVec.ofNat 16 inum)

def dot : List Byte := [46]

def dotdot : List Byte := [46, 46]

def addFile (rootino : ℕ) (f : Input) : Tool Unit := do
  assert (slash ∉ f.base)
  assert (f.shortname.length ≤ DIRSIZ)
  let inum ← ialloc T_FILE
  iappend rootino (dirent f.shortname inum)
  f.reads.forM (iappend inum)

/-- The size of the root directory becomes a multiple of `BSIZE`. -/
def fixRoot (rootino : ℕ) : Tool Unit := do
  let din ← rinode rootino
  let off := (din.size.toNat / BSIZE + 1) * BSIZE
  winode rootino { din with size := BitVec.ofNat 32 off }

/-- The part of `main` that makes the root directory. -/
def makeRoot : Tool ℕ := do
  let rootino ← ialloc T_DIR
  assert (rootino = ROOTINO)
  iappend rootino (dirent dot rootino)
  iappend rootino (dirent dotdot rootino)
  return rootino

def main (files : List Input) : Tool Unit := do
  wsect 1 superblock
  let rootino ← makeRoot
  files.forM (addFile rootino)
  fixRoot rootino
  let s ← get
  balloc s.freeblock

def start : State := ⟨fun _ => zeroBlock, 1, nmeta⟩

def mkfs (files : List Input) : Except Failure Blocks := (main files start).map (·.2.img)

end Xv6.Mkfs.Defs
