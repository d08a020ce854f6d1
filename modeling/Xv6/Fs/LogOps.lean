import Mathlib.Logic.Function.Basic
import Xv6.Param

/-!
# Blocks, buffers and the log

The part of `kernel/bio.c` that `kernel/log.c` uses, and the functions of `kernel/log.c` that move
blocks.  A block is its 256 32-bit words.  The buffer cache holds the contents of some blocks; a miss
in `bread` may recycle any buffers that are not pinned, as `recycle` says.  Every `bwrite` is added to
`writes`, in order, so that a crash can be placed between any two of them.
-/

namespace Xv6.Fs.LogOps

open Param

def BWORDS : ℕ := 256

abbrev Block := Fin BWORDS → Word

def Block.word (b : Block) (i : ℕ) : Word := if h : i < BWORDS then b ⟨i, h⟩ else 0

def Block.setWord (b : Block) (i : ℕ) (w : Word) : Block := fun j => if j.val = i then w else b j

structure Bio where
  disk : Word → Block
  cache : Word → Option Block
  pins : Word → ℕ
  recycle : ℕ → Word → Bool
  misses : ℕ
  writes : List (Word × Block)

namespace Bio

/-- `bread`: a miss reads the disk, and may recycle buffers that are not pinned. -/
def bread (s : Bio) (blockno : Word) : Block × Bio :=
  match s.cache blockno with
  | some data => (data, s)
  | none =>
    (s.disk blockno, { s with
        cache := Function.update (fun b => if s.pins b = 0 ∧ s.recycle s.misses b then none else s.cache b)
          blockno (some (s.disk blockno))
        misses := s.misses + 1 })

/-- `bwrite` of a buffer whose data has been set to `data`. -/
def bwrite (s : Bio) (blockno : Word) (data : Block) : Bio :=
  { s with
    cache := Function.update s.cache blockno (some data)
    disk := Function.update s.disk blockno data
    writes := s.writes ++ [(blockno, data)] }

def bunpin (s : Bio) (blockno : Word) : Bio :=
  { s with pins := Function.update s.pins blockno (s.pins blockno - 1) }

/-- The machine after a crash that left the disk `disk`. -/
def boot (disk : Word → Block) (recycle : ℕ → Word → Bool) : Bio :=
  ⟨disk, fun _ => none, fun _ => 0, recycle, 0, []⟩

end Bio

/-! ## The log -/

structure LogHeader where
  n : Word
  block : ℕ → Word

/-- The rounds of a loop `for (i = 0; i < lh.n; i++)`. -/
def LogHeader.len (lh : LogHeader) : ℕ := lh.n.toInt.toNat

/-- `struct log`, as far as moving blocks goes. -/
structure Log where
  start : Word
  size : Word
  lh : LogHeader

def Log.slot (log : Log) (tail : ℕ) : Word := log.start + BitVec.ofNat 32 tail + 1

def installAt (recovering : Bool) (log : Log) (s : Bio) (tail : ℕ) : Bio :=
  let (lbuf, s) := s.bread (log.slot tail)
  let (_, s) := s.bread (log.lh.block tail)
  let s := s.bwrite (log.lh.block tail) lbuf
  if recovering then s else s.bunpin (log.lh.block tail)

def installTrans (recovering : Bool) (log : Log) (s : Bio) : Bio :=
  (List.range log.lh.len).foldl (installAt recovering log) s

def readHead (log : Log) (s : Bio) : Log × Bio :=
  let (buf, s) := s.bread log.start
  let n := buf.word 0
  ({ log with
     lh := { n := n, block := fun i => if i < n.toInt.toNat then buf.word (i + 1) else log.lh.block i } }, s)

/-- The header block that `write_head` makes out of the old one. -/
def headBlock (lh : LogHeader) (buf : Block) : Block :=
  (List.range lh.len).foldl (fun hb i => hb.setWord (i + 1) (lh.block i)) (buf.setWord 0 lh.n)

def writeHead (log : Log) (s : Bio) : Bio :=
  let (buf, s) := s.bread log.start
  s.bwrite log.start (headBlock log.lh buf)

def Log.clear (log : Log) : Log := { log with lh := { log.lh with n := 0 } }

def recoverFromLog (log : Log) (s : Bio) : Log × Bio :=
  let (log, s) := readHead log s
  let s := installTrans true log s
  (log.clear, writeHead log.clear s)

def writeLogAt (log : Log) (s : Bio) (tail : ℕ) : Bio :=
  let (_, s) := s.bread (log.slot tail)
  let (from_, s) := s.bread (log.lh.block tail)
  s.bwrite (log.slot tail) from_

def writeLog (log : Log) (s : Bio) : Bio := (List.range log.lh.len).foldl (writeLogAt log) s

def commit (log : Log) (s : Bio) : Log × Bio :=
  if (0 : Word).slt log.lh.n then
    let s := writeLog log s
    let s := writeHead log s
    let s := installTrans false log s
    (log.clear, writeHead log.clear s)
  else (log, s)

/-- `initlog` up to recovery: the log of the superblock's `logstart` and `nlog`. -/
def initlog (logstart nlog : Word) : Log := ⟨logstart, nlog, ⟨0, fun _ => 0⟩⟩

end Xv6.Fs.LogOps
