import Mathlib.Algebra.GroupWithZero.Nat
import Mathlib.Tactic.Common

/-!
# Parameters

The constants of `kernel/param.h` that the models use, and the C word.
-/

namespace Xv6.Param

abbrev Word := BitVec 32

def NPROC : ℕ := 2000

instance : NeZero NPROC := ⟨by decide⟩

def NCPU : ℕ := 8

def NOFILE : ℕ := 16

def NFILE : ℕ := 100

def NDEV : ℕ := 10

def ROOTDEV : Word := 1

def MAXOPBLOCKS : ℕ := 10

def LOGSIZE : ℕ := MAXOPBLOCKS * 3

def NBUF : ℕ := MAXOPBLOCKS * 3

instance : NeZero NBUF := ⟨by decide⟩

def NINODE : ℕ := 50

instance : NeZero NINODE := ⟨by decide⟩

end Xv6.Param
