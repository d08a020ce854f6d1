import Mathlib.Data.Fintype.Fin
import Xv6.Fs.LogOps
import Xv6.Vm.Copy

/-!
# The format of the disk

`kernel/fs.h`: where the inodes, the bitmap and the data blocks are, and what the words, bits and bytes
of a block stand for.  An image has the blocks of the inodes before those of the bitmap and the data
blocks last, as `mkfs` lays them out; a `Superblock` carries this.
-/

namespace Xv6.Fs.Layout

open Param Vm.Copy BitVec Nat
open Fs.LogOps (Block BWORDS)

def BSIZE : ℕ := 1024
def NDIRECT : ℕ := 12
def NINDIRECT : ℕ := BSIZE / 4
def MAXFILE : ℕ := NDIRECT + NINDIRECT

def BPB : ℕ := BSIZE * 8

/-- The inodes of a block: a `struct dinode` has 16 words. -/
def IPB : ℕ := BWORDS / 16

def DIRSIZ : ℕ := 14

/-- `struct superblock`, with the order of the parts of the disk.  The kernel counts blocks with an
`int`. -/
structure Superblock where
  size : ℕ
  nblocks : ℕ
  ninodes : ℕ
  inodestart : ℕ
  bmapstart : ℕ
  size_le : size ≤ 2 ^ 31
  inodes_le : inodestart + (ninodes + IPB - 1) / IPB ≤ bmapstart
  bmap_le : bmapstart + (size + BPB - 1) / BPB + nblocks ≤ size

def mkfsSb : Superblock where
  size := 2000
  nblocks := 1954
  ninodes := 200
  inodestart := 32
  bmapstart := 45
  size_le := by decide
  inodes_le := by decide
  bmap_le := by decide

theorem div_lt_ceil {i n k : ℕ} (hk : 0 < k) (hi : i < n) : i / k < (n + k - 1) / k := by
  have h1 : n + k - 1 = n - 1 + k := by omega
  have h2 : i / k ≤ (n - 1) / k := Nat.div_le_div_right (by omega)
  rw [h1, Nat.add_div_right _ hk]; omega

namespace Superblock

variable (sb : Superblock)

def IBLOCK (i : ℕ) : Word := BitVec.ofNat 32 (i / IPB + sb.inodestart)

def BBLOCK (b : ℕ) : Word := BitVec.ofNat 32 (b / BPB + sb.bmapstart)

def IsData (b : Word) : Prop := sb.size - sb.nblocks ≤ b.toNat ∧ b.toNat < sb.size

instance (b : Word) : Decidable (sb.IsData b) :=
  inferInstanceAs (Decidable (sb.size - sb.nblocks ≤ b.toNat ∧ b.toNat < sb.size))

variable {sb} {i n : ℕ}

theorem inode_lt_bmap (hi : i < sb.ninodes) : i / IPB + sb.inodestart < sb.bmapstart := by
  have h1 := div_lt_ceil (show 0 < IPB by decide) hi
  have h2 := sb.inodes_le; omega

theorem bmap_lt_data (hb : n < sb.size) : n / BPB + sb.bmapstart < sb.size - sb.nblocks := by
  have h1 := div_lt_ceil (show 0 < BPB by decide) hb
  have h2 := sb.bmap_le; omega

theorem bmap_le_size : sb.bmapstart ≤ sb.size :=
  (le_add_right _ _).trans ((le_add_right _ _).trans sb.bmap_le)

theorem toNat_IBLOCK (hi : i < sb.ninodes) : (sb.IBLOCK i).toNat = i / IPB + sb.inodestart := by
  have h1 := sb.size_le
  have h2 := inode_lt_bmap hi
  have h3 := sb.bmap_le_size
  unfold IBLOCK
  rw [toNat_ofNat, mod_eq_of_lt]; omega

theorem toNat_BBLOCK (hb : n < sb.size) : (sb.BBLOCK n).toNat = n / BPB + sb.bmapstart := by
  have h1 := sb.size_le
  have h2 := bmap_lt_data hb
  unfold BBLOCK
  rw [toNat_ofNat, mod_eq_of_lt]; omega

theorem IBLOCK_ne_BBLOCK (hi : i < sb.ninodes) (hb : n < sb.size) : sb.IBLOCK i ≠ sb.BBLOCK n := by
  intro h
  have h1 := toNat_IBLOCK hi
  have h2 := toNat_BBLOCK hb
  have h3 := inode_lt_bmap hi
  rw [h] at h1; exact absurd h1 (by have := zero_le (n / BPB); omega)

variable {b : Word} (hd : sb.IsData b)
include hd

theorem IsData.ne_IBLOCK (hi : i < sb.ninodes) : b ≠ sb.IBLOCK i := by
  rintro rfl
  have h1 := hd.1
  have h2 := inode_lt_bmap hi
  have h3 := sb.bmap_le
  rw [toNat_IBLOCK hi] at h1
  have := zero_le ((sb.size + BPB - 1) / BPB); omega

theorem IsData.ne_BBLOCK (hn : n < sb.size) : b ≠ sb.BBLOCK n := by
  rintro rfl
  have h1 := hd.1
  have h2 := bmap_lt_data hn
  rw [toNat_BBLOCK hn] at h1; omega

theorem IsData.ne_zero : b ≠ 0 := by
  rintro rfl
  exact absurd (bmap_lt_data hd.2) (by rw [le_zero.mp hd.1]; exact not_lt_zero _)

end Superblock

/-- `memset(bp->data, 0, BSIZE)`. -/
def zeroBlock : Block := fun _ => 0

variable {d : Block} {i j : ℕ}

@[simp] theorem word_zeroBlock : zeroBlock.word i = 0 := by
  unfold Block.word zeroBlock
  split_ifs <;> rfl

theorem word_setWord {w : Word} (hi : i < BWORDS) : (d.setWord i w).word j = if j = i then w else d.word j := by
  unfold Block.word Block.setWord
  by_cases hj : j < BWORDS
  · rw [dif_pos hj, dif_pos hj]
  · rw [dif_neg hj, dif_neg hj, if_neg (by omega)]

/-- `bp->data[bi/8] & (1 << (bi % 8))`: the bytes of a word go from its lowest bits up. -/
def bit (d : Block) (bi : ℕ) : Bool := (d.word (bi / 32)).getLsbD (bi % 32)

def mask (bi : ℕ) : Word := BitVec.twoPow 32 (bi % 32)

/-- `bp->data[bi/8] |= m` and `bp->data[bi/8] &= ~m`. -/
def setBit (d : Block) (bi : ℕ) (v : Bool) : Block :=
  d.setWord (bi / 32) (if v then d.word (bi / 32) ||| mask bi else d.word (bi / 32) &&& ~~~(mask bi))

theorem bit_setBit {v : Bool} (hi : i < BPB) : bit (setBit d i v) j = if j = i then v else bit d j := by
  have hB : BPB = 8192 := rfl
  have hW : BWORDS = 256 := rfl
  unfold bit setBit
  rw [word_setWord (by omega)]
  by_cases hw : j / 32 = i / 32
  · rw [if_pos hw, hw]
    have hm : (mask i).getLsbD (j % 32) = decide (j = i) := by
      unfold mask
      have h32 : i % 32 < 32 := mod_lt _ (by decide)
      by_cases hji : j = i
      · subst hji; simp [h32]
      · have : i % 32 ≠ j % 32 := by omega
        simp [this, hji]
    have hlt : j % 32 < 32 := mod_lt _ (by decide)
    cases v with
    | true =>
      rw [if_pos rfl, getLsbD_or, hm]
      by_cases hji : j = i
      · simp [hji]
      · simp [hji]
    | false =>
      rw [if_neg Bool.false_ne_true, getLsbD_and, getLsbD_not, hm]
      by_cases hji : j = i
      · simp [hji]
      · simp [hji, hlt]
  · rw [if_neg hw, if_neg (fun h => hw (by rw [h]))]

def byte (d : Block) (i : ℕ) : Byte := (d.word (i / 4)).extractLsb' (8 * (i % 4)) 8

def ofBytes (f : ℕ → Byte) : Block := fun i =>
  f (4 * i.val + 3) ++ f (4 * i.val + 2) ++ f (4 * i.val + 1) ++ f (4 * i.val)

def setBytes (d : Block) (off : ℕ) (bytes : List Byte) : Block :=
  ofBytes fun i => if off ≤ i then bytes.getD (i - off) (byte d i) else byte d i

theorem extract_append (w : ℕ → Byte) {r : ℕ} (hr : r < 4) :
    (w 3 ++ w 2 ++ w 1 ++ w 0).extractLsb' (8 * r) 8 = w r := by
  ext k hk
  simp only [getElem_extractLsb', getLsbD_append]
  obtain rfl | rfl | rfl | rfl : r = 0 ∨ r = 1 ∨ r = 2 ∨ r = 3 := by omega
  · rw [if_pos (by omega), getLsbD_eq_getElem (by omega)]; simp
  · rw [if_neg (by omega), if_pos (by omega), getLsbD_eq_getElem (by omega)]
    simp
  · rw [if_neg (by omega), if_neg (by omega), if_pos (by omega), getLsbD_eq_getElem (by omega)]
    congr 1; omega
  · rw [if_neg (by omega), if_neg (by omega), if_neg (by omega), getLsbD_eq_getElem (by omega)]
    congr 1; omega

theorem byte_ofBytes {g : ℕ → Byte} (hi : i < BSIZE) : byte (ofBytes g) i = g i := by
  have hB : BSIZE = 1024 := rfl
  have hW : BWORDS = 256 := rfl
  unfold byte Block.word
  rw [dif_pos (by omega)]
  refine (extract_append (fun r => g (4 * (i / 4) + r)) (mod_lt _ (by decide))).trans ?_
  rw [div_add_mod]

theorem byte_setBytes {off : ℕ} {bytes : List Byte} (hi : i < BSIZE) :
    byte (setBytes d off bytes) i = if off ≤ i then bytes.getD (i - off) (byte d i) else byte d i :=
  byte_ofBytes hi

def getBytes (d : Block) (off len : ℕ) : List Byte := (List.range len).map fun i => byte d (off + i)

@[ext] structure Dinode where
  type : BitVec 16
  major : BitVec 16
  minor : BitVec 16
  nlink : BitVec 16
  size : Word
  addrs : Fin (NDIRECT + 1) → Word

/-- `memset(dip, 0, sizeof(*dip))`. -/
def Dinode.zero : Dinode := ⟨0, 0, 0, 0, 0, fun _ => 0⟩

def Dinode.word (ip : Dinode) : ℕ → Word
  | 0 => ip.major ++ ip.type
  | 1 => ip.nlink ++ ip.minor
  | 2 => ip.size
  | i + 3 => if h : i < NDIRECT + 1 then ip.addrs ⟨i, h⟩ else 0

def getDinode (d : Block) (i : ℕ) : Dinode where
  type := (d.word (16 * i)).extractLsb' 0 16
  major := (d.word (16 * i)).extractLsb' 16 16
  minor := (d.word (16 * i + 1)).extractLsb' 0 16
  nlink := (d.word (16 * i + 1)).extractLsb' 16 16
  size := d.word (16 * i + 2)
  addrs j := d.word (16 * i + 3 + j)

def setDinode (d : Block) (i : ℕ) (ip : Dinode) : Block := fun j =>
  if j.val / 16 = i then ip.word (j.val % 16) else d j

variable {ip : Dinode}

theorem word_setDinode (hj : j < BWORDS) :
    (setDinode d i ip).word j = if j / 16 = i then ip.word (j % 16) else d.word j := by
  unfold Block.word setDinode
  rw [dif_pos hj, dif_pos hj]

theorem word_setDinode_same (hi : i < IPB) {k : ℕ} (hk : k < 16) :
    (setDinode d i ip).word (16 * i + k) = ip.word k := by
  have hI : IPB = 16 := rfl
  have hW : BWORDS = 256 := rfl
  rw [word_setDinode (by omega), if_pos (by omega)]
  congr 1; omega

theorem getDinode_setDinode (hi : i < IPB) : getDinode (setDinode d i ip) i = ip := by
  have hw : ∀ k < 16, (setDinode d i ip).word (16 * i + k) = ip.word k :=
    fun k hk => word_setDinode_same hi hk
  have h0 := hw 0 (by omega)
  have h1 := hw 1 (by omega)
  have h2 := hw 2 (by omega)
  rw [add_zero] at h0
  unfold getDinode
  rw [h0, h1, h2]
  have ha : ∀ k : Fin (NDIRECT + 1), (setDinode d i ip).word (16 * i + 3 + k) = ip.addrs k := by
    intro k
    have hN : NDIRECT = 12 := rfl
    have hk := k.isLt
    rw [add_assoc, hw _ (by omega), add_comm 3]; exact dif_pos hk
  simp only [ha, Dinode.word, extractLsb'_append_eq_right]
  ext1
  · rfl
  · exact extractLsb'_append_eq_left
  · rfl
  · exact extractLsb'_append_eq_left
  · rfl
  · rfl

theorem getDinode_setDinode_ne (hj : j < IPB) (hne : j ≠ i) : getDinode (setDinode d i ip) j = getDinode d j := by
  have hI : IPB = 16 := rfl
  have hW : BWORDS = 256 := rfl
  have hw : ∀ k < 16, (setDinode d i ip).word (16 * j + k) = d.word (16 * j + k) := by
    intro k hk
    rw [word_setDinode (by omega), if_neg (by omega)]
  have h0 := hw 0 (by omega)
  have h1 := hw 1 (by omega)
  have h2 := hw 2 (by omega)
  rw [add_zero] at h0
  have ha : ∀ k : Fin (NDIRECT + 1), (setDinode d i ip).word (16 * j + 3 + k) = d.word (16 * j + 3 + k) := by
    intro k
    have hN : NDIRECT = 12 := rfl
    rw [add_assoc]; exact hw _ (by omega)
  unfold getDinode; simp only [h0, h1, h2, ha]

end Xv6.Fs.Layout
