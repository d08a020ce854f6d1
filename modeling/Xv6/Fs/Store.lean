import Xv6.Fs.Files
import Xv6.Lib.Owners

/-!
# The blocks as a store

When the functions of `Xv6.Fs.Files` run one after another, the cache, the log and the disk together are
a store of blocks: `bread` gives what was last put into a block.  This module says what a program does to
the store, what the store says about blocks and inodes (`used`, `dinode`), and what the small functions
do to that: `balloc`, `bfree` and `iupdate` each change one thing.
-/

namespace Xv6.Fs.Store

open Param Lib.Programs Lib.Owners Fs.Layout Fs.Files Function List Nat
open Fs.LogOps (Block)

abbrev Blocks := Word → Block

def handle : (c : Cmd) → Blocks → c.Reply × Blocks
  | .bread b, σ => (σ b, σ)
  | .store b data, σ => ((), update σ b data)
  | .logWrite _, σ | .brelse _, σ | .enter _, σ => ((), σ)

/-- What programs do to the store; they may give any command, and do not panic. -/
abbrev seq : Meaning Cmd Cmd.Reply Panic Blocks := Meaning.of handle (fun _ => True) fun _ => False

variable {σ : Blocks} {b : Word}

theorem wp_bread {Q : Block → Blocks → Prop} : wp seq (bread b) Q σ ↔ Q (σ b) σ :=
  ⟨And.right, fun h => ⟨trivial, h⟩⟩

variable {Q : Unit → Blocks → Prop}

theorem wp_brelse : wp seq (brelse b) Q σ ↔ Q () σ :=
  ⟨And.right, fun h => ⟨trivial, h⟩⟩

theorem wp_enter {f : Fn} : wp seq (enter f) Q σ ↔ Q () σ :=
  ⟨And.right, fun h => ⟨trivial, h⟩⟩

variable {data : Block}

theorem wp_putBack : wp seq (putBack b data) Q σ ↔ Q () (update σ b data) :=
  ⟨fun h => h.2.2.2, fun h => ⟨trivial, trivial, trivial, h⟩⟩

/-! ## What the store says -/

variable (sb : Superblock)

def usedBit (σ : Blocks) (n : ℕ) : Bool := bit (σ (sb.BBLOCK n)) (n % BPB)

def used (σ : Blocks) (b : Word) : Prop := usedBit sb σ b.toNat = true

instance (σ : Blocks) (b : Word) : Decidable (used sb σ b) :=
  inferInstanceAs (Decidable (usedBit sb σ b.toNat = true))

def dinode (σ : Blocks) (n : ℕ) : Dinode := getDinode (σ (sb.IBLOCK n)) (n % IPB)

def setUsed (σ : Blocks) (b : Word) (v : Bool) : Blocks :=
  update σ (sb.BBLOCK b.toNat) (setBit (σ (sb.BBLOCK b.toNat)) (b.toNat % BPB) v)

def allocate (σ : Blocks) (b : Word) : Blocks := update (setUsed sb σ b true) b zeroBlock

def setInode (σ : Blocks) (n : ℕ) (d : Dinode) : Blocks :=
  update σ (sb.IBLOCK n) (setDinode (σ (sb.IBLOCK n)) (n % IPB) d)

variable {sb} {n : ℕ} {d : Dinode} {v : Bool} {i : ℕ}

theorem usedBit_setUsed (hn : n < sb.size) (hb : b.toNat < sb.size) :
    usedBit sb (setUsed sb σ b v) n = if n = b.toNat then v else usedBit sb σ n := by
  unfold usedBit setUsed
  by_cases he : sb.BBLOCK n = sb.BBLOCK b.toNat
  · have hdiv : n / BPB = b.toNat / BPB := by
      have h1 := Superblock.toNat_BBLOCK hn
      rw [he, Superblock.toNat_BBLOCK hb] at h1; omega
    rw [he, update_self, bit_setBit (mod_lt _ (by decide))]
    by_cases hnb : n = b.toNat
    · rw [if_pos hnb, if_pos (by rw [hnb])]
    · rw [if_neg hnb, if_neg]
      intro hmod
      refine hnb ?_
      rw [← div_add_mod n BPB, hdiv, hmod, div_add_mod]
  · rw [update_of_ne he, if_neg]; rintro rfl; exact he rfl

theorem usedBit_data (hb : sb.IsData b) (hn : n < sb.size) : usedBit sb (update σ b data) n = usedBit sb σ n := by
  unfold usedBit
  rw [update_of_ne (hb.ne_BBLOCK hn).symm]

theorem usedBit_setInode (hi : i < sb.ninodes) (hn : n < sb.size) :
    usedBit sb (setInode sb σ i d) n = usedBit sb σ n := by
  unfold usedBit setInode
  rw [update_of_ne (Superblock.IBLOCK_ne_BBLOCK hi hn).symm]

theorem usedBit_allocate (hb : sb.IsData b) (hn : n < sb.size) :
    usedBit sb (allocate sb σ b) n = if n = b.toNat then true else usedBit sb σ n := by
  unfold allocate
  rw [usedBit_data hb hn, usedBit_setUsed hn hb.2]

theorem dinode_setUsed (hb : b.toNat < sb.size) (hn : n < sb.ninodes) :
    dinode sb (setUsed sb σ b v) n = dinode sb σ n := by
  unfold dinode setUsed
  rw [update_of_ne (Superblock.IBLOCK_ne_BBLOCK hn hb)]

theorem dinode_data (hb : sb.IsData b) (hn : n < sb.ninodes) : dinode sb (update σ b data) n = dinode sb σ n := by
  unfold dinode
  rw [update_of_ne (hb.ne_IBLOCK hn).symm]

theorem dinode_allocate (hb : sb.IsData b) (hn : n < sb.ninodes) :
    dinode sb (allocate sb σ b) n = dinode sb σ n := by
  unfold allocate
  rw [dinode_data hb hn, dinode_setUsed hb.2 hn]

theorem dinode_setInode (hi : i < sb.ninodes) (hn : n < sb.ninodes) :
    dinode sb (setInode sb σ i d) n = if n = i then d else dinode sb σ n := by
  unfold dinode setInode
  by_cases he : sb.IBLOCK n = sb.IBLOCK i
  · have hdiv : n / IPB = i / IPB := by
      have h1 := Superblock.toNat_IBLOCK hn
      rw [he, Superblock.toNat_IBLOCK hi] at h1; omega
    rw [he, update_self]
    by_cases hni : n = i
    · rw [if_pos hni, hni, getDinode_setDinode (mod_lt _ (by decide))]
    · rw [if_neg hni, getDinode_setDinode_ne (mod_lt _ (by decide))]
      intro hmod
      refine hni ?_
      rw [← div_add_mod n IPB, hdiv, hmod, div_add_mod]
  · rw [update_of_ne he, if_neg]; rintro rfl; exact he rfl

variable {c : Word}

theorem setUsed_data (hb : b.toNat < sb.size) (hc : sb.IsData c) : setUsed sb σ b v c = σ c :=
  update_of_ne (hc.ne_BBLOCK hb) _ _

theorem setInode_data (hn : n < sb.ninodes) (hc : sb.IsData c) : setInode sb σ n d c = σ c :=
  update_of_ne (hc.ne_IBLOCK hn) _ _

theorem allocate_self : allocate sb σ b b = zeroBlock := update_self _ _ _

theorem allocate_data (hb : sb.IsData b) (hc : sb.IsData c) (hne : c ≠ b) : allocate sb σ b c = σ c := by
  unfold allocate
  rw [update_of_ne hne, setUsed_data hb.2 hc]

def MetaUsed (sb : Superblock) (σ : Blocks) : Prop :=
  ∀ n < sb.size - sb.nblocks, usedBit sb σ n = true

theorem freeBit_some {m bi : ℕ} (h : freeBit sb (σ (sb.BBLOCK m)) m = some bi) :
    bi < BPB ∧ m + bi < sb.size ∧ bit (σ (sb.BBLOCK m)) bi = false := by
  have hmem := mem_range.mp (mem_of_find?_eq_some h)
  have hbit := List.find?_some h
  refine ⟨by omega, by omega, ?_⟩
  simpa using hbit

theorem mem_bitmapStarts {m : ℕ} (h : m ∈ bitmapStarts sb) : m % BPB = 0 := by
  obtain ⟨k, -, rfl⟩ := mem_map.mp h; exact mul_mod_left k BPB

theorem wp_ballocLoop (hmeta : MetaUsed sb σ) {Q : Word → Blocks → Prop} (hfull : Q 0 σ)
    (hgot : ∀ b, sb.IsData b → ¬ used sb σ b → Q b (allocate sb σ b)) {bs : List ℕ}
    (hbs : ∀ m ∈ bs, m % BPB = 0) : wp seq (ballocLoop sb bs) Q σ := by
  induction bs with
  | nil => exact hfull
  | cons m bs ih =>
    refine .bind (wp_bread.mpr ?_)
    cases hf : freeBit sb (σ (sb.BBLOCK m)) m with
    | none =>
      refine .bind (wp_brelse.mpr (ih fun k hk => hbs k (mem_cons_of_mem _ hk)))
    | some bi =>
      obtain ⟨hbi, hlt, hbit⟩ := freeBit_some hf
      have hm : m % BPB = 0 := hbs m mem_cons_self
      have hdiv : (m + bi) / BPB = m / BPB := by
        rw [← Nat.div_add_mod m BPB, hm, Nat.add_zero, Nat.mul_add_div (by decide),
          Nat.div_eq_of_lt hbi, Nat.add_zero, Nat.mul_div_cancel_left _ (by decide)]
      have hmod : (m + bi) % BPB = bi := by
        rw [Nat.add_mod, hm, Nat.zero_add, Nat.mod_mod, Nat.mod_eq_of_lt hbi]
      have hblock : sb.BBLOCK m = sb.BBLOCK (m + bi) := by unfold Superblock.BBLOCK; rw [hdiv]
      have htoNat : (BitVec.ofNat 32 (m + bi)).toNat = m + bi := by
        have := sb.size_le
        rw [BitVec.toNat_ofNat, Nat.mod_eq_of_lt (by omega)]
      -- the bits of the blocks before the data are set, so this one is a data block
      have hnot : usedBit sb σ (m + bi) = false := by
        unfold usedBit
        rw [hmod, ← hblock]; exact hbit
      have hdata : sb.IsData (BitVec.ofNat 32 (m + bi)) := by
        unfold Superblock.IsData
        rw [htoNat]
        refine ⟨?_, hlt⟩
        by_contra hlow
        rw [hmeta (m + bi) (by omega)] at hnot; cases hnot
      have hres := hgot _ hdata (by unfold used; rw [htoNat, hnot]; exact Bool.false_ne_true)
      unfold allocate setUsed at hres
      rw [htoNat, hmod, ← hblock] at hres
      refine .bind (wp_putBack.mpr (.bind (.bind (wp_bread.mpr ?_))))
      exact wp_putBack.mpr hres

theorem wp_balloc (hmeta : MetaUsed sb σ) {Q : Word → Blocks → Prop} (hfull : Q 0 σ)
    (hgot : ∀ b, sb.IsData b → ¬ used sb σ b → Q b (allocate sb σ b)) : wp seq (balloc sb) Q σ :=
  .bind (wp_enter.mpr (wp_ballocLoop hmeta hfull hgot fun _ => mem_bitmapStarts))

theorem wp_bfree (hu : used sb σ b) (hQ : Q () (setUsed sb σ b false)) : wp seq (bfree sb b) Q σ := by
  refine .bind (wp_enter.mpr (.bind (wp_bread.mpr ?_)))
  have hbit : bit (σ (sb.BBLOCK b.toNat)) (b.toNat % BPB) = true := hu
  rw [if_pos hbit]; exact wp_putBack.mpr hQ

theorem wp_iupdate {ip : Inode} (hQ : Q () (setInode sb σ ip.inum ip.toDinode)) : wp seq (iupdate sb ip) Q σ :=
  .bind (wp_bread.mpr (wp_putBack.mpr hQ))

theorem wp_ilockRead {Q : Inode → Blocks → Prop} (hQ : (dinode sb σ n).type ≠ 0 → Q ⟨dinode sb σ n, n⟩ σ) :
    wp (Meaning.of handle (fun _ => True) (· = .ilockNoType)) (ilockRead sb n) Q σ := by
  refine .bind ⟨trivial, .bind ⟨trivial, ?_⟩⟩
  split_ifs with h0
  · exact rfl
  · exact hQ h0

end Xv6.Fs.Store
