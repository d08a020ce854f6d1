import Xv6.Mkfs.Defs

/-!
# Appending to the files of the image

While `mkfs` builds the image, the blocks up to `freeblock` are those that `balloc` is going to mark at the
end.  With the bitmap it will write (`marked`), the image satisfies what the kernel keeps
(`Xv6.Fs.Ownership.Image`).  `Work` says this together with what the blocks of each file hold, where one inode is
in memory; `Rest` says it between the calls of `ialloc` and `iappend`.
-/

namespace Xv6.Mkfs.Append

open Param Vm.Copy Lib.Stateful Fs.Layout Fs.Files Fs.Store Fs.Ownership List Function
open Mkfs.Defs
open Fs.Names (ROOTINO)
open Fs.LogOps (Block BWORDS)

theorem byte_zeroBlock {i : ℕ} : byte zeroBlock i = 0 := by
  unfold byte
  rw [word_zeroBlock]; exact BitVec.extractLsb'_zero

/-! ## The image with its bitmap -/

def put (s : State) (b : Word) (buf : Block) : State := { s with img := update s.img b buf }

/-- The image with the bitmap that `balloc` is going to write. -/
def marked (s : State) : Blocks := update s.img (mkfsSb.BBLOCK 0) (firstBits s.freeblock)

variable {s s' : State} {ip ip' : Inode} {b : Word} {n m : ℕ} {i : Bool} {σ σ' : Blocks} {d d' : Dinode}
  {c : List Byte} {C : ℕ → List Byte} {buf : Block}

theorem bit_firstBits (hn : n ≤ BPB) : bit (firstBits n) m = decide (m < n) := by
  induction n with
  | zero => unfold firstBits bit; simp
  | succ n ih =>
    unfold firstBits
    rw [bit_setBit (by omega), ih (by omega)]
    by_cases hm : m = n
    · simp [hm]
    · rw [if_neg hm, decide_eq_decide]; omega

theorem BBLOCK_eq (hn : n < mkfsSb.size) : mkfsSb.BBLOCK n = mkfsSb.BBLOCK 0 := by
  have hs : mkfsSb.size = 2000 := rfl
  have hB : BPB = 8192 := rfl
  unfold Superblock.BBLOCK
  rw [Nat.div_eq_of_lt (by omega), Nat.zero_div]

theorem usedBit_marked (hn : n < mkfsSb.size) (hf : s.freeblock ≤ mkfsSb.size) :
    usedBit mkfsSb (marked s) n = decide (n < s.freeblock) := by
  have hs : mkfsSb.size = 2000 := rfl
  have hB : BPB = 8192 := rfl
  unfold usedBit marked
  rw [BBLOCK_eq hn, update_self, bit_firstBits (by omega), Nat.mod_eq_of_lt (by omega)]

theorem marked_data (hb : mkfsSb.IsData b) : marked s b = s.img b :=
  update_of_ne (hb.ne_BBLOCK (by decide)) _ _

theorem marked_IBLOCK (hn : n < mkfsSb.ninodes) : marked s (mkfsSb.IBLOCK n) = s.img (mkfsSb.IBLOCK n) :=
  update_of_ne (Superblock.IBLOCK_ne_BBLOCK hn (by decide)) _ _

theorem marked_wsect (hb : b ≠ mkfsSb.BBLOCK 0) (buf : Block) : marked (put s b buf) = update (marked s) b buf :=
  update_comm hb _ _ _

theorem marked_winode (hn : n < mkfsSb.ninodes) :
    marked (put s (mkfsSb.IBLOCK n) (setDinode (s.img (mkfsSb.IBLOCK n)) (n % IPB) d)) =
      setInode mkfsSb (marked s) n d := by
  rw [marked_wsect (Superblock.IBLOCK_ne_BBLOCK hn (by decide))]
  unfold setInode
  rw [marked_IBLOCK hn]

def next (s : State) : Word := BitVec.ofNat 32 s.freeblock

theorem marked_take (hd : mkfsSb.IsData (next s)) (hn : (next s).toNat = s.freeblock)
    (h0 : s.img (next s) = zeroBlock) :
    marked { s with freeblock := s.freeblock + 1 } = allocate mkfsSb (marked s) (next s) := by
  have hs : mkfsSb.size = 2000 := rfl
  have hB : BPB = 8192 := rfl
  have hlt : s.freeblock < mkfsSb.size := hn ▸ hd.2
  have hset : marked { s with freeblock := s.freeblock + 1 } = setUsed mkfsSb (marked s) (next s) true := by
    unfold setUsed marked
    rw [hn, BBLOCK_eq hlt, update_idem, Nat.mod_eq_of_lt (by omega)]; rfl
  unfold allocate
  rw [← hset]
  refine (update_eq_self_iff.mpr ?_).symm
  rw [marked_data hd]; exact h0.symm

def nblk (size : ℕ) : ℕ := (size + BSIZE - 1) / BSIZE

/-- The first `m` blocks of the file, and the indirect block if `i`, have addresses, and the blocks hold `c`
with zeros after it. -/
structure Holds (σ : Blocks) (d : Dinode) (m : ℕ) (i : Bool) (c : List Byte) : Prop where
  addr : ∀ k (hk : k < MAXFILE), (fileSlot k hk).get σ d ≠ 0 ↔ k < m
  ind : indirect.get σ d ≠ 0 ↔ i = true
  le_max : m ≤ MAXFILE
  length_le : c.length ≤ m * BSIZE
  bytes : ∀ k (hk : k < MAXFILE), k < m → ∀ j < BSIZE,
    byte (σ ((fileSlot k hk).get σ d)) j = c.getD (k * BSIZE + j) 0

abbrev Full (σ : Blocks) (d : Dinode) (c : List Byte) : Prop :=
  Holds σ d (nblk c.length) (decide (NDIRECT < nblk c.length)) c

structure Stored (σ : Blocks) (d : Dinode) (c : List Byte) : Prop where
  size : d.size.toNat = c.length
  full : Full σ d c

theorem Holds.congr (h : Holds σ d m i c) (ha : d'.addrs = d.addrs)
    (hσ : ∀ x : Slot, x.get σ d ≠ 0 → σ' (x.get σ d) = σ (x.get σ d)) : Holds σ' d' m i c := by
  have hget : ∀ x : Slot, x.get σ' d' = x.get σ d := get_congr ha (hσ indirect)
  refine ⟨fun k hk => ?_, ?_, h.le_max, h.length_le, fun k hk hm j hj => ?_⟩
  · rw [hget]; exact h.addr k hk
  · rw [hget]; exact h.ind
  · rw [hget, hσ _ ((h.addr k hk).mpr hm)]; exact h.bytes k hk hm j hj

def kind (freeinode n : ℕ) : BitVec 16 :=
  if 0 < n ∧ n < freeinode then (if n = ROOTINO then T_DIR else T_FILE) else 0

structure Base (s : State) : Prop where
  fresh : ∀ b, mkfsSb.IsData b → s.freeblock ≤ b.toNat → s.img b = zeroBlock
  low : nmeta ≤ s.freeblock
  high : s.freeblock ≤ FSSIZE
  inodes : s.freeinode ≤ NINODES
  kinds : ∀ n < mkfsSb.ninodes, (dinode mkfsSb (marked s) n).type = kind s.freeinode n

structure Work (s : State) (ip : Inode) (m : ℕ) (i : Bool) (C : ℕ → List Byte) : Prop extends Base s where
  hold : Holding mkfsSb (marked s) ip
  mine : Holds (marked s) ip.toDinode m i (C ip.inum)
  others : ∀ n, n ≠ ip.inum → 0 < n → n < s.freeinode → Stored (marked s) (dinode mkfsSb (marked s) n) (C n)

abbrev Sized (s : State) (ip : Inode) (size : ℕ) (C : ℕ → List Byte) : Prop :=
  Work s ip (nblk size) (decide (NDIRECT < nblk size)) C

structure Rest (s : State) (C : ℕ → List Byte) : Prop extends Base s where
  image : Image mkfsSb (marked s) (dinode mkfsSb (marked s))
  files : ∀ n, 0 < n → n < s.freeinode → Stored (marked s) (dinode mkfsSb (marked s) n) (C n)

theorem kind_ne_zero (h0 : 0 < n) (hn : n < m) : kind m n ≠ 0 := by
  unfold kind
  rw [if_pos ⟨h0, hn⟩]
  split_ifs <;> decide

theorem Base.allocated (h : Base s) (h0 : 0 < n) (hn : n < s.freeinode) :
    n < mkfsSb.ninodes ∧ (dinode mkfsSb (marked s) n).type ≠ 0 := by
  have hlt : n < mkfsSb.ninodes := lt_of_lt_of_le hn h.inodes
  rw [h.kinds n hlt]; exact ⟨hlt, kind_ne_zero h0 hn⟩

theorem Base.next (h : Base s) (hlt : s.freeblock < FSSIZE) : (next s).toNat = s.freeblock ∧
    mkfsSb.IsData (next s) ∧ ¬ used mkfsSb (marked s) (next s) ∧ s.img (next s) = zeroBlock := by
  have hF : FSSIZE = 2000 := rfl
  have hs : mkfsSb.size = 2000 := rfl
  have hM : nmeta = 46 := rfl
  have hb : mkfsSb.nblocks = 1954 := rfl
  have hlow := h.low
  have hn : (Append.next s).toNat = s.freeblock := by
    unfold Append.next
    rw [BitVec.toNat_ofNat, Nat.mod_eq_of_lt (by omega)]
  have hd : mkfsSb.IsData (Append.next s) := ⟨by omega, by omega⟩
  refine ⟨hn, hd, ?_, h.fresh _ hd hn.ge⟩
  unfold used
  rw [usedBit_marked hd.2 h.high, hn]; simp

theorem Work.others_kept (h : Work s ip m i C) (y : Slot)
    (hdin : ∀ n < mkfsSb.ninodes, dinode mkfsSb (marked s') n = dinode mkfsSb (marked s) n)
    (hdata : ∀ b, mkfsSb.IsData b → b ≠ y.get (marked s) ip.toDinode → marked s' b = marked s b)
    (hn : n ≠ ip.inum) (h0 : 0 < n) (hlt : n < s.freeinode) :
    Stored (marked s') (dinode mkfsSb (marked s') n) (C n) := by
  obtain ⟨hni, ht⟩ := h.allocated h0 hlt
  obtain ⟨hsize, hfull⟩ := h.others n hn h0 hlt
  rw [hdin n hni]
  refine ⟨hsize, hfull.congr rfl fun x hx => ?_⟩
  rw [← addrOf_of_allocated hni ht] at hx ⊢
  exact hdata _ (h.hold.other_data hn hx) (h.hold.other_ne hn hx)

theorem Base.step (h : Base s) (hfi : s'.freeinode = s.freeinode) (hfb : s.freeblock ≤ s'.freeblock)
    (hhigh : s'.freeblock ≤ FSSIZE)
    (hdin : ∀ n < mkfsSb.ninodes, dinode mkfsSb (marked s') n = dinode mkfsSb (marked s) n)
    (hfresh : ∀ b, mkfsSb.IsData b → s'.freeblock ≤ b.toNat → s'.img b = s.img b) : Base s' := by
  refine ⟨fun b hb hle => ?_, h.low.trans hfb, hhigh, hfi ▸ h.inodes, fun n hn => ?_⟩
  · rw [hfresh b hb hle]; exact h.fresh b hb (hfb.trans hle)
  · rw [hdin n hn, hfi]; exact h.kinds n hn

/-! ## Taking the next block -/

structure Takes (s : State) (ip : Inode) (y : Slot) (s' : State) (ip' : Inode) : Prop where
  lt : s.freeblock < FSSIZE
  freeinode : s'.freeinode = s.freeinode
  freeblock : s'.freeblock = s.freeblock + 1
  hold : Holding mkfsSb (marked s') ip'
  same : ip' = { ip with addrs := ip'.addrs }
  dinode : ∀ n < mkfsSb.ninodes, dinode mkfsSb (marked s') n = dinode mkfsSb (marked s) n
  data : ∀ b, mkfsSb.IsData b → b ≠ indirect.get (marked s) ip.toDinode → marked s' b = marked s b
  self : y.get (marked s') ip'.toDinode = next s
  ne : ∀ x, x ≠ y → x.get (marked s') ip'.toDinode = x.get (marked s) ip.toDinode

theorem Takes.inum {y : Slot} (ht : Takes s ip y s' ip') : ip'.inum = ip.inum := by
  rw [ht.same]

section
variable (h : Work s ip m i C)
include h

theorem Work.slot_ne_fresh {x : Slot} (hb : mkfsSb.IsData b) (hle : s.freeblock ≤ b.toNat) :
    b ≠ x.get (marked s) ip.toDinode := by
  intro heq
  obtain ⟨-, hu⟩ := h.hold.get_ne_zero (by rw [← heq]; exact hb.ne_zero)
  unfold used at hu
  rw [← heq, usedBit_marked hb.2 h.high, decide_eq_true_iff] at hu; omega

theorem Work.takeAddr (hlt : s.freeblock < FSSIZE) {j : Fin (NDIRECT + 1)} (h0 : ip.addrs j = 0) :
    Takes s ip (.addr j) { s with freeblock := s.freeblock + 1 } (ip.setAddr j (next s)) := by
  obtain ⟨hn, hd, hu, hz⟩ := h.next hlt
  have hmark := marked_take hd hn hz
  obtain ⟨hh, hg, hne⟩ := h.hold.setAddr hd hu h0
  rw [← hmark] at hh hg hne
  refine ⟨hlt, rfl, rfl, hh, rfl, hg.dinode, fun b hb _ => ?_, setAddr_self, hne⟩
  by_cases hbn : b = next s
  · rw [marked_data hb, marked_data hb]
  · rw [hmark, allocate_data hd hb hbn]

theorem Work.takeEntry (hlt : s.freeblock < FSSIZE) (hind : indirect.get (marked s) ip.toDinode ≠ 0)
    {j : Fin NINDIRECT} (h0 : (s.img (indirect.get (marked s) ip.toDinode)).word j = 0) :
    Takes s ip (.entry j) (put { s with freeblock := s.freeblock + 1 } (indirect.get (marked s) ip.toDinode)
      ((s.img (indirect.get (marked s) ip.toDinode)).setWord j (next s))) ip := by
  obtain ⟨hn, hd, hu, hz⟩ := h.next hlt
  have hmark := marked_take hd hn hz
  obtain ⟨hid, -⟩ := h.hold.get_ne_zero hind
  rw [← marked_data hid] at h0 ⊢
  obtain ⟨hh, hg, he, hne⟩ := h.hold.setEntry hd hu hind h0 rfl
  rw [← hmark, ← marked_wsect (hid.ne_BBLOCK (by decide))] at hh hg he hne
  refine ⟨hlt, rfl, rfl, hh, rfl, hg.dinode, fun b hb hbi => ?_, he, hne⟩
  rw [marked_data hb, marked_data hb]; exact update_of_ne hbi _ _

variable {y : Slot} (ht : Takes s ip y s' ip')
include ht

theorem Work.base_of_takes : Base s' := by
  have hfb := ht.freeblock
  have hlt := ht.lt
  refine h.toBase.step ht.freeinode (by omega) (by omega) ht.dinode fun b hb hle => ?_
  rw [← marked_data hb, ← marked_data hb]
  exact ht.data b hb (h.slot_ne_fresh hb (by omega))

theorem Work.others_of_takes (hn : n ≠ ip'.inum) (h0 : 0 < n) (hlt : n < s'.freeinode) :
    Stored (marked s') (dinode mkfsSb (marked s') n) (C n) := by
  rw [ht.inum] at hn
  rw [ht.freeinode] at hlt
  exact h.others_kept indirect ht.dinode ht.data hn h0 hlt

theorem Work.bytes_of_takes {k : ℕ} (hk : k < MAXFILE) (hm : k < m) (hne : fileSlot k hk ≠ y) {j : ℕ}
    (hj : j < BSIZE) : byte (marked s' ((fileSlot k hk).get (marked s') ip'.toDinode)) j =
      (C ip'.inum).getD (k * BSIZE + j) 0 := by
  have h0 := (h.mine.addr k hk).mpr hm
  rw [ht.ne _ hne, ht.inum, ht.data _ (h.hold.get_ne_zero h0).1 (h.hold.slot_ne h0 (fileSlot_ne_indirect hk))]
  exact h.mine.bytes k hk hm j hj

end

theorem Work.fillBlock (h : Work s ip m i C) {hm : m < MAXFILE} (ht : Takes s ip (fileSlot m hm) s' ip') :
    Work s' ip' (m + 1) i C := by
  obtain ⟨hn, hd, -, hz⟩ := h.next ht.lt
  refine ⟨h.base_of_takes ht, ht.hold, ⟨fun k hk => ?_, ?_, hm, ?_, fun k hk hkm j hj => ?_⟩,
    fun n hn h0 hlt => h.others_of_takes ht hn h0 hlt⟩
  · by_cases hkm : k = m
    · subst hkm
      rw [ht.self]; exact ⟨fun _ => Nat.lt_succ_self _, fun _ => hd.ne_zero⟩
    · rw [ht.ne _ (fun he => hkm (fileSlot_inj he)), h.mine.addr k hk]
      omega
  · rw [ht.ne _ (fileSlot_ne_indirect hm).symm]; exact h.mine.ind
  · have hle := h.mine.length_le; rw [ht.inum, Nat.succ_mul]; omega
  · by_cases hkm' : k = m
    · subst hkm'
      have hle := h.mine.length_le
      rw [ht.self, ht.data _ hd (h.slot_ne_fresh hd hn.ge), marked_data hd, hz, byte_zeroBlock, ht.inum,
        getD_eq_default _ _ (by omega)]
    · exact h.bytes_of_takes ht hk (by omega) (fun he => hkm' (fileSlot_inj he)) hj

theorem Work.fillIndirect (h : Work s ip m false C) (ht : Takes s ip indirect s' ip') : Work s' ip' m true C := by
  obtain ⟨-, hd, -, -⟩ := h.next ht.lt
  refine ⟨h.base_of_takes ht, ht.hold, ⟨fun k hk => ?_, ?_, h.mine.le_max, ?_, fun k hk hkm j hj => ?_⟩,
    fun n hn h0 hlt => h.others_of_takes ht hn h0 hlt⟩
  · rw [ht.ne _ (fileSlot_ne_indirect hk)]; exact h.mine.addr k hk
  · rw [ht.self]; exact ⟨fun _ => rfl, fun _ => hd.ne_zero⟩
  · rw [ht.inum]; exact h.mine.length_le
  · exact h.bytes_of_takes ht hk hkm (fileSlot_ne_indirect hk) hj

variable {bs : List Byte}

theorem getD_append_block {k j : ℕ}
    (hlen : c.length + bs.length ≤ (c.length / BSIZE + 1) * BSIZE) (hk : k ≠ c.length / BSIZE) (hj : j < BSIZE) :
    (c ++ bs).getD (k * BSIZE + j) 0 = c.getD (k * BSIZE + j) 0 := by
  have hB : BSIZE = 1024 := rfl
  rw [hB] at hlen hk hj ⊢
  by_cases hlt : k * 1024 + j < c.length
  · rw [getD_append _ _ _ _ hlt]
  · rw [getD_eq_default _ _ (by rw [length_append]; omega), getD_eq_default _ _ (by omega)]

theorem getD_append_last {j : ℕ} (hj : j < BSIZE) (hbuf : byte buf j = c.getD (c.length / BSIZE * BSIZE + j) 0) :
    byte (setBytes buf (c.length - c.length / BSIZE * BSIZE) bs) j =
      (c ++ bs).getD (c.length / BSIZE * BSIZE + j) 0 := by
  have hB : BSIZE = 1024 := rfl
  rw [byte_setBytes hj]
  rw [hB] at hj hbuf ⊢
  split_ifs with hle
  · rw [getD_append_right _ _ _ _ (by omega), hbuf, getD_eq_default c _ (by omega)]
    congr 1; omega
  · rw [getD_append _ _ _ _ (by omega), hbuf]

theorem Work.append (h : Work s ip m i C) {off : ℕ} (hoff : off = (C ip.inum).length)
    (hm : m = off / BSIZE + 1) (hbn : off / BSIZE < MAXFILE) (hlen : off + bs.length ≤ m * BSIZE)
    {x : Word} (hx : (fileSlot (off / BSIZE) hbn).get (marked s) ip.toDinode = x) :
    Work (put s x (setBytes (s.img x) (off - off / BSIZE * BSIZE) bs)) ip m i
      (update C ip.inum (C ip.inum ++ bs)) := by
  subst hx hoff
  have h0 := (h.mine.addr _ hbn).mpr (by omega)
  obtain ⟨hd, -⟩ := h.hold.get_ne_zero h0
  generalize hbuf : setBytes (s.img _) _ bs = buf
  have hmark := marked_wsect (s := s) (hd.ne_BBLOCK (by decide)) buf
  obtain ⟨hh, hg⟩ := h.hold.write hbn h0 _ hmark
  have hdata := fun b hb => (congrFun hmark b).trans (update_of_ne hb _ _)
  have hget : ∀ y : Slot, y.get _ ip.toDinode = y.get (marked s) ip.toDinode :=
    get_congr rfl fun hi => hdata _ (h.hold.slot_ne hi (fileSlot_ne_indirect hbn).symm)
  refine ⟨h.toBase.step rfl le_rfl h.high hg.dinode fun b hb hle => ?_, hh,
    ⟨fun k hk => ?_, ?_, h.mine.le_max, ?_, fun k hk hkm j hj => ?_⟩, fun n hn hp hlt => ?_⟩
  · rw [← marked_data hb, ← marked_data hb]
    exact hdata b (h.slot_ne_fresh hb hle)
  · rw [hget]; exact h.mine.addr k hk
  · exact h.mine.ind
  · rw [update_self, length_append]; exact hlen
  · rw [update_self, hget]
    have hb := h.mine.bytes k hk hkm j hj
    by_cases hkf : k = (C ip.inum).length / BSIZE
    · subst hkf
      rw [hmark, update_self, ← hbuf]
      rw [marked_data hd] at hb; exact getD_append_last hj hb
    · rw [hdata _ (h.hold.slot_ne ((h.mine.addr k hk).mpr hkm) fun he => hkf (fileSlot_inj he)), hb]
      rw [hm] at hlen; exact (getD_append_block hlen hkf hj).symm
  · rw [update_of_ne hn]
    exact h.others_kept _ hg.dinode (fun b _ hb => hdata b hb) hn hp hlt

/-! ## `iappend` -/

variable {E : Failure → Prop} {din : Dinode} {inum fbn off : ℕ}

theorem wp_rsect {sec : Word} (h : sec.toNat < FSSIZE) {Q : Block → State → Prop} (hQ : Q (s.img sec) s) :
    wp E (rsect sec) Q s := by
  unfold rsect
  rw [wp_bind, wp_get, if_pos h]; exact hQ

variable {Q : Unit → State → Prop} {p : List Byte}

theorem wp_assert {p : Prop} [Decidable p] (h : p) (hQ : Q () s) : wp E (Defs.assert p) Q s := by
  unfold Defs.assert
  rw [if_pos h]; exact hQ

theorem fileSlot_direct (h : fbn < MAXFILE) (hd : fbn < NDIRECT) :
    fileSlot fbn h = .addr ⟨fbn, Nat.lt_succ_of_lt hd⟩ := dif_pos hd

theorem fileSlot_entry (h : fbn < MAXFILE) (hd : ¬ fbn < NDIRECT) :
    fileSlot fbn h = .entry ⟨fbn - NDIRECT, sub_lt_of_maxfile h hd⟩ := dif_neg hd

theorem isData_lt (hb : mkfsSb.IsData b) : b.toNat < FSSIZE := hb.2

theorem wp_fillAddr (h : Work s ⟨din, inum⟩ m i C) (hd : fbn < NDIRECT) (hm : m = fbn ∨ m = fbn + 1)
    (hroom : s.freeblock + (fbn + 1 - m) ≤ FSSIZE) {Q : Dinode → State → Prop}
    (hQ : ∀ din' s', Work s' ⟨din', inum⟩ (fbn + 1) i C → din' = { din with addrs := din'.addrs } →
      s'.freeinode = s.freeinode → s'.freeblock = s.freeblock + (fbn + 1 - m) → Q din' s') :
    wp E (fillAddr din ⟨fbn, Nat.lt_succ_of_lt hd⟩) Q s := by
  have hN : NDIRECT = 12 := rfl
  have hM : MAXFILE = 268 := rfl
  have hbn : fbn < MAXFILE := by omega
  have haddr := h.mine.addr fbn hbn
  rw [fileSlot_direct hbn hd] at haddr
  unfold fillAddr
  by_cases h0 : din.addrs ⟨fbn, Nat.lt_succ_of_lt hd⟩ = 0
  · rw [if_pos h0]
    have hlt : ¬ fbn < m := fun hlt => haddr.mpr hlt h0
    obtain rfl : m = fbn := by omega
    have ht := h.takeAddr (by omega) h0
    rw [← fileSlot_direct hbn hd] at ht
    exact hQ _ _ (h.fillBlock ht) rfl rfl (by show _ = _ + (m + 1 - m); rw [Nat.add_sub_cancel_left])
  · rw [if_neg h0]
    have hlt := haddr.mp h0
    obtain rfl : m = fbn + 1 := by omega
    exact hQ _ _ h rfl rfl (by omega)

theorem wp_fillIndirect (h : Work s ⟨din, inum⟩ m i C) (hroom : s.freeblock + (1 - i.toNat) ≤ FSSIZE)
    {Q : Dinode → State → Prop}
    (hQ : ∀ din' s', Work s' ⟨din', inum⟩ m true C → din' = { din with addrs := din'.addrs } →
      s'.freeinode = s.freeinode → s'.freeblock = s.freeblock + (1 - i.toNat) → Q din' s') :
    wp E (fillAddr din (Fin.last NDIRECT)) Q s := by
  have hind : indirect.get (marked s) din ≠ 0 ↔ i = true := h.mine.ind
  unfold fillAddr
  by_cases h0 : din.addrs (Fin.last NDIRECT) = 0
  · rw [if_pos h0]
    obtain rfl : i = false := by
      rw [← Bool.not_eq_true, ← hind]; exact fun hne => hne h0
    have ht := h.takeAddr hroom h0; exact hQ _ _ (h.fillIndirect ht) rfl rfl rfl
  · rw [if_neg h0]
    obtain rfl : i = true := hind.mp h0; exact hQ _ _ h rfl rfl rfl

theorem wp_fillEntry (h : Work s ⟨din, inum⟩ m true C) (hbn : fbn < MAXFILE) (hd : ¬ fbn < NDIRECT)
    (hm : m = fbn ∨ m = fbn + 1) (hroom : s.freeblock + (fbn + 1 - m) ≤ FSSIZE) {Q : Word → State → Prop}
    (hQ : ∀ x s', Work s' ⟨din, inum⟩ (fbn + 1) true C → (fileSlot fbn hbn).get (marked s') din = x →
      s'.freeinode = s.freeinode → s'.freeblock = s.freeblock + (fbn + 1 - m) → Q x s') :
    wp E (fillEntry (din.addrs (Fin.last NDIRECT)) (fbn - NDIRECT)) Q s := by
  have hind : indirect.get (marked s) din ≠ 0 := h.mine.ind.mpr rfl
  have hdata : mkfsSb.IsData (din.addrs (Fin.last NDIRECT)) := (h.hold.get_ne_zero hind).1
  have hslot := fileSlot_entry hbn hd
  have hget : (fileSlot fbn hbn).get (marked s) din =
      (s.img (din.addrs (Fin.last NDIRECT))).word (fbn - NDIRECT) := by
    rw [hslot, get_entry hind, ← marked_data hdata]; rfl
  have haddr : (fileSlot fbn hbn).get (marked s) din ≠ 0 ↔ fbn < m := h.mine.addr fbn hbn
  refine .bind (wp_rsect (isData_lt hdata) ?_)
  by_cases h0 : (s.img (din.addrs (Fin.last NDIRECT))).word (fbn - NDIRECT) = 0
  · rw [if_pos h0]
    have hlt : ¬ fbn < m := fun hlt => haddr.mpr hlt (hget.trans h0)
    obtain rfl : m = fbn := by omega
    have ht := h.takeEntry (by omega) hind (j := ⟨m - NDIRECT, sub_lt_of_maxfile hbn hd⟩) h0
    rw [← hslot] at ht
    exact hQ _ _ (h.fillBlock ht) ht.self rfl (by show _ = _ + (m + 1 - m); rw [Nat.add_sub_cancel_left])
  · rw [if_neg h0]
    rw [hget] at haddr
    have hlt := haddr.mp h0
    obtain rfl : m = fbn + 1 := by omega
    exact hQ _ _ h hget rfl (by omega)

def withIndirect (m : ℕ) : ℕ := m + (decide (NDIRECT < m)).toNat

theorem wp_findBlock (h : Work s ⟨din, inum⟩ m (decide (NDIRECT < m)) C) (hbn : fbn < MAXFILE)
    (hm : m = fbn ∨ m = fbn + 1) (hroom : s.freeblock + (withIndirect (fbn + 1) - withIndirect m) ≤ FSSIZE)
    {Q : Word × Dinode → State → Prop}
    (hQ : ∀ x din' s', Work s' ⟨din', inum⟩ (fbn + 1) (decide (NDIRECT < fbn + 1)) C →
      (fileSlot fbn hbn).get (marked s') din' = x → din' = { din with addrs := din'.addrs } →
      s'.freeinode = s.freeinode →
      s'.freeblock = s.freeblock + (withIndirect (fbn + 1) - withIndirect m) → Q (x, din') s') :
    wp E (findBlock din fbn) Q s := by
  unfold findBlock
  unfold withIndirect at hroom hQ
  by_cases hd : fbn < NDIRECT
  · have hf : decide (NDIRECT < fbn + 1) = false := decide_eq_false (by omega)
    have hfm : decide (NDIRECT < m) = false := decide_eq_false (by omega)
    rw [hf] at hQ hroom
    rw [hfm] at h hQ hroom
    rw [dif_pos hd]
    refine .bind (wp_fillAddr h hd hm hroom fun din' s' hw hsame hfi hfb => ?_)
    refine hQ _ _ _ hw ?_ hsame hfi hfb
    rw [fileSlot_direct hbn hd]; rfl
  · have ht : decide (NDIRECT < fbn + 1) = true := decide_eq_true (by omega)
    rw [ht] at hQ hroom
    simp only [Bool.toNat_true] at hQ hroom
    have hi : (decide (NDIRECT < m)).toNat ≤ 1 := Bool.toNat_le _
    rw [dif_neg hd]
    refine .bind (wp_fillIndirect h (by omega) fun din1 s1 h1 hsame1 hfi1 hfb1 => ?_)
    refine .bind (wp_fillEntry h1 hbn hd hm (by omega) fun x s2 h2 hx hfi2 hfb2 => ?_)
    exact hQ x din1 s2 h2 hx hsame1 (hfi2.trans hfi1) (by omega)

def blocksOf (size : ℕ) : ℕ := withIndirect (nblk size)

theorem blocksOf_mono {a b : ℕ} (h : a ≤ b) : blocksOf a ≤ blocksOf b := by
  have hk : nblk a ≤ nblk b := Nat.div_le_div_right (by omega)
  unfold blocksOf withIndirect
  by_cases ha : NDIRECT < nblk a
  · rw [decide_eq_true ha, decide_eq_true (lt_of_lt_of_le ha hk)]; omega
  · rw [decide_eq_false ha, Bool.toNat_false]; omega

structure Appends (s : State) (old size : ℕ) (s' : State) : Prop where
  freeinode : s'.freeinode = s.freeinode
  freeblock : s'.freeblock = s.freeblock + (blocksOf size - blocksOf old)

theorem Appends.refl (s : State) (a : ℕ) : Appends s a a s := by
  refine ⟨rfl, ?_⟩
  rw [Nat.sub_self]; rfl

theorem Appends.trans {a b c : ℕ} {s1 s2 s3 : State} (h : Appends s1 a b s2) (h' : Appends s2 b c s3)
    (hab : a ≤ b) (hbc : b ≤ c) : Appends s1 a c s3 := by
  have h1 := blocksOf_mono hab
  have h2 := blocksOf_mono hbc
  refine ⟨h'.freeinode.trans h.freeinode, ?_⟩
  rw [h'.freeblock, h.freeblock]; omega

theorem nblk_round {n1 : ℕ} (h0 : 0 < n1) (h1 : off + n1 ≤ (off / BSIZE + 1) * BSIZE) :
    (nblk off = off / BSIZE ∨ nblk off = off / BSIZE + 1) ∧ nblk (off + n1) = off / BSIZE + 1 := by
  have hB : BSIZE = 1024 := rfl
  unfold nblk
  rw [hB] at h1 ⊢; omega

theorem wp_iappendLoop {rounds : ℕ} (hr : p.length ≤ rounds)
    (h : Sized s ⟨din, inum⟩ (C inum).length C) (hoff : off = (C inum).length)
    (hlen : off + p.length ≤ MAXFILE * BSIZE)
    (hroom : s.freeblock + (blocksOf (off + p.length) - blocksOf off) ≤ FSSIZE) {Q : Dinode × ℕ → State → Prop}
    (hQ : ∀ din' s', Sized s' ⟨din', inum⟩ (off + p.length) (update C inum (C inum ++ p)) →
      din' = { din with addrs := din'.addrs } → Appends s off (off + p.length) s' → Q (din', off + p.length) s') :
    wp E (iappendLoop rounds din off p) Q s := by
  induction rounds generalizing s din off p C with
  | zero =>
    obtain rfl : p = [] := length_eq_zero_iff.mp (Nat.le_zero.mp hr)
    subst hoff
    rw [append_nil, update_eq_self] at hQ; exact hQ din s h rfl (.refl s _)
  | succ rounds ih =>
    unfold iappendLoop
    by_cases hp : 0 < p.length
    · rw [if_pos hp]
      have hB : BSIZE = 1024 := rfl
      have hbn : off / BSIZE < MAXFILE := by rw [hB] at hlen ⊢; omega
      obtain ⟨n1, hn1⟩ : ∃ n1, min p.length ((off / BSIZE + 1) * BSIZE - off) = n1 := ⟨_, rfl⟩
      have hn0 : 0 < n1 ∧ n1 ≤ p.length ∧ off + n1 ≤ (off / BSIZE + 1) * BSIZE := by
        rw [hB] at hn1 ⊢; omega
      obtain ⟨hm, hnext⟩ := nblk_round hn0.1 hn0.2.2
      have hmono := blocksOf_mono (show off + n1 ≤ off + p.length by omega)
      have hmono0 := blocksOf_mono (show off ≤ off + n1 by omega)
      have hstep : blocksOf (off + n1) - blocksOf off =
          withIndirect (off / BSIZE + 1) - withIndirect (nblk off) := by
        unfold blocksOf
        rw [hnext]
      rw [← hoff] at h
      refine .bind (wp_assert hbn (.bind (wp_findBlock h hbn hm (by omega) ?_)))
      intro x din1 s1 h1 hx hsame1 hfi1 hfb1
      have h0 := (h1.mine.addr _ hbn).mpr (Nat.lt_succ_self _)
      rw [hx] at h0
      have hdata : mkfsSb.IsData x := hx ▸ (h1.hold.get_ne_zero (by rw [hx]; exact h0)).1
      refine .bind (wp_rsect (isData_lt hdata) (.bind (wp_modify.mpr ?_)))
      rw [hn1]
      have htake : (p.take n1).length = n1 := length_take_of_le hn0.2.1
      have hfit : off + (p.take n1).length ≤ (off / BSIZE + 1) * BSIZE := by rw [htake]; exact hn0.2.2
      have h2 := h1.append hoff rfl hbn hfit hx
      have hC : (update C inum (C inum ++ p.take n1)) inum = C inum ++ p.take n1 :=
        update_self _ _ _
      have hlen2 : (C inum ++ p.take n1).length = off + n1 := by rw [length_append, htake, hoff]
      have hdrop : (p.drop n1).length = p.length - n1 := length_drop
      have hsum : off + n1 + (p.length - n1) = off + p.length := by omega
      refine ih (C := update C inum (C inum ++ p.take n1)) (by omega) ?_ (by rw [hC, hlen2]) (by omega) ?_ ?_
      · rw [hC, hlen2, Sized, hnext]; exact h2
      · rw [hdrop, hsum]
        show s1.freeblock + _ ≤ _; omega
      · rw [hdrop, hsum, hC, update_idem, append_assoc, take_append_drop]
        intro din2 s2 hw hsame2 ha
        refine hQ din2 s2 hw (by rw [hsame2, hsame1]) ?_
        have ha1 : Appends s off (off + n1) s1 := ⟨hfi1, by omega⟩
        exact ha1.trans ⟨ha.freeinode, ha.freeblock⟩ (by omega) (by omega)
    · obtain rfl : p = [] := length_eq_zero_iff.mp (Nat.le_zero.mp (Nat.not_lt.mp hp))
      subst hoff
      rw [append_nil, update_eq_self] at hQ; exact hQ din s h rfl (.refl s _)

/-! ## The calls of `main` -/

theorem IBLOCK_lt (hn : n < mkfsSb.ninodes) : (mkfsSb.IBLOCK n).toNat < FSSIZE := by
  have h1 := Superblock.toNat_IBLOCK hn
  have h2 := Superblock.inode_lt_bmap hn
  have h3 : mkfsSb.bmapstart = 45 := rfl
  have h4 : FSSIZE = 2000 := rfl; omega

theorem wp_rinode (hn : n < mkfsSb.ninodes) {Q : Dinode → State → Prop}
    (hQ : Q (dinode mkfsSb (marked s) n) s) : wp E (rinode n) Q s := by
  unfold dinode at hQ
  rw [marked_IBLOCK hn] at hQ; exact .bind (wp_rsect (IBLOCK_lt hn) hQ)

def putInode (s : State) (n : ℕ) (d : Dinode) : State :=
  put s (mkfsSb.IBLOCK n) (setDinode (s.img (mkfsSb.IBLOCK n)) (n % IPB) d)

section
variable (hn : n < mkfsSb.ninodes)
include hn

theorem wp_winode (hQ : Q () (putInode s n d)) : wp E (winode n d) Q s :=
  .bind (wp_rsect (IBLOCK_lt hn) hQ)

theorem putInode_data (hb : mkfsSb.IsData b) : (putInode s n d).img b = s.img b :=
  update_of_ne (hb.ne_IBLOCK hn) _ _

theorem marked_putInode_data (hb : mkfsSb.IsData b) : marked (putInode s n d) b = marked s b := by
  rw [marked_data hb, marked_data hb, putInode_data hn hb]

theorem dinode_putInode {k : ℕ} (hk : k < mkfsSb.ninodes) :
    dinode mkfsSb (marked (putInode s n d)) k = if k = n then d else dinode mkfsSb (marked s) k := by
  rw [putInode, marked_winode hn]; exact dinode_setInode hn hk

end

theorem Rest.data (h : Rest s C) (h0 : 0 < n) (hn : n < s.freeinode) {x : Slot}
    (hx : x.get (marked s) (dinode mkfsSb (marked s) n) ≠ 0) :
    mkfsSb.IsData (x.get (marked s) (dinode mkfsSb (marked s) n)) := by
  obtain ⟨hni, ht⟩ := h.allocated h0 hn
  rw [← addrOf_of_allocated hni ht] at hx ⊢; exact h.image.owned.isData _ hx

theorem Rest.work (h : Rest s C) (h0 : 0 < inum) (hn : inum < s.freeinode) :
    Sized s ⟨dinode mkfsSb (marked s) inum, inum⟩ (C inum).length C := by
  obtain ⟨hni, ht⟩ := h.allocated h0 hn
  exact ⟨h.toBase, h.image.hold hni ht, (h.files inum h0 hn).full, fun n _ h0 hn => h.files n h0 hn⟩

theorem Work.rest (h : Sized s ⟨din, inum⟩ (C inum).length C)
    (ht : din.type = kind s.freeinode inum) (hlen : (C inum).length ≤ MAXFILE * BSIZE) :
    Rest (putInode s inum { din with size := BitVec.ofNat 32 (C inum).length }) C := by
  have hM : MAXFILE * BSIZE = 274432 := rfl
  have hni : inum < mkfsSb.ninodes := h.hold.inum
  have hmark := marked_winode (s := s) (d := { din with size := BitVec.ofNat 32 (C inum).length }) hni
  have hhold : Holding mkfsSb (marked s) ⟨{ din with size := BitVec.ofNat 32 (C inum).length }, inum⟩ :=
    h.hold.fields rfl rfl rfl
  obtain ⟨hsync, -, -⟩ := hhold.update hmark
  refine ⟨⟨fun b hb hle => ?_, h.low, h.high, h.inodes, fun n hn => ?_⟩, hsync.image, fun n h0 hn => ?_⟩
  · rw [putInode_data hni hb]; exact h.fresh b hb hle
  · rw [dinode_putInode hni hn]
    split_ifs with he
    · rw [he]; exact ht
    · exact h.kinds n hn
  · obtain ⟨hlt, hty⟩ := h.allocated h0 hn
    rw [dinode_putInode hni hlt]
    split_ifs with he
    · subst he
      refine ⟨?_, h.mine.congr rfl fun x hx => marked_putInode_data hni (h.hold.get_ne_zero hx).1⟩
      rw [BitVec.toNat_ofNat, Nat.mod_eq_of_lt (by omega)]
    · obtain ⟨hsize, hfull⟩ := h.others n he h0 hn
      refine ⟨hsize, hfull.congr rfl fun x hx => ?_⟩
      rw [← addrOf_of_allocated hlt hty] at hx ⊢
      exact marked_putInode_data hni (h.hold.other_data he hx)

theorem wp_iappend (h : Rest s C) (h0 : 0 < inum) (hn : inum < s.freeinode)
    (hlen : (C inum).length + p.length ≤ MAXFILE * BSIZE)
    (hroom : s.freeblock + (blocksOf ((C inum).length + p.length) - blocksOf (C inum).length) ≤ FSSIZE)
    (hQ : ∀ s', Rest s' (update C inum (C inum ++ p)) →
      Appends s (C inum).length ((C inum).length + p.length) s' → Q () s') : wp E (iappend inum p) Q s := by
  obtain ⟨hni, -⟩ := h.allocated h0 hn
  have hsize := (h.files inum h0 hn).size
  refine .bind (wp_rinode hni (.bind ?_))
  rw [hsize]
  refine wp_iappendLoop le_rfl (h.work h0 hn) rfl hlen hroom fun din' s' hw hsame ha => ?_
  refine wp_winode hni ?_
  have hC : (update C inum (C inum ++ p)) inum = C inum ++ p := update_self _ _ _
  have hw' : Sized s' ⟨din', inum⟩ ((update C inum (C inum ++ p)) inum).length
      (update C inum (C inum ++ p)) := by
    rw [hC, length_append]; exact hw
  have htype : din'.type = kind s'.freeinode inum := by
    rw [hsame, ha.freeinode]; exact h.kinds inum hni
  have hr := hw'.rest htype (by rw [hC, length_append]; exact hlen)
  rw [hC, length_append] at hr; exact hQ _ hr ⟨ha.freeinode, ha.freeblock⟩

theorem get_zero (ha : d.addrs = fun _ => 0) (x : Slot) : x.get σ d = 0 := by
  have h0 : indirect.get σ d = 0 := congrFun ha _
  cases x with
  | addr i => exact congrFun ha i
  | entry j => exact get_entry_of_zero h0

theorem stored_nil (ha : d.addrs = fun _ => 0) (hs : d.size = 0) : Stored σ d [] := by
  refine ⟨by rw [hs]; rfl, fun k hk => ?_, ?_, Nat.zero_le _, Nat.zero_le _, fun k hk hm => ?_⟩
  · rw [get_zero ha]
    exact ⟨fun h => absurd rfl h, fun h => absurd h (Nat.not_lt_zero k)⟩
  · rw [get_zero ha]
    exact ⟨fun h => absurd rfl h, fun h => absurd h (by decide)⟩
  · exact absurd hm (Nat.not_lt_zero k)

theorem wp_ialloc {type : BitVec 16} (h : Rest s C) (hlt : s.freeinode < NINODES)
    (ht : type = kind (s.freeinode + 1) s.freeinode) {Q : ℕ → State → Prop}
    (hQ : ∀ s', Rest s' (update C s.freeinode []) → s'.freeinode = s.freeinode + 1 →
      s'.freeblock = s.freeblock → Q s.freeinode s') : wp E (Defs.ialloc type) Q s := by
  have hni : s.freeinode < mkfsSb.ninodes := hlt
  refine .bind (wp_get.mpr (.bind (wp_modify.mpr (.bind (wp_winode hni (wp_pure.mpr ?_))))))
  generalize hd : ({ Dinode.zero with type := type, nlink := 1 } : Dinode) = d
  have haddr : d.addrs = fun _ => 0 := by rw [← hd]; rfl
  have hmark : marked (putInode { s with freeinode := s.freeinode + 1 } s.freeinode d) =
      setInode mkfsSb (marked s) s.freeinode d := marked_winode hni
  have hdin : ∀ n < mkfsSb.ninodes,
      dinode mkfsSb (marked (putInode { s with freeinode := s.freeinode + 1 } s.freeinode d)) n =
        if n = s.freeinode then d else dinode mkfsSb (marked s) n := fun n hn => dinode_putInode hni hn
  have hold : (dinode mkfsSb (marked s) s.freeinode).type = 0 := by
    rw [h.kinds _ hni]; exact if_neg fun hlt => absurd hlt.2 (lt_irrefl _)
  refine hQ _ ⟨⟨fun b hb hle => ?_, h.low, h.high, hlt, fun n hn => ?_⟩, ?_, fun n hp hn => ?_⟩ rfl rfl
  · rw [putInode_data hni hb]; exact h.fresh b hb hle
  · rw [hdin n hn]
    split_ifs with he
    · rw [he, ← hd]; exact ht
    · rw [h.kinds n hn]
      show kind s.freeinode n = kind (s.freeinode + 1) n
      refine if_congr ?_ rfl rfl
      omega
  · rw [hmark]
    refine h.image.setInode_congr hni fun n hn x => ?_
    by_cases he : n = s.freeinode
    · rw [he]
      have hz : addrOf mkfsSb (marked s) (dinode mkfsSb (marked s)) (s.freeinode, x) = 0 :=
        if_neg fun hp => hp.2 hold
      rw [hz]
      unfold addrOf
      rw [← hmark, hdin _ hni, if_pos rfl]
      split_ifs
      · exact get_zero haddr x
      · rfl
    · refine addrOf_congr (fun _ => ?_) (fun hx => setInode_data hni (h.image.owned.isData _ hx)) x
      rw [← hmark, hdin n hn, if_neg he]
  · by_cases he : n = s.freeinode
    · rw [he, hdin _ hni, if_pos rfl, update_self]
      exact stored_nil haddr (by rw [← hd]; rfl)
    · have hn' : n < s.freeinode := by have : n < s.freeinode + 1 := hn; omega
      obtain ⟨hlt', -⟩ := h.allocated hp hn'
      obtain ⟨hsize, hfull⟩ := h.files n hp hn'
      rw [hdin n hlt', if_neg he, update_of_ne he]
      refine ⟨hsize, hfull.congr rfl fun x hx => ?_⟩
      rw [hmark]; exact setInode_data hni (h.data hp hn' hx)

theorem wp_pieces {pieces : List (List Byte)} (h : Rest s C) (h0 : 0 < inum) (hn : inum < s.freeinode)
    (hlen : (C inum).length + pieces.flatten.length ≤ MAXFILE * BSIZE)
    (hroom : s.freeblock + (blocksOf ((C inum).length + pieces.flatten.length) - blocksOf (C inum).length) ≤
      FSSIZE) (hQ : ∀ s', Rest s' (update C inum (C inum ++ pieces.flatten)) →
      Appends s (C inum).length ((C inum).length + pieces.flatten.length) s' → Q () s') :
    wp E (pieces.forM (iappend inum)) Q s := by
  induction pieces generalizing s C with
  | nil =>
    rw [flatten_nil, append_nil, update_eq_self] at hQ; exact hQ s h (.refl s _)
  | cons p pieces ih =>
    rw [flatten_cons, length_append] at hlen hroom
    have h1 := blocksOf_mono (show (C inum).length ≤ (C inum).length + p.length by omega)
    have h2 := blocksOf_mono (show (C inum).length + p.length ≤
      (C inum).length + (p.length + pieces.flatten.length) by omega)
    refine .bind (wp_iappend h h0 hn (by omega) (by omega) fun s1 h₁ ha1 => ?_)
    have hC : (update C inum (C inum ++ p)) inum = C inum ++ p := update_self _ _ _
    have hfb := ha1.freeblock
    refine ih h₁ (by rw [ha1.freeinode]; exact hn) ?_ ?_ fun s2 h₂ ha2 => ?_
    · rw [hC, length_append]; omega
    · rw [hC, length_append, Nat.add_assoc]; omega
    · rw [hC, length_append] at ha2
      rw [hC, update_idem, append_assoc] at h₂
      refine hQ s2 h₂ ?_
      rw [flatten_cons, length_append, ← Nat.add_assoc]
      exact ha1.trans ha2 (by omega) (by omega)

end Xv6.Mkfs.Append
