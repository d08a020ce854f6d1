import Xv6.Mkfs.Append

/-!
# The image

For files that fit, `mkfs` succeeds and the image is made of the root directory and the files (`Built`).  The
last step changes the size of the root directory: it goes up to the next multiple of `BSIZE`, also when it is
one already, and then there is no block for the last part.  So the image is well formed exactly if the entries
do not fill the last block of the directory (`image_wellFormed_iff`).
-/

namespace Xv6.Mkfs.Image

open Param Vm.Copy Lib.Stateful Fs.Layout Fs.Files Fs.Store Fs.Ownership List Function Nat
open Mkfs.Defs Mkfs.Append
open Fs.Names (ROOTINO length_put)
open Fs.LogOps (Block)
open Syscall.Defs (slash)

variable {s s' : State} {b : Word} {n : ℕ} {d : Dinode} {C : ℕ → List Byte} {E : Failure → Prop}

theorem length_dirent (name : List Byte) (k : ℕ) : (dirent name k).length = 16 :=
  length_put _ _

/-- The entries of the root directory for the files, from inode `n` on. -/
def entries : ℕ → List Input → List Byte
  | _, [] => []
  | n, f :: files => dirent f.shortname n ++ entries (n + 1) files

theorem length_entries (files : List Input) : (entries n files).length = 16 * files.length := by
  induction files generalizing n with
  | nil => rfl
  | cons f files ih =>
    rw [entries, length_append, length_dirent, ih, length_cons]; omega

def contentBlocks (files : List Input) : ℕ := (files.map fun f => blocksOf f.content.length).sum

/-- The files fit in the image: `mkfs` accepts the names, no file is too large, and there are enough inodes
and blocks. -/
structure Fits (files : List Input) : Prop where
  names : ∀ f ∈ files, slash ∉ f.base ∧ f.shortname.length ≤ DIRSIZ
  sizes : ∀ f ∈ files, f.content.length ≤ MAXFILE * BSIZE
  inodes : files.length + 2 ≤ NINODES
  blocks : nmeta + blocksOf (16 * (files.length + 2)) + contentBlocks files ≤ FSSIZE

structure Filed (s : State) (C : ℕ → List Byte) : Prop extends Rest s C where
  two_le : 2 ≤ s.freeinode
  root : (C ROOTINO).length = 16 * s.freeinode

variable {Q : Unit → State → Prop} {files : List Input}

theorem wp_addFile {f : Input} (h : Filed s C) (hlt : s.freeinode < NINODES)
    (hname : slash ∉ f.base ∧ f.shortname.length ≤ DIRSIZ) (hsize : f.content.length ≤ MAXFILE * BSIZE)
    (hroom : s.freeblock + (blocksOf (16 * (s.freeinode + 1)) - blocksOf (16 * s.freeinode)) +
      blocksOf f.content.length ≤ FSSIZE) (hQ : ∀ s' C', Filed s' C' → s'.freeinode = s.freeinode + 1 →
      s'.freeblock = s.freeblock + (blocksOf (16 * (s.freeinode + 1)) - blocksOf (16 * s.freeinode)) +
        blocksOf f.content.length →
      C' ROOTINO = C ROOTINO ++ dirent f.shortname s.freeinode → C' s.freeinode = f.content →
      (∀ n, n ≠ ROOTINO → n ≠ s.freeinode → C' n = C n) → Q () s') : wp E (addFile ROOTINO f) Q s := by
  have hR : ROOTINO = 1 := rfl
  have hN : NINODES = 200 := rfl
  have hM : MAXFILE * BSIZE = 274432 := rfl
  have h2 := h.two_le
  have hroot := h.root
  have hkind : T_FILE = kind (s.freeinode + 1) s.freeinode := by
    unfold kind
    rw [if_pos ⟨by omega, by omega⟩, if_neg (by omega)]
  have hne : ROOTINO ≠ s.freeinode := by omega
  refine .bind (wp_assert hname.1 (.bind (wp_assert hname.2 (.bind ?_))))
  refine wp_ialloc h.toRest hlt hkind fun s1 h1 hfi1 hfb1 => .bind ?_
  have hC1 : (update C s.freeinode []) ROOTINO = C ROOTINO := update_of_ne hne _ _
  have hlen : 16 * s.freeinode + 16 = 16 * (s.freeinode + 1) := by omega
  refine wp_iappend h1 (by omega) (by omega) ?_ ?_ fun s2 h₂ ha2 => ?_
  · rw [hC1, length_dirent]; omega
  · rw [hC1, hroot, length_dirent, hlen]; omega
  · rw [hC1, hroot, length_dirent, hlen] at ha2
    have hfi2 := ha2.freeinode
    have hfb2 := ha2.freeblock
    have hC2 : (update (update C s.freeinode []) ROOTINO
        ((update C s.freeinode []) ROOTINO ++ dirent f.shortname s.freeinode)) s.freeinode = [] := by
      rw [update_of_ne hne.symm, update_self]
    refine wp_pieces h₂ (by omega) (by omega) ?_ ?_ fun s3 h3 ha3 => ?_
    · rw [hC2, length_nil, zero_add]; exact hsize
    · have hsz : f.reads.flatten.length = f.content.length := rfl
      rw [hC2, length_nil, zero_add, hsz]; omega
    · rw [hC2, nil_append] at h3
      rw [hC2, length_nil, zero_add] at ha3
      have hfi3 := ha3.freeinode
      have hfb3 : s3.freeblock = s2.freeblock + blocksOf f.content.length := ha3.freeblock
      have hroot3 : update (update (update C s.freeinode []) ROOTINO
          ((update C s.freeinode []) ROOTINO ++ dirent f.shortname s.freeinode)) s.freeinode
          f.reads.flatten ROOTINO = C ROOTINO ++ dirent f.shortname s.freeinode := by
        rw [update_of_ne hne, update_self, hC1]
      refine hQ s3 _ ⟨h3, by omega, ?_⟩ (by omega) (by omega) hroot3 (update_self _ _ _) ?_
      · rw [hroot3, length_append, length_dirent]; omega
      · intro n hn hnf
        rw [update_of_ne hnf, update_of_ne hn, update_of_ne hnf]

theorem wp_files (h : Filed s C) (hlt : s.freeinode + files.length ≤ NINODES)
    (hnames : ∀ f ∈ files, slash ∉ f.base ∧ f.shortname.length ≤ DIRSIZ)
    (hsizes : ∀ f ∈ files, f.content.length ≤ MAXFILE * BSIZE)
    (hroom : s.freeblock + (blocksOf (16 * (s.freeinode + files.length)) - blocksOf (16 * s.freeinode)) +
      contentBlocks files ≤ FSSIZE) (hQ : ∀ s' C', Filed s' C' → s'.freeinode = s.freeinode + files.length →
      C' ROOTINO = C ROOTINO ++ entries s.freeinode files → (∀ n, n ≠ ROOTINO → n < s.freeinode → C' n = C n) →
      (∀ k f, files[k]? = some f → C' (s.freeinode + k) = f.content) → Q () s') :
    wp E (files.forM (addFile ROOTINO)) Q s := by
  induction files generalizing s C with
  | nil =>
    refine hQ s C h rfl (append_nil _).symm (fun _ _ _ => rfl) fun k f hk => ?_
    simp at hk
  | cons f files ih =>
    have hR : ROOTINO = 1 := rfl
    have h2 := h.two_le
    rw [length_cons] at hlt hroom hQ
    have hsum : contentBlocks (f :: files) = blocksOf f.content.length + contentBlocks files := sum_cons
    have hm1 := blocksOf_mono (show 16 * s.freeinode ≤ 16 * (s.freeinode + 1) by omega)
    have hm2 := blocksOf_mono (show 16 * (s.freeinode + 1) ≤ 16 * (s.freeinode + (files.length + 1)) by omega)
    refine .bind (wp_addFile h (by omega) (hnames f mem_cons_self) (hsizes f mem_cons_self)
      (by omega) fun s1 C1 h1 hfi hfb hroot hself hother => ?_)
    have hlen : s1.freeinode + files.length = s.freeinode + (files.length + 1) := by omega
    refine ih h1 (by omega) (fun g hg => hnames g (mem_cons_of_mem _ hg))
      (fun g hg => hsizes g (mem_cons_of_mem _ hg)) ?_ fun s2 C2 h₂ hfi2 hroot2 hold2 hfiles2 => ?_
    · rw [hlen, hfi]; omega
    · refine hQ s2 C2 h₂ (by omega) ?_ (fun n hn hlt => ?_) fun k g hk => ?_
      · rw [hroot2, hroot, hfi, append_assoc]; rfl
      · rw [hold2 n hn (by omega), hother n hn (by omega)]
      · cases k with
        | zero =>
          obtain rfl : f = g := Option.some.inj hk
          rw [add_zero, hold2 _ (by omega) (by omega), hself]
        | succ k =>
          have := hfiles2 k g hk
          rw [← this]
          congr 1; omega

theorem rest_start : Rest (put start 1 superblock) fun _ => [] := by
  have hzero : ∀ b, b ≠ 1 → (put start 1 superblock).img b = zeroBlock :=
    fun b hb => update_of_ne hb _ _
  have hfb : (put start 1 superblock).freeblock = nmeta := rfl
  have hM : nmeta = 46 := rfl
  have hlow : mkfsSb.size - mkfsSb.nblocks = 46 := rfl
  have hhigh : (put start 1 superblock).freeblock ≤ mkfsSb.size := by decide
  have htype : ∀ n < mkfsSb.ninodes, (dinode mkfsSb (marked (put start 1 superblock)) n).type = 0 := by
    intro n hn
    have hne : mkfsSb.IBLOCK n ≠ 1 := by
      intro he
      have h1 := Superblock.toNat_IBLOCK hn
      have h2 : mkfsSb.inodestart = 32 := rfl
      rw [he, h2] at h1; simp at h1
    unfold dinode getDinode
    rw [marked_IBLOCK hn, hzero _ hne, word_zeroBlock]; rfl
  have haddr : ∀ x, addrOf mkfsSb (marked (put start 1 superblock))
      (dinode mkfsSb (marked (put start 1 superblock))) x = 0 := fun x => if_neg fun h => h.2 (htype _ h.1)
  refine ⟨⟨fun b hb _ => hzero b ?_, le_rfl, by decide, by decide, fun n hn => ?_⟩, ⟨⟨by decide,
    fun x hx => absurd (haddr x) hx, fun x y hx => absurd (haddr x) hx, fun b hb => ?_⟩, fun n hn => ?_⟩,
    fun n h0 hn => ?_⟩
  · rintro rfl; exact absurd hb.1 (by decide)
  · rw [htype n hn]; exact (if_neg fun h => absurd h.2 (not_lt.mpr h.1)).symm
  · have h1 := hb.1
    unfold used
    rw [usedBit_marked hb.2 hhigh, decide_eq_true_iff]
    constructor
    · intro hlt; omega
    · rintro ⟨x, rfl⟩; exact absurd (haddr x) hb.ne_zero
  · rw [usedBit_marked (by omega) hhigh]; exact decide_eq_true (by omega)
  · have hn : n < 1 := hn; omega

/-- The inode of the root directory with the size that `main` gives it. -/
def rounded (d : Dinode) : Dinode := { d with size := BitVec.ofNat 32 ((d.size.toNat / BSIZE + 1) * BSIZE) }

def final (s : State) : Blocks :=
  setInode mkfsSb (marked s) ROOTINO (rounded (dinode mkfsSb (marked s) ROOTINO))

def rootEntries (files : List Input) : List Byte :=
  dirent dot ROOTINO ++ dirent dotdot ROOTINO ++ entries 2 files

/-- What the image is made of: the state before the last two calls of `main`. -/
structure Built (inputs : List Input) (s : State) (C : ℕ → List Byte) : Prop extends Rest s C where
  count : s.freeinode = inputs.length + 2
  root : C ROOTINO = rootEntries inputs
  contents : ∀ k f, inputs[k]? = some f → C (2 + k) = f.content

theorem wp_fixRoot (h : Rest s C) (hlt : ROOTINO < s.freeinode)
    (hQ : Q () (putInode s ROOTINO (rounded (dinode mkfsSb (marked s) ROOTINO)))) : wp E (fixRoot ROOTINO) Q s := by
  obtain ⟨hni, -⟩ := h.allocated (show 0 < ROOTINO by decide) hlt
  exact .bind (wp_rinode hni (wp_winode hni hQ))

theorem wp_balloc {used : ℕ} (hu : used < BPB)
    (hQ : Q () (put s (mkfsSb.BBLOCK 0) (firstBits used))) : wp E (Defs.balloc used) Q s :=
  .bind (wp_assert hu hQ)

theorem blocksOf_root (n : ℕ) : blocksOf 0 = 0 ∧ blocksOf 16 = 1 ∧ blocksOf 32 = 1 ∧ 1 ≤ blocksOf (16 * (n + 2)) :=
  ⟨rfl, rfl, rfl, blocksOf_mono (show 32 ≤ 16 * (n + 2) by omega)⟩

theorem wp_makeRoot {Q : ℕ → State → Prop} (hQ : ∀ s C, Filed s C → s.freeinode = 2 → s.freeblock = nmeta + 1 →
      C ROOTINO = dirent dot ROOTINO ++ dirent dotdot ROOTINO → Q ROOTINO s) :
    wp E makeRoot Q (put start 1 superblock) := by
  have hM : nmeta = 46 := rfl
  have hF : FSSIZE = 2000 := rfl
  have hMB : MAXFILE * BSIZE = 274432 := rfl
  have hR : ROOTINO = 1 := rfl
  obtain ⟨hb0, hb1, hb2, -⟩ := blocksOf_root 0
  have hfb : (put start 1 superblock).freeblock = nmeta := rfl
  refine .bind (wp_ialloc rest_start (by decide) rfl ?_)
  rw [show (put start 1 superblock).freeinode = ROOTINO from rfl]
  intro s1 h1 hfi1 hfb1
  have hC1 : (update (fun _ => []) ROOTINO [] : ℕ → List Byte) ROOTINO = [] :=
    update_self _ _ _
  refine .bind (wp_assert rfl (.bind (wp_iappend h1 (by decide) (by omega) ?_ ?_ ?_)))
  · rw [hC1, length_dirent, length_nil]; omega
  · rw [hC1, length_dirent, length_nil, zero_add, hb0, hb1]; omega
  rw [hC1, nil_append, update_idem, length_dirent, length_nil, zero_add]
  intro s2 h2 ha2
  have hfi2 := ha2.freeinode
  have hfb2 := ha2.freeblock
  have hC2 : (update (fun _ => []) ROOTINO (dirent dot ROOTINO) : ℕ → List Byte) ROOTINO =
    dirent dot ROOTINO := update_self _ _ _
  refine .bind (wp_iappend h2 (by decide) (by omega) ?_ ?_ ?_)
  · rw [hC2, length_dirent, length_dirent]; omega
  · rw [hC2, length_dirent, length_dirent, hb1, hb2]; omega
  rw [hC2, update_idem, length_dirent, length_dirent]
  intro s3 h3 ha3
  have hfi3 := ha3.freeinode
  have hfb3 := ha3.freeblock
  rw [hb1, hb2] at hfb3
  rw [hb0, hb1] at hfb2
  refine hQ s3 _ ⟨h3, by omega, ?_⟩ (by omega) (by omega) (update_self _ _ _)
  rw [update_self, length_append, length_dirent, length_dirent]; omega

theorem mkfs_built (hf : Fits files) : ∃ s C, Built files s C ∧ mkfs files = .ok (final s) := by
  have hR : ROOTINO = 1 := rfl
  obtain ⟨-, -, hb2, hge⟩ := blocksOf_root files.length
  have hinodes := hf.inodes
  have hblocks := hf.blocks
  have hwp : wp (fun _ => False) (main files)
      (fun _ s' => ∃ s C, Built files s C ∧ s'.img = final s) start := by
    refine .bind (wp_modify.mpr (.bind (wp_makeRoot fun s1 C1 h1 hfi1 hfb1 hroot1 => ?_)))
    refine .bind (wp_files h1 (by omega) hf.names hf.sizes ?_
      fun s2 C2 h2 hfi2 hroot2 _ hfiles2 => .bind ?_)
    · rw [hfi1, add_comm 2, hb2]; omega
    rw [hfi1] at hfi2 hroot2 hfiles2
    refine wp_fixRoot h2.toRest (by omega) (.bind (wp_get.mpr (wp_balloc ?_ ?_)))
    · exact lt_of_le_of_lt h2.high (by decide)
    · refine ⟨s2, C2, ⟨h2.toRest, by omega, by rw [hroot2, hroot1]; rfl, hfiles2⟩, ?_⟩
      obtain ⟨hni, -⟩ := h2.allocated (show 0 < ROOTINO by decide) (by omega)
      exact marked_winode hni
  obtain ⟨⟨⟩, s', hm, s, C, hb, himg⟩ := wp_returns hwp
  refine ⟨s, C, hb, ?_⟩
  unfold mkfs
  rw [hm, ← himg]; rfl

/-! ## Well-formed images -/

def Allocated (img : Blocks) (n : ℕ) : Prop := n < mkfsSb.ninodes ∧ (dinode mkfsSb img n).type ≠ 0

def sizeBlocks (img : Blocks) (n : ℕ) : ℕ := nblk (dinode mkfsSb img n).size.toNat

def Refers (img : Blocks) (n : ℕ) (x : Slot) : Prop :=
  Allocated img n ∧ (x = indirect ∧ NDIRECT < sizeBlocks img n ∨
    ∃ k, ∃ hk : k < MAXFILE, k < sizeBlocks img n ∧ x = fileSlot k hk)

/-- Every block of every inode in use has an address, no address is there twice, and exactly the blocks
before the data and those with an address are marked. -/
structure WellFormed (img : Blocks) : Prop where
  addressed : ∀ n, Allocated img n → ∀ k < sizeBlocks img n, fileAddr img (dinode mkfsSb img n) k ≠ 0
  unshared : ∀ n x n' x', Refers img n x → Refers img n' x' →
    x.get img (dinode mkfsSb img n) = x'.get img (dinode mkfsSb img n') → n = n' ∧ x = x'
  bitmap : ∀ b < FSSIZE, usedBit mkfsSb img b = true ↔
    b < nmeta ∨ ∃ n x, Refers img n x ∧ (x.get img (dinode mkfsSb img n)).toNat = b

section
variable (h : Built files s C)
include h

theorem Built.root_lt : ROOTINO < s.freeinode := by
  have hR : ROOTINO = 1 := rfl
  have := h.count; omega

theorem Built.dinode_final (hn : n < mkfsSb.ninodes) : dinode mkfsSb (final s) n =
    if n = ROOTINO then rounded (dinode mkfsSb (marked s) n) else dinode mkfsSb (marked s) n := by
  obtain ⟨hni, -⟩ := h.allocated (show 0 < ROOTINO by decide) h.root_lt
  unfold final
  rw [dinode_setInode hni hn]
  split_ifs with he
  · rw [he]
  · rfl

theorem Built.final_data (hb : mkfsSb.IsData b) : final s b = marked s b :=
  setInode_data (h.allocated (show 0 < ROOTINO by decide) h.root_lt).1 hb

theorem Built.type_final (hn : n < mkfsSb.ninodes) : (dinode mkfsSb (final s) n).type = kind s.freeinode n := by
  rw [h.dinode_final hn, ← h.kinds n hn]
  split_ifs <;> rfl

theorem Built.allocated_iff : Allocated (final s) n ↔ 0 < n ∧ n < s.freeinode := by
  constructor
  · rintro ⟨hn, ht⟩
    rw [h.type_final hn] at ht
    by_contra hc; exact ht (if_neg hc)
  · rintro ⟨h0, hn⟩
    have hlt := (h.allocated h0 hn).1
    exact ⟨hlt, by rw [h.type_final hlt]; exact kind_ne_zero h0 hn⟩

theorem Built.get_final (h0 : 0 < n) (hn : n < s.freeinode) (x : Slot) :
    x.get (final s) (dinode mkfsSb (final s) n) = x.get (marked s) (dinode mkfsSb (marked s) n) := by
  have ha : (dinode mkfsSb (final s) n).addrs = (dinode mkfsSb (marked s) n).addrs := by
    rw [h.dinode_final (h.allocated h0 hn).1]
    split_ifs <;> rfl
  exact get_congr ha (fun hi => h.final_data (h.toRest.data h0 hn hi)) x

theorem Built.usedBit_final (hn : n < mkfsSb.size) : usedBit mkfsSb (final s) n = decide (n < s.freeblock) := by
  unfold final
  rw [usedBit_setInode (h.allocated (show 0 < ROOTINO by decide) h.root_lt).1 hn, usedBit_marked hn h.high]

theorem Built.length_root : (C ROOTINO).length = 16 * (files.length + 2) := by
  rw [h.root, rootEntries, length_append, length_append, length_dirent, length_dirent, length_entries]
  omega

theorem Built.size_root : (dinode mkfsSb (final s) ROOTINO).size.toNat =
    (16 * (files.length + 2) / BSIZE + 1) * BSIZE := by
  have hB : BSIZE = 1024 := rfl
  have hcount := h.count
  have hin := h.inodes
  have hN : NINODES = 200 := rfl
  obtain ⟨hni, -⟩ := h.allocated (show 0 < ROOTINO by decide) h.root_lt
  show (BitVec.ofNat 32 _).toNat = _
  rw [(h.files ROOTINO (by decide) h.root_lt).size, h.length_root, BitVec.toNat_ofNat]
  rw [hB]; omega

theorem Built.sizeBlocks_eq (hmod : (files.length + 2) % 64 ≠ 0) (h0 : 0 < n) (hn : n < s.freeinode) :
    sizeBlocks (final s) n = nblk (C n).length := by
  have hB : BSIZE = 1024 := rfl
  unfold sizeBlocks
  by_cases he : n = ROOTINO
  · rw [he, h.size_root, h.length_root]; unfold nblk; rw [hB]; omega
  · rw [h.dinode_final (h.allocated h0 hn).1, if_neg he, (h.files n h0 hn).size]

end

theorem slot_cases (x : Slot) : x = indirect ∨ ∃ k, ∃ hk : k < MAXFILE, x = fileSlot k hk := by
  have hN : NDIRECT = 12 := rfl
  have hI : NINDIRECT = 256 := rfl
  have hM : MAXFILE = 268 := rfl
  rcases x with i | j
  · by_cases hi : i.val < NDIRECT
    · refine .inr ⟨i.val, by omega, ?_⟩
      rw [fileSlot_direct _ hi]
    · refine .inl (congrArg Slot.addr (Fin.ext ?_))
      show i.val = NDIRECT; omega
  · refine .inr ⟨NDIRECT + j.val, by omega, ?_⟩
    rw [fileSlot_entry _ (by omega)]
    congr 1; exact Fin.ext (by show j.val = NDIRECT + j.val - NDIRECT; omega)

section
variable (h : Built files s C) (hmod : (files.length + 2) % 64 ≠ 0)
include h hmod

theorem Built.refers_iff {x : Slot} : Refers (final s) n x ↔
    0 < n ∧ n < s.freeinode ∧ x.get (marked s) (dinode mkfsSb (marked s) n) ≠ 0 := by
  unfold Refers
  rw [h.allocated_iff, and_assoc]
  refine and_congr_right fun h0 => and_congr_right fun hn => ?_
  have hfull := (h.files n h0 hn).full
  rw [h.sizeBlocks_eq hmod h0 hn]
  constructor
  · rintro (⟨rfl, hlt⟩ | ⟨k, hk, hlt, rfl⟩)
    · exact hfull.ind.mpr (decide_eq_true hlt)
    · exact (hfull.addr k hk).mpr hlt
  · intro hx
    rcases slot_cases x with rfl | ⟨k, hk, rfl⟩
    · exact .inl ⟨rfl, of_decide_eq_true (hfull.ind.mp hx)⟩
    · exact .inr ⟨k, hk, (hfull.addr k hk).mp hx, rfl⟩

theorem Built.wellFormed : WellFormed (final s) := by
  have hF : FSSIZE = 2000 := rfl
  have hs : mkfsSb.size = 2000 := rfl
  have hM : nmeta = 46 := rfl
  have hlow : mkfsSb.size - mkfsSb.nblocks = 46 := rfl
  have haddr : ∀ {n x}, 0 < n → n < s.freeinode → addrOf mkfsSb (marked s) (dinode mkfsSb (marked s)) (n, x) =
        x.get (marked s) (dinode mkfsSb (marked s) n) := fun h0 hn =>
    addrOf_of_allocated (h.allocated h0 hn).1 (h.allocated h0 hn).2 _
  refine ⟨fun n ha k hk => ?_, fun n x n' x' hx hx' heq => ?_, fun b hb => ?_⟩
  · obtain ⟨h0, hn⟩ := h.allocated_iff.mp ha
    have hfull := (h.files n h0 hn).full
    rw [h.sizeBlocks_eq hmod h0 hn] at hk
    have hkm : k < MAXFILE := lt_of_lt_of_le hk hfull.le_max
    rw [fileAddr_eq hkm, h.get_final h0 hn]; exact (hfull.addr k hkm).mpr hk
  · obtain ⟨h0, hn, hne⟩ := (h.refers_iff hmod).mp hx
    obtain ⟨h0', hn', -⟩ := (h.refers_iff hmod).mp hx'
    rw [h.get_final h0 hn, h.get_final h0' hn', ← haddr h0 hn, ← haddr h0' hn'] at heq
    have := h.image.owned.alone _ _ (by rw [haddr h0 hn]; exact hne) heq
    exact Prod.mk.inj this
  · rw [h.usedBit_final (by omega), decide_eq_true_iff]
    have hfb := h.low
    have hhigh := h.high
    have hbn : (BitVec.ofNat 32 b).toNat = b := by rw [BitVec.toNat_ofNat, mod_eq_of_lt (by omega)]
    constructor
    · intro hlt
      by_cases hmeta : b < nmeta
      · exact .inl hmeta
      · have hd : mkfsSb.IsData (BitVec.ofNat 32 b) := ⟨by omega, by omega⟩
        have hu : used mkfsSb (marked s) (BitVec.ofNat 32 b) := by
          unfold used
          rw [usedBit_marked hd.2 hhigh, hbn]; exact decide_eq_true hlt
        obtain ⟨⟨n, x⟩, hx⟩ := (h.image.owned.used_iff _ hd).mp hu
        obtain ⟨hni, ht⟩ := addrOf_allocated (hx.trans_ne hd.ne_zero)
        have hpos : 0 < n ∧ n < s.freeinode := by
          by_contra hc
          rw [h.kinds n hni] at ht; exact ht (if_neg hc)
        have hget := (haddr hpos.1 hpos.2).symm.trans hx
        refine .inr ⟨n, x, (h.refers_iff hmod).mpr ⟨hpos.1, hpos.2, hget.trans_ne hd.ne_zero⟩, ?_⟩
        rw [h.get_final hpos.1 hpos.2, hget, hbn]
    · rintro (hlt | ⟨n, x, hr, rfl⟩)
      · omega
      · obtain ⟨h0, hn, hne⟩ := (h.refers_iff hmod).mp hr
        rw [h.get_final h0 hn, ← haddr h0 hn] at hb ⊢
        have hne' := hne
        rw [← haddr h0 hn] at hne'
        have hu := h.image.owned.used_addr hne'
        unfold used at hu
        rw [usedBit_marked hb hhigh] at hu; exact of_decide_eq_true hu

end

theorem Built.hole (h : Built files s C) (hmod : (files.length + 2) % 64 = 0) :
    (files.length + 2) / 64 < sizeBlocks (final s) ROOTINO ∧
      fileAddr (final s) (dinode mkfsSb (final s) ROOTINO) ((files.length + 2) / 64) = 0 := by
  have hB : BSIZE = 1024 := rfl
  have hM : MAXFILE = 268 := rfl
  have hN : NINODES = 200 := rfl
  have hcount := h.count
  have hin := h.inodes
  have hk : (files.length + 2) / 64 < MAXFILE := by omega
  constructor
  · unfold sizeBlocks
    rw [h.size_root]
    unfold nblk
    rw [hB]; omega
  · have hfull := (h.files ROOTINO (by decide) h.root_lt).full
    rw [fileAddr_eq hk, h.get_final (by decide) h.root_lt]
    by_contra hne
    have hlt := (hfull.addr _ hk).mp hne
    rw [h.length_root] at hlt
    unfold nblk at hlt
    rw [hB] at hlt; omega

/-- **When the image is well formed**: for files that fit, exactly if the entries of the root directory do not
fill its last block. -/
theorem image_wellFormed_iff (files : List Input) (hf : Fits files) : ∃ img, mkfs files = .ok img ∧
    (WellFormed img ↔ (files.length + 2) % 64 ≠ 0) := by
  obtain ⟨s, C, hb, himg⟩ := mkfs_built hf
  refine ⟨final s, himg, fun hw hmod => ?_, hb.wellFormed⟩
  obtain ⟨hlt, h0⟩ := hb.hole hmod
  exact hw.addressed ROOTINO (hb.allocated_iff.mpr ⟨by decide, hb.root_lt⟩) _ hlt h0

def cat : Input :=
  ⟨[117, 115, 101, 114, 47, 95, 99, 97, 116], [[127, 69], [76, 70, 2]], by decide, by decide⟩

theorem image_wellFormed_iff_cat : ∃ img, mkfs [cat] = .ok img ∧ WellFormed img := by
  obtain ⟨img, himg, hiff⟩ := image_wellFormed_iff [cat] ⟨by decide, by decide, by decide, by decide +kernel⟩
  exact ⟨img, himg, hiff.mpr (by decide)⟩

def manyFiles : List Input := (List.finRange 62).map fun k =>
  ⟨[BitVec.ofNat 8 (97 + k.val / 8), BitVec.ofNat 8 (97 + k.val % 8)], [], by revert k; decide, by simp⟩

/-- The root directory has 64 entries in one block, and its size is that of two. -/
theorem manyFiles_hole : Fits manyFiles ∧ ∃ img, mkfs manyFiles = .ok img ∧ sizeBlocks img ROOTINO = 2 ∧
    fileAddr img (dinode mkfsSb img ROOTINO) 1 = 0 ∧ ¬ WellFormed img := by
  have hf : Fits manyFiles := ⟨by decide +kernel, by decide +kernel, by decide +kernel, by decide +kernel⟩
  obtain ⟨s, C, hb, himg⟩ := mkfs_built hf
  have hlen : manyFiles.length = 62 := rfl
  obtain ⟨hlt, h0⟩ := hb.hole (by rw [hlen])
  rw [hlen] at hlt h0
  refine ⟨hf, final s, himg, ?_, h0, fun hw => ?_⟩
  · unfold sizeBlocks; rw [hb.size_root, hlen]; rfl
  · exact hw.addressed ROOTINO (hb.allocated_iff.mpr ⟨by decide, hb.root_lt⟩) _ hlt h0

end Xv6.Mkfs.Image
