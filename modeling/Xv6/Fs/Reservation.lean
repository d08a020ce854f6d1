import Xv6.Fs.Writers

/-!
# The log reservation of a write

`filewrite` splits a write into chunks, so that a `writei` logs no more than the `MAXOPBLOCKS` blocks that its
operation has reserved.  Two blocks are kept for the indirect block and its bit; a round that allocates costs two
more, one that finds its block costs one, and an unaligned chunk finds its first block.  What the commands reply,
and so what others do to the bitmap in between, is left open (`h`).
-/

namespace Xv6.Fs.Reservation

open Param Lib.Programs Fs.Layout Fs.Files Fs.Ownership Fs.Writers Finset
open Fs.LogOps (Block)

variable {S α : Type} {h : (c : Cmd) → S → c.Reply × S}

def logged : Cmd → List Word
  | .logWrite b => [b]
  | _ => []

abbrev Count (S : Type) := S × Finset Word

def answers (h : (c : Cmd) → S → c.Reply × S) (s : S) : Store.Blocks := fun b => (h (.bread b) s).1

/-- The commands reply as `h` says, and the blocks they log are collected. -/
def note (h : (c : Cmd) → S → c.Reply × S) (c : Cmd) (t : Count S) : c.Reply × Count S :=
  ((h c t.1).1, (h c t.1).2, t.2 ∪ (logged c).toFinset)

abbrev Logs (h : (c : Cmd) → S → c.Reply × S) (p : Code α) (Q : α → Count S → Prop) (t : Count S) : Prop :=
  wp (Meaning.of (note h) (fun _ => True) fun _ => False) p Q t

theorem logged_of_wp {p : Code α} {s : S} {F : Finset Word} {C : Finset Word → Prop}
    (hp : Logs h p (fun _ t => C t.2) (s, F)) : C (F ∪ ((p.trace h s).flatMap logged).toFinset) := by
  induction p generalizing s F with
  | ret a =>
    have hC : C F := hp; simpa [Prog.trace] using hC
  | fail e => exact hp.elim
  | cmd c k ih =>
    have hk := ih _ hp.2
    rw [union_assoc, ← List.toFinset_append] at hk; exact hk

variable {sb : Superblock} {b addr i r : Word} {data : Block} {t : Count S} {ip : Inode} {n bn d : ℕ}
  {F F' : Finset Word} {Q : Unit → Count S → Prop}

theorem wp_quiet {c : Cmd} {Q : c.Reply → Count S → Prop} (hc : logged c = []) (hQ : ∀ r s, Q r (s, t.2)) :
    Logs h (.call c) Q t := by
  refine ⟨trivial, ?_⟩
  have := hQ (h c t.1).1 (h c t.1).2; simpa [wp, note, hc] using this

theorem wp_bread {Q : Block → Count S → Prop} (hQ : ∀ s, Q (answers h t.1 b) (s, t.2)) : Logs h (bread b) Q t := by
  refine ⟨trivial, ?_⟩
  have := hQ (h (.bread b) t.1).2
  unfold answers at this; simpa [wp, note, logged] using this

theorem wp_log (hQ : ∀ s, Q () (s, insert b t.2)) : Logs h (logWrite b) Q t := by
  refine ⟨trivial, ?_⟩
  have := hQ (h (.logWrite b) t.1).2; rwa [insert_eq, union_comm] at this

theorem wp_putBack (hQ : ∀ s, Q () (s, insert b t.2)) : Logs h (putBack b data) Q t :=
  .bind (wp_quiet rfl fun _ _ => .bind (wp_log fun _ => wp_quiet rfl fun _ => hQ))

/-- At most `d` blocks are logged, where `i` is the address of the indirect block: if there is one it is counted,
and if there is none yet two are kept for it. -/
def Fits (d : ℕ) (i : Word) (F : Finset Word) : Prop :=
  if i = 0 then F.card + 2 ≤ d else (insert i F).card ≤ d

theorem fits_start (i : Word) : Fits 2 i ∅ := by
  unfold Fits
  split_ifs <;> simp

theorem Fits.card (hf : Fits d i F) : F.card ≤ d := by
  unfold Fits at hf
  split_ifs at hf
  · omega
  · exact (card_le_card (subset_insert i F)).trans hf

theorem Fits.mono (hf : Fits d i F) {e : ℕ} (hde : d ≤ e) : Fits e i F := by
  unfold Fits at hf ⊢
  split_ifs at hf ⊢ <;> omega

theorem Fits.of_insert (hf : Fits d i (insert b F)) : Fits d i F := by
  have hF := subset_insert b F
  unfold Fits at hf ⊢
  split_ifs at hf ⊢
  · have := card_le_card hF; omega
  · exact (card_le_card (insert_subset_insert i hF)).trans hf

theorem Fits.log (hf : Fits d i F) (b : Word) : Fits (d + 1) i (insert b F) := by
  unfold Fits at hf ⊢
  split_ifs at hf ⊢
  · have := card_insert_le b F; omega
  · rw [insert_comm]; have := card_insert_le b (insert i F); omega

theorem Fits.indirect (hf : Fits d i F) (hi : i ≠ 0) : Fits d i (insert i F) := by
  unfold Fits at hf ⊢
  rw [if_neg hi] at hf ⊢; rwa [insert_idem]

theorem Fits.allocated (hf : Fits d 0 F) (hb : b ≠ 0) (x : Word) : Fits d b (insert b (insert x F)) := by
  unfold Fits at hf ⊢
  rw [if_pos rfl] at hf
  rw [if_neg hb, insert_idem]
  have h1 := card_insert_le x F
  have h2 := card_insert_le b (insert x F); omega

/-- `balloc` logs the block that it returns and its block of the bitmap, or fails. -/
def Allocated (F : Finset Word) (r : Word) (F' : Finset Word) : Prop :=
  (r = 0 ∧ F' = F) ∨ ∃ x, F' = insert r (insert x F)

theorem Allocated.fits (ha : Allocated F r F') (hf : Fits d i F) : Fits (d + 2) i (insert r F') := by
  rcases ha with ⟨-, rfl⟩ | ⟨x, rfl⟩
  · exact (hf.log r).mono (by omega)
  · rw [insert_idem]; exact (hf.log x).log r

theorem wp_ballocLoop (bs : List ℕ) : Logs h (ballocLoop sb bs) (fun r t' => Allocated t.2 r t'.2) t := by
  induction bs generalizing t with
  | nil => exact .inl ⟨rfl, rfl⟩
  | cons b bs ih =>
    refine .bind (wp_quiet rfl fun data s => ?_)
    cases freeBit sb data b with
    | none => exact .bind (wp_quiet rfl fun _ s => ih (t := (s, t.2)))
    | some bi =>
      refine .bind (wp_putBack fun s => .bind (.bind (wp_quiet rfl fun _ s => ?_)))
      exact wp_putBack fun s => .inr ⟨_, rfl⟩

theorem wp_balloc : Logs h (balloc sb) (fun r t' => Allocated t.2 r t'.2) t :=
  .bind (wp_quiet rfl fun _ s => wp_ballocLoop (t := (s, t.2)) _)

def lastOf (ip : Inode) : Word := ip.addrs (Fin.last NDIRECT)

theorem wp_mapDirect {j : Fin (NDIRECT + 1)} (hj : Fin.last NDIRECT ≠ j) (hf : Fits d (lastOf ip) t.2) :
    Logs h (mapAddr sb ip j) (fun r t' => Fits (d + 2) (lastOf r.2) (insert r.1 t'.2)) t := by
  unfold mapAddr
  split_ifs with h0
  · refine .bind (wp_mono (fun r t' ha => ?_) wp_balloc)
    have hlast : lastOf (ip.setAddr j r) = lastOf ip := Function.update_of_ne hj _ _
    split_ifs with hr
    · exact hr ▸ ha.fits hf
    · show Fits _ (lastOf (ip.setAddr j r)) _
      rw [hlast]; exact ha.fits hf
  · exact (hf.log _).mono (by omega)

theorem wp_mapIndirect (hf : Fits d (lastOf ip) t.2) : Logs h (mapAddr sb ip (Fin.last NDIRECT)) (fun r t' =>
    (r.1 = 0 ∧ Fits (d + 2) (lastOf r.2) (insert 0 t'.2)) ∨ (r.1 ≠ 0 ∧ lastOf r.2 = r.1 ∧ Fits d r.1 t'.2)) t := by
  unfold mapAddr
  split_ifs with h0
  · refine .bind (wp_mono (fun r t' ha => ?_) wp_balloc)
    split_ifs with hr
    · exact .inl ⟨rfl, hr ▸ ha.fits hf⟩
    · refine .inr ⟨hr, by simp [lastOf, Inode.setAddr], ?_⟩
      obtain ⟨x, hx⟩ := ha.resolve_left fun h => hr h.1
      rw [show lastOf ip = 0 from h0] at hf
      rw [hx]; exact hf.allocated hr x
  · exact .inr ⟨h0, rfl, hf⟩

theorem wp_mapEntry (ha : addr ≠ 0) (hf : Fits d addr t.2) :
    Logs h (mapEntry sb addr bn) (fun r t' => Fits (d + 2) addr (insert r t'.2)) t := by
  refine .bind (wp_quiet rfl fun a s => ?_)
  split_ifs with h0
  · refine .bind (wp_mono (fun e t' he => ?_) wp_balloc)
    have hfit := he.fits hf
    split_ifs with he0
    · exact .bind (wp_quiet rfl fun _ _ => he0 ▸ hfit)
    · refine .bind (wp_putBack fun _ => ?_)
      show Fits _ _ (insert e (insert addr t'.2))
      rw [insert_comm]; exact hfit.indirect ha
  · exact .bind (wp_quiet rfl fun _ _ => (hf.log _).mono (by omega))

theorem wp_bmap (hbn : bn < MAXFILE) (hf : Fits d (lastOf ip) t.2) :
    Logs h (bmap sb ip bn) (fun r t' => Fits (d + 2) (lastOf r.2) (insert r.1 t'.2)) t := by
  unfold bmap
  split_ifs with hd hi
  · exact wp_mapDirect (fun he => absurd (congrArg Fin.val he) (by simp; omega)) hf
  · refine .bind (wp_mono (fun r t' hr => ?_) (wp_mapIndirect hf))
    dsimp only at hr ⊢
    rcases hr with ⟨h0, hr⟩ | ⟨h0, hlast, hr⟩
    · rw [if_pos h0]; exact hr
    · rw [if_neg h0]
      refine .bind (wp_mono (fun e t'' he => ?_) (wp_mapEntry h0 hr))
      rw [← hlast] at he; exact he
  · exact absurd hbn (by unfold MAXFILE; omega)

theorem wp_bmap_found (hbn : fileAddr (answers h t.1) ip.toDinode bn ≠ 0) :
    Logs h (bmap sb ip bn) (fun r t' => r.2 = ip ∧ t'.2 = t.2) t := by
  have hlt := lt_of_fileAddr hbn
  rw [fileAddr_eq hlt] at hbn
  unfold fileSlot at hbn
  unfold bmap
  split_ifs with hd hi
  · rw [dif_pos hd] at hbn
    have h0 : ip.addrs ⟨bn, by omega⟩ ≠ 0 := hbn
    unfold mapAddr
    rw [if_neg h0]; exact ⟨rfl, rfl⟩
  · rw [dif_neg hd] at hbn
    dsimp only [Slot.get] at hbn
    have h0 : ip.addrs (Fin.last NDIRECT) ≠ 0 := fun h0 => hbn (if_pos h0)
    rw [if_neg h0] at hbn
    unfold mapAddr
    rw [if_neg h0]
    refine .bind ?_
    rw [wp_pure]
    dsimp only
    rw [if_neg h0]
    refine .bind (.bind (wp_bread fun s => ?_))
    rw [if_neg hbn]; exact .bind (wp_quiet rfl fun _ _ => ⟨rfl, rfl⟩)
  · exact absurd hlt (by unfold MAXFILE; omega)

variable {src : Src} {rounds tot off : ℕ}

theorem wp_storeChunk {bytes : List Vm.Copy.Byte} (hQ : ∀ s, Q () (s, t.2)) :
    Logs h (storeChunk addr data off bytes) Q t := by
  unfold storeChunk
  split_ifs
  · exact hQ t.1
  · exact wp_quiet rfl fun _ => hQ

theorem wp_round {Q : Inode × ℕ → Count S → Prop} (ht : tot < n)
    (hb : Logs h (bmap sb ip (off / BSIZE)) (fun r t' => Fits d (lastOf r.2) (insert r.1 t'.2)) t)
    (hrest : ∀ ip t, Fits d (lastOf ip) t.2 →
      Logs h (writeLoop sb src n rounds ip (tot + chunk n tot off) (off + chunk n tot off)) Q t)
    (hQ : ∀ ip t, Fits d (lastOf ip) t.2 → Q (ip, tot) t) :
    Logs h (writeLoop sb src n (rounds + 1) ip tot off) Q t := by
  rw [writeLoop, if_pos ht]
  refine .bind (wp_mono (fun r t' hr => ?_) hb)
  dsimp only
  split_ifs with h0 hok
  · exact hQ _ _ hr.of_insert
  · refine .bind (wp_quiet rfl fun data s => .bind (wp_storeChunk fun s => ?_))
    exact .bind (wp_log fun s => .bind (wp_quiet rfl fun _ s => hrest _ _ hr))
  · refine .bind (wp_quiet rfl fun data s => .bind (wp_storeChunk fun s => ?_))
    exact .bind (wp_quiet rfl fun _ s => hQ _ _ hr.of_insert)

def visits (off k : ℕ) : ℕ := if k = 0 then 0 else (off % BSIZE + k - 1) / BSIZE + 1

theorem visits_chunk (off : ℕ) (ht : tot < n) :
    visits (off + chunk n tot off) (n - (tot + chunk n tot off)) + 1 ≤ visits off (n - tot) := by
  unfold visits chunk BSIZE
  split_ifs <;> omega

theorem wp_writeLoop (hend : off + (n - tot) ≤ MAXFILE * BSIZE) (hf : Fits d (lastOf ip) t.2) :
    Logs h (writeLoop sb src n rounds ip tot off)
      (fun r t' => Fits (d + 2 * visits off (n - tot)) (lastOf r.1) t'.2) t := by
  induction rounds generalizing ip tot off t d with
  | zero => exact hf.mono (by omega)
  | succ rounds ih =>
    by_cases ht : tot < n
    · have hv := visits_chunk off ht
      have hbn : off / BSIZE < MAXFILE := Nat.div_lt_of_lt_mul (by rw [Nat.mul_comm]; omega)
      have hle : chunk n tot off ≤ n - tot := min_le_left _ _
      refine wp_round ht (wp_bmap hbn hf) (fun ip t hf => ?_) fun ip t hf => hf.mono (by omega)
      exact wp_mono (fun r t' hr => hr.mono (by omega)) (ih (by omega) hf)
    · rw [writeLoop, if_neg ht]; exact hf.mono (by omega)

/-- **A chunk fits in the reservation of its operation**: a `writei` of a chunk of `filewrite` to an inode without
holes logs at most `MAXOPBLOCKS` blocks, whatever the commands reply. -/
theorem chunk_fits (h : (c : Cmd) → S → c.Reply × S) (s : S) (sb : Superblock) (ip : Inode) (src : Src)
    (off n : Word) (hn : n.toNat ≤ chunkMax) (hfill : Filled (answers h s) ip.toDinode ip.size.toNat) :
    (((writei sb ip src off n).trace h s).flatMap logged).toFinset.card ≤ MAXOPBLOCKS := by
  suffices hwp : Logs h (writei sb ip src off n) (fun _ t => t.2.card ≤ MAXOPBLOCKS) (s, ∅) by
    simpa using logged_of_wp (C := fun F => F.card ≤ MAXOPBLOCKS) hwp
  have hB : BSIZE = 1024 := rfl
  have hmax : chunkMax = 3 * 1024 := rfl
  unfold writei
  split_ifs with hoff hbig
  · exact Nat.zero_le _
  · exact Nat.zero_le _
  obtain ⟨hsize, hsum⟩ := not_or.mp hoff
  rw [toNat_add_of_le hsum] at hbig
  rw [BitVec.lt_def] at hsize
  have hloop : Logs h (writeLoop sb src n.toNat n.toNat ip 0 off.toNat) (fun r t => Fits 9 (lastOf r.1) t.2)
      (s, ∅) := by
    by_cases hal : off.toNat % BSIZE = 0
    · refine wp_mono (fun r t hr => hr.mono ?_) (wp_writeLoop (by omega) (fits_start _))
      unfold visits
      rw [hB] at hal ⊢
      split_ifs <;> omega
    · -- the block of an unaligned offset is there
      cases hk : n.toNat with
      | zero => exact (fits_start _).mono (by omega)
      | succ k =>
        have haddr := hfill (off.toNat / BSIZE) (by rw [hB] at hal ⊢; omega)
        have hle : chunk (k + 1) 0 off.toNat ≤ k + 1 := min_le_left _ _
        refine wp_round (d := 3) (by omega) (wp_mono (fun r t hr => ?_) (wp_bmap_found haddr)) (fun ip t hf => ?_)
          fun ip t hf => hf.mono (by omega)
        · rw [hr.2]; exact (fits_start _).log _
        · refine wp_mono (fun r t hr => hr.mono ?_) (wp_writeLoop (by omega) hf)
          unfold visits chunk
          rw [hB] at hal ⊢
          split_ifs <;> omega
  refine .bind (wp_mono (fun r t hr => ?_) hloop)
  refine .bind (.bind (wp_quiet rfl fun _ _ => wp_putBack fun _ => ?_))
  exact (hr.log _).card

/-- A file of 1500 bytes, in the blocks 1000 and 1001. -/
def twoBlocks : Inode where
  type := 2
  major := 0
  minor := 0
  nlink := 1
  size := 1500
  addrs i := if i.val < 2 then BitVec.ofNat 32 (1000 + i.val) else 0
  inum := 2

/-- The first 1024 blocks are in use. -/
def lowUsed : Store.Blocks := fun b =>
  if b = mkfsSb.BBLOCK 0 then fun i => if i.val < 32 then -1 else 0 else zeroBlock

/-- A whole chunk at the end of the file fills up its second block and allocates three: with the bitmap and the
block of the inode, six blocks are logged. -/
theorem chunk_fits_unaligned :
    let log := ((writei mkfsSb twoBlocks (.kernel (List.replicate 3072 7)) 1500 3072).trace Store.handle
      lowUsed).flatMap logged
    log.toFinset.card = 6 ∧ log.toFinset.card ≤ MAXOPBLOCKS := by
  have hfill : Filled (answers Store.handle lowUsed) twoBlocks.toDinode 1500 := by
    have hall : ∀ bn < 2, fileAddr (answers Store.handle lowUsed) twoBlocks.toDinode bn ≠ 0 := by decide +kernel
    intro bn hbn
    unfold BSIZE at hbn; exact hall bn (by omega)
  exact ⟨by decide +kernel, chunk_fits Store.handle _ _ _ _ 1500 3072 (by decide) hfill⟩

end Xv6.Fs.Reservation
