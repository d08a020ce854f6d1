import Xv6.Fs.Itable

/-!
# Files have no holes

`readi` maps blocks with `bmap`, which allocates where there is no address.  In a file without holes it only
reads (`reads`), and since the functions that write never leave a hole, in every run reading allocates and logs
nothing.  This rests on blocks having one owner: a write to a file whose data is the indirect block of another
can make a hole in that one.
-/

namespace Xv6.Fs.Holes

open Param Lib.Runs Lib.Programs Vm.Copy Fs.Layout Fs.Files Fs.Store Option
open Fs.Ownership Fs.Itable
open Fs.LogOps (Block)

def IsRead : Cmd → Prop
  | .bread _ | .brelse _ => True
  | _ => False

abbrev reads (bad : Panic → Prop) : Meaning Cmd Cmd.Reply Panic Blocks := Meaning.of handle IsRead bad

variable {sb : Superblock} {σ : Blocks} {ip : Inode} {bad : Panic → Prop}
variable {Q : Inode × Dst × ℤ → Blocks → Prop} {dst : Dst}

theorem wp_bmap_reads {bn : ℕ} (h0 : fileAddr σ ip.toDinode bn ≠ 0) {Q : Word × Inode → Blocks → Prop}
    (hQ : Q (fileAddr σ ip.toDinode bn, ip) σ) : wp (reads bad) (bmap sb ip bn) Q σ := by
  have hbn := lt_of_fileAddr h0
  rw [fileAddr_eq hbn] at h0 hQ
  unfold bmap mapAddr mapEntry
  unfold fileSlot at h0 hQ
  by_cases hd : bn < NDIRECT
  · rw [dif_pos hd] at h0 hQ ⊢
    have h0 : ip.addrs ⟨bn, by omega⟩ ≠ 0 := h0
    rw [if_neg h0]; exact hQ
  · rw [dif_neg hd] at h0 hQ ⊢
    have hlt : bn - NDIRECT < NINDIRECT := by unfold MAXFILE at hbn; omega
    have hind : ip.addrs (Fin.last NDIRECT) ≠ 0 := fun hz => h0 (get_entry_of_zero hz)
    rw [get_entry hind] at h0 hQ
    rw [if_pos hlt, if_neg hind]
    refine .bind (wp_pure.mpr ?_)
    dsimp only
    rw [if_neg hind]
    refine .bind (.bind ⟨trivial, ?_⟩)
    have hw : (σ (ip.addrs (Fin.last NDIRECT))).word (bn - NDIRECT) ≠ 0 := h0
    show wp (reads bad) (if (σ (ip.addrs (Fin.last NDIRECT))).word (bn - NDIRECT) = 0 then _ else _) _ σ
    rw [if_neg hw]; exact .bind ⟨trivial, hQ⟩

theorem wp_readLoop {n k : ℕ} (hf : Filled σ ip.toDinode k) (rounds : ℕ) {tot off : ℕ}
    (hend : off + (n - tot) ≤ k) (hQ : ∀ dst r, Q (ip, dst, r) σ) :
    wp (reads bad) (readLoop sb n rounds ip dst tot off) Q σ := by
  induction rounds generalizing dst tot off with
  | zero => exact hQ _ _
  | succ rounds ih =>
    unfold readLoop
    by_cases ht : tot < n
    · rw [if_pos ht]
      have hB : BSIZE = 1024 := rfl
      have h0 : fileAddr σ ip.toDinode (off / BSIZE) ≠ 0 := hf _ (by rw [hB]; omega)
      refine .bind (wp_bmap_reads h0 ?_)
      dsimp only
      rw [if_neg h0]
      refine .bind ⟨trivial, .bind ⟨trivial, ?_⟩⟩
      have hc : chunk n tot off ≤ n - tot := chunk_le
      split_ifs
      · exact ih (by omega)
      · exact hQ _ _
    · rw [if_neg ht]; exact hQ _ _

theorem wp_readi (hf : Filled σ ip.toDinode ip.size.toNat) {off n : Word} (hQ : ∀ dst r, Q (ip, dst, r) σ) :
    wp (reads bad) (readi sb ip dst off n) Q σ := by
  unfold readi
  by_cases h : ip.size < off ∨ off + n < off
  · rw [if_pos h]; exact hQ _ _
  · rw [if_neg h]
    rw [not_or] at h
    have hsum := toNat_add_of_le h.2
    have hoff : off ≤ ip.size := BitVec.not_lt.mp h.1
    refine wp_readLoop hf _ ?_ hQ
    by_cases hlt : ip.size < off + n
    · rw [if_pos hlt, BitVec.toNat_sub_of_le hoff]
      have := BitVec.le_def.mp hoff; omega
    · rw [if_neg hlt]; have := BitVec.le_def.mp (BitVec.not_lt.mp hlt); omega

def IsDirPanic : Panic → Prop
  | .dirlookupNotDir | .dirlookupRead | .dirlinkRead => True
  | _ => False

variable {dp : Inode} (hf : Filled σ dp.toDinode dp.size.toNat)
include hf

theorem wp_readDirent {e : Panic} (he : IsDirPanic e) {off : ℕ} {Q : Inode × Dirent → Blocks → Prop}
    (hQ : ∀ de, Q (dp, de) σ) : wp (reads IsDirPanic) (readDirent sb e dp off) Q σ := by
  refine .bind (wp_readi hf fun dst r => ?_)
  dsimp only
  split_ifs
  · exact hQ _
  · exact he

variable {name : ℕ → Byte} {Q : Inode × Option (ℕ × ℕ) → Blocks → Prop} {inum : BitVec 16} {offs : List ℕ}

theorem wp_lookupLoop (hQ : ∀ r, Q (dp, r) σ) : wp (reads IsDirPanic) (lookupLoop sb name offs dp) Q σ := by
  induction offs with
  | nil => exact hQ _
  | cons off offs ih =>
    refine .bind (wp_readDirent (e := .dirlookupRead) hf trivial fun de => ?_)
    dsimp only
    split_ifs
    · exact hQ _
    · exact ih

theorem wp_dirlookup (hQ : ∀ r, Q (dp, r) σ) : wp (reads IsDirPanic) (dirlookup sb dp name) Q σ := by
  unfold dirlookup
  split_ifs
  · exact wp_lookupLoop hf hQ
  · exact trivial

theorem wp_emptyLoop {next : ℕ} {Q : Inode × ℕ → Blocks → Prop}
    (hQ : ∀ off, Q (dp, off) σ) : wp (reads IsDirPanic) (emptyLoop sb offs dp next) Q σ := by
  induction offs generalizing next with
  | nil => exact hQ _
  | cons off offs ih =>
    refine .bind (wp_readDirent (e := .dirlinkRead) hf trivial fun de => ?_)
    dsimp only
    split_ifs
    · exact hQ _
    · exact ih

theorem wp_dirlink (h : Synced sb σ dp) (ht : dp.type ≠ 0) {Q : Inode × Linked → Blocks → Prop}
    (hQ : ∀ dp' r σ', Done sb σ dp σ' dp' → dp'.type = dp.type → Q (dp', r) σ') :
    wp (Meaning.of handle (fun _ => True) IsDirPanic) (dirlink sb dp name inum) Q σ := by
  have hdone : Done sb σ dp σ dp := ⟨h, rfl, .refl, id⟩
  have hread : ∀ {α : Type} {p : Code α} {Q : α → Blocks → Prop}, wp (reads IsDirPanic) p Q σ →
      wp (Meaning.of handle (fun _ => True) IsDirPanic) p Q σ :=
    fun hp => wp_weaken (fun _ _ => trivial) (fun _ => id) hp
  refine .bind (hread (wp_dirlookup hf fun r => ?_))
  cases r with
  | some x => exact hQ _ _ _ hdone rfl
  | none =>
    refine .bind (hread (wp_emptyLoop hf fun off => ?_))
    refine .bind (wp_weaken (fun _ _ => trivial) (fun _ hb => hb.elim) (wp_writei h ht ?_))
    intro dp' r σ' hd ht'; exact hQ _ _ _ hd ht'

variable {s' : State}

omit hf

/-! ## Runs -/

variable (sb)

/-- `dirlink` on a locked directory.  An inode of this name is taken and put again. -/
def dirlink (s : State) (i : Fin NINODE) (name : ℕ → Byte) (inum : BitVec 16) : Except Panic State := do
  let ((dp, r), s) ← call s (Files.dirlink sb (s.table i).inode name inum)
  let s := s.put i { s.table i with copy := dp.toDinode }
  match r with
  | .present n =>
    let (j, s) ← iget s n
    iput sb s j
  | _ => return s

/-- The calls of `Xv6.Fs.Itable`, and those that read.  What `dirlookup` finds is taken with `iget`. -/
inductive Ev
  | op (o : Op)
  | readi (i : Fin NINODE) (dst : Dst) (off n : Word)
  | dirlookup (i : Fin NINODE) (name : ℕ → Byte)
  | dirlink (i : Fin NINODE) (name : ℕ → Byte) (inum : BitVec 16)

def exec (s : State) : Ev → Option (Except Panic State)
  | .op o => Itable.exec sb s o
  | .readi i dst off n =>
    if 0 < (s.table i).ref ∧ (s.table i).valid then
      some (change s i fun ip => do return (← readi sb ip dst off n).1)
    else none
  | .dirlookup i name =>
    if 0 < (s.table i).ref ∧ (s.table i).valid then
      some (change s i fun dp => do return (← dirlookup sb dp name).1)
    else none
  | .dirlink i name inum =>
    if 0 < (s.table i).ref ∧ (s.table i).valid then some (dirlink sb s i name inum) else none

/-- Any calls, from an image with `I` and an empty table. -/
def sys (I : Blocks → Prop) : Sys State Ev where
  init s := I s.store ∧ ∀ i, (s.table i).ref = 0
  step s e s' := exec sb s e = some (.ok s')

structure Inv (s : State) : Prop where
  table : Itable.Inv sb s
  noHoles : NoHoles sb s.store

variable {sb} {s : State} {i : Fin NINODE}

theorem Inv.filled (h : Inv sb s) (hr : 0 < (s.table i).ref) (hv : (s.table i).valid = true) :
    Filled s.store (s.table i).inode.toDinode (s.table i).inode.size.toNat := by
  obtain ⟨hc, ht⟩ := h.table.copy i hr hv
  show Filled s.store (s.table i).copy (s.table i).copy.size.toNat
  rw [hc] at ht ⊢; exact h.noHoles _ (h.table.inum i hr) ht

theorem change_reads {f : Inode → Code Inode} (hs : change s i f = .ok s')
    (hf : wp (reads IsDirPanic) (f (s.table i).inode)
      (fun ip σ => ip = (s.table i).inode ∧ σ = s.store) s.store) : s' = s := by
  unfold change at hs
  rcases call_cases (wp_weaken (fun _ _ => trivial) (fun _ => id) hf) with
    ⟨e, he, -⟩ | ⟨ip, σ, hc, rfl, rfl⟩
  · rw [he] at hs; cases hs
  · rw [hc] at hs
    cases hs
    have hself : Function.update s.table i (s.table i) = s.table := Function.update_eq_self _ _
    show ({ s with table := Function.update s.table i (s.table i) } : State) = s
    rw [hself]

theorem Inv.dirlink (h : Inv sb s) (hr : 0 < (s.table i).ref) (hv : (s.table i).valid = true)
    (hs : dirlink sb s i name inum = .ok s') : Inv sb s' := by
  obtain ⟨hsync, ht⟩ := h.table.synced hr hv
  unfold Holes.dirlink at hs
  rcases call_cases (wp_dirlink (h.filled hr hv) hsync ht (Q := fun r σ =>
      Done sb s.store (s.table i).inode σ r.1 ∧ r.1.type = (s.table i).inode.type)
      fun _ _ _ hd ht' => ⟨hd, ht'⟩) with ⟨e, he, -⟩ | ⟨⟨dp, r⟩, σ, hc, hd, ht'⟩
  · rw [he] at hs; cases hs
  · rw [hc] at hs
    obtain ⟨hi, hh⟩ := h.table.done hr hv hd ht'
    cases r with
    | present n =>
      change ((Itable.iget _ n).bind fun x => iput sb x.2 x.1) = .ok s' at hs
      cases hg : Itable.iget (State.put { s with store := σ } i { s.table i with copy := dp.toDinode }) n with
      | error e => rw [hg] at hs; cases hs
      | ok x =>
        rw [hg] at hs
        obtain ⟨j, s1⟩ := x
        obtain ⟨s2, hp, hi', hst⟩ := hi.getPut hg
        change iput sb s1 j = .ok s' at hs
        rw [hp] at hs
        cases hs
        refine ⟨hi', ?_⟩
        rw [hst]; exact hh h.noHoles
    | failed | ok =>
      cases hs; exact ⟨hi, hh h.noHoles⟩

theorem Inv.exec (h : Inv sb s) {e : Ev} (hs : exec sb s e = some (.ok s')) : Inv sb s' := by
  cases e with
  | op o =>
    obtain ⟨ht, hh⟩ := h.table.exec hs; exact ⟨ht, hh h.noHoles⟩
  | readi i dst off n =>
    obtain ⟨hr, hs⟩ := ite_none_right_eq_some.mp hs
    have heq : s' = s := change_reads (Option.some.inj hs)
      (.bind (wp_readi (h.filled hr.1 hr.2) fun _ _ => ⟨rfl, rfl⟩))
    rw [heq]; exact h
  | dirlookup i name =>
    obtain ⟨hr, hs⟩ := ite_none_right_eq_some.mp hs
    have heq : s' = s := change_reads (Option.some.inj hs)
      (.bind (wp_dirlookup (h.filled hr.1 hr.2) fun _ => ⟨rfl, rfl⟩))
    rw [heq]; exact h
  | dirlink i name inum =>
    obtain ⟨hr, hs⟩ := ite_none_right_eq_some.mp hs
    exact h.dirlink hr.1 hr.2 (Option.some.inj hs)

theorem run_inv {hist : List (State × Ev)}
    (hr : Run (sys sb fun σ => Image sb σ (dinode sb σ) ∧ NoHoles sb σ) hist s) : Inv sb s := by
  refine hr.inv (fun s hs => ⟨?_, hs.1.2⟩) fun s e s' h hs => h.exec hs
  exact Itable.run_inv (.start ⟨hs.1.1, hs.2⟩)

theorem trace_reads {α : Type} {p : Code α} (h : wp (reads fun _ => False) p (fun _ _ => True) σ) :
    ∀ c ∈ p.trace handle σ, IsRead c :=
  (wp_iff.mp h).1

/-- **Files have no holes**, and reading allocates and logs nothing. -/
theorem reading_allocates_nothing {hist : List (State × Ev)}
    (hr : Run (sys sb fun σ => Image sb σ (dinode sb σ) ∧ NoHoles sb σ) hist s) :
    NoHoles sb s.store ∧ ∀ i, 0 < (s.table i).ref → (s.table i).valid = true →
      (∀ bn, bn * BSIZE < (s.table i).copy.size.toNat →
        Cmd.enter .balloc ∉ (bmap sb (s.table i).inode bn).trace handle s.store) ∧
      ∀ dst off n, Cmd.enter .balloc ∉ (readi sb (s.table i).inode dst off n).trace handle s.store ∧
        ∀ b, Cmd.logWrite b ∉ (readi sb (s.table i).inode dst off n).trace handle s.store := by
  have h := run_inv hr
  refine ⟨h.noHoles, fun i hi hv => ⟨fun bn hbn hc => ?_, fun dst off n => ?_⟩⟩
  · exact trace_reads (wp_bmap_reads (h.filled hi hv bn hbn) trivial) _ hc
  · have hread := trace_reads (wp_readi (h.filled hi hv) fun _ _ => trivial) (p := readi sb _ dst off n)
    exact ⟨fun hc => hread _ hc, fun b hc => hread _ hc⟩

def firstEntry : List Ev :=
  [.op (.ialloc T_DIR), .op (.ilock 0), .dirlink 0 (fun i => if i = 0 then 97 else 0) 1,
    .dirlookup 0 (fun i => if i = 0 then 97 else 0)]

/-- Reading the entry logs nothing. -/
theorem reading_allocates_nothing_once : ∃ s, (∃ hist, Run (sys mkfsSb fun σ =>
    Image mkfsSb σ (dinode mkfsSb σ) ∧ NoHoles mkfsSb σ) hist s) ∧ (s.table 0).copy.size = 16 ∧
    NoHoles mkfsSb s.store ∧
    ∀ b, Cmd.logWrite b ∉ (readi mkfsSb (s.table 0).inode (.kernel []) 0 16).trace handle s.store := by
  have h0 : (sys mkfsSb fun σ => Image mkfsSb σ (dinode mkfsSb σ) ∧ NoHoles mkfsSb σ).init freshState :=
    ⟨⟨image_freshStore, fun n hn ht => absurd (type_freshStore hn) ht⟩, fun _ => rfl⟩
  obtain ⟨s, hr, -, ht⟩ := exists_run (f := fun s e => okOf (exec mkfsSb s e))
    (fun _ _ _ h => okOf_eq_some h) h0 firstEntry (fun s => decide (0 < (s.table 0).ref ∧
      (s.table 0).valid = true ∧ (s.table 0).copy.size = 16)) (by decide +kernel)
  obtain ⟨href, hv, hsize⟩ := of_decide_eq_true ht
  obtain ⟨hno, hread⟩ := reading_allocates_nothing hr
  exact ⟨s, ⟨_, hr⟩, hsize, hno, ((hread 0 href hv).2 _ _ _).2⟩

def sharedStore : Blocks := fun b =>
  if b = mkfsSb.IBLOCK 1 then
    setDinode (setDinode zeroBlock 1 ⟨2, 0, 0, 1, 13312, fun i => BitVec.ofNat 32 (100 + i)⟩) 2
      ⟨2, 0, 0, 1, 4, fun i => if i = 0 then 112 else 0⟩
  else if b = 112 then zeroBlock.setWord 0 113
  else zeroBlock

theorem noHoles_sharedStore : NoHoles mkfsSb sharedStore := by
  have hall : ∀ n : Fin 200, (dinode mkfsSb sharedStore n).type ≠ 0 →
      (dinode mkfsSb sharedStore n).size.toNat ≤ 13312 ∧
      ∀ bn : Fin 13, bn.val * 1024 < (dinode mkfsSb sharedStore n).size.toNat →
        fileAddr sharedStore (dinode mkfsSb sharedStore n) bn ≠ 0 := by decide +kernel
  intro n hn ht bn hbn
  obtain ⟨hle, h⟩ := hall ⟨n, hn⟩ ht
  have hB : BSIZE = 1024 := rfl
  rw [hB] at hbn
  have hlt : bn < 13 := by have : (dinode mkfsSb sharedStore n).size.toNat ≤ 13312 := hle; omega
  exact h ⟨bn, hlt⟩ hbn

def writeShared : List Ev :=
  [.op (.iget 2), .op (.ilock 0), .op (.writei 0 (.kernel [0, 0, 0, 0]) 0 4)]

/-- **When a block has two owners**, a write to a file makes a hole in another. -/
theorem shared_block_hole : ¬ ∀ s, Reachable (sys mkfsSb (NoHoles mkfsSb)) s → NoHoles mkfsSb s.store := by
  intro hall
  have h0 : (sys mkfsSb (NoHoles mkfsSb)).init { freshState with store := sharedStore } :=
    ⟨noHoles_sharedStore, fun _ => rfl⟩
  obtain ⟨s, hr, -, ht⟩ := exists_run (f := fun s e => okOf (exec mkfsSb s e))
    (fun _ _ _ h => okOf_eq_some h) h0 writeShared (fun s => decide ((dinode mkfsSb s.store 1).type ≠ 0 ∧
      12 * BSIZE < (dinode mkfsSb s.store 1).size.toNat ∧
      fileAddr s.store (dinode mkfsSb s.store 1) 12 = 0)) (by decide +kernel)
  obtain ⟨htype, hsize, hhole⟩ := of_decide_eq_true ht
  exact hall s ⟨_, hr⟩ 1 (by decide) htype 12 hsize hhole

end Xv6.Fs.Holes
