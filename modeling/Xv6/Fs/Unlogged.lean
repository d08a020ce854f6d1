import Xv6.Fs.Files

/-!
# What is changed is logged

A program of `Xv6.Fs.Files` may only release a buffer that it has not changed since it was logged.  The
meaning `unlogged` keeps the blocks that are changed and not logged and asks this of every `brelse`; a
program that has none of them before and after is one that `Logs`.  All functions are, except `writei`
when the copy of a round stops half-way: it then releases the buffer without `log_write`.  `Whole` is
what keeps this from happening.
-/

namespace Xv6.Fs.Unlogged

open Param Vm.Copy Lib.Programs Fs.Layout Fs.Files List
open Fs.LogOps (Block)

/-- The state is the list of the blocks that are changed and not logged.  A panic stops the kernel. -/
def unlogged : Meaning Cmd Cmd.Reply Panic (List Word) where
  cmd
    | .bread _, Q, D => ∀ data, Q data D
    | .store b _, Q, D => Q () (b :: D)
    | .logWrite b, Q, D => Q () (D.filter (· ≠ b))
    | .brelse b, Q, D => b ∉ D ∧ Q () D
    | .enter _, Q, D => Q () D
  fail _ _ := True
  mono := by
    intro c Q Q' hQ D hc
    cases c with
    | bread b => exact fun data => hQ data D (hc data)
    | store b data | logWrite b => exact hQ () _ hc
    | brelse b => exact ⟨hc.1, hQ () D hc.2⟩
    | enter f => exact hQ () D hc

variable {α β γ : Type} {p : Code α}

def Logs (p : Code α) : Prop := wp unlogged p (fun _ D => D = []) []

theorem Logs.bind {f : α → Code β} (h : Logs p) (hf : ∀ a, Logs (f a)) : Logs (p >>= f) := by
  refine wp_seq h ?_
  rintro a _ rfl; exact hf a

theorem logs_pure (a : α) : Logs (pure a : Code α) := rfl

theorem logs_fail (e : Panic) : Logs (.fail e : Code α) := trivial

theorem logs_bread (b : Word) : Logs (bread b) := fun _ => rfl

theorem logs_brelse (b : Word) : Logs (brelse b) := ⟨not_mem_nil, rfl⟩

theorem logs_enter (f : Fn) : Logs (enter f) := rfl

theorem logs_putBack (b : Word) (data : Block) : Logs (putBack b data) := by
  have hb : ([b] : List Word).filter (· ≠ b) = [] := by simp
  show b ∉ [b].filter (· ≠ b) ∧ [b].filter (· ≠ b) = []
  rw [hb]; exact ⟨not_mem_nil, rfl⟩

theorem logs_foldlM {step : β → γ → Code β} (h : ∀ b x, Logs (step b x)) (l : List γ) (b : β) :
    Logs (l.foldlM step b) := by
  refine wp_foldlM (fun _ _ D => D = []) ?_ (fun _ _ hD => hD) rfl
  rintro x _ b _ rfl; exact h b x

theorem logs_ite {c : Prop} [Decidable c] {p q : Code α} (hp : Logs p) (hq : Logs q) :
    Logs (if c then p else q) := by
  split_ifs
  · exact hp
  · exact hq

/-! ## Blocks and inodes -/

variable {sb : Superblock} {src : Src}

theorem logs_bzero (bno : Word) : Logs (bzero bno) :=
  (logs_bread bno).bind fun _ => logs_putBack _ _

theorem logs_ballocLoop (bs : List ℕ) : Logs (ballocLoop sb bs) := by
  induction bs with
  | nil => exact logs_pure _
  | cons b bs ih =>
    refine (logs_bread _).bind fun data => ?_
    split
    · exact (logs_putBack _ _).bind fun _ => (logs_bzero _).bind fun _ => logs_pure _
    · exact (logs_brelse _).bind fun _ => ih

theorem logs_balloc : Logs (balloc sb) := (logs_enter _).bind fun _ => logs_ballocLoop _

theorem logs_bfree (b : Word) : Logs (bfree sb b) :=
  (logs_enter _).bind fun _ => (logs_bread _).bind fun _ =>
    logs_ite (logs_putBack _ _) (logs_fail _)

theorem logs_iallocLoop (type : BitVec 16) (inums : List ℕ) : Logs (iallocLoop sb type inums) := by
  induction inums with
  | nil => exact logs_pure _
  | cons inum inums ih =>
    refine (logs_bread _).bind fun data => logs_ite ?_ ?_
    · exact (logs_putBack _ _).bind fun _ => logs_pure _
    · exact (logs_brelse _).bind fun _ => ih

theorem logs_iupdate (ip : Inode) : Logs (iupdate sb ip) :=
  (logs_bread _).bind fun _ => logs_putBack _ _

theorem logs_ilockRead (inum : ℕ) : Logs (ilockRead sb inum) :=
  (logs_bread _).bind fun _ => (logs_brelse _).bind fun _ => logs_ite (logs_fail _) (logs_pure _)

theorem logs_mapAddr (ip : Inode) (i : Fin (NDIRECT + 1)) : Logs (mapAddr sb ip i) := by
  refine logs_ite (logs_balloc.bind fun addr => ?_) (logs_pure _)
  exact logs_ite (logs_pure _) (logs_pure _)

theorem logs_mapEntry (addr : Word) (bn : ℕ) : Logs (mapEntry sb addr bn) := by
  refine (logs_bread _).bind fun a => logs_ite ?_ ?_
  · refine logs_balloc.bind fun e => logs_ite ?_ ?_
    · exact (logs_brelse _).bind fun _ => logs_pure _
    · exact (logs_putBack _ _).bind fun _ => logs_pure _
  · exact (logs_brelse _).bind fun _ => logs_pure _

section
variable (ip : Inode)
include ip

theorem logs_bmap (bn : ℕ) : Logs (bmap sb ip bn) := by
  unfold bmap
  split_ifs
  · exact logs_mapAddr _ _
  · refine (logs_mapAddr _ _).bind fun r => logs_ite (logs_pure _) ?_
    exact (logs_mapEntry _ _).bind fun _ => logs_pure _
  · exact logs_fail _

theorem logs_truncAddr (i : Fin NDIRECT) : Logs (truncAddr sb ip i) :=
  logs_ite (logs_pure _) ((logs_bfree _).bind fun _ => logs_pure _)

theorem logs_truncIndirect : Logs (truncIndirect sb ip) := by
  refine logs_ite (logs_pure _) ((logs_bread _).bind fun a => ?_)
  refine Logs.bind (logs_foldlM (fun _ j => ?_) _ _) fun _ => ?_
  · exact logs_ite (logs_pure _) (logs_bfree _)
  · exact (logs_brelse _).bind fun _ => (logs_bfree _).bind fun _ => logs_pure _

theorem logs_itrunc : Logs (itrunc sb ip) :=
  Logs.bind (logs_foldlM logs_truncAddr _ _) fun _ => (logs_truncIndirect _).bind fun _ =>
    (logs_iupdate _).bind fun _ => logs_pure _

theorem logs_iputFree : Logs (iputFree sb ip) :=
  (logs_itrunc _).bind fun _ => (logs_iupdate _).bind fun _ => logs_pure _

end

theorem logs_readLoop (n rounds : ℕ) (ip : Inode) (dst : Dst) (tot off : ℕ) :
    Logs (readLoop sb n rounds ip dst tot off) := by
  induction rounds generalizing ip dst tot off with
  | zero => exact logs_pure _
  | succ rounds ih =>
    refine logs_ite ?_ (logs_pure _)
    refine (logs_bmap _ _).bind fun r => logs_ite (logs_pure _) ?_
    refine (logs_bread _).bind fun data => (logs_brelse _).bind fun _ => logs_ite ?_ (logs_pure _)
    exact ih _ _ _ _

theorem logs_readi (ip : Inode) (dst : Dst) (off n : Word) : Logs (readi sb ip dst off n) :=
  logs_ite (logs_pure _) (logs_readLoop _ _ _ _ _ _)

theorem logs_readDirent (e : Panic) (dp : Inode) (off : ℕ) : Logs (readDirent sb e dp off) :=
  (logs_readi _ _ _ _).bind fun _ => logs_ite (logs_pure _) (logs_fail _)

theorem logs_lookupLoop (name : ℕ → Byte) (offs : List ℕ) (dp : Inode) : Logs (lookupLoop sb name offs dp) := by
  induction offs generalizing dp with
  | nil => exact logs_pure _
  | cons off offs ih => exact (logs_readDirent _ _ _).bind fun _ => logs_ite (logs_pure _) (ih _)

theorem logs_dirlookup (dp : Inode) (name : ℕ → Byte) : Logs (dirlookup sb dp name) :=
  logs_ite (logs_lookupLoop _ _ _) (logs_fail _)

theorem logs_emptyLoop (offs : List ℕ) (dp : Inode) (next : ℕ) : Logs (emptyLoop sb offs dp next) := by
  induction offs generalizing dp next with
  | nil => exact logs_pure _
  | cons off offs ih => exact (logs_readDirent _ _ _).bind fun _ => logs_ite (logs_pure _) (ih _ _)

/-- All bytes of a round of `writei` are on pages that are there, or the first is not. -/
def WholeChunk (src : Src) (tot len : ℕ) : Prop :=
  match src with
  | .kernel _ => True
  | .user mem va =>
    mem.walkaddr (va + tot) = none ∨ ∀ i < len, mem.walkaddr (va + tot + i) ≠ none

/-- This is so for every round of `writei`: the first, and those that begin with a block. -/
def Whole (src : Src) (off n : ℕ) : Prop :=
  ∀ tot < n, tot = 0 ∨ (off + tot) % BSIZE = 0 → WholeChunk src tot (chunk n tot (off + tot))

theorem WholeChunk.nil_or_ok {tot len : ℕ} (h : WholeChunk src tot len) :
    (eitherCopyin src tot len).1 = [] ∨ (eitherCopyin src tot len).2 = true := by
  cases src with
  | kernel bytes => exact .inr rfl
  | user mem va =>
    rcases h with h | h
    · exact .inl (copyin_eq_nil h)
    · exact .inr (copyin_ok h)

theorem chunk_aligned {n tot off : ℕ} (h : tot + chunk n tot off < n) : (off + chunk n tot off) % BSIZE = 0 := by
  have hB : BSIZE = 1024 := rfl
  unfold chunk at h ⊢
  rw [hB] at h ⊢; omega

theorem logs_storeChunk {addr : Word} {data : Block} {off : ℕ} {bytes : List Byte}
    (h : Logs p) : Logs (storeChunk addr data off bytes >>= fun _ => logWrite addr >>= fun _ =>
      brelse addr >>= fun _ => p) := by
  unfold storeChunk
  split_ifs with hb
  · exact ⟨not_mem_nil, h⟩
  · have hf : ([addr] : List Word).filter (· ≠ addr) = [] := by simp
    show addr ∉ [addr].filter (· ≠ addr) ∧ wp unlogged p _ ([addr].filter (· ≠ addr))
    rw [hf]; exact ⟨not_mem_nil, h⟩

theorem logs_writeLoop {n off0 : ℕ} (hw : Whole src off0 n) (rounds : ℕ) (ip : Inode)
    (tot off : ℕ) (hoff : off = off0 + tot) (ha : tot < n → tot = 0 ∨ off % BSIZE = 0) :
    Logs (writeLoop sb src n rounds ip tot off) := by
  induction rounds generalizing ip tot off with
  | zero => exact logs_pure _
  | succ rounds ih =>
    unfold writeLoop
    split_ifs with ht
    · refine (logs_bmap _ _).bind fun r => logs_ite (logs_pure _) ((logs_bread _).bind fun data => ?_)
      subst hoff
      have hc := (hw tot ht (ha ht)).nil_or_ok
      dsimp only
      split_ifs with hok
      · refine logs_storeChunk (ih _ _ _ (by omega) fun h => .inr ?_)
        exact chunk_aligned (by omega)
      · rcases hc with hc | hc
        · unfold storeChunk
          rw [if_pos hc]; exact (logs_brelse _).bind fun _ => logs_pure _
        · exact absurd hc hok
    · exact logs_pure _

theorem logs_writei {off n : Word} (hw : Whole src off.toNat n.toNat) (ip : Inode) :
    Logs (writei sb ip src off n) := by
  refine logs_ite (logs_pure _) (logs_ite (logs_pure _) ?_)
  refine (logs_writeLoop hw _ _ _ _ rfl fun _ => .inl rfl).bind fun r => ?_
  exact (logs_iupdate _).bind fun _ => logs_pure _

theorem logs_dirlink (dp : Inode) (name : ℕ → Byte) (inum : BitVec 16) : Logs (dirlink sb dp name inum) := by
  refine (logs_dirlookup _ _).bind fun r => ?_
  obtain ⟨dp, found⟩ := r
  cases found with
  | some x => exact logs_pure _
  | none =>
    refine (logs_emptyLoop _ _ _).bind fun r => Logs.bind (logs_writei ?_ _) fun _ => logs_pure _
    exact fun _ _ _ => trivial

end Xv6.Fs.Unlogged
