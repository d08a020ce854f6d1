import Xv6.Fs.LogOps
import Xv6.Lib.Crash

/-!
# Crash atomicity of the log

`commit` writes the new contents of the logged blocks into the log, then the header, then the blocks at
home, then an empty header.  A crash keeps a prefix of these writes, and recovery may crash as often as
it likes before it comes to its end.

**Main result** (`recover_commit`): in the end every block outside the log has its old contents if the
crash came before the first header was written, and every logged block its new contents otherwise.
-/

namespace Xv6.Fs.Recovery

open Param Lib.Crash Fs.LogOps List Function

variable {s s' : Bio} {b : Word} {d : Block} {log : Log} {b' : Word}

/-! ## Reading through the cache -/

/-- Reading `b` gives `d` now and as long as `b` is not written: the buffer is pinned, or it agrees with
the disk. -/
def Holds (s : Bio) (b : Word) (d : Block) : Prop :=
  (s.cache b = some d ∧ s.pins b ≠ 0) ∨ (s.disk b = d ∧ ∀ e, s.cache b = some e → e = d)

@[simp] theorem bread_disk (s : Bio) (b : Word) : (s.bread b).2.disk = s.disk := by
  unfold Bio.bread
  split <;> rfl

@[simp] theorem bread_writes (s : Bio) (b : Word) : (s.bread b).2.writes = s.writes := by
  unfold Bio.bread
  split <;> rfl

@[simp] theorem bread_pins (s : Bio) (b : Word) : (s.bread b).2.pins = s.pins := by
  unfold Bio.bread
  split <;> rfl

theorem Holds.bread_fst (h : Holds s b d) : (s.bread b).1 = d := by
  unfold Bio.bread
  rcases h with ⟨hc, -⟩ | ⟨hd, hc⟩
  · rw [hc]
  · split
    · next e he => exact hc e he
    · exact hd

theorem Holds.bread (h : Holds s b d) (b' : Word) : Holds (s.bread b').2 b d := by
  unfold Bio.bread
  split
  · exact h
  · next hn =>
    rcases h with ⟨hc, hp⟩ | ⟨hd, hc⟩
    · have hb : b ≠ b' := by rintro rfl; rw [hn] at hc; cases hc
      refine .inl ⟨?_, hp⟩
      simp [update_of_ne hb, hp, hc]
    · refine .inr ⟨hd, fun e he => ?_⟩
      by_cases hb : b = b'
      · subst hb
        simp only [update_self, Option.some.injEq] at he
        rw [← he]; exact hd
      · simp only [update_of_ne hb] at he; split_ifs at he; exact hc e he

theorem Holds.bwrite_self (s : Bio) (b : Word) (d : Block) : Holds (s.bwrite b d) b d := by
  refine .inr ⟨update_self .., fun e he => ?_⟩
  simp only [Bio.bwrite, update_self, Option.some.injEq] at he; exact he.symm

theorem Holds.bwrite (h : Holds s b d) (hb : b ≠ b') (d' : Block) : Holds (s.bwrite b' d') b d := by
  unfold Holds Bio.bwrite; simp only [update_of_ne hb]; exact h

theorem Holds.bunpin (h : Holds s b d) (hb : b ≠ b') : Holds (s.bunpin b') b d := by
  unfold Holds Bio.bunpin; simp only [update_of_ne hb]; exact h

theorem holds_boot (disk : Word → Block) (rc : ℕ → Word → Bool) (b : Word) :
    Holds (Bio.boot disk rc) b (disk b) := by
  refine .inr ⟨rfl, fun e he => ?_⟩
  cases he

structure Wrote (s : Bio) (ws : List (Word × Block)) (s' : Bio) : Prop where
  writes : s'.writes = s.writes ++ ws
  disk : s'.disk = applyWrites s.disk ws

theorem Wrote.refl (s : Bio) : Wrote s [] s := ⟨by simp, rfl⟩

theorem Wrote.trans {s1 s2 s3 : Bio} {ws ws' : List (Word × Block)} (h : Wrote s1 ws s2)
    (h' : Wrote s2 ws' s3) : Wrote s1 (ws ++ ws') s3 := by
  refine ⟨?_, ?_⟩
  · rw [h'.writes, h.writes, append_assoc]
  · rw [h'.disk, h.disk, applyWrites_append]

/-! ## The log area -/

def Area (log : Log) (b : Word) : Prop := ∃ j < log.size.toNat, b = log.start + BitVec.ofNat 32 j

structure Fits (log : Log) : Prop where
  cap : log.lh.len ≤ LOGSIZE
  room : log.lh.len + 1 ≤ log.size.toNat
  home : ∀ i < log.lh.len, ¬ Area log (log.lh.block i)
  distinct : ∀ i < log.lh.len, ∀ j < log.lh.len, log.lh.block i = log.lh.block j → i = j

theorem slot_eq (log : Log) (i : ℕ) : log.slot i = log.start + BitVec.ofNat 32 (i + 1) := by
  unfold Log.slot
  rw [BitVec.add_assoc, BitVec.ofNat_add]; rfl

variable {i j : ℕ}

theorem add_ofNat_inj {a : Word} (hi : i < 2 ^ 32) (hj : j < 2 ^ 32)
    (h : a + BitVec.ofNat 32 i = a + BitVec.ofNat 32 j) : i = j := by
  have h1 := congrArg BitVec.toNat (BitVec.add_right_inj a |>.mp h)
  rw [BitVec.toNat_ofNat, BitVec.toNat_ofNat] at h1; omega

section
variable (hf : Fits log)
include hf

theorem Fits.slot_area (hi : i < log.lh.len) : Area log (log.slot i) :=
  ⟨i + 1, by have := hf.room; omega, slot_eq log i⟩

theorem Fits.start_area : Area log log.start := by
  refine ⟨0, by have := hf.room; omega, ?_⟩
  simp

section
variable (hi : i < log.lh.len)
include hi

theorem Fits.slot_ne_start : log.slot i ≠ log.start := by
  intro h
  have hr := hf.room
  have h0 : log.start + BitVec.ofNat 32 (i + 1) = log.start + BitVec.ofNat 32 0 := by
    rw [← slot_eq, h]; simp
  have := add_ofNat_inj (by omega) (by omega) h0; omega

theorem Fits.slot_inj (hj : j < log.lh.len) (h : log.slot i = log.slot j) : i = j := by
  have hr := hf.room
  rw [slot_eq, slot_eq] at h
  have := add_ofNat_inj (by omega) (by omega) h; omega

theorem Fits.home_ne_slot (hj : j < log.lh.len) : log.lh.block i ≠ log.slot j :=
  fun h => hf.home i hi (h ▸ hf.slot_area hj)

theorem Fits.home_ne_start : log.lh.block i ≠ log.start :=
  fun h => hf.home i hi (h ▸ hf.start_area)

end

theorem writeLog_wrote {new : ℕ → Block} (hh : ∀ i < log.lh.len, Holds s (log.lh.block i) (new i)) :
    Wrote s ((range log.lh.len).map fun i => (log.slot i, new i)) (writeLog log s) ∧
    ∀ i < log.lh.len, Holds (writeLog log s) (log.slot i) (new i) := by
  -- after `m` rounds: the first `m` copies are written, and the blocks to copy are still there
  have key : ∀ m ≤ log.lh.len, ∀ s', (range m).foldl (writeLogAt log) s = s' →
      Wrote s ((range m).map fun i => (log.slot i, new i)) s' ∧
      (∀ i < m, Holds s' (log.slot i) (new i)) ∧
      ∀ i < log.lh.len, Holds s' (log.lh.block i) (new i) := by
    intro m
    induction m with
    | zero =>
      rintro - s' rfl
      exact ⟨Wrote.refl s, fun i hi => absurd hi (Nat.not_lt_zero i), hh⟩
    | succ m ih =>
      rintro hm s' rfl
      obtain ⟨hw, hs, hb⟩ := ih (by omega) _ rfl
      rw [range_succ, foldl_append, map_append]
      generalize (range m).foldl (writeLogAt log) s = s1 at hw hs hb
      have hfrom : (((s1.bread (log.slot m)).2).bread (log.lh.block m)).1 = new m :=
        ((hb m hm).bread _).bread_fst
      have hstep : writeLogAt log s1 m =
          (((s1.bread (log.slot m)).2).bread (log.lh.block m)).2.bwrite (log.slot m) (new m) := by
        rw [← hfrom]; rfl
      simp only [foldl_cons, hstep]
      refine ⟨hw.trans ⟨?_, ?_⟩, fun i hi => ?_, fun i hi => ?_⟩
      · simp [Bio.bwrite]
      · simp [Bio.bwrite]
      · by_cases him : i = m
        · subst him; exact Holds.bwrite_self ..
        · have hne : log.slot i ≠ log.slot m := fun h => him (hf.slot_inj (by omega) hm h)
          exact (((hs i (by omega)).bread _).bread _).bwrite hne _
      · exact (((hb i hi).bread _).bread _).bwrite (hf.home_ne_slot hi hm) _
  obtain ⟨hw, hs, -⟩ := key _ (Nat.le_refl _) _ rfl; exact ⟨hw, hs⟩

theorem installTrans_wrote {v : ℕ → Block} (recovering : Bool) (hh : ∀ i < log.lh.len, Holds s (log.slot i) (v i)) :
    Wrote s ((range log.lh.len).map fun i => (log.lh.block i, v i)) (installTrans recovering log s) := by
  have key : ∀ m ≤ log.lh.len, ∀ s', (range m).foldl (installAt recovering log) s = s' →
      Wrote s ((range m).map fun i => (log.lh.block i, v i)) s' ∧
      ∀ i < log.lh.len, Holds s' (log.slot i) (v i) := by
    intro m
    induction m with
    | zero => rintro - s' rfl; exact ⟨Wrote.refl s, hh⟩
    | succ m ih =>
      rintro hm s' rfl
      obtain ⟨hw, hs⟩ := ih (by omega) _ rfl
      rw [range_succ, foldl_append, map_append]
      generalize (range m).foldl (installAt recovering log) s = s1 at hw hs
      have hstep : ∃ s2, (s2 = ((s1.bread (log.slot m)).2.bread (log.lh.block m)).2.bwrite (log.lh.block m) (v m)) ∧
          (installAt recovering log s1 m = s2 ∨ installAt recovering log s1 m = s2.bunpin (log.lh.block m)) := by
        refine ⟨_, rfl, ?_⟩
        rw [← (hs m hm).bread_fst]
        cases recovering
        · exact .inr rfl
        · exact .inl rfl
      obtain ⟨s2, rfl, hstep⟩ := hstep
      simp only [foldl_cons]
      have hkeep : ∀ i < log.lh.len, Holds (((s1.bread (log.slot m)).2.bread
          (log.lh.block m)).2.bwrite (log.lh.block m) (v m)) (log.slot i) (v i) := fun i hi =>
        (((hs i hi).bread _).bread _).bwrite (hf.home_ne_slot hm hi).symm _
      rcases hstep with h | h
      · rw [h]
        exact ⟨hw.trans ⟨by simp [Bio.bwrite], by simp [Bio.bwrite]⟩, hkeep⟩
      · rw [h]
        refine ⟨hw.trans ⟨by simp [Bio.bwrite, Bio.bunpin], by simp [Bio.bwrite, Bio.bunpin]⟩,
          fun i hi => (hkeep i hi).bunpin (hf.home_ne_slot hm hi).symm⟩
  exact (key _ (Nat.le_refl _) _ rfl).1

end

theorem writeHead_wrote (log : Log) (s : Bio) :
    ∃ buf, Wrote s [(log.start, headBlock log.lh buf)] (writeHead log s) ∧
      ∀ b d, b ≠ log.start → Holds s b d → Holds (writeHead log s) b d := by
  refine ⟨(s.bread log.start).1, ⟨?_, ?_⟩, fun b d hb h => (h.bread _).bwrite hb _⟩
  · simp [writeHead, Bio.bwrite]
  · simp [writeHead, Bio.bwrite]

theorem word_setWord (hb : Block) (i j : ℕ) (w : Word) (hj : j < BWORDS) :
    (hb.setWord i w).word j = if j = i then w else hb.word j := by
  unfold Block.word Block.setWord; simp [hj]

theorem word_headBlock (lh : LogHeader) (buf : Block) (hcap : lh.len ≤ LOGSIZE) :
    (headBlock lh buf).word 0 = lh.n ∧ ∀ i < lh.len, (headBlock lh buf).word (i + 1) = lh.block i := by
  have hw : LOGSIZE + 1 ≤ BWORDS := by decide
  have key : ∀ m ≤ lh.len, ∀ hb, (range m).foldl
      (fun hb i => hb.setWord (i + 1) (lh.block i)) (buf.setWord 0 lh.n) = hb →
      Block.word hb 0 = lh.n ∧ ∀ i < m, Block.word hb (i + 1) = lh.block i := by
    intro m
    induction m with
    | zero =>
      rintro - hb rfl
      refine ⟨?_, fun i hi => absurd hi (Nat.not_lt_zero i)⟩
      rw [range_zero, foldl_nil, word_setWord _ _ _ _ (by decide), if_pos rfl]
    | succ m ih =>
      rintro hm hb rfl
      obtain ⟨h0, hi⟩ := ih (by omega) _ rfl
      rw [range_succ, foldl_append, foldl_cons, foldl_nil]
      refine ⟨?_, fun i him => ?_⟩
      · exact h0
      · rw [word_setWord _ _ _ _ (by omega)]
        split_ifs with hc
        · have : i = m := by omega
          rw [this]
        · exact hi i (by omega)
  exact key _ (Nat.le_refl _) _ rfl

def onDisk (log : Log) (D : Word → Block) : Log :=
  { initlog log.start log.size with
    lh := { n := (D log.start).word 0, block := fun i =>
              if i < ((D log.start).word 0).toInt.toNat then (D log.start).word (i + 1) else 0 } }

/-- The machine that recovers from the disk `D`, when recovery has come to its end. -/
def recovered (log : Log) (D : Word → Block) (rc : ℕ → Word → Bool) : Bio :=
  (recoverFromLog (initlog log.start log.size) (Bio.boot D rc)).2

variable {D : Word → Block}

theorem recovered_wrote (hf : Fits (onDisk log D)) (rc : ℕ → Word → Bool) :
    ∃ buf, Wrote (Bio.boot D rc) ((range (onDisk log D).lh.len).map
        (fun i => ((onDisk log D).lh.block i, D (log.slot i))) ++
      [(log.start, headBlock (onDisk log D).clear.lh buf)]) (recovered log D rc) := by
  have hhead : readHead (initlog log.start log.size) (Bio.boot D rc) =
      (onDisk log D, (Bio.boot D rc).bread log.start |>.2) := by
    rfl
  have hslots : ∀ i < (onDisk log D).lh.len, Holds ((Bio.boot D rc).bread log.start).2
      ((onDisk log D).slot i) (D (log.slot i)) := fun i _ => (holds_boot D rc _).bread _
  have hi := installTrans_wrote hf true hslots
  obtain ⟨buf, hw, -⟩ := writeHead_wrote (onDisk log D).clear
    (installTrans true (onDisk log D) ((Bio.boot D rc).bread log.start).2)
  refine ⟨buf, ?_⟩
  have hread : Wrote (Bio.boot D rc) [] ((Bio.boot D rc).bread log.start).2 :=
    ⟨by simp, by simp⟩
  exact hread.trans (hi.trans hw)

def Idle (log : Log) (F D : Word → Block) : Prop :=
  (D log.start).word 0 = 0 ∧ ∀ b, ¬ Area log b → D b = F b

theorem Fits.of_empty (hr : 0 < log.size.toNat)
    (h0 : (D log.start).word 0 = 0) : (onDisk log D).lh.len = 0 ∧ Fits (onDisk log D) := by
  have hlen : (onDisk log D).lh.len = 0 := by simp [LogHeader.len, onDisk, h0]
  refine ⟨hlen, by omega, ?_, fun i hi => by omega, fun i hi => by omega⟩
  rw [hlen]; exact hr

variable {F : Word → Block} {new : ℕ → Block} {k : ℕ}

theorem Idle.write_start (hr : 0 < log.size.toNat) (h : Idle log F D)
    (lh : LogHeader) (hn : lh.n = 0) (buf : Block) : Idle log F (update D log.start (headBlock lh buf)) := by
  have hlen : lh.len = 0 := by simp [LogHeader.len, hn]
  have hw := word_headBlock lh buf (by omega)
  refine ⟨?_, fun b hb => ?_⟩
  · rw [update_self, hw.1, hn]
  · have hne : b ≠ log.start := by rintro rfl; exact hb ⟨0, hr, by simp⟩
    rw [update_of_ne hne]; exact h.2 b hb

theorem Idle.recovered (hr : 0 < log.size.toNat) (h : Idle log F D) (rc : ℕ → Word → Bool) :
    Safe (Idle log F) D (recovered log D rc).writes ∧ Idle log F (recovered log D rc).disk := by
  obtain ⟨hlen, hf⟩ := Fits.of_empty hr h.1
  obtain ⟨buf, hw⟩ := recovered_wrote hf rc
  rw [hlen, range_zero, map_nil, nil_append] at hw
  have hnext := h.write_start hr (onDisk log D).clear.lh rfl buf
  rw [hw.writes, hw.disk]; exact ⟨Safe.cons h (Safe.nil hnext), hnext⟩

/-! ## After the commit point -/

section Committed
variable {old : Word → Block}

def homeWrites (log : Log) (new : ℕ → Block) : List (Word × Block) :=
  (range log.lh.len).map fun i => (log.lh.block i, new i)

structure Committed (log : Log) (old : Word → Block) (new : ℕ → Block) (D : Word → Block) : Prop where
  n : (D log.start).word 0 = log.lh.n
  block : ∀ i < log.lh.len, (D log.start).word (i + 1) = log.lh.block i
  slot : ∀ i < log.lh.len, D (log.slot i) = new i
  home : ∀ b, ¬ Area log b → D b = old b ∨ ∃ i < log.lh.len, b = log.lh.block i ∧ D b = new i

def installed (log : Log) (old : Word → Block) (new : ℕ → Block) : Word → Block :=
  applyWrites old (homeWrites log new)

theorem installed_block (hf : Fits log) (hi : i < log.lh.len) : installed log old new (log.lh.block i) = new i :=
  applyWrites_range_map hf.distinct old hi

theorem installed_of_ne (hb : ∀ i < log.lh.len, b ≠ log.lh.block i) : installed log old new b = old b := by
  refine applyWrites_of_notMem (fun w hw => ?_) old
  obtain ⟨i, hi, rfl⟩ := mem_map.mp hw; exact (hb i (mem_range.mp hi)).symm

def New (log : Log) (old : Word → Block) (new : ℕ → Block) (D : Word → Block) : Prop :=
  Committed log old new D ∨ Idle log (installed log old new) D

theorem Committed.write_home (hf : Fits log) (h : Committed log old new D) (hi : i < log.lh.len) :
    Committed log old new (update D (log.lh.block i) (new i)) := by
  have hs := (hf.home_ne_start hi).symm
  refine ⟨?_, fun j hj => ?_, fun j hj => ?_, fun b hb => ?_⟩
  · rw [update_of_ne hs]; exact h.n
  · rw [update_of_ne hs]; exact h.block j hj
  · rw [update_of_ne (hf.home_ne_slot hi hj).symm]; exact h.slot j hj
  · by_cases hbi : b = log.lh.block i
    · subst hbi; exact .inr ⟨i, hi, rfl, update_self ..⟩
    · rw [update_of_ne hbi]; exact h.home b hb

theorem Committed.install (hf : Fits log) (h : Committed log old new D)
    (lh : LogHeader) (hn : lh.n = 0) (buf : Block) :
    Safe (New log old new) D (homeWrites log new ++ [(log.start, headBlock lh buf)]) ∧
    Idle log (installed log old new) (applyWrites D (homeWrites log new ++ [(log.start, headBlock lh buf)])) := by
  have hsafe : Safe (Committed log old new) D (homeWrites log new) := by
    refine Safe.of_forall h fun w hw E hE => ?_
    obtain ⟨i, hi, rfl⟩ := mem_map.mp hw
    exact hE.write_home hf (mem_range.mp hi)
  have hall := hsafe.done
  have hlen : lh.len = 0 := by simp [LogHeader.len, hn]
  have hdone : Idle log (installed log old new) (update
      (applyWrites D (homeWrites log new)) log.start (headBlock lh buf)) := by
    refine ⟨?_, fun b hb => ?_⟩
    · rw [update_self, (word_headBlock lh buf (by omega)).1, hn]
    · have hne : b ≠ log.start := fun he => hb (he ▸ hf.start_area)
      rw [update_of_ne hne]
      by_cases hlog : ∃ i < log.lh.len, b = log.lh.block i
      · obtain ⟨i, hi, rfl⟩ := hlog
        rw [installed_block hf hi]; exact applyWrites_range_map hf.distinct D hi
      · have hbne : ∀ i < log.lh.len, b ≠ log.lh.block i := fun i hi he => hlog ⟨i, hi, he⟩
        rw [installed_of_ne hbne]
        rcases hall.home b hb with he | ⟨i, hi, he, -⟩
        · exact he
        · exact absurd he (hbne i hi)
  refine ⟨Safe.append (fun k => .inl (hsafe k)) (Safe.cons (.inl hall) (Safe.nil (.inr hdone))), ?_⟩
  rw [applyWrites_append]; exact hdone

theorem Committed.onDisk (h : Committed log old new D) : (onDisk log D).lh.len = log.lh.len ∧
    ∀ i < log.lh.len, (onDisk log D).lh.block i = log.lh.block i := by
  have hlen : (Recovery.onDisk log D).lh.len = log.lh.len := by
    simp only [LogHeader.len, Recovery.onDisk, h.n]
  refine ⟨hlen, fun i hi => ?_⟩
  have hi' : i < log.lh.n.toInt.toNat := hi
  simp only [Recovery.onDisk, h.n, if_pos hi']; exact h.block i hi

theorem Committed.recovered (hf : Fits log) (h : Committed log old new D) (rc : ℕ → Word → Bool) :
    Safe (New log old new) D (recovered log D rc).writes ∧
    Idle log (installed log old new) (recovered log D rc).disk := by
  obtain ⟨hlen, hblk⟩ := h.onDisk
  have hfd : Fits (Recovery.onDisk log D) := by
    refine ⟨by rw [hlen]; exact hf.cap, by rw [hlen]; exact hf.room, fun i hi => ?_, fun i hi j hj he => ?_⟩
    · rw [hlen] at hi; rw [hblk i hi]; exact hf.home i hi
    · rw [hlen] at hi hj
      rw [hblk i hi, hblk j hj] at he; exact hf.distinct i hi j hj he
  obtain ⟨buf, hw⟩ := recovered_wrote hfd rc
  have hmap : (range (Recovery.onDisk log D).lh.len).map
      (fun i => ((Recovery.onDisk log D).lh.block i, D (log.slot i))) = homeWrites log new := by
    rw [hlen]
    refine map_congr_left fun i hi => ?_
    rw [hblk i (mem_range.mp hi), h.slot i (mem_range.mp hi)]
  rw [hmap] at hw
  have hins := h.install hf (Recovery.onDisk log D).clear.lh rfl buf
  rw [hw.writes, hw.disk]; exact hins

theorem New.recovered (hf : Fits log) (h : New log old new D) (rc : ℕ → Word → Bool) :
    Safe (New log old new) D (recovered log D rc).writes ∧
    Idle log (installed log old new) (recovered log D rc).disk := by
  have hr : 0 < log.size.toNat := by have := hf.room; omega
  rcases h with h | h
  · exact h.recovered hf rc
  · have hi := h.recovered hr rc; exact ⟨fun k => .inr (hi.1 k), hi.2⟩

end Committed

/-! ## Commit -/

/-- The disk after a recovery that crashes after `x.1` writes. -/
def crashed (log : Log) (D : Word → Block) (x : ℕ × (ℕ → Word → Bool)) : Word → Block :=
  applyWrites D ((recovered log D x.2).writes.take x.1)

theorem crashed_inv {P : (Word → Block) → Prop} (hP : ∀ D rc, P D → Safe P D (recovered log D rc).writes)
    (xs : List (ℕ × (ℕ → Word → Bool))) (h : P D) : P (xs.foldl (crashed log) D) := by
  induction xs generalizing D with
  | nil => exact h
  | cons x xs ih => exact ih (hP D x.2 h x.1)

theorem commit_wrote (hf : Fits log)
    (hh : ∀ i < log.lh.len, Holds s (log.lh.block i) (new i)) (hn : 0 < log.lh.len) :
    ∃ buf buf', Wrote s (((range log.lh.len).map (fun i => (log.slot i, new i)) ++
        [(log.start, headBlock log.lh buf)]) ++
      (homeWrites log new ++ [(log.start, headBlock log.clear.lh buf')])) (commit log s).2 := by
  have hpos : (0 : Word).slt log.lh.n = true := by
    have h00 : (0 : Word).toInt = 0 := rfl
    unfold LogHeader.len at hn
    rw [BitVec.slt_iff_toInt_lt]; omega
  obtain ⟨h1, hs1⟩ := writeLog_wrote hf hh
  obtain ⟨buf, h2, hs2⟩ := writeHead_wrote log (writeLog log s)
  have h3 := installTrans_wrote hf false fun i hi => hs2 _ _ (hf.slot_ne_start hi) (hs1 i hi)
  obtain ⟨buf', h4, -⟩ := writeHead_wrote log.clear (installTrans false log (writeHead log (writeLog log s)))
  refine ⟨buf, buf', ?_⟩
  unfold commit
  rw [if_pos hpos]; exact (h1.trans h2).trans (h3.trans h4)

theorem safe_writeLog (hf : Fits log) (h : Idle log F D) (new : ℕ → Block) :
    Safe (Idle log F) D ((range log.lh.len).map fun i => (log.slot i, new i)) := by
  refine Safe.of_forall h fun w hw E hE => ?_
  obtain ⟨i, hi, rfl⟩ := mem_map.mp hw
  have hi' := mem_range.mp hi
  refine ⟨?_, fun b hb => ?_⟩
  · rw [update_of_ne (hf.slot_ne_start hi').symm]; exact hE.1
  · have hne : b ≠ log.slot i := fun he => hb (he ▸ hf.slot_area hi')
    rw [update_of_ne hne]; exact hE.2 b hb

theorem committed_writeHead (hf : Fits log) (new : ℕ → Block) (buf : Block) :
    Committed log D new (applyWrites D ((range log.lh.len).map
      (fun i => (log.slot i, new i)) ++ [(log.start, headBlock log.lh buf)])) := by
  have hw := word_headBlock log.lh buf hf.cap
  rw [applyWrites_append, applyWrites_cons, applyWrites_nil]
  refine ⟨?_, fun i hi => ?_, fun i hi => ?_, fun b hb => .inl ?_⟩
  · rw [update_self]; exact hw.1
  · rw [update_self]; exact hw.2 i hi
  · rw [update_of_ne (hf.slot_ne_start hi)]
    exact applyWrites_range_map (fun i hi j hj => hf.slot_inj hi hj) D hi
  · have hne : b ≠ log.start := fun he => hb (he ▸ hf.start_area)
    rw [update_of_ne hne]
    refine applyWrites_of_notMem (fun w hw => ?_) D
    obtain ⟨i, hi, rfl⟩ := mem_map.mp hw
    exact fun he => hb (he ▸ hf.slot_area (mem_range.mp hi))

/-- The disk after `commit` has crashed after `k` writes, the recoveries `xs` have crashed, and one
more recovery has come to its end. -/
def finalDisk (log : Log) (s : Bio) (k : ℕ) (xs : List (ℕ × (ℕ → Word → Bool)))
    (rc : ℕ → Word → Bool) : Word → Block :=
  (recovered log (xs.foldl (crashed log) (applyWrites s.disk ((commit log s).2.writes.take k))) rc).disk

theorem finalDisk_old (hf : Fits log) (h0 : (s.disk log.start).word 0 = 0) (hw : s.writes = [])
    (hh : ∀ i < log.lh.len, Holds s (log.lh.block i) (new i))
    (hk : k ≤ log.lh.len) (xs : List (ℕ × (ℕ → Word → Bool))) (rc : ℕ → Word → Bool) :
    Idle log s.disk (finalDisk log s k xs rc) := by
  have hr : 0 < log.size.toNat := by have := hf.room; omega
  have hidle : Idle log s.disk s.disk := ⟨h0, fun _ _ => rfl⟩
  have hcrash : Idle log s.disk (applyWrites s.disk ((commit log s).2.writes.take k)) := by
    by_cases hn : 0 < log.lh.len
    · obtain ⟨buf, buf', hwr⟩ := commit_wrote hf hh hn
      rw [hwr.writes, hw, nil_append, append_assoc, take_append_of_le_length (by simpa using hk)]
      exact safe_writeLog hf hidle new k
    · have hk0 : k = 0 := by omega
      rw [hk0]; exact hidle
  have hall := crashed_inv (fun D rc h => (h.recovered hr rc).1) xs hcrash
  exact (hall.recovered hr rc).2

theorem finalDisk_new (hf : Fits log) (h0 : (s.disk log.start).word 0 = 0) (hw : s.writes = [])
    (hh : ∀ i < log.lh.len, Holds s (log.lh.block i) (new i))
    (hk : log.lh.len < k) (xs : List (ℕ × (ℕ → Word → Bool))) (rc : ℕ → Word → Bool) :
    Idle log (installed log s.disk new) (finalDisk log s k xs rc) := by
  have hcrash : New log s.disk new (applyWrites s.disk ((commit log s).2.writes.take k)) := by
    by_cases hn : 0 < log.lh.len
    · obtain ⟨buf, buf', hwr⟩ := commit_wrote hf hh hn
      have hlen : ((range log.lh.len).map (fun i => (log.slot i, new i)) ++
          [(log.start, headBlock log.lh buf)]).length ≤ k := by
        simp only [length_append, length_map, length_range, length_singleton]
        omega
      rw [hwr.writes, hw, nil_append, take_append, take_of_length_le hlen, applyWrites_append]
      exact ((committed_writeHead hf new buf).install hf log.clear.lh rfl buf').1 _
    · -- nothing is logged, nothing is written
      have hlen : log.lh.len = 0 := by omega
      have hcom : (commit log s).2 = s := by
        unfold commit
        rw [if_neg]
        unfold LogHeader.len at hlen
        have h00 : (0 : Word).toInt = 0 := rfl
        rw [BitVec.slt_iff_toInt_lt]; omega
      rw [hcom, hw, take_nil]
      refine .inr ⟨h0, fun b _ => (installed_of_ne fun i hi => ?_).symm⟩
      omega
  have hall := crashed_inv (fun D rc h => (h.recovered hf rc).1) xs hcrash
  exact (hall.recovered hf rc).2

/-- **Crash atomicity.**  The log on the disk is empty and a transaction is ready to commit: the header
in memory names distinct blocks outside the log, whose new contents are in pinned buffers.  Wherever
`commit` crashes, and wherever any number of recoveries crash, in the end the log is empty and

* if `commit` crashed before its first header was written, every block outside the log is old;
* otherwise every logged block is new and every other block outside the log is old. -/
theorem recover_commit (hf : Fits log) (h0 : (s.disk log.start).word 0 = 0) (hw : s.writes = [])
    (hc : ∀ i < log.lh.len, (∃ d, s.cache (log.lh.block i) = some d) ∧ s.pins (log.lh.block i) ≠ 0)
    (k : ℕ) (xs : List (ℕ × (ℕ → Word → Bool))) (rc : ℕ → Word → Bool) :
    (finalDisk log s k xs rc log.start).word 0 = 0 ∧
    (k ≤ log.lh.len → ∀ b, ¬ Area log b → finalDisk log s k xs rc b = s.disk b) ∧
    (log.lh.len < k → (∀ i < log.lh.len, s.cache (log.lh.block i) =
        some (finalDisk log s k xs rc (log.lh.block i))) ∧
      ∀ b, ¬ Area log b → (∀ i < log.lh.len, b ≠ log.lh.block i) → finalDisk log s k xs rc b = s.disk b) := by
  let new : ℕ → Block := fun i => (s.cache (log.lh.block i)).getD (s.disk (log.lh.block i))
  have hnew : ∀ i < log.lh.len, s.cache (log.lh.block i) = some (new i) := by
    intro i hi
    obtain ⟨⟨d, hd⟩, -⟩ := hc i hi; simp [new, hd]
  have hh : ∀ i < log.lh.len, Holds s (log.lh.block i) (new i) := fun i hi =>
    .inl ⟨hnew i hi, (hc i hi).2⟩
  by_cases hk : k ≤ log.lh.len
  · have hold := finalDisk_old hf h0 hw hh hk xs rc
    exact ⟨hold.1, fun _ => hold.2, fun hk' => absurd hk' (by omega)⟩
  · have hk' : log.lh.len < k := by omega
    have hdone := finalDisk_new hf h0 hw hh hk' xs rc
    refine ⟨hdone.1, fun hk' => absurd hk' hk, fun _ => ⟨fun i hi => ?_, fun b hb hne => ?_⟩⟩
    · rw [hdone.2 _ (hf.home i hi), installed_block hf hi]; exact hnew i hi
    · rw [hdone.2 b hb, installed_of_ne hne]

def oneBlock : Log := ⟨2, 30, ⟨1, fun _ => 100⟩⟩

def oneBuffer : Bio where
  disk _ _ := 0
  cache b := if b = 100 then some fun _ => 7 else none
  pins b := if b = 100 then 1 else 0
  recycle _ _ := true
  misses := 0
  writes := []

theorem fits_oneBlock : Fits oneBlock := by
  have hlen : oneBlock.lh.len = 1 := rfl
  refine ⟨by decide, by decide, fun i _ => ?_, fun i hi j hj _ => by omega⟩
  have hne : ∀ j < 30, (100 : Word) ≠ 2 + BitVec.ofNat 32 j := by decide
  rintro ⟨j, hj, he⟩; exact hne j hj he

/-- A crash right after the commit point and a crashed recovery: block 100 is new in the end. -/
theorem recover_commit_oneBlock : oneBuffer.cache 100 =
    some (finalDisk oneBlock oneBuffer 2 [(1, fun _ _ => false)] (fun _ _ => true) 100) := by
  have hlen : oneBlock.lh.len = 1 := rfl
  refine ((recover_commit fits_oneBlock rfl rfl (fun i _ => ⟨⟨_, rfl⟩, Nat.one_ne_zero⟩) 2
    [(1, fun _ _ => false)] (fun _ _ => true)).2.2 (by omega)).1 0 (by omega)

end Xv6.Fs.Recovery
