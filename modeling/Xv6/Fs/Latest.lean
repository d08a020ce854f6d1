import Xv6.Fs.Control

/-!
# Logged blocks stay cached

From its first `log_write` until `install_trans` has brought it home, the newest data of a block is only
in its buffer.  The pin keeps the buffer there, so every `bread` in between finds that data, `write_log`
copies it to the log on the disk, and `install_trans` copies back what `write_log` has copied.

Operations change buffers only between `begin_op` and `end_op`, do not touch the blocks of the log, and
log what they have changed before they release it (`Admitted`).
-/

namespace Xv6.Fs.Latest

open Lib.Runs Param Fs.Machine Fs.Pins Fs.Control List Function BitVec
open Fs.Buffers hiding State Ev exec sys
open Fs.LogOps (Block)
open Fs.GroupCommit (LogState Phase Inv exec_cases phase_update)

def InLog (start n : Word) : Prop := n = start ∨ ∃ tail < LOGSIZE, n = logBlock start tail

instance (start n : Word) : Decidable (InLog start n) :=
  inferInstanceAs (Decidable (n = start ∨ ∃ tail, tail < LOGSIZE ∧ n = logBlock start tail))

theorem logBlock_inj {start : Word} {i j : ℕ} (hi : i < LOGSIZE) (hj : j < LOGSIZE)
    (h : logBlock start i = logBlock start j) : i = j := by
  unfold logBlock at h
  have h1 : BitVec.ofNat 32 i = BitVec.ofNat 32 j := by bv_omega
  have h2 := congrArg BitVec.toNat h1
  have hL : LOGSIZE = 30 := rfl; simp only [toNat_ofNat] at h2; omega

theorem logBlock_ne_start {start : Word} {i : ℕ} (hi : i < LOGSIZE) : logBlock start i ≠ start := by
  intro h
  unfold logBlock at h
  have hL : LOGSIZE = 30 := rfl
  have h1 : BitVec.ofNat 32 i + 1 = 0#32 := by bv_omega
  have h2 := congrArg BitVec.toNat h1
  simp only [toNat_add, toNat_ofNat] at h2
  have h3 : (1 : Word).toNat = 1 := rfl; omega

/-- How many of the `n` blocks `write_log` has copied. -/
def copied (n : ℕ) : Pc → ℕ
  | .empty => 0
  | .logTo tail | .logFrom tail _ | .logCopy tail _ _ => tail
  | .logWrite tail _ _ | .logRelFrom tail _ _ | .logRelTo tail _ => tail + 1
  | _ => n

variable {P : Type} [DecidableEq P] [Fintype P]

/-- An operation changes and logs buffers of blocks outside of the log, and logs a buffer that it has
changed before it releases it. -/
def Admitted (start : Word) (s : State P) : Ev P → Prop
  | .modify p b _ | .logWrite p b => (∃ U, s.core.phase p = .inOp U) ∧ ¬ InLog start (s.blockno b)
  | .unlock p b => b ∉ (s.thread p).dirty
  | _ => True

instance (ph : Phase) : Decidable (∃ U, ph = .inOp U) :=
  match ph with
  | .idle => isFalse fun ⟨_, h⟩ => Phase.noConfusion h
  | .inOp U => isTrue ⟨U, rfl⟩
  | .commit | .committed => isFalse fun ⟨_, h⟩ => Phase.noConfusion h

instance (start : Word) (s : State P) (e : Ev P) : Decidable (Admitted start s e) :=
  match e with
  | .beginOp _ | .endOp _ | .bget _ _ | .lock _ => isTrue trivial
  | .modify p b _ =>
    inferInstanceAs (Decidable ((∃ U, s.core.phase p = .inOp U) ∧ ¬ InLog start (s.blockno b)))
  | .logWrite p b =>
    inferInstanceAs (Decidable ((∃ U, s.core.phase p = .inOp U) ∧ ¬ InLog start (s.blockno b)))
  | .unlock p b => inferInstanceAs (Decidable (b ∉ (s.thread p).dirty))
  | .drop _ | .commit _ | .endCommit _ => isTrue trivial

/-- A valid buffer has the latest data of its block.  So has the disk, unless the block is logged and
not home, or its buffer is changed.  Operations in progress change buffers outside of the log, and the
blocks that `write_log` has copied have the latest data of the blocks they were copied from. -/
structure Fresh (start : Word) (s : State P) : Prop where
  data : ∀ b, (s.cache.buf b).valid = true → s.data b = s.latest (s.blockno b)
  disk : ∀ n, s.disk n = s.latest n ∨ n ∈ s.blocks.drop s.home ∨
    ∃ p, ∃ b ∈ (s.thread p).dirty, s.blockno b = n
  inOp : ∀ p, Free s p → ∀ b ∈ (s.thread p).dirty, ∃ U, s.core.phase p = .inOp U
  outside : ∀ n ∈ s.blocks, ¬ InLog start n
  small : s.blocks.length ≤ LOGSIZE
  copies : ∀ p, s.core.phase p = .commit → ∀ j < copied s.blocks.length (s.pc p),
    s.latest (logBlock start j) = s.latest (homeBlock s.core.log j)

variable {start : Word} {s s' : State P} {p q : P} {b : BufId} {pc : Pc} {a : BufId} {j : ℕ}

section
variable (h : Fresh start s) {data : Block}
include h

omit [DecidableEq P] [Fintype P] in
theorem Fresh.same (hcache : s'.cache = s.cache) (hth : s'.thread = s.thread)
    (hdisk : s'.disk = s.disk) (hlatest : s'.latest = s.latest) (hblocks : s'.blocks = s.blocks)
    (hhome : s'.home = s.home) (hinOp : ∀ p, Free s' p → ∀ b ∈ (s.thread p).dirty, ∃ U, s'.core.phase p = .inOp U)
    (hcopies : ∀ p, s'.core.phase p = .commit → ∀ j < copied s.blocks.length (s'.pc p),
      s.latest (logBlock start j) = s.latest (homeBlock s'.core.log j)) : Fresh start s' := by
  refine ⟨fun b hb => ?_, fun n => ?_, ?_, ?_, ?_, ?_⟩
  · unfold State.data State.blockno
    rw [hcache] at hb ⊢
    rw [hlatest]; exact h.data b hb
  · unfold State.blockno
    rw [hdisk, hlatest, hblocks, hhome, hth, hcache]; exact h.disk n
  · rw [hth]; exact hinOp
  · rw [hblocks]; exact h.outside
  · rw [hblocks]; exact h.small
  · rw [hblocks, hlatest]; exact hcopies

/-! ## Every call keeps the latest data -/

omit [DecidableEq P] [Fintype P] in
theorem Fresh.disk_of {m : Word} (hd : ∀ q, ∀ a ∈ (s.thread q).dirty, s.blockno a = m →
      a ∈ (s'.thread q).dirty ∧ s'.blockno a = m) : s.disk m = s.latest m ∨ m ∈ s.blocks.drop s.home ∨
    ∃ p, ∃ b ∈ (s'.thread p).dirty, s'.blockno b = m := by
  rcases h.disk m with hm | hm | ⟨q, a, ha, hm⟩
  · exact .inl hm
  · exact .inr (.inl hm)
  · exact .inr (.inr ⟨q, a, hd q a ha hm⟩)

omit [Fintype P] in
/-- A process becomes `t` and a buffer becomes `v`; the dirty buffers stay so. -/
theorem Fresh.change {c : Bcache} {v : Buf} {t : Thread}
    (hbuf : c.buf = update s.cache.buf b v) (hdata : v.valid = true → v.data = s.latest v.blockno)
    (hno : ∀ q, b ∈ (s.thread q).dirty → v.blockno = s.blockno b) (hkeep : ∀ a ∈ (s.thread p).dirty, a ∈ t.dirty)
    (hinOp : Free s p → ∀ a ∈ t.dirty, ∃ U, s.core.phase p = .inOp U) :
    Fresh start ({ s with cache := c }.setThread p t) := by
  have hself : c.buf b = v := by rw [hbuf, update_self]
  have hne : ∀ a, a ≠ b → c.buf a = s.cache.buf a := fun a ha => by rw [hbuf, update_of_ne ha]
  refine ⟨fun a ha => ?_, fun m => ?_, ?_, h.outside, h.small, h.copies⟩
  · change (c.buf a).valid = true at ha
    show (c.buf a).data = s.latest (c.buf a).blockno
    by_cases hab : a = b
    · rw [hab, hself] at ha ⊢; exact hdata ha
    · rw [hne a hab] at ha ⊢; exact h.data a ha
  · refine h.disk_of fun q a ha hm => ⟨?_, ?_⟩
    · exact setThread_cases (R := fun q t => a ∈ (s.thread q).dirty → a ∈ t.dirty) (hkeep a) (fun _ _ => id) q ha
    · show (c.buf a).blockno = m
      by_cases hab : a = b
      · subst hab; rw [hself, hno q ha]; exact hm
      · rw [hne a hab]; exact hm
  · exact setThread_cases (R := fun q t => Free s q → ∀ a ∈ t.dirty, ∃ U, s.core.phase q = .inOp U) hinOp
      fun q _ => h.inOp q

theorem Fresh.getBuf (hb : Base s) {n : Word} (hs : getBuf s p n = some s') : Fresh start s' := by
  obtain ⟨-, b, v, rfl, -, -, hv⟩ := getBuf_cases hb.counts.rep hs
  refine h.change rfl (fun hval => ?_) (fun q hq => ?_) (fun _ => id) (h.inOp p)
  · rcases hv with rfl | ⟨-, -, hinv, -⟩
    · exact h.data b hval
    · rw [hinv] at hval; cases hval
  · rcases hv with rfl | ⟨-, h0, -⟩
    · rfl
    · exact absurd h0 (hb.counts.refcnt_ne_zero (refs_pos_of_held (hb.locks.dirty q b hq)))

omit [DecidableEq P] in
theorem Fresh.disk_of_invalid (hb : Base s)
    (hd : (s.cache.buf b).dev = ROOTDEV) (hv : ¬ (s.cache.buf b).valid = true) :
    s.disk (s.blockno b) = s.latest (s.blockno b) := by
  have hno : ∀ a, (s.cache.buf a).valid = true → s.blockno a ≠ s.blockno b := by
    intro a ha he
    obtain rfl := hb.counts.unique_of_dev (hb.counts.dev a (.inr ha)) hd he
    exact hv ha
  rcases h.disk (s.blockno b) with hm | hm | ⟨q, a, ha, hm⟩
  · exact hm
  · obtain ⟨a, ha, he⟩ := hb.pinned.logged _ hm
    exact absurd he (hno a (hb.pinned.pin a ha).2.1)
  · exact absurd hm (hno a (hb.locks.valid q a (hb.locks.dirty q a ha)))

theorem Fresh.lockBuf (hb : Base s) (hs : lockBuf s p = some s') : Fresh start s' := by
  obtain ⟨b, v, hw, -, rfl, -, hd, hn, -, hdata⟩ := lockBuf_cases hs
  have hr : 0 < refs b (s.thread p) := by unfold refs; rw [hw]; simp [refsOf]
  have hdev := hb.counts.dev b (.inl (hb.counts.refcnt_ne_zero hr))
  refine h.change rfl (fun _ => ?_) (fun _ _ => hn) (fun _ => id) (h.inOp p)
  rw [hdata, hn]
  split_ifs with hv
  · exact h.data b hv
  · exact h.disk_of_invalid hb hdev hv

omit [Fintype P] in
theorem Fresh.storeBuf (hp : ¬ Free s p)
    (hd : data = s.latest (s.blockno b)) (hs : storeBuf s p b data = some s') : Fresh start s' := by
  obtain ⟨-, rfl⟩ := storeBuf_eq hs
  exact h.change rfl (fun _ => hd) (fun _ _ => rfl) (fun _ => mem_cons_of_mem b) fun hf => absurd hf hp

theorem Fresh.modifyBuf (hb : Base s)
    (hp : Free s p → ∃ U, s.core.phase p = .inOp U) (hs : modifyBuf s p b data = some s')
    (hcopies : ∀ q, s.core.phase q = .commit → ∀ j < copied s.blocks.length (s.pc q),
      update s.latest (s.blockno b) data (logBlock start j) =
        update s.latest (s.blockno b) data (homeBlock s.core.log j)) : Fresh start s' := by
  obtain ⟨u, hu, rfl⟩ := modifyBuf_eq hs
  obtain ⟨⟨-, hheld⟩, rfl⟩ := storeBuf_eq hu
  have hval := hb.locks.valid p b hheld
  have hno : ∀ a, ((store s.cache b data).buf a).blockno = s.blockno a := by
    refine setBuf_cases (R := fun a v => v.blockno = s.blockno a) ?_ fun _ _ => rfl
    rfl
  have hself : b ∈ ((({ s with cache := store s.cache b data } : State P).setThread p
      { s.thread p with dirty := b :: (s.thread p).dirty }).thread p).dirty := by
    rw [thread_self]; exact mem_cons_self
  refine ⟨fun a ha => ?_, fun m => ?_, ?_, h.outside, h.small, hcopies⟩
  · show ((store s.cache b data).buf a).data = update s.latest (s.blockno b) data
      ((store s.cache b data).buf a).blockno
    rw [hno]
    by_cases hab : a = b
    · subst hab; rw [update_self]; exact congrArg Buf.data setBuf_self
    · have hne : (store s.cache b data).buf a = s.cache.buf a := setBuf_ne hab
      have ha : ((store s.cache b data).buf a).valid = true := ha
      rw [hne] at ha ⊢
      have hne' : s.blockno a ≠ s.blockno b := fun he => hab (hb.counts.unique ha hval he)
      rw [update_of_ne hne']; exact h.data a ha
  · by_cases hm : m = s.blockno b
    · exact .inr (.inr ⟨p, b, hself, (hno b).trans hm.symm⟩)
    · show s.disk m = update s.latest (s.blockno b) data m ∨ _
      rw [update_of_ne hm]
      refine h.disk_of fun q a ha hd => ⟨?_, (hno a).trans hd⟩
      exact setThread_cases (R := fun q t => a ∈ (s.thread q).dirty → a ∈ t.dirty)
        (fun ha => mem_cons_of_mem b ha) (fun _ _ => id) q ha
  · exact setThread_cases (R := fun q t => Free s q → ∀ a ∈ t.dirty, ∃ U, s.core.phase q = .inOp U)
      (fun hf _ _ => hp hf) fun q _ => h.inOp q

end

omit [Fintype P] in
theorem of_mem_filter_dirty (ha : a ∈ ((s.setThread p
      { s.thread p with dirty := (s.thread p).dirty.filter (· ≠ b) }).thread q).dirty) :
    a ∈ (s.thread q).dirty :=
  setThread_cases (s := s) (p := p) (t := { s.thread p with dirty := (s.thread p).dirty.filter (· ≠ b) })
    (R := fun q t => a ∈ t.dirty → a ∈ (s.thread q).dirty) (fun ha => mem_of_mem_filter ha)
    (fun _ _ => id) q ha

section
variable (h : Fresh start s)
include h

theorem Fresh.writeBuf (hb : Base s) (hs : writeBuf s p b = some s') : Fresh start s' := by
  obtain ⟨⟨-, hheld⟩, rfl⟩ := writeBuf_eq hs
  have hval := hb.locks.valid p b hheld
  refine ⟨h.data, fun m => ?_, fun q hq a ha => h.inOp q hq a (of_mem_filter_dirty ha), h.outside,
    h.small, h.copies⟩
  show update s.disk (s.blockno b) (s.data b) m = s.latest m ∨ _
  by_cases hm : m = s.blockno b
  · left; rw [hm, update_self]; exact h.data b hval
  · rw [update_of_ne hm]
    refine h.disk_of fun q a ha hd => ⟨mem_filter_dirty ?_ q ha, hd⟩
    rintro rfl; exact hm hd.symm

theorem Fresh.logBuf (ho : Ok start s) (hp : ∃ U, s.core.phase p = .inOp U)
    (hout : ¬ InLog start (s.blockno b)) (hs : logBuf s p b = some s') : Fresh start s' := by
  have hhome := (ho.ctl.logBuf hs).2
  obtain ⟨⟨-, hheld⟩, l, hl, hcore, hth, hdisk, hpc, hhome', hlatest, hcase⟩ := logBuf_cases hs
  obtain ⟨hlt, hout'⟩ := GroupCommit.logWrite_room hl
  have hblocks := logBuf_blocks hs
  have hmem : ∀ m, m ∈ s'.blocks ↔ m ∈ s.blocks ∨ m = s.blockno b := by
    intro m
    rw [hblocks]
    split_ifs with hn
    · constructor
      · exact .inl
      · rintro (hm | rfl)
        · exact hm
        · exact hn
    · simp
  have hbuf : ∀ a, (s'.cache.buf a).valid = (s.cache.buf a).valid ∧ s'.data a = s.data a ∧
      s'.blockno a = s.blockno a := by
    intro a
    unfold State.data State.blockno
    rcases hcase with ⟨-, hc, -⟩ | ⟨-, hc, -⟩
    · rw [hc]; exact ⟨rfl, rfl, rfl⟩
    · rw [hc]
      refine setBuf_cases (R := fun a v => v.valid = (s.cache.buf a).valid ∧ v.data = s.data a ∧
        v.blockno = s.blockno a) ?_ (fun _ _ => ⟨rfl, rfl, rfl⟩) a
      exact ⟨rfl, rfl, rfl⟩
  refine ⟨fun a ha => ?_, fun m => ?_, fun q hq a ha => ?_, fun m hm => ?_, ?_, fun q hq => ?_⟩
  · rw [(hbuf a).2.1, (hbuf a).2.2, hlatest]
    exact h.data a ((hbuf a).1.symm.trans ha)
  · rw [hdisk, hlatest, hhome', hhome, drop_zero, hmem]
    by_cases hm : m = s.blockno b
    · exact .inr (.inl (.inr hm))
    · rcases h.disk m with hd | hd | ⟨q, a, ha, hd⟩
      · exact .inl hd
      · exact .inr (.inl (.inl (mem_of_mem_drop hd)))
      · have hab : a ≠ b := by rintro rfl; exact hm hd.symm
        refine .inr (.inr ⟨q, a, ?_, (hbuf a).2.2.trans hd⟩)
        rw [hth]; exact mem_filter_dirty hab q ha
  · rw [hth] at ha
    have hq : Free s q := by unfold Free at hq ⊢; rwa [hcore, com_addLogged] at hq
    obtain ⟨V, hV⟩ := h.inOp q hq a (of_mem_filter_dirty ha)
    obtain ⟨U, hU⟩ := hp
    rw [hcore]
    unfold addLogged
    rw [hU]
    by_cases hqp : q = p
    · subst hqp; exact ⟨_, update_self _ _ _⟩
    · exact ⟨V, (update_of_ne hqp _ _).trans hV⟩
  · rcases (hmem m).mp hm with hm | rfl
    · exact h.outside m hm
    · exact hout
  · rw [hblocks]
    split_ifs
    · exact h.small
    · rw [length_append, length_singleton]; exact hlt
  · have h0 := com_addLogged s.core.phase p (s.blockno b) q
    rw [hcore] at hq
    have hq : addLogged s.core.phase p (s.blockno b) q = .commit := hq
    rw [hq, no_committer ho.ctl.core hout' q] at h0; cases h0

omit [Fintype P] in
theorem Fresh.unlockBuf (hd : b ∉ (s.thread p).dirty) (hs : unlockBuf s p b = some s') : Fresh start s' := by
  obtain ⟨-, rfl⟩ := unlockBuf_eq hs
  refine h.change (update_eq_self b _).symm (h.data b) (fun _ _ => rfl) (fun a ha => ?_)
    fun hf a ha => h.inOp p hf a (mem_of_mem_filter ha)
  have hab : a ≠ b := by rintro rfl; exact hd ha
  exact mem_filter.mpr ⟨ha, by simpa using hab⟩

omit [Fintype P] in
theorem Fresh.dropBuf (hs : dropBuf s p = some s') : Fresh start s' := by
  obtain ⟨b, -, rfl⟩ := dropBuf_eq hs
  exact h.change (brelse_buf _ _) (h.data b) (fun _ _ => rfl) (fun _ => id) (h.inOp p)

omit [DecidableEq P] [Fintype P] in
theorem Fresh.unpinBuf (hv : (s.cache.buf b).valid = true) (hw : s.data b = s.disk (s.blockno b))
    (hn : s.blocks.drop s.home = s.blockno b :: s.blocks.drop (s.home + 1)) : Fresh start (unpinBuf s b) := by
  have hbuf : ∀ a, ((bunpin s.cache b).buf a).valid = (s.cache.buf a).valid ∧
      ((bunpin s.cache b).buf a).data = s.data a ∧
      ((bunpin s.cache b).buf a).blockno = s.blockno a := by
    refine setBuf_cases (R := fun a v => v.valid = (s.cache.buf a).valid ∧ v.data = s.data a ∧
      v.blockno = s.blockno a) ?_ fun _ _ => ⟨rfl, rfl, rfl⟩
    exact ⟨rfl, rfl, rfl⟩
  refine ⟨fun a ha => ?_, fun m => ?_, h.inOp, h.outside, h.small, h.copies⟩
  · show ((bunpin s.cache b).buf a).data = s.latest ((bunpin s.cache b).buf a).blockno
    rw [(hbuf a).2.1, (hbuf a).2.2]; exact h.data a ((hbuf a).1.symm.trans ha)
  · rcases h.disk m with hm | hm | ⟨q, a, ha, hm⟩
    · exact .inl hm
    · rw [hn] at hm
      rcases mem_cons.mp hm with rfl | hm
      · exact .inl (hw.symm.trans (h.data b hv))
      · exact .inr (.inl hm)
    · exact .inr (.inr ⟨q, a, ha, (hbuf a).2.2.trans hm⟩)

end

/-! ## Commit keeps the latest data -/

theorem copied_next {l : LogState}
    (hi : ∀ dst src, pc.instr start l ≠ some (.copy dst src)) (hr : InRange l.blocks.length pc)
    (a : BufId) : copied l.blocks.length (pc.next l a) = copied l.blocks.length pc := by
  cases pc with
  | empty => exact hr
  | logCopy tail dst src => exact absurd rfl (hi dst src)
  | logRelTo tail dst =>
    have hr : tail < l.blocks.length := hr
    show copied l.blocks.length (logLoop l (tail + 1)) = tail + 1
    unfold logLoop
    split_ifs with h
    · rfl
    · show l.blocks.length = tail + 1; omega
  | headRel last buf =>
    cases last with
    | true => rfl
    | false =>
      show copied l.blocks.length (homeLoop l 0) = l.blocks.length
      unfold homeLoop
      split_ifs
      · rfl
      · rfl
  | homeRelDst tail dbuf =>
    show copied l.blocks.length (homeLoop l (tail + 1)) = l.blocks.length
    unfold homeLoop
    split_ifs
    · rfl
    · rfl
  | _ => rfl

section
omit [Fintype P]

theorem Fresh.setPc (h : Fresh start s) (hc : s.core.phase p = .commit →
      ∀ j < copied s.blocks.length pc, s.latest (logBlock start j) = s.latest (homeBlock s.core.log j)) :
    Fresh start (s.setPc p pc) := by
  refine h.same rfl rfl rfl rfl rfl rfl h.inOp fun q hq j hj => ?_
  have hj : j < copied s.blocks.length (update s.pc p pc q) := hj
  by_cases hqp : q = p
  · subst hqp; rw [update_self] at hj; exact hc hq j hj
  · rw [update_of_ne hqp] at hj; exact h.copies q hq j hj

theorem Fresh.go (h : Fresh start s') (hpc : s'.pc p = s.pc p) (hlog : s'.core.log = s.core.log)
    (hi : ∀ dst src, (s.pc p).instr start s.core.log ≠ some (.copy dst src))
    (hr : InRange s.blocks.length (s.pc p)) (a : BufId) :
    Fresh start (s'.setPc p ((s.pc p).next s.core.log a)) := by
  have hblocks : s'.blocks = s.blocks := congrArg LogState.blocks hlog
  refine h.setPc fun hp j hj => h.copies p hp j ?_
  have hc : copied s.blocks.length ((s.pc p).next s.core.log a) = copied s.blocks.length (s.pc p) :=
    copied_next hi hr a
  rw [hblocks] at hj ⊢
  rw [hpc, ← hc]; exact hj

end

omit [DecidableEq P] [Fintype P] in
theorem Fresh.homeBlock_ne (h : Fresh start s) (hj : j < s.blocks.length) {n : Word}
    (hn : InLog start n) : homeBlock s.core.log j ≠ n := by
  rintro rfl
  have hmem : homeBlock s.core.log j ∈ s.blocks := by rw [homeBlock_eq hj]; exact getElem_mem hj
  exact h.outside _ hmem hn

theorem copied_le {n : ℕ} (hr : InRange n pc) : copied n pc ≤ n := by
  cases pc with
  | empty => exact Nat.zero_le n
  | logTo tail | logFrom tail _ | logCopy tail _ _ => exact Nat.le_of_lt hr
  | logWrite tail _ _ | logRelFrom tail _ _ | logRelTo tail _ => exact hr
  | _ => exact le_rfl

section
variable (h : Fresh start s) {u : State P}
include h

section
variable (ho : Ok start s) {dst src : BufId}
include ho

theorem fresh_copy (hp : (s.core.phase p).com = 1) (hi : (s.pc p).instr start s.core.log = some (.copy dst src))
    (hu : modifyBuf s p dst (s.data src) = some u) : Fresh start (u.setPc p ((s.pc p).next s.core.log dst)) := by
  have hat := ho.ctl.along p hp
  obtain ⟨tail, hpc⟩ : ∃ tail, s.pc p = .logCopy tail dst src := by
    cases hc : s.pc p with
    | logCopy tail d r =>
      rw [hc] at hi
      cases hi; exact ⟨tail, rfl⟩
    | _ => rw [hc] at hi; cases hi
  have hholds := hat.holds
  have hrange := hat.range
  have hplace := hat.place
  rw [hpc] at hholds hrange hplace
  have hrange : tail < s.blocks.length := hrange
  have hsmall := h.small
  have hsrc : s.blockno src = homeBlock s.core.log tail := (hholds _ mem_cons_self).2
  have hdst : s.blockno dst = logBlock start tail :=
    (hholds _ (mem_cons_of_mem _ mem_cons_self)).2
  have hval : (s.cache.buf src).valid = true := by
    refine ho.base.locks.valid p src ?_
    rw [hplace.2]; exact mem_cons_self
  have hinlog : InLog start (logBlock start tail) := .inr ⟨tail, by omega, rfl⟩
  -- the blocks copied before, and the blocks they were copied from, are others
  have hold : ∀ j < tail, update s.latest (s.blockno dst) (s.data src) (logBlock start j) =
      update s.latest (s.blockno dst) (s.data src) (homeBlock s.core.log j) := by
    intro j hj
    have h1 : logBlock start j ≠ logBlock start tail := by
      intro he
      have := logBlock_inj (by omega) (by omega) he; omega
    rw [hdst, update_of_ne h1, update_of_ne (h.homeBlock_ne (by omega) hinlog)]
    have hphase : s.core.phase p = .commit := by rw [hat.phase, hpc]; rfl
    refine h.copies p hphase j ?_
    rw [hpc]; exact hj
  have hf := h.modifyBuf ho.base (fun hf => by unfold Free at hf; omega) hu fun q hq j hj => ?_
  · obtain ⟨v, hv, rfl⟩ := modifyBuf_eq hu
    obtain ⟨-, rfl⟩ := storeBuf_eq hv
    refine hf.setPc fun _ j hj => ?_
    rw [hpc] at hj
    rcases Nat.lt_succ_iff_lt_or_eq.mp hj with hj | rfl
    · exact hold j hj
    · show update s.latest (s.blockno dst) (s.data src) (logBlock start j) =
        update s.latest (s.blockno dst) (s.data src) (homeBlock s.core.log j)
      rw [hdst, update_self, update_of_ne (h.homeBlock_ne hrange hinlog), ← hsrc]
      exact h.data src hval
  · obtain rfl := ho.ctl.core.one_committer hp (by rw [hq]; rfl)
    rw [hpc] at hj; exact hold j hj

theorem fresh_head (hp : (s.core.phase p).com = 1)
    {data : Block} (hi : (s.pc p).instr start s.core.log = some (.head b))
    (hu : modifyBuf s p b data = some u) : Fresh start (u.setPc p ((s.pc p).next s.core.log b)) := by
  have hat := ho.ctl.along p hp
  have hb : s.blockno b = start := by
    have hholds := hat.holds
    cases hc : s.pc p with
    | headFill last buf =>
      rw [hc] at hi hholds
      cases hi; exact (hholds _ mem_cons_self).2
    | _ => rw [hc] at hi; cases hi
  have hsmall := h.small
  have hf := h.modifyBuf ho.base (fun hf => by unfold Free at hf; omega) hu fun q hq j hj => ?_
  · have hlog : u.pc p = s.pc p ∧ u.core.log = s.core.log := by
      obtain ⟨v, hv, rfl⟩ := modifyBuf_eq hu
      obtain ⟨-, rfl⟩ := storeBuf_eq hv; exact ⟨rfl, rfl⟩
    exact hf.go hlog.1 hlog.2 (by rw [hi]; simp) hat.range b
  · obtain rfl := ho.ctl.core.one_committer hp (by rw [hq]; rfl)
    have hlt := hj.trans_le (copied_le hat.range)
    rw [hb, update_of_ne (logBlock_ne_start (by omega)), update_of_ne (h.homeBlock_ne hlt (.inl rfl))]
    exact h.copies q hq j hj

theorem fresh_restore (hp : (s.core.phase p).com = 1)
    (hi : (s.pc p).instr start s.core.log = some (.restore dst src))
    (hu : storeBuf s p dst (s.data src) = some u) : Fresh start (u.setPc p ((s.pc p).next s.core.log dst)) := by
  have hat := ho.ctl.along p hp
  obtain ⟨tail, hpc⟩ : ∃ tail, s.pc p = .homeCopy tail src dst := by
    cases hc : s.pc p with
    | homeCopy tail d r =>
      rw [hc] at hi
      cases hi; exact ⟨tail, rfl⟩
    | _ => rw [hc] at hi; cases hi
  have hholds := hat.holds
  have hplace := hat.place
  have hphase := hat.phase
  have hrange := hat.range
  rw [hpc] at hholds hplace hphase hrange
  have hdst : s.blockno dst = homeBlock s.core.log tail := (hholds _ mem_cons_self).2
  have hsrc : s.blockno src = logBlock start tail :=
    (hholds _ (mem_cons_of_mem _ mem_cons_self)).2
  have hval : (s.cache.buf src).valid = true := by
    refine ho.base.locks.valid p src ?_
    rw [hplace.2]; exact mem_cons_of_mem _ mem_cons_self
  have hdata : s.data src = s.latest (s.blockno dst) := by
    rw [h.data src hval, hsrc, hdst]
    refine h.copies p hphase tail ?_
    rw [hpc]; exact hrange
  have hf := h.storeBuf (fun hf => by unfold Free at hf; omega) hdata hu
  have hlog : u.pc p = s.pc p ∧ u.core.log = s.core.log := by
    obtain ⟨-, rfl⟩ := storeBuf_eq hu; exact ⟨rfl, rfl⟩
  exact hf.go hlog.1 hlog.2 (by rw [hi]; simp) hat.range dst

theorem fresh_move (hp : (s.core.phase p).com = 1) (hm : Move start s p s') : Fresh start s' := by
  have hat := ho.ctl.along p hp
  cases hm with
  | get hi hs => exact h.getBuf ho.base hs
  | @lock n b u hi hb hu =>
    have hlog : u.pc p = s.pc p ∧ u.core.log = s.core.log := by
      obtain ⟨_, _, -, -, rfl, -⟩ := lockBuf_cases hu; exact ⟨rfl, rfl⟩
    exact (h.lockBuf ho.base hu).go hlog.1 hlog.2 (by rw [hi]; simp) hat.range b
  | copy hi hu => exact fresh_copy h ho hp hi hu
  | restore hi hu => exact fresh_restore h ho hp hi hu
  | head hi hu => exact fresh_head h ho hp hi hu
  | @write b u hi hu =>
    have hlog : u.pc p = s.pc p ∧ u.core.log = s.core.log := by
      obtain ⟨-, rfl⟩ := writeBuf_eq hu; exact ⟨rfl, rfl⟩
    exact (h.writeBuf ho.base hu).go hlog.1 hlog.2 (by rw [hi]; simp) hat.range b
  | @unpin b hi =>
    obtain ⟨hv, hw, hn⟩ := ho.drop_home hp hi
    have hno : ∀ dst src, (s.pc p).instr start s.core.log ≠ some (.copy dst src) := by rw [hi]; simp
    exact (h.unpinBuf hv hw hn).go rfl rfl hno hat.range b
  | @unlock b s' hi hs =>
    obtain ⟨-, -, hc, -⟩ := next_brelse (P := P) hi hat.range b
    refine h.unlockBuf ?_ hs
    rw [hat.dirty, hc]; exact not_mem_nil
  | @drop a b u hi hb hu =>
    have hlog : u.pc p = s.pc p ∧ u.core.log = s.core.log := by
      obtain ⟨_, -, rfl⟩ := dropBuf_eq hu; exact ⟨rfl, rfl⟩
    exact (h.dropBuf hu).go hlog.1 hlog.2 (by rw [hi]; simp) hat.range b
  | clear hi hpc hs =>
    have hhome := hat.all_home hi hpc
    obtain _ | _ | _ | _ | ⟨hp'⟩ | _ := exec_cases hs
    refine ⟨h.data, fun n => ?_, fun q hq b hb => ?_, fun n hn => ?_, Nat.zero_le _, fun q hq => ?_⟩
    · rcases h.disk n with hn | hn | hn
      · exact .inl hn
      · rw [hhome, drop_length] at hn; cases hn
      · exact .inr (.inr hn)
    · have hq : (update s.core.phase p .committed q).com = 0 := hq
      show ∃ U, update s.core.phase p .committed q = .inOp U
      by_cases hqp : q = p
      · rw [hqp, update_self] at hq; cases hq
      · rw [update_of_ne hqp] at hq ⊢; exact h.inOp q hq b hb
    · cases hn
    · rcases phase_update hq with ⟨-, hq⟩ | ⟨hqp, hq⟩
      · cases hq
      · exact absurd (ho.ctl.core.one_committer hp (by rw [hq]; rfl)) hqp

end

omit [Fintype P] in
theorem Fresh.rephase {ph : Phase} {c : GroupCommit.State P} {pc : P → Pc}
    (hc : c.phase = update s.core.phase p ph) (hblocks : c.log.blocks = s.blocks)
    (hpc : ∀ q, q ≠ p → pc q = s.pc q) (hinOp : (∃ U, ph = .inOp U) ∨ (s.thread p).dirty = [])
    (hcom : ph = .commit → copied s.blocks.length (pc p) = 0) : Fresh start { s with core := c, pc := pc } := by
  refine h.same rfl rfl rfl rfl hblocks rfl (fun q hq b hb => ?_) fun q hq j hj => ?_
  · have hq : (c.phase q).com = 0 := hq
    rw [hc] at hq ⊢
    by_cases hqp : q = p
    · subst hqp
      rw [update_self]
      rcases hinOp with hU | hd
      · exact hU
      · rw [hd] at hb; cases hb
    · rw [update_of_ne hqp] at hq ⊢; exact h.inOp q hq b hb
  · have hj : j < copied s.blocks.length (pc q) := hj
    rw [hc] at hq
    by_cases hqp : q = p
    · subst hqp
      rw [update_self] at hq
      rw [hcom hq] at hj; exact absurd hj (Nat.not_lt_zero j)
    · rw [update_of_ne hqp] at hq
      rw [hpc q hqp] at hj
      have hb : homeBlock c.log j = homeBlock s.core.log j := by unfold homeBlock; rw [hblocks]; rfl
      rw [hb]; exact h.copies q hq j hj

theorem fresh_step (ho : Ok start s) {e : Ev P} (ha : Admitted start s e)
    (hs : Step start s e s') : Fresh start s' := by
  cases hs with
  | @beginOp p c hc =>
    obtain _ | _ | _ | _ | _ | _ := exec_cases hc
    exact h.rephase rfl rfl (fun _ _ => rfl) (.inl ⟨∅, rfl⟩) fun he => by cases he
  | @endOp p c hn hc =>
    have hd : (s.thread p).dirty = [] := by
      refine eq_nil_iff_forall_not_mem.mpr fun b hb => ?_
      have hm := ho.base.locks.dirty p b hb
      rw [hn.2] at hm; cases hm
    obtain _ | _ | _ | _ | _ | _ := exec_cases hc
    · exact h.rephase rfl rfl (fun q hq => update_of_ne hq _ _) (.inr hd) fun he => by cases he
    · refine h.rephase rfl rfl (fun q hq => update_of_ne hq _ _) (.inr hd) fun _ => ?_
      rw [update_self]
      split_ifs
      · rfl
      · rfl
  | bget hf hs => exact h.getBuf ho.base hs
  | lock hf hs => exact h.lockBuf ho.base hs
  | modify hf hs =>
    obtain ⟨⟨U, hU⟩, -⟩ := ha
    refine h.modifyBuf ho.base (fun _ => ⟨U, hU⟩) hs fun q hq => ?_
    exact absurd hU (ho.ctl.core.no_op (by rw [hq]; rfl))
  | logWrite hf hs => exact h.logBuf ho ha.1 ha.2 hs
  | unlock hf hs => exact h.unlockBuf ha hs
  | drop hf hs => exact h.dropBuf hs
  | commit hp hm => exact fresh_move h ho hp hm
  | @endCommit p c hpc hc =>
    obtain _ | _ | _ | _ | _ | ⟨hp⟩ := exec_cases hc
    have hat := ho.ctl.along p (by rw [hp]; rfl)
    refine h.rephase rfl rfl (fun _ _ => rfl) (.inr ?_) fun he => by cases he
    rw [hat.dirty, hpc]; rfl

end

theorem run_fresh {disk : Word → Block} {h : List (State P × Ev P)} (hP : Few P)
    (hr : Run (sys P start disk) h s) (ha : ∀ x ∈ h, Admitted start x.1 x.2) : Ok start s ∧ Fresh start s := by
  refine hr.inv_of_ok (I := fun s => Ok start s ∧ Fresh start s) (fun s h0 => ?_)
    (fun s e s' hi hc hs => ?_) ha
  · rw [show s = boot P disk from h0]
    refine ⟨Ok.boot disk, ⟨fun b hb => ?_, fun n => .inl rfl, fun p _ b hb => ?_, fun n hn => ?_,
      Nat.zero_le _, fun p hp => ?_⟩⟩
    · cases hb
    · cases hb
    · cases hn
    · cases hp
  · have hs := step_of_exec hs
    exact ⟨hi.1.step hP hs, fresh_step hi.2 hi.1 hc hs⟩

/-- How many of the `n` blocks `write_log` has written to the log on the disk. -/
def writtenLog (n : ℕ) : Pc → ℕ
  | .empty => 0
  | .logTo tail | .logFrom tail _ | .logCopy tail _ _ | .logWrite tail _ _ => tail
  | .logRelFrom tail _ _ | .logRelTo tail _ => tail + 1
  | _ => n

theorem writtenLog_le (n : ℕ) (pc : Pc) : writtenLog n pc ≤ copied n pc := by
  cases pc with
  | logWrite tail _ _ => exact Nat.le_succ tail
  | _ => exact le_rfl

theorem disk_logBlock (h : Fresh start s) (ho : Ok start s) (hp : s.core.phase p = .commit)
    (hj : j < writtenLog s.blocks.length (s.pc p)) :
    s.disk (logBlock start j) = s.latest (homeBlock s.core.log j) := by
  have hcom : (s.core.phase p).com = 1 := by rw [hp]; rfl
  have hat := ho.ctl.along p hcom
  have hj' := hj.trans_le (writtenLog_le _ _)
  have hlt := hj'.trans_le (copied_le hat.range)
  have hsmall := h.small
  have hin : InLog start (logBlock start j) := .inr ⟨j, by omega, rfl⟩
  rw [← h.copies p hp j hj']
  rcases h.disk (logBlock start j) with hd | hd | ⟨q, b, hb, hd⟩
  · exact hd
  · exact absurd hin (h.outside _ (mem_of_mem_drop hd))
  · exfalso
    rcases free_or_com s q with hq | hq
    · obtain ⟨U, hU⟩ := h.inOp q hq b hb; exact ho.ctl.core.no_op hcom hU
    · -- the committing process has changed at most the buffer it is about to write
      obtain rfl := ho.ctl.core.one_committer hcom hq
      have hholds := hat.holds
      rw [hat.dirty] at hb
      cases hc : s.pc q with
      | logWrite tail dst src =>
        rw [hc] at hb hholds hj
        rw [mem_singleton.mp hb, (hholds _ (mem_cons_of_mem _ mem_cons_self)).2] at hd
        have hrange := hat.range
        rw [hc] at hrange
        have hrange : tail < s.blocks.length := hrange
        have hj : j < tail := hj
        have := logBlock_inj (by omega) (by omega) hd; omega
      | headWrite last buf =>
        rw [hc] at hb hholds
        rw [mem_singleton.mp hb, (hholds _ mem_cons_self).2] at hd
        exact logBlock_ne_start (by omega) hd.symm
      | homeWrite tail lbuf dbuf =>
        rw [hc] at hb hholds
        rw [mem_singleton.mp hb, (hholds _ mem_cons_self).2] at hd
        have hrange := hat.range
        rw [hc] at hrange; exact h.homeBlock_ne hrange hin hd
      | _ => rw [hc] at hb; cases hb

/-- **Logged blocks stay cached until they are home.**  In every run of operations and commits:
a block that is logged and that `install_trans` has not brought home has a buffer with the latest data,
one pin and a count that is not zero, which no `bget` takes away; every buffer that a process has read
has the latest data of its block; what `write_log` has written to the log is the latest data; and there
are no other pins, so none when the header is cleared. -/
theorem logged_stays_cached (hP : Few P) {disk : Word → Block} {h : List (State P × Ev P)}
    (hr : Run (sys P start disk) h s) (ha : ∀ x ∈ h, Admitted start x.1 x.2) :
    (∀ n ∈ s.blocks.drop s.home, ∃ b, Holds s b n ∧ s.pins b = 1 ∧ (s.cache.buf b).refcnt ≠ 0 ∧
      (s.cache.buf b).valid = true ∧ s.data b = s.latest n ∧
      ∀ p m s', getBuf s p m = some s' → Holds s' b n) ∧
    (∀ p, ∀ b ∈ (s.thread p).held, s.data b = s.latest (s.blockno b)) ∧
    (∀ p, s.core.phase p = .commit → ∀ j < writtenLog s.blocks.length (s.pc p),
      s.disk (logBlock start j) = s.latest (homeBlock s.core.log j)) ∧
    (∀ b, s.pins b ≠ 0 → s.pins b = 1 ∧ s.blockno b ∈ s.blocks.drop s.home) ∧
    ∀ p, s.core.phase p = .committed → ∀ b, s.pins b = 0 := by
  obtain ⟨ho, hf⟩ := run_fresh hP hr ha
  refine ⟨fun n hn => ?_, fun p b hb => hf.data b (ho.base.locks.valid p b hb),
    fun p hp j hj => disk_logBlock hf ho hp hj, fun b hb => ?_, fun p hp b => ?_⟩
  · obtain ⟨b, hb, rfl⟩ := ho.base.pinned.logged n hn
    obtain ⟨hone, hv, -⟩ := ho.base.pinned.pin b hb
    have hr : (s.cache.buf b).refcnt ≠ 0 := by
      intro h0; exact hb (ho.base.counts.of_refcnt_zero h0).2
    have hholds : Holds s b (s.blockno b) := ⟨ho.base.counts.dev b (.inl hr), rfl⟩
    exact ⟨b, hholds, hone, hr, hv, hf.data b hv, fun p m s' hs => keep_getBuf ho.base hs b _ hr hholds⟩
  · obtain ⟨h1, -, h3⟩ := ho.base.pinned.pin b hb; exact ⟨h1, h3⟩
  · by_contra hb
    have h3 := (ho.base.pinned.pin b hb).2.2
    have hcleared : s.blocks = [] := ho.ctl.core.cleared p hp
    rw [hcleared, drop_nil] at h3; cases h3

def oneWrite : List (Ev (Fin 1)) :=
  [.beginOp 0, .bget 0 50, .lock 0, .modify 0 0 (fun _ => 7), .logWrite 0 0, .unlock 0 0, .drop 0]

theorem logged_stays_cached_once : ∃ s : State (Fin 1), s.blocks.drop s.home = [50] ∧
    (s.thread 0).held = [] ∧ (s.latest 50).word 0 = 7 ∧
    ∃ b, Holds s b 50 ∧ s.pins b = 1 ∧ (s.cache.buf b).refcnt ≠ 0 ∧ s.data b = s.latest 50 := by
  have ha : ∀ x ∈ stepsOf (exec 2) (boot (Fin 1) fun _ _ => 0) oneWrite,
      Admitted 2 x.1 x.2 := by decide +kernel
  obtain ⟨s, hr, -, ht⟩ := exists_run (T := sys (Fin 1) 2 fun _ _ => 0) (f := exec 2)
    (fun _ _ _ h => h) rfl oneWrite
    (fun s : State (Fin 1) => decide (s.blocks.drop s.home = [50] ∧ (s.thread 0).held = [] ∧
      (s.latest 50).word 0 = 7))
    (by decide +kernel)
  obtain ⟨h1, h2, h3⟩ := of_decide_eq_true ht
  have hP : Few (Fin 1) := by unfold Few; decide
  have h50 : 50 ∈ s.blocks.drop s.home := by rw [h1]; exact mem_cons_self
  obtain ⟨b, hb, hp, hc, -, hd, -⟩ := (logged_stays_cached hP hr ha).1 50 h50
  exact ⟨s, h1, h2, h3, b, hb, hp, hc, hd⟩

end Xv6.Fs.Latest
