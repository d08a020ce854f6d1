import Xv6.Fs.Pins

/-!
# The way through `commit`

At every point of `commit` it is known which buffers the process has locked, which blocks they hold, which of
them it has changed, and how many blocks it has unpinned (`At`).

**Main results**: the step lemmas `Ok.step` for counts, locks, pins and the way through `commit`, and `clean_step`
for the buffers that are clean.
-/

namespace Xv6.Fs.Control

open Lib.Runs Param Fs.Machine Fs.Pins List Function Nat Prod
open Fs.Buffers hiding State Ev exec sys
open Fs.LogOps (Block)
open Fs.GroupCommit (LogState Phase Inv exec_cases phase_update logWrite_room com_committed com_commit)

/-! ## Where a process is -/

/-- The buffers that are locked at a point of `commit`, with their blocks. -/
def bufs (start : Word) (l : LogState) : Pc → List (BufId × Word)
  | .logFrom tail dst => [(dst, logBlock start tail)]
  | .logCopy tail dst src | .logWrite tail dst src | .logRelFrom tail dst src =>
    [(src, homeBlock l tail), (dst, logBlock start tail)]
  | .logRelTo tail dst => [(dst, logBlock start tail)]
  | .headFill _ buf | .headWrite _ buf | .headRel _ buf => [(buf, start)]
  | .homeDst tail lbuf => [(lbuf, logBlock start tail)]
  | .homeCopy tail lbuf dbuf | .homeWrite tail lbuf dbuf | .homeUnpin tail lbuf dbuf
  | .homeRelLog tail lbuf dbuf => [(dbuf, homeBlock l tail), (lbuf, logBlock start tail)]
  | .homeRelDst tail dbuf => [(dbuf, homeBlock l tail)]
  | _ => []

def changed : Pc → List BufId
  | .logWrite _ dst _ => [dst]
  | .headWrite _ buf => [buf]
  | .homeWrite _ _ dbuf => [dbuf]
  | _ => []

/-- How many of the `n` blocks in the log have been unpinned. -/
def homed (n : ℕ) : Pc → ℕ
  | .homeLog tail | .homeDst tail _ | .homeCopy tail _ _ | .homeWrite tail _ _
  | .homeUnpin tail _ _ => tail
  | .homeRelLog tail _ _ | .homeRelDst tail _ => tail + 1
  | .clear => n
  | _ => 0

/-- The bound that the loops of `write_log` and `install_trans` have checked: `tail < log.lh.n`. -/
def InRange (n : ℕ) : Pc → Prop
  | .logTo tail | .logFrom tail _ | .logCopy tail _ _ | .logWrite tail _ _
  | .logRelFrom tail _ _ | .logRelTo tail _ | .homeLog tail | .homeDst tail _
  | .homeCopy tail _ _ | .homeWrite tail _ _ | .homeUnpin tail _ _ | .homeRelLog tail _ _
  | .homeRelDst tail _ => tail < n
  | .empty => n = 0
  | _ => True

def phaseAt : Pc → Phase
  | .headBuf true | .headFill true _ | .headWrite true _ | .headRel true _ | .done => .committed
  | _ => .commit

variable {P : Type} [DecidableEq P] [Fintype P]

def Holds (s : State P) (b : BufId) (n : Word) : Prop :=
  (s.cache.buf b).dev = ROOTDEV ∧ s.blockno b = n

/-- What a process has locked, `held` being what is locked before a call: inside `bread` it waits for a
buffer of the block, inside `brelse` it has given back the lock. -/
def Place (s : State P) (t : Thread) (held : List BufId) : Option Instr → Prop
  | some (.bread n) => t.held = held ∧ (t.busy = .free ∨ ∃ b, t.busy = .want b ∧ Holds s b n)
  | some (.brelse b) =>
    (t.busy = .free ∧ t.held = held) ∨ (t.busy = .leave b ∧ t.held = held.erase b)
  | _ => t.busy = .free ∧ t.held = held

def Written (s : State P) : Pc → Prop
  | .homeUnpin _ _ dbuf => s.data dbuf = s.disk (s.blockno dbuf)
  | _ => True

structure At (start : Word) (s : State P) (p : P) : Prop where
  phase : s.core.phase p = phaseAt (s.pc p)
  place : Place s (s.thread p) ((bufs start s.core.log (s.pc p)).map fst)
    ((s.pc p).instr start s.core.log)
  dirty : (s.thread p).dirty = changed (s.pc p)
  holds : ∀ x ∈ bufs start s.core.log (s.pc p), Holds s x.1 x.2
  range : InRange s.blocks.length (s.pc p)
  home : s.home = homed s.blocks.length (s.pc p)
  written : Written s (s.pc p)

/-- The log is in order, a process in `commit` is where its code says, and otherwise no block of the log
is home. -/
structure Ctl (start : Word) (s : State P) : Prop where
  core : Inv LOGSIZE s.core
  along : ∀ p, (s.core.phase p).com = 1 → At start s p
  idle : (∀ p, (s.core.phase p).com = 0) → s.home = 0

structure Ok (start : Word) (s : State P) : Prop where
  base : Base s
  ctl : Ctl start s

variable {start : Word} {s s' : State P} {p q : P} {b : BufId}

omit [DecidableEq P] [Fintype P] in
theorem at_free {pc : Pc} (hpc : s.pc p = pc) (hphase : s.core.phase p = phaseAt pc)
    (hbusy : (s.thread p).busy = .free) (hheld : (s.thread p).held = (bufs start s.core.log pc).map fst)
    (hdirty : (s.thread p).dirty = changed pc)
    (hholds : ∀ x ∈ bufs start s.core.log pc, Holds s x.1 x.2) (hrange : InRange s.blocks.length pc)
    (hhome : s.home = homed s.blocks.length pc) (hw : Written s pc) : At start s p := by
  subst hpc
  refine ⟨hphase, ?_, hdirty, hholds, hrange, hhome, hw⟩
  unfold Place
  split
  · exact ⟨hheld, .inl hbusy⟩
  · exact .inl ⟨hbusy, hheld⟩
  · exact ⟨hbusy, hheld⟩

/-! ## Other processes -/

section
omit [DecidableEq P] [Fintype P]

theorem At.refs_pos (h : At start s p) {x : BufId × Word}
    (hx : x ∈ bufs start s.core.log (s.pc p)) : 0 < refs x.1 (s.thread p) := by
  have hmem : x.1 ∈ (bufs start s.core.log (s.pc p)).map fst := mem_map_of_mem hx
  have hplace := h.place
  unfold Place at hplace
  split at hplace
  · rw [← hplace.1] at hmem; exact refs_pos_of_held hmem
  · next b _ =>
    rcases hplace with ⟨-, hh⟩ | ⟨hb, hh⟩
    · rw [← hh] at hmem; exact refs_pos_of_held hmem
    · by_cases hxb : x.1 = b
      · unfold refs; rw [hb, hxb]; simp [refsOf]
      · refine refs_pos_of_held ?_
        rw [hh]; exact (mem_erase_of_ne hxb).mpr hmem
  · rw [← hplace.2] at hmem; exact refs_pos_of_held hmem

theorem At.frame (h : At start s p) (hth : s'.thread p = s.thread p) (hpc : s'.pc p = s.pc p)
    (hphase : s'.core.phase p = s.core.phase p) (hlog : s'.core.log = s.core.log)
    (hhome : s'.home = s.home) (hdisk : s'.disk = s.disk) (hdata : ∀ b ∈ (s.thread p).held, s'.data b = s.data b)
    (hkeep : ∀ b, 0 < refs b (s.thread p) → ∀ n, Holds s b n → Holds s' b n) : At start s' p := by
  have hblocks : s'.blocks = s.blocks := congrArg LogState.blocks hlog
  refine ⟨?_, ?_, ?_, ?_, ?_, ?_, ?_⟩
  · rw [hphase, hpc]; exact h.phase
  · rw [hth, hpc, hlog]
    have hplace := h.place
    unfold Place at hplace ⊢
    split at hplace
    · refine ⟨hplace.1, hplace.2.imp_right ?_⟩
      rintro ⟨b, hb, hn⟩
      refine ⟨b, hb, hkeep b ?_ _ hn⟩
      unfold refs
      rw [hb]; simp [refsOf]
    · exact hplace
    · exact hplace
  · rw [hth, hpc]; exact h.dirty
  · rw [hpc, hlog]
    exact fun x hx => hkeep x.1 (h.refs_pos hx) x.2 (h.holds x hx)
  · rw [hpc, hblocks]; exact h.range
  · rw [hpc, hblocks, hhome]; exact h.home
  · rw [hpc]
    have hw := h.written
    have hplace := h.place
    have hholds := h.holds
    have hpos := fun x hx => h.refs_pos (x := x) hx
    cases hc : s.pc p with
    | homeUnpin tail lbuf dbuf =>
      rw [hc] at hw hplace hholds hpos
      have hd : dbuf ∈ (s.thread p).held := by rw [hplace.2]; exact mem_cons_self
      have hmem : (dbuf, homeBlock s.core.log tail) ∈
          bufs start s.core.log (.homeUnpin tail lbuf dbuf) := mem_cons_self
      have hn := hkeep dbuf (hpos _ hmem) _ (hholds _ hmem)
      show s'.data dbuf = s'.disk (s'.blockno dbuf)
      rw [hdata dbuf hd, hdisk, hn.2, ← (hholds _ hmem).2]; exact hw
    | _ => trivial

end

def Keep (s s' : State P) : Prop :=
  ∀ b n, (s.cache.buf b).refcnt ≠ 0 → Holds s b n → Holds s' b n

variable {t : Thread} {n : Word} {v : Buf}

section
omit [Fintype P]

theorem thread_ne (h : q ≠ p) : (s.setThread p t).thread q = s.thread q :=
  update_of_ne h _ _

theorem thread_self : (s.setThread p t).thread p = t :=
  update_self _ _ _

end

omit [DecidableEq P] [Fintype P] in
theorem keep_setBuf (hbuf : s'.cache.buf = update s.cache.buf b v) (hv : (s.cache.buf b).refcnt ≠ 0 →
      v.dev = (s.cache.buf b).dev ∧ v.blockno = s.blockno b) : Keep s s' := by
  intro a n hr ha
  show (s'.cache.buf a).dev = ROOTDEV ∧ (s'.cache.buf a).blockno = n
  rw [hbuf]
  by_cases hab : a = b
  · subst hab; rw [update_self, (hv hr).1, (hv hr).2]; exact ha
  · rw [update_of_ne hab]; exact ha

omit [DecidableEq P] [Fintype P] in
theorem data_setBuf {l : List BufId} {a : BufId} (hb : b ∈ l → v.data = s.data b) (ha : a ∈ l) :
    ((s.cache.setBuf b v).buf a).data = s.data a :=
  setBuf_cases (R := fun a v => a ∈ l → v.data = s.data a) hb (fun _ _ _ => rfl) a ha

theorem keep_getBuf (hb : Base s) (hs : getBuf s p n = some s') : Keep s s' := by
  obtain ⟨-, b, v, rfl, -, -, hv⟩ := getBuf_cases hb.counts.rep hs
  refine keep_setBuf rfl fun hr => ?_
  rcases hv with rfl | ⟨-, h0, -⟩
  · exact ⟨rfl, rfl⟩
  · exact absurd h0 hr

theorem keep_lockBuf (hs : lockBuf s p = some s') : Keep s s' := by
  obtain ⟨b, v, -, -, rfl, -, hd, hn, -⟩ := lockBuf_cases hs
  exact keep_setBuf rfl fun _ => ⟨hd, hn⟩

variable {data : Block}

section
omit [Fintype P]

theorem keep_storeBuf (hs : storeBuf s p b data = some s') : Keep s s' := by
  obtain ⟨-, rfl⟩ := storeBuf_eq hs; exact keep_setBuf rfl fun _ => ⟨rfl, rfl⟩

theorem keep_dropBuf (hs : dropBuf s p = some s') : Keep s s' := by
  obtain ⟨b, -, rfl⟩ := dropBuf_eq hs
  exact keep_setBuf (brelse_buf _ _) fun _ => ⟨rfl, rfl⟩

end

theorem Ctl.other (h : Ctl start s) (hb : Base s) (hp : Free s p)
    (hth : ∀ q, q ≠ p → s'.thread q = s.thread q) (hpc : s'.pc = s.pc) (hcore : s'.core = s.core)
    (hhome : s'.home = s.home) (hdisk : s'.disk = s.disk)
    (hdata : ∀ q, q ≠ p → ∀ b ∈ (s.thread q).held, s'.data b = s.data b) (hkeep : Keep s s') : Ctl start s' := by
  refine ⟨by rw [hcore]; exact h.core, fun q hq => ?_, fun hq => ?_⟩
  · rw [hcore] at hq
    have hne : q ≠ p := by
      rintro rfl
      unfold Free at hp; omega
    refine (h.along q hq).frame (hth q hne) (by rw [hpc]) (by rw [hcore]) (by rw [hcore]) hhome
      hdisk (hdata q hne) ?_
    exact fun b hr n => hkeep b n (hb.counts.refcnt_ne_zero hr)
  · rw [hcore] at hq; rw [hhome]; exact h.idle hq

variable {c : GroupCommit.State P}

theorem core_logWrite (hi : Inv LOGSIZE c) {l : LogState}
    (hl : GroupCommit.logWrite c.log n = .ok l) : Inv LOGSIZE ⟨l, addLogged c.phase p n⟩ := by
  have hroom := logWrite_room hl
  have hok := GroupCommit.logWrite_ok hl
  have hmem : ∀ x, x ∈ c.log.blocks ∨ x = n → x ∈ l.blocks := by
    intro x hx
    rw [hok]
    split_ifs with hn
    · rcases hx with hx | rfl
      · exact hx
      · exact hn
    · simpa using hx
  unfold addLogged
  split
  · next U hU =>
    have hcard : (insert n U).card ≤ LOGSIZE := by
      have hsub : insert n U ⊆ l.blocks.toFinset := by
        intro x hx
        rw [mem_toFinset]
        rcases Finset.mem_insert.mp hx with rfl | hx
        · exact hmem x (.inr rfl)
        · exact hmem x (.inl ((hi.logged p U hU).2 x hx))
      have h1 := Finset.card_le_card hsub
      have h2 := toFinset_card_le l.blocks
      have h3 : l.blocks.length ≤ c.log.blocks.length + 1 := by
        rw [hok]
        dsimp only
        split_ifs
        · omega
        · rw [length_append, length_singleton]
      omega
    have hexec : GroupCommit.exec LOGSIZE c (.logWrite p n) =
        some ⟨l, update c.phase p (.inOp (insert n U))⟩ := by
      simp only [GroupCommit.exec, hU, if_pos hcard, hl]
    exact hi.exec hexec
  · refine ⟨?_, ?_, ?_, ?_, fun q V hq => ?_, ?_, fun q hq => ?_⟩
    · rw [hok]; exact hi.size
    · rw [hok]; exact hi.outstanding
    · rw [hok]; exact hi.committing
    · rw [hok]; exact hi.alone
    · exact ⟨(hi.logged q V hq).1, fun x hx => hmem x (.inl ((hi.logged q V hq).2 x hx))⟩
    · rw [hok]
      intro h0
      dsimp only at h0; omega
    · have h0 := hi.outstanding_zero (by rw [hq, com_committed]); omega

omit [Fintype P] in
theorem com_addLogged (phase : P → Phase) (p : P) (n : Word) (q : P) :
    (addLogged phase p n q).com = (phase q).com := by
  unfold addLogged
  cases hU : phase p with
  | inOp U =>
    dsimp only
    by_cases hq : q = p
    · subst hq; rw [update_self, hU]; rfl
    · rw [update_of_ne hq]
  | _ => rfl

theorem no_committer (hi : Inv LOGSIZE c) (ho : 0 < c.log.outstanding) (q : P) : (c.phase q).com = 0 := by
  have h1 : (c.phase q).com ≤ 1 := by
    cases c.phase q with
    | idle | inOp U => exact zero_le 1
    | commit | committed => exact le_rfl
  by_contra h0
  have h2 := hi.outstanding_zero (p := q) (by omega); omega

theorem Ctl.logBuf (h : Ctl start s) (hs : logBuf s p b = some s') : Ctl start s' ∧ s.home = 0 := by
  obtain ⟨-, l, hl, hcore, -, -, -, hhome, -⟩ := logBuf_cases hs
  have hinv := core_logWrite (p := p) h.core hl
  have hout := (logWrite_room hl).2
  have hnone := no_committer h.core hout
  refine ⟨⟨by rw [hcore]; exact hinv, fun q hq => ?_, fun _ => ?_⟩, h.idle hnone⟩
  · rw [hcore, com_addLogged, hnone q] at hq; cases hq
  · rw [hhome]; exact h.idle hnone

section
variable (h : Ok start s)
include h

theorem Ok.getBuf (hP : Few P) (hp : Free s p) (hs : getBuf s p n = some s') : Ok start s' := by
  refine ⟨h.base.getBuf hP hs, ?_⟩
  have hkeep := keep_getBuf h.base hs
  obtain ⟨-, b, v, rfl, -, -, hv⟩ := getBuf_cases h.base.counts.rep hs
  refine h.ctl.other h.base hp (fun q hq => thread_ne hq) rfl rfl rfl rfl
    (fun q _ a ha => data_setBuf (fun hb => ?_) ha) hkeep
  rcases hv with rfl | ⟨-, h0, -⟩
  · rfl
  · exact absurd h0 (h.base.counts.refcnt_ne_zero (refs_pos_of_held hb))

theorem Ok.lockBuf (hp : Free s p) (hs : lockBuf s p = some s') : Ok start s' := by
  refine ⟨h.base.lockBuf hs, ?_⟩
  have hkeep := keep_lockBuf hs
  obtain ⟨b, v, -, hfree, rfl, -⟩ := lockBuf_cases hs
  exact h.ctl.other h.base hp (fun q hq => thread_ne hq) rfl rfl rfl rfl
    (fun q _ a ha => data_setBuf (fun hb => absurd hb (hfree q)) ha) hkeep

theorem Ok.modifyBuf (hp : Free s p) (hs : modifyBuf s p b data = some s') : Ok start s' := by
  refine ⟨h.base.modifyBuf hs, ?_⟩
  obtain ⟨u, hu, rfl⟩ := modifyBuf_eq hs
  have hkeep := keep_storeBuf hu
  obtain ⟨⟨-, hb⟩, rfl⟩ := storeBuf_eq hu
  exact h.ctl.other h.base hp (fun q hq => thread_ne hq) rfl rfl rfl rfl
    (fun q hq a ha => data_setBuf (fun hb' => absurd (h.base.locks.alone q p b hb' hb) hq) ha) hkeep

theorem Ok.logBuf (hP : Few P) (hs : logBuf s p b = some s') : Ok start s' :=
  ⟨h.base.logBuf hP hs, (h.ctl.logBuf hs).1⟩

theorem Ok.unlockBuf (hp : Free s p) (hs : unlockBuf s p b = some s') : Ok start s' := by
  refine ⟨h.base.unlockBuf hs, ?_⟩
  obtain ⟨-, rfl⟩ := unlockBuf_eq hs
  exact h.ctl.other h.base hp (fun q hq => thread_ne hq) rfl rfl rfl rfl (fun _ _ _ _ => rfl) fun _ _ _ => id

theorem Ok.dropBuf (hp : Free s p) (hs : dropBuf s p = some s') : Ok start s' := by
  refine ⟨h.base.dropBuf hs, ?_⟩
  have hkeep := keep_dropBuf hs
  obtain ⟨b, -, rfl⟩ := dropBuf_eq hs
  refine h.ctl.other h.base hp (fun q hq => thread_ne hq) rfl rfl rfl rfl (fun q _ a _ => ?_) hkeep
  show ((brelse s.cache b).buf a).data = s.data a
  rw [brelse_buf]
  refine setBuf_cases (c := s.cache) (R := fun a v => v.data = s.data a) ?_ (fun _ _ => rfl) a
  rfl

theorem Ok.beginOp
    (hs : GroupCommit.exec LOGSIZE s.core (.beginOp p) = some c) : Ok start { s with core := c } := by
  have hi := h.ctl.core
  have hinv := hi.exec hs
  obtain ⟨hp, hc⟩ | _ | _ | _ | _ | _ := exec_cases hs
  have hnone := no_committer hinv (succ_pos _)
  have hhome : s.home = 0 := by
    refine h.ctl.idle fun q => ?_
    have hq := hnone q
    dsimp only at hq
    by_cases hqp : q = p
    · rw [hqp, hp]; rfl
    · rwa [update_of_ne hqp] at hq
  refine ⟨h.base.same rfl rfl rfl rfl rfl, ⟨hinv, fun q hq => ?_, fun _ => hhome⟩⟩
  exact absurd ((hnone q).symm.trans hq) zero_ne_one

theorem Ok.endOp (hn : (s.thread p).none) (hs : GroupCommit.exec LOGSIZE s.core (.endOp p) = some c) :
    Ok start ({ s with core := c }.setPc p (if s.blocks.length = 0 then .empty else .logTo 0)) := by
  have hi := h.ctl.core
  have hinv := hi.exec hs
  have hdirty : (s.thread p).dirty = [] := by
    refine eq_nil_iff_forall_not_mem.mpr fun b hb => ?_
    have hm := h.base.locks.dirty p b hb
    rw [hn.2] at hm; cases hm
  obtain _ | _ | ⟨hp, -, ho⟩ | ⟨hp⟩ | _ | _ := exec_cases hs
  · have hnone := no_committer hinv (show 0 < s.core.log.outstanding - 1 by omega)
    have hhome := h.ctl.idle (no_committer hi (hi.outstanding_pos hp))
    refine ⟨h.base.same rfl rfl rfl rfl rfl, ⟨hinv, fun q hq => ?_, fun _ => hhome⟩⟩
    exact absurd ((hnone q).symm.trans hq) zero_ne_one
  · have hno := no_committer hi (hi.outstanding_pos hp)
    have hhome := h.ctl.idle hno
    refine ⟨h.base.same rfl rfl rfl rfl rfl, ⟨hinv, fun q hq => ?_, fun hq => ?_⟩⟩
    · have hqp : q = p := by
        by_contra hqp
        have hq : (update s.core.phase p .commit q).com = 1 := hq
        rw [update_of_ne hqp, hno q] at hq; cases hq
      subst hqp
      have hpc := update_self q (if s.blocks.length = 0 then Pc.empty else .logTo 0) s.pc
      have hphase : update s.core.phase q .commit q = Phase.commit := update_self _ _ _
      by_cases h0 : s.blocks.length = 0
      · rw [if_pos h0] at hpc ⊢
        exact at_free hpc hphase hn.1 hn.2 hdirty (fun _ hx => by cases hx) h0 hhome trivial
      · rw [if_neg h0] at hpc ⊢
        exact at_free hpc hphase hn.1 hn.2 hdirty (fun _ hx => by cases hx)
          (pos_of_ne_zero h0) hhome trivial
    · have h1 : (update s.core.phase p .commit p).com = 0 := hq p
      rw [update_self] at h1; cases h1

theorem Ok.endCommit (hpc : s.pc p = .done)
    (hs : GroupCommit.exec LOGSIZE s.core (.endCommit p) = some c) : Ok start { s with core := c } := by
  have hi := h.ctl.core
  have hinv := hi.exec hs
  obtain _ | _ | _ | _ | _ | ⟨hp⟩ := exec_cases hs
  have hcom : (s.core.phase p).com = 1 := by rw [hp, com_committed]
  have hhome := (h.ctl.along p hcom).home
  rw [hpc] at hhome
  refine ⟨h.base.same rfl rfl rfl rfl rfl, ⟨hinv, fun q hq => ?_, fun _ => hhome⟩⟩
  have hq : (update s.core.phase p .idle q).com = 1 := hq
  by_cases hqp : q = p
  · rw [hqp, update_self] at hq; cases hq
  · rw [update_of_ne hqp] at hq; exact absurd (hi.one_committer hcom hq) hqp

end

/-! ## A process in `commit` -/

structure Goes (n : ℕ) (pc pc' : Pc) : Prop where
  phase : phaseAt pc' = phaseAt pc
  range : InRange n pc → InRange n pc'
  home : homed n pc' = homed n pc

variable {l : LogState} {pc : Pc} {n tail : ℕ} {k : Word} {i : Instr}

section
omit [DecidableEq P] [Fintype P]

theorem next_bread (hi : pc.instr start l = some (.bread k)) (b : BufId) :
    bufs start l (pc.next l b) = (b, k) :: bufs start l pc ∧ changed pc = [] ∧
    changed (pc.next l b) = [] ∧ Goes n pc (pc.next l b) ∧ ∀ s : State P, Written s (pc.next l b) := by
  cases pc <;> simp only [Pc.instr, Option.some.injEq, Instr.bread.injEq, reduceCtorEq] at hi <;>
    subst hi <;> refine ⟨rfl, rfl, rfl, ⟨?_, fun h => h, rfl⟩, fun _ => trivial⟩
  all_goals first | rfl | (next last => cases last <;> rfl)

def stores : Instr → Option BufId
  | .copy dst _ | .restore dst _ => some dst
  | .head b => some b
  | _ => none

theorem next_store (hi : pc.instr start l = some i) (hd : stores i = some b) (a : BufId) :
    bufs start l (pc.next l a) = bufs start l pc ∧ changed pc = [] ∧ changed (pc.next l a) = [b] ∧
    Goes n pc (pc.next l a) ∧ ∀ s : State P, Written s (pc.next l a) := by
  cases pc <;> simp only [Pc.instr, Option.some.injEq, reduceCtorEq] at hi <;> subst hi <;>
    simp only [stores, Option.some.injEq, reduceCtorEq] at hd <;> subst hd <;>
    refine ⟨rfl, rfl, rfl, ⟨?_, fun h => h, rfl⟩, fun _ => trivial⟩
  all_goals first | rfl | (next last _ => cases last <;> rfl)

theorem next_write (hi : pc.instr start l = some (.bwrite b)) (a : BufId) :
    bufs start l (pc.next l a) = bufs start l pc ∧ changed pc = [b] ∧ changed (pc.next l a) = [] ∧
    Goes n pc (pc.next l a) ∧ ∀ s : State P, s.data b = s.disk (s.blockno b) → Written s (pc.next l a) := by
  cases pc <;> simp only [Pc.instr, Option.some.injEq, Instr.bwrite.injEq, reduceCtorEq] at hi <;>
    subst hi <;> refine ⟨rfl, rfl, rfl, ⟨?_, fun h => h, rfl⟩, fun _ hw => ?_⟩
  all_goals first | rfl | exact hw | trivial | (next last _ => cases last <;> rfl)

theorem instr_bunpin (hi : pc.instr start l = some (.bunpin b)) : ∃ tail lbuf, pc = .homeUnpin tail lbuf b := by
  cases pc <;> simp only [Pc.instr, Option.some.injEq, Instr.bunpin.injEq, reduceCtorEq] at hi
  subst hi; exact ⟨_, _, rfl⟩

theorem goes_logLoop {dst : BufId} : Goes l.blocks.length (.logRelTo tail dst) (logLoop l (tail + 1)) := by
  unfold logLoop
  split_ifs with h
  · exact ⟨rfl, fun _ => h, rfl⟩
  · exact ⟨rfl, fun _ => trivial, rfl⟩

theorem goes_homeLoop {dbuf : BufId} (hr : tail < l.blocks.length) :
    Goes l.blocks.length (.homeRelDst tail dbuf) (homeLoop l (tail + 1)) := by
  unfold homeLoop
  split_ifs with h
  · exact ⟨rfl, fun _ => h, rfl⟩
  · refine ⟨rfl, fun _ => trivial, ?_⟩
    show l.blocks.length = tail + 1; omega

theorem goes_headRel {buf : BufId} : Goes l.blocks.length (.headRel false buf) (homeLoop l 0) := by
  unfold homeLoop
  split_ifs with h
  · exact ⟨rfl, fun _ => h, rfl⟩
  · refine ⟨rfl, fun _ => trivial, ?_⟩
    show l.blocks.length = 0; omega

/-- Nothing is locked at a point, and nothing changed. -/
def Bare (P : Type) (start : Word) (l : LogState) (pc : Pc) : Prop :=
  bufs start l pc = [] ∧ changed pc = [] ∧ ∀ s : State P, Written s pc

theorem bare_logLoop (start : Word) (l : LogState) (tail : ℕ) : Bare P start l (logLoop l tail) := by
  unfold logLoop
  split_ifs
  · exact ⟨rfl, rfl, fun _ => trivial⟩
  · exact ⟨rfl, rfl, fun _ => trivial⟩

theorem bare_homeLoop (start : Word) (l : LogState) (tail : ℕ) : Bare P start l (homeLoop l tail) := by
  unfold homeLoop
  split_ifs
  · exact ⟨rfl, rfl, fun _ => trivial⟩
  · exact ⟨rfl, rfl, fun _ => trivial⟩

/-- What the release of the last buffer does. -/
theorem Bare.brelse {pc' : Pc} (h : Bare P start l pc') (hpc : bufs start l pc = [(b, k)]) (hc : changed pc = [])
    (hgoes : Goes l.blocks.length pc pc') :
    (bufs start l pc').map fst = ((bufs start l pc).map fst).erase b ∧
    (∀ x ∈ bufs start l pc', x ∈ bufs start l pc) ∧ changed pc = [] ∧ changed pc' = [] ∧
    Goes l.blocks.length pc pc' ∧ ∀ s : State P, Written s pc' := by
  refine ⟨?_, ?_, hc, h.2.1, hgoes, h.2.2⟩
  · simp [h.1, hpc]
  · simp [h.1]

theorem next_brelse (hi : pc.instr start l = some (.brelse b)) (hr : InRange l.blocks.length pc) (a : BufId) :
    (bufs start l (pc.next l a)).map fst = ((bufs start l pc).map fst).erase b ∧
    (∀ x ∈ bufs start l (pc.next l a), x ∈ bufs start l pc) ∧ changed pc = [] ∧
    changed (pc.next l a) = [] ∧ Goes l.blocks.length pc (pc.next l a) ∧
    ∀ s : State P, Written s (pc.next l a) := by
  cases pc with
  | logRelFrom tail dst src =>
    cases hi
    refine ⟨by simp [bufs, Pc.next], ?_, rfl, rfl, ⟨rfl, fun h => h, rfl⟩, fun _ => trivial⟩
    exact fun x hx => mem_cons_of_mem _ hx
  | logRelTo tail dst =>
    cases hi
    exact (bare_logLoop start l (tail + 1)).brelse rfl rfl goes_logLoop
  | headRel last buf =>
    cases hi
    cases last with
    | true =>
      have hdone : Bare P start l .done := ⟨rfl, rfl, fun _ => trivial⟩
      exact hdone.brelse rfl rfl ⟨rfl, fun _ => trivial, rfl⟩
    | false => exact (bare_homeLoop start l 0).brelse rfl rfl goes_headRel
  | homeRelLog tail lbuf dbuf =>
    cases hi
    refine ⟨?_, ?_, rfl, rfl, ⟨rfl, fun h => h, rfl⟩, fun _ => trivial⟩
    · show [dbuf] = [dbuf, b].erase b
      by_cases he : dbuf = b
      · simp [he]
      · rw [erase_cons_tail (by simpa using he)]; simp
    · intro x hx; rw [mem_singleton.mp hx]; exact mem_cons_self
  | homeRelDst tail dbuf =>
    cases hi
    exact (bare_homeLoop start l (tail + 1)).brelse rfl rfl (goes_homeLoop hr)
  | _ => simp [Pc.instr] at hi

end

/-! ### The step lemma -/

theorem Ctl.of_at (h : Ctl start s) (hp : (s.core.phase p).com = 1) (hcore : s'.core = s.core)
    (hat : At start s' p) : Ctl start s' := by
  refine ⟨by rw [hcore]; exact h.core, fun q hq => ?_, fun hq => ?_⟩
  · rw [hcore] at hq
    rw [h.core.one_committer hp hq]
    exact hat
  · have h0 := hq p; rw [hcore] at h0; omega

theorem At.get (h : At start s p) (hb : Base s)
    (hi : (s.pc p).instr start s.core.log = some (.bread k)) (hs : getBuf s p k = some s') : At start s' p := by
  have hkeep := keep_getBuf hb hs
  have hholds : ∀ x ∈ bufs start s.core.log (s.pc p), Holds s' x.1 x.2 := fun x hx =>
    hkeep x.1 x.2 (hb.counts.refcnt_ne_zero (h.refs_pos hx)) (h.holds x hx)
  obtain ⟨-, b, v, rfl, hd, hn, -⟩ := getBuf_cases hb.counts.rep hs
  have hplace := h.place
  have hw : ∀ u : State P, Written u (s.pc p) := by
    intro u
    cases hc : s.pc p with
    | homeUnpin _ _ _ => rw [hc] at hi; cases hi
    | _ => trivial
  rw [hi] at hplace
  refine ⟨h.phase, ?_, ?_, hholds, h.range, h.home, hw _⟩
  · show Place _ ((State.setThread _ p _).thread p) _ ((s.pc p).instr start s.core.log)
    rw [hi, thread_self]
    refine ⟨hplace.1, .inr ⟨b, rfl, ?_⟩⟩
    show ((s.cache.setBuf b v).buf b).dev = ROOTDEV ∧ ((s.cache.setBuf b v).buf b).blockno = k
    rw [setBuf_self]; exact ⟨hd, hn⟩
  · rw [thread_self]; exact h.dirty

variable {u : State P}

omit [Fintype P] in
/-- A step to `pc` with one buffer changed, which keeps its block. -/
theorem At.go (h : At start s p) (hgoes : Goes s.blocks.length (s.pc p) pc) {c : Bcache}
    {d : Word → Block} (hbuf : c.buf = update s.cache.buf b v) (hd : v.dev = (s.cache.buf b).dev)
    (hn : v.blockno = s.blockno b) (hbusy : t.busy = .free)
    (hheld : t.held = (bufs start s.core.log pc).map fst) (hdirty : t.dirty = changed pc)
    (hholds : ∀ x ∈ bufs start s.core.log pc, Holds s x.1 x.2)
    (hw : Written (({ s with cache := c, disk := d }.setThread p t).setPc p pc) pc) :
    At start (({ s with cache := c, disk := d }.setThread p t).setPc p pc) p := by
  refine at_free (update_self _ _ _) (h.phase.trans hgoes.phase.symm) ?_ ?_ ?_ (fun x hx => ?_)
    (hgoes.range h.range) (h.home.trans hgoes.home.symm) hw
  · show ((State.setThread _ p _).thread p).busy = _
    rw [thread_self, hbusy]
  · show ((State.setThread _ p _).thread p).held = (bufs start s.core.log _).map fst
    rw [thread_self, hheld]
  · show ((State.setThread _ p _).thread p).dirty = _
    rw [thread_self, hdirty]
  · show (c.buf x.1).dev = ROOTDEV ∧ (c.buf x.1).blockno = x.2
    rw [hbuf]
    exact setBuf_cases (c := s.cache) (R := fun y v => Holds s y x.2 → v.dev = ROOTDEV ∧ v.blockno = x.2)
      (fun hy => by rw [hd, hn]; exact hy) (fun _ _ => id) x.1 (hholds x hx)

theorem At.lock (h : At start s p)
    (hi : (s.pc p).instr start s.core.log = some (.bread k)) (hb : (s.thread p).busy = .want b)
    (hu : lockBuf s p = some u) : At start (u.setPc p ((s.pc p).next s.core.log b)) p := by
  obtain ⟨a, v, ha, -, rfl, -, hd, hn, -⟩ := lockBuf_cases hu
  obtain rfl : a = b := Busy.want.inj (ha.symm.trans hb)
  obtain ⟨hbufs, hc, hc', hgoes, hw⟩ := next_bread (P := P) hi a
  have hplace := h.place
  rw [hi] at hplace
  have hhold : Holds s a k := by
    rcases hplace.2 with hf | ⟨x, hx, hxk⟩
    · rw [hf] at hb; cases hb
    · obtain rfl : x = a := Busy.want.inj (hx.symm.trans hb); exact hxk
  refine h.go hgoes rfl hd hn rfl ?_ ?_ (fun x hx => ?_) (hw _)
  · rw [hbufs, map_cons, ← hplace.1]
  · exact (h.dirty.trans hc).trans hc'.symm
  · rw [hbufs] at hx
    rcases mem_cons.mp hx with rfl | hx
    · exact hhold
    · exact h.holds x hx

omit [DecidableEq P] [Fintype P] in
theorem Place.of_stores {held : List BufId} (h : Place s t held (some i))
    (hi : stores i = some b) : t.busy = .free ∧ t.held = held := by
  cases i with
  | copy dst src | restore dst src | head b => exact h
  | _ => cases hi

section
variable (h : At start s p)
include h
omit [Fintype P]

theorem At.store (hi : (s.pc p).instr start s.core.log = some i) (hd : stores i = some b)
    (hu : storeBuf s p b data = some u) (a : BufId) : At start (u.setPc p ((s.pc p).next s.core.log a)) p := by
  obtain ⟨-, rfl⟩ := storeBuf_eq hu
  obtain ⟨hbufs, hc, hc', hgoes, hw⟩ := next_store (P := P) hi hd a
  have hplace := h.place
  rw [hi] at hplace
  obtain ⟨hbusy, hheld⟩ := hplace.of_stores hd
  refine h.go hgoes rfl rfl rfl hbusy ?_ ?_ (fun x hx => ?_) (hw _)
  · rw [hbufs]; exact hheld
  · rw [hc', h.dirty, hc]
  · rw [hbufs] at hx; exact h.holds x hx

theorem At.write (hi : (s.pc p).instr start s.core.log = some (.bwrite b)) (hu : writeBuf s p b = some u) :
    At start (u.setPc p ((s.pc p).next s.core.log b)) p := by
  obtain ⟨-, rfl⟩ := writeBuf_eq hu
  obtain ⟨hbufs, hc, hc', hgoes, hw⟩ := next_write (P := P) hi b
  have hplace := h.place
  rw [hi] at hplace
  refine h.go hgoes (update_eq_self b _).symm rfl rfl hplace.1 ?_ ?_ (fun x hx => ?_) (hw _ ?_)
  · rw [hbufs]; exact hplace.2
  · rw [hc', h.dirty, hc]; simp
  · rw [hbufs] at hx; exact h.holds x hx
  · show s.data b = update s.disk (s.blockno b) (s.data b) (s.blockno b)
    rw [update_self]

theorem At.unpin (hi : (s.pc p).instr start s.core.log = some (.bunpin b)) :
    At start ((unpinBuf s b).setPc p ((s.pc p).next s.core.log b)) p := by
  obtain ⟨tail, lbuf, hpc⟩ := instr_bunpin hi
  have hplace := h.place
  have hphase := h.phase
  have hdirty := h.dirty
  have hholds := h.holds
  have hrange := h.range
  have hhome := h.home
  rw [hpc] at hplace hphase hdirty hholds hrange hhome ⊢
  have hpc' : ((unpinBuf s b).setPc p (.homeRelLog tail lbuf b)).pc p = .homeRelLog tail lbuf b :=
    update_self _ _ _
  refine at_free hpc' hphase hplace.1 hplace.2 hdirty (fun x hx => ?_) hrange (congrArg (· + 1) hhome) trivial
  refine setBuf_cases (R := fun y v => Holds s y x.2 → v.dev = ROOTDEV ∧ v.blockno = x.2) ?_
    (fun _ _ => id) x.1 (hholds x hx)
  exact id

theorem At.unlock (hi : (s.pc p).instr start s.core.log = some (.brelse b))
    (hs : unlockBuf s p b = some s') : At start s' p := by
  obtain ⟨⟨hf, -⟩, rfl⟩ := unlockBuf_eq hs
  obtain ⟨-, -, hc, -⟩ := next_brelse (P := P) hi h.range b
  have hplace := h.place
  rw [hi] at hplace
  have hheld : (s.thread p).held = (bufs start s.core.log (s.pc p)).map fst := by
    rcases hplace with ⟨-, hh⟩ | ⟨hb, -⟩
    · exact hh
    · rw [hf] at hb; cases hb
  refine ⟨h.phase, ?_, ?_, h.holds, h.range, h.home, h.written⟩
  · show Place _ ((s.setThread p _).thread p) _ ((s.pc p).instr start s.core.log)
    rw [hi, thread_self]
    refine .inr ⟨rfl, ?_⟩
    rw [hheld]; rfl
  · show ((s.setThread p _).thread p).dirty = changed (s.pc p)
    rw [thread_self]
    rw [h.dirty, hc]; rfl

theorem At.drop {c : BufId}
    (hi : (s.pc p).instr start s.core.log = some (.brelse c)) (hb : (s.thread p).busy = .leave b)
    (hu : dropBuf s p = some u) : At start (u.setPc p ((s.pc p).next s.core.log b)) p := by
  obtain ⟨a, ha, rfl⟩ := dropBuf_eq hu
  obtain ⟨hbufs, hsub, hc, hc', hgoes, hw⟩ := next_brelse (P := P) hi h.range b
  have hplace := h.place
  rw [hi] at hplace
  have hheld : (s.thread p).held = ((bufs start s.core.log (s.pc p)).map fst).erase c := by
    rcases hplace with ⟨hf, -⟩ | ⟨-, hh⟩
    · rw [hf] at hb; cases hb
    · exact hh
  refine h.go hgoes (brelse_buf _ _) rfl rfl rfl ?_ ?_ (fun x hx => h.holds x (hsub x hx)) (hw _)
  · rw [hbufs]; exact hheld
  · exact (h.dirty.trans hc).trans hc'.symm

omit [DecidableEq P] in
theorem At.all_home (hi : (s.pc p).instr start s.core.log = none)
    (hpc : s.pc p ≠ .done) : s.home = s.blocks.length := by
  have h1 := h.home
  have h2 := h.range
  cases hc : s.pc p with
  | empty =>
    rw [hc] at h1 h2; exact h1.trans (show s.blocks.length = 0 from h2).symm
  | clear => rw [hc] at h1; exact h1
  | done => exact absurd hc hpc
  | _ => rw [hc] at hi; cases hi

end

section
variable (h : Ok start s)
include h

theorem Ok.clear (hi : (s.pc p).instr start s.core.log = none) (hpc : s.pc p ≠ .done)
    (hs : GroupCommit.exec LOGSIZE s.core (.commit p) = some c) : Ok start { s with
      core := c
      home := 0
      pc := update s.pc p ((s.pc p).next s.core.log 0) } := by
  have hinv := h.ctl.core.exec hs
  obtain _ | _ | _ | _ | ⟨hp⟩ | _ := exec_cases hs
  have hcom : (s.core.phase p).com = 1 := by rw [hp, com_commit]
  have hat := h.ctl.along p hcom
  have hplace := hat.place
  have hdirty := hat.dirty
  have hnext : (s.thread p).busy = .free ∧ (s.thread p).held = [] ∧ (s.thread p).dirty = [] ∧
      phaseAt ((s.pc p).next s.core.log 0) = .committed ∧
      (∀ l, bufs start l ((s.pc p).next s.core.log 0) = []) ∧
      changed ((s.pc p).next s.core.log 0) = [] ∧ InRange 0 ((s.pc p).next s.core.log 0) ∧
      homed 0 ((s.pc p).next s.core.log 0) = 0 ∧
      ∀ u : State P, Written u ((s.pc p).next s.core.log 0) := by
    cases hc : s.pc p with
    | empty | clear =>
      rw [hc] at hplace hdirty
      exact ⟨hplace.1, hplace.2, hdirty, rfl, fun _ => rfl, rfl, trivial, rfl, fun _ => trivial⟩
    | done => exact absurd hc hpc
    | _ => rw [hc] at hi; cases hi
  have hhome := hat.all_home hi hpc
  obtain ⟨hbusy, hheld, hd, hphase, hbufs, hch, hrange, hz, hw⟩ := hnext
  refine ⟨h.base.clear hhome rfl rfl rfl rfl rfl, ⟨hinv, fun q hq => ?_, fun _ => rfl⟩⟩
  have hqp : q = p := by
    by_contra hqp
    have hq : (update s.core.phase p .committed q).com = 1 := hq
    rw [update_of_ne hqp] at hq; exact hqp (h.ctl.core.one_committer hcom hq)
  subst hqp
  refine at_free (update_self _ _ _) ?_ hbusy ?_ ?_ ?_ hrange hz.symm (hw _)
  · exact (update_self _ _ _).trans hphase.symm
  · rw [hbufs]; exact hheld
  · rw [hch]; exact hd
  · rw [hbufs]; exact fun x hx => by cases hx

omit [DecidableEq P] in
theorem Ok.drop_home (hp : (s.core.phase p).com = 1) (hi : (s.pc p).instr start s.core.log = some (.bunpin b)) :
    (s.cache.buf b).valid = true ∧ s.data b = s.disk (s.blockno b) ∧
    s.blocks.drop s.home = s.blockno b :: s.blocks.drop (s.home + 1) := by
  have hat := h.ctl.along p hp
  obtain ⟨tail, lbuf, hpc⟩ := instr_bunpin hi
  have hplace := hat.place
  have hholds := hat.holds
  have hrange := hat.range
  have hhome := hat.home
  have hw := hat.written
  rw [hpc] at hplace hholds hrange hhome hw
  have hmem : b ∈ (s.thread p).held := by rw [hplace.2]; exact mem_cons_self
  have hn : s.blockno b = homeBlock s.core.log tail := (hholds _ mem_cons_self).2
  refine ⟨h.base.locks.valid p b hmem, hw, ?_⟩
  rw [hhome, hn, homeBlock_eq hrange]; exact drop_eq_getElem_cons hrange

theorem Ok.modify (hp : (s.core.phase p).com = 1)
    (hi : (s.pc p).instr start s.core.log = some i) (hd : stores i = some b)
    (hu : Machine.modifyBuf s p b data = some u) (a : BufId) :
    Ok start (u.setPc p ((s.pc p).next s.core.log a)) := by
  obtain ⟨v, hv, rfl⟩ := modifyBuf_eq hu
  have hat := (h.ctl.along p hp).store hi hd hv a
  refine ⟨(h.base.modifyBuf hu).same rfl rfl rfl rfl rfl, h.ctl.of_at hp ?_ ?_⟩
  · obtain ⟨-, rfl⟩ := storeBuf_eq hv; rfl
  · exact hat.frame rfl rfl rfl rfl rfl rfl (fun _ _ => rfl) fun _ _ _ => id

theorem Ok.move (hP : Few P) (hp : (s.core.phase p).com = 1) (hm : Move start s p s') : Ok start s' := by
  have hat := h.ctl.along p hp
  cases hm with
  | get hi hs =>
    refine ⟨h.base.getBuf hP hs, h.ctl.of_at hp ?_ (hat.get h.base hi hs)⟩
    obtain ⟨-, _, _, rfl, -⟩ := getBuf_cases h.base.counts.rep hs; rfl
  | lock hi hb hu =>
    refine ⟨(h.base.lockBuf hu).same rfl rfl rfl rfl rfl, h.ctl.of_at hp ?_ (hat.lock hi hb hu)⟩
    obtain ⟨_, _, -, -, rfl, -⟩ := lockBuf_cases hu; rfl
  | copy hi hu | head hi hu => exact h.modify hp hi rfl hu _
  | restore hi hu =>
    refine ⟨(h.base.storeBuf hu).same rfl rfl rfl rfl rfl, h.ctl.of_at hp ?_ (hat.store hi rfl hu _)⟩
    obtain ⟨-, rfl⟩ := storeBuf_eq hu; rfl
  | write hi hu =>
    refine ⟨(h.base.writeBuf hu).same rfl rfl rfl rfl rfl, h.ctl.of_at hp ?_ (hat.write hi hu)⟩
    obtain ⟨-, rfl⟩ := writeBuf_eq hu; rfl
  | unpin hi =>
    obtain ⟨hv, -, hd⟩ := h.drop_home hp hi
    exact ⟨(h.base.unpinBuf hv hd).same rfl rfl rfl rfl rfl, h.ctl.of_at hp rfl (hat.unpin hi)⟩
  | unlock hi hs =>
    refine ⟨h.base.unlockBuf hs, h.ctl.of_at hp ?_ (hat.unlock hi hs)⟩
    obtain ⟨-, rfl⟩ := unlockBuf_eq hs; rfl
  | drop hi hb hu =>
    refine ⟨(h.base.dropBuf hu).same rfl rfl rfl rfl rfl, h.ctl.of_at hp ?_ (hat.drop hi hb hu)⟩
    obtain ⟨_, -, rfl⟩ := dropBuf_eq hu; rfl
  | clear hi hpc hs => exact h.clear hi hpc hs

theorem Ok.step (hP : Few P) {e : Ev P} (hs : Step start s e s') : Ok start s' := by
  cases hs with
  | beginOp hc => exact h.beginOp hc
  | endOp hn hc => exact h.endOp hn hc
  | bget hf hs => exact h.getBuf hP hf hs
  | lock hf hs => exact h.lockBuf hf hs
  | modify hf hs => exact h.modifyBuf hf hs
  | logWrite hf hs => exact h.logBuf hP hs
  | unlock hf hs => exact h.unlockBuf hf hs
  | drop hf hs => exact h.dropBuf hf hs
  | commit hp hm => exact h.move hP hp hm
  | endCommit hpc hc => exact h.endCommit hpc hc

end

omit [DecidableEq P] in
theorem Ok.boot (disk : Word → Block) : Ok start (boot P disk) := by
  refine ⟨⟨⟨⟨_, Rep.binit⟩, fun b hb => ?_, fun b => ?_⟩, ⟨fun _ => nodup_nil, fun _ _ _ h => ?_,
    fun _ _ h => ?_, fun _ _ h => ?_⟩, ⟨fun b hb => ?_, fun n hn => ?_, nodup_nil, le_rfl⟩⟩,
    ⟨GroupCommit.Inv.start LOGSIZE, fun p hp => ?_, fun _ => rfl⟩⟩
  · rcases hb with hb | hb
    · exact absurd rfl hb
    · cases hb
  · have hr : ∀ p : P, refs b ((Machine.boot P disk).thread p) = 0 := fun _ => rfl
    rw [Finset.sum_congr rfl fun p _ => hr p, Finset.sum_const_zero]
    rfl
  · cases h
  · cases h
  · cases h
  · exact absurd rfl hb
  · cases hn
  · cases hp

def Tidy (s : State P) : Ev P → Prop
  | .unlock p b => b ∉ (s.thread p).dirty
  | _ => True

omit [DecidableEq P] [Fintype P] in
theorem Clean.same (h : Clean s) (hcache : s'.cache = s.cache) (hth : s'.thread = s.thread)
    (hpins : s'.pins = s.pins) (hdisk : s'.disk = s.disk) : Clean s' := by
  intro b hb hp hd
  rw [hcache] at hb
  rw [hpins] at hp
  rw [hth] at hd
  unfold State.data State.blockno
  rw [hcache, hdisk]; exact h b hb hp hd

omit [Fintype P] in
theorem Clean.modifyBuf (h : Clean s) (hs : modifyBuf s p b data = some s') : Clean s' := by
  obtain ⟨u, hu, rfl⟩ := modifyBuf_eq hs
  exact Clean.same (h.storeBuf hu) rfl rfl rfl rfl

theorem clean_move (h : Clean s) (ho : Ok start s) (hp : (s.core.phase p).com = 1)
    (hm : Move start s p s') : Clean s' := by
  have hat := ho.ctl.along p hp
  cases hm with
  | get hi hs => exact h.getBuf ho.base hs
  | lock hi hb hu => exact Clean.same (h.lockBuf hu) rfl rfl rfl rfl
  | copy hi hu | head hi hu => exact Clean.same (Clean.modifyBuf h hu) rfl rfl rfl rfl
  | restore hi hu => exact Clean.same (h.storeBuf hu) rfl rfl rfl rfl
  | write hi hu => exact Clean.same (h.writeBuf ho.base hu) rfl rfl rfl rfl
  | unpin hi => exact Clean.same (h.unpinBuf (ho.drop_home hp hi).2.1) rfl rfl rfl rfl
  | @unlock b s' hi hs =>
    obtain ⟨-, -, hc, -⟩ := next_brelse (P := P) hi hat.range b
    refine h.unlockBuf ?_ hs
    rw [hat.dirty, hc]; exact not_mem_nil
  | drop hi hb hu => exact Clean.same (h.dropBuf hu) rfl rfl rfl rfl
  | clear hi hpc hs => exact Clean.same h rfl rfl rfl rfl

theorem clean_step (h : Clean s) (ho : Ok start s) {e : Ev P} (ht : Tidy s e)
    (hs : Step start s e s') : Clean s' := by
  cases hs with
  | beginOp hc | endOp hn hc | endCommit hpc hc => exact Clean.same h rfl rfl rfl rfl
  | bget hf hs => exact h.getBuf ho.base hs
  | lock hf hs => exact h.lockBuf hs
  | modify hf hs => exact Clean.modifyBuf h hs
  | logWrite hf hs => exact h.logBuf ho.base (ho.ctl.logBuf hs).2 hs
  | unlock hf hs => exact h.unlockBuf ht hs
  | drop hf hs => exact h.dropBuf hs
  | commit hp hm => exact clean_move h ho hp hm

end Xv6.Fs.Control
