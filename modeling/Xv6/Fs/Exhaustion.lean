import Xv6.Fs.Control

/-!
# When the buffer cache is large enough

A buffer that is counted is that of a block of the log or of a block that a process refers to, and no block has
two buffers (`card_inUse_le`).  So the buffers suffice if what the operations in progress have logged and may
still log, two buffers for each of them, and one for each of `NCPU` readers fit in the cache (`Slack`), which
`begin_op` does not look at: it only bounds the log.
-/

namespace Xv6.Fs.Exhaustion

open Lib.Runs Param Fs.Machine Fs.Pins Fs.Control Function Option
open Fs.Buffers hiding State Ev exec sys
open Fs.LogOps (Block)
open Fs.GroupCommit (LogState Phase Inv sum_update le_sum exec_cases rest_idle rest_inOp rest_commit rest_committed phase_update op_inOp com_commit com_committed)
open List (append_nil mem_append mem_append_left mem_singleton)
open Finset (card_le_card mem_filter mem_univ)

/-! ## The processes -/

def bufsOf (t : Thread) : List BufId :=
  t.held ++ match t.busy with
    | .free => []
    | .want b | .leave b => [b]

theorem mem_bufsOf {t : Thread} {b : BufId} : b ∈ bufsOf t ↔ 0 < refs b t := by
  unfold bufsOf refs
  cases t.busy with
  | free => simp [refsOf]
  | want a | leave a =>
    by_cases hab : a = b
    · simp [refsOf, hab]
    · simp [refsOf, hab, Ne.symm hab]

def asked (start : Word) (l : LogState) (pc : Pc) : List Word :=
  match pc.instr start l with
  | some (.bread n) => [n]
  | _ => []

section
variable {P : Type}

def blocksOf (s : State P) (p : P) : Finset Word := ((bufsOf (s.thread p)).map s.blockno).toFinset

/-- Those that are not in the log. -/
def unlogged (s : State P) (p : P) : Finset Word := (blocksOf s p).filter (· ∉ s.blocks)

def readers [Fintype P] (s : State P) : Finset P :=
  Finset.univ.filter fun p => s.core.phase p = .idle ∧ blocksOf s p ≠ ∅

/-- Process `p` calls `bget` for block `n`.  With the new block an operation has two unlogged buffers at most;
outside of an operation a process has no other buffer, and fewer than `NCPU` others are reading; `commit`
calls `bget` where its code says. -/
def Asks [Fintype P] (start : Word) (s : State P) (p : P) (n : Word) : Prop :=
  match s.core.phase p with
  | .inOp _ => ((insert n (blocksOf s p)).filter (· ∉ s.blocks)).card ≤ 2
  | .idle => blocksOf s p = ∅ ∧ (readers s).card < NCPU
  | _ => n ∈ asked start s.core.log (s.pc p)

/-- A process in this phase may log block `n` as one of the `m` blocks of its operation. -/
def MayLog (m : ℕ) (n : Word) : Phase → Prop
  | .inOp U => (insert n U).card ≤ m
  | _ => False

/-- The work that is admitted: operations of at most `m` distinct blocks, and calls of `bget` as above. -/
def Admitted [Fintype P] (m : ℕ) (start : Word) (s : State P) : Ev P → Prop
  | .bget p n => Asks start s p n
  | .logWrite p b => MayLog m (s.blockno b) (s.core.phase p)
  | _ => True

end

variable {P : Type} [DecidableEq P] [Fintype P]

def sys (P : Type) [DecidableEq P] [Fintype P] (m : ℕ) (start : Word) (disk : Word → Block) :
    Sys (State P) (Ev P) where
  init s := s = boot P disk
  step s e s' := exec start s e = some s' ∧ Admitted m start s e

variable {m : ℕ} {start : Word} {s s' : State P} {p q : P} {b : BufId} {n : Word} {pc : Pc}

omit [DecidableEq P] [Fintype P] in
theorem mem_blocksOf : n ∈ blocksOf s p ↔ ∃ b ∈ bufsOf (s.thread p), s.blockno b = n := by
  unfold blocksOf
  rw [List.mem_toFinset, List.mem_map]

theorem holds_of_mem (hb : Base s) (h : b ∈ bufsOf (s.thread p)) : Holds s b (s.blockno b) :=
  ⟨hb.counts.dev b (.inl (hb.counts.refcnt_ne_zero (mem_bufsOf.mp h))), rfl⟩

omit [DecidableEq P] in
theorem blockno_of_counted (hb : Base s) (hc : (s.cache.buf b).refcnt ≠ 0) :
    s.blockno b ∈ s.blocks ∨ ∃ p, s.blockno b ∈ unlogged s p := by
  by_cases hlog : s.blockno b ∈ s.blocks
  · exact .inl hlog
  · refine .inr ?_
    have hpin : s.pins b = 0 := by
      by_contra h0; exact hlog (List.mem_of_mem_drop (hb.pinned.pin b h0).2.2)
    have hcount := hb.counts.count b
    have hpos : 0 < (s.cache.buf b).refcnt.toNat := by
      rw [Nat.pos_iff_ne_zero]; exact fun h0 => hc (BitVec.eq_of_toNat_eq h0)
    obtain ⟨p, -, hp⟩ := Finset.exists_ne_zero_of_sum_ne_zero (s := Finset.univ)
      (f := fun p => refs b (s.thread p)) (by omega)
    have hmem : b ∈ bufsOf (s.thread p) := mem_bufsOf.mpr (Nat.pos_of_ne_zero hp)
    exact ⟨p, mem_filter.mpr ⟨mem_blocksOf.mpr ⟨b, hmem, rfl⟩, hlog⟩⟩

omit [DecidableEq P] in
/-- **The buffers in use** are no more than the blocks of the log and the others that processes refer to. -/
theorem card_inUse_le (hb : Base s) : (Finset.univ.filter fun b => (s.cache.buf b).refcnt ≠ 0).card ≤
      s.blocks.length + ∑ p, (unlogged s p).card := by
  have hinj : Set.InjOn s.blockno (Finset.univ.filter fun b => (s.cache.buf b).refcnt ≠ 0) := by
    intro a ha c hc hac
    rw [Finset.mem_coe, mem_filter] at ha hc
    exact hb.counts.unique_of_dev (hb.counts.dev a (.inl ha.2)) (hb.counts.dev c (.inl hc.2)) hac
  have hsub : (Finset.univ.filter fun b => (s.cache.buf b).refcnt ≠ 0).image s.blockno ⊆
      s.blocks.toFinset ∪ Finset.univ.biUnion (unlogged s) := by
    intro n hn
    obtain ⟨b, hmem, rfl⟩ := Finset.mem_image.mp hn
    rcases blockno_of_counted hb (mem_filter.mp hmem).2 with h | ⟨p, h⟩
    · exact Finset.mem_union_left _ (List.mem_toFinset.mpr h)
    · exact Finset.mem_union_right _ (Finset.mem_biUnion.mpr ⟨p, mem_univ p, h⟩)
  rw [← Finset.card_image_of_injOn hinj]
  calc ((Finset.univ.filter fun b => (s.cache.buf b).refcnt ≠ 0).image s.blockno).card
      ≤ (s.blocks.toFinset ∪ Finset.univ.biUnion (unlogged s)).card := card_le_card hsub
    _ ≤ s.blocks.toFinset.card + (Finset.univ.biUnion (unlogged s)).card := Finset.card_union_le _ _
    _ ≤ s.blocks.length + ∑ p, (unlogged s p).card :=
        Nat.add_le_add (List.toFinset_card_le _) Finset.card_biUnion_le

omit [DecidableEq P] in
theorem bget_none (hb : Base s) (h : bget s.cache ROOTDEV n = none) :
    (∀ b, ¬ Holds s b n) ∧ (Finset.univ.filter fun b => (s.cache.buf b).refcnt ≠ 0).card = NBUF := by
  obtain ⟨l, hl⟩ := hb.counts.rep
  rw [bget_eq hl] at h
  cases hf : l.find? fun b => (s.cache.buf b).holds ROOTDEV n with
  | some a => rw [hf] at h; cases h
  | none =>
    rw [hf] at h
    have hall := List.find?_eq_none.mp (map_eq_none_iff.mp h)
    refine ⟨fun b hh => List.find?_eq_none.mp hf b (hl.all b) ((holds_iff _ _ _).mpr hh), ?_⟩
    rw [Finset.filter_true_of_mem, Finset.card_univ, Fintype.card_fin]
    intro b _ h0
    exact hall b (List.mem_reverse.mpr (hl.all b)) (by rw [h0]; rfl)

/-! ## What each process uses -/

/-- An operation has two unlogged buffers at most, another process one, and `NCPU` of them have one. -/
structure Light (s : State P) : Prop where
  op : ∀ p U, s.core.phase p = .inOp U → (unlogged s p).card ≤ 2
  idle : ∀ p, s.core.phase p = .idle → (blocksOf s p).card ≤ 1
  few : (readers s).card ≤ NCPU

section
omit [DecidableEq P]

theorem Light.of_subset (h : Light s) (hsub : ∀ q, (s'.core.phase q).com = 0 → blocksOf s' q ⊆ blocksOf s q)
    (hidle : ∀ q, s'.core.phase q = .idle → blocksOf s' q ≠ ∅ → s.core.phase q = .idle)
    (hop : ∀ q U, s'.core.phase q = .inOp U → blocksOf s' q ≠ ∅ →
      (∃ V, s.core.phase q = .inOp V) ∧ s.blocks ⊆ s'.blocks) : Light s' := by
  refine ⟨fun q U hq => ?_, fun q hq => ?_, ?_⟩
  · have hs := hsub q (by rw [hq]; rfl)
    by_cases h0 : blocksOf s' q = ∅
    · unfold unlogged; rw [h0]; exact Nat.zero_le 2
    · obtain ⟨⟨V, hV⟩, hblocks⟩ := hop q U hq h0
      refine (card_le_card ?_).trans (h.op q V hV)
      intro n hn
      obtain ⟨h1, h2⟩ := mem_filter.mp hn
      exact mem_filter.mpr ⟨hs h1, fun hm => h2 (hblocks hm)⟩
  · have hs := hsub q (by rw [hq]; rfl)
    by_cases h0 : blocksOf s' q = ∅
    · rw [h0]; exact Nat.zero_le 1
    · exact (card_le_card hs).trans (h.idle q (hidle q hq h0))
  · refine (card_le_card ?_).trans h.few
    intro q hq
    obtain ⟨-, hph, h0⟩ := mem_filter.mp hq
    refine mem_filter.mpr ⟨mem_univ q, hidle q hph h0, fun he => h0 ?_⟩
    exact Finset.subset_empty.mp (he ▸ hsub q (by rw [hph]; rfl))

theorem Light.same_core (h : Light s) (hcore : s'.core = s.core)
    (hsub : ∀ q, (s.core.phase q).com = 0 → blocksOf s' q ⊆ blocksOf s q) : Light s' := by
  refine h.of_subset (by rwa [hcore]) (fun q hq _ => by rwa [hcore] at hq) fun q U hq _ => ?_
  rw [hcore] at hq
  refine ⟨⟨U, hq⟩, ?_⟩
  unfold State.blocks
  rw [hcore]; exact List.Subset.refl _

end

section
variable (hb : Base s) {data : Block}
include hb

theorem blockno_of_keep (hk : Keep s s') (h : b ∈ bufsOf (s.thread p)) : s'.blockno b = s.blockno b :=
  (hk b _ (hb.counts.refcnt_ne_zero (mem_bufsOf.mp h)) (holds_of_mem hb h)).2

theorem blocksOf_subset (hk : Keep s s')
    (hsub : ∀ b ∈ bufsOf (s'.thread q), b ∈ bufsOf (s.thread q)) : blocksOf s' q ⊆ blocksOf s q := by
  intro n hn
  obtain ⟨b, hmem, rfl⟩ := mem_blocksOf.mp hn
  exact mem_blocksOf.mpr ⟨b, hsub b hmem, (blockno_of_keep hb hk (hsub b hmem)).symm⟩

theorem blocksOf_setThread (hk : Keep s s') {t : Thread}
    (hth : s'.thread = update s.thread p t) (ht : ∀ b ∈ bufsOf t, b ∈ bufsOf (s.thread p)) (q : P) :
    blocksOf s' q ⊆ blocksOf s q := by
  refine blocksOf_subset hb hk fun b hmem => ?_
  rw [hth] at hmem
  by_cases hqp : q = p
  · subst hqp; rw [update_self] at hmem; exact ht b hmem
  · rwa [update_of_ne hqp] at hmem

theorem blocksOf_getBuf (hs : getBuf s p n = some s') (q : P) :
    blocksOf s' q ⊆ if q = p then insert n (blocksOf s q) else blocksOf s q := by
  have hk := keep_getBuf hb hs
  obtain ⟨hfree, b, v, rfl, -, hn, -⟩ := getBuf_cases hb.counts.rep hs
  split_ifs with hqp
  · subst hqp
    intro k hk'
    obtain ⟨a, hmem, rfl⟩ := mem_blocksOf.mp hk'
    have hbufs : a ∈ bufsOf (s.thread q) ∨ a = b := by
      rw [thread_self] at hmem
      simp only [bufsOf, hfree, append_nil, mem_append, mem_singleton] at hmem ⊢
      exact hmem
    rcases hbufs with ha | rfl
    · rw [blockno_of_keep hb hk ha]
      exact Finset.mem_insert_of_mem (mem_blocksOf.mpr ⟨a, ha, rfl⟩)
    · have ha : ((s.cache.setBuf a v).buf a).blockno = n := by rw [setBuf_self, hn]
      exact Finset.mem_insert.mpr (.inl ha)
  · refine blocksOf_subset hb hk fun a ha => ?_
    rwa [thread_ne hqp] at ha

theorem blocksOf_lockBuf (hs : lockBuf s p = some s') (q : P) : blocksOf s' q ⊆ blocksOf s q := by
  have hk := keep_lockBuf hs
  obtain ⟨b, v, hw, -, rfl, -⟩ := lockBuf_cases hs
  refine blocksOf_setThread hb hk rfl (fun a ha => ?_) q
  simp only [bufsOf, hw, List.mem_cons, mem_append, List.not_mem_nil, or_false] at ha ⊢
  exact ha.symm

theorem blocksOf_storeBuf (hs : storeBuf s p b data = some s') (q : P) : blocksOf s' q ⊆ blocksOf s q := by
  have hk := keep_storeBuf hs
  obtain ⟨-, rfl⟩ := storeBuf_eq hs
  exact blocksOf_setThread hb hk rfl (fun a ha => ha) q

theorem blocksOf_modifyBuf (hs : modifyBuf s p b data = some s') (q : P) : blocksOf s' q ⊆ blocksOf s q := by
  obtain ⟨u, hu, rfl⟩ := modifyBuf_eq hs; exact blocksOf_storeBuf hb hu q

theorem blocksOf_writeBuf (hs : writeBuf s p b = some s') (q : P) : blocksOf s' q ⊆ blocksOf s q := by
  obtain ⟨-, rfl⟩ := writeBuf_eq hs
  have hk : Keep s ({ s with disk := update s.disk (s.blockno b) (s.data b) }.setThread p
      { s.thread p with dirty := (s.thread p).dirty.filter (· ≠ b) }) := fun _ _ _ h => h
  exact blocksOf_setThread hb hk rfl (fun a ha => ha) q

theorem blocksOf_unlockBuf (hs : unlockBuf s p b = some s') (q : P) : blocksOf s' q ⊆ blocksOf s q := by
  obtain ⟨hhas, rfl⟩ := unlockBuf_eq hs
  have hk : Keep s (s.setThread p ⟨.leave b, (s.thread p).held.erase b, (s.thread p).dirty.filter (· ≠ b)⟩) :=
    fun _ _ _ h => h
  refine blocksOf_setThread hb hk rfl (fun a ha => ?_) q
  simp only [bufsOf, hhas.1, append_nil, mem_append, mem_singleton] at ha ⊢
  rcases ha with ha | rfl
  · exact List.mem_of_mem_erase ha
  · exact hhas.2

theorem blocksOf_dropBuf (hs : dropBuf s p = some s') (q : P) : blocksOf s' q ⊆ blocksOf s q := by
  have hk := keep_dropBuf hs
  obtain ⟨b, -, rfl⟩ := dropBuf_eq hs
  refine blocksOf_setThread hb hk rfl (fun a ha => ?_) q
  unfold bufsOf at ha ⊢; exact mem_append_left _ (by simpa using ha)

theorem blocksOf_logBuf (hs : logBuf s p b = some s') (q : P) : blocksOf s' q ⊆ blocksOf s q := by
  obtain ⟨-, l, -, -, hth, -, -, -, -, hcache⟩ := logBuf_cases hs
  have hk : Keep s s' := by
    rcases hcache with ⟨-, hc, -⟩ | ⟨-, hc, -⟩
    · intro a k _ ha; unfold Holds State.blockno; rw [hc]; exact ha
    · exact keep_setBuf (congrArg Bcache.buf hc) fun _ => ⟨rfl, rfl⟩
  exact blocksOf_setThread hb hk hth (fun a ha => ha) q

end

section
omit [DecidableEq P] [Fintype P]

theorem blocksOf_none (h : (s.thread p).none) : blocksOf s p = ∅ := by
  unfold blocksOf bufsOf
  rw [h.1, h.2]; rfl

theorem blocksOf_congr (hth : s'.thread = s.thread) (hcache : s'.cache = s.cache) (q : P) :
    blocksOf s' q = blocksOf s q := by
  unfold blocksOf State.blockno
  rw [hth, hcache]

end

/-! ## Steps -/

/-- The operations in progress, with the blocks that they may still log, two other buffers each, and `NCPU`
readers fit in the cache. -/
def Slack (m : ℕ) (c : GroupCommit.State P) : Prop :=
  c.log.blocks.length + (∑ p, (c.phase p).rest m) + 2 * (c.log.outstanding + c.log.committing.toNat) + NCPU ≤
    NBUF

theorem Slack.exec (hm : m ≤ 4) {c c' : GroupCommit.State P} (hi : Inv m c) (hr : Slack m c)
    {e : GroupCommit.Ev P} (h : GroupCommit.exec m c e = some c') : Slack m c' := by
  have hmax : MAXOPBLOCKS = 10 := rfl
  have hlog : LOGSIZE = 30 := rfl
  have hbuf : NBUF = 30 := rfl
  have hcpu : NCPU = 8 := rfl
  unfold Slack at hr ⊢
  obtain @⟨p, hp, hc, hroom⟩ | @⟨p, b, U, hp, hcard⟩ | @⟨p, U, hp, hc, ho⟩ | @⟨p, U, hp, hc, ho⟩ | @⟨p, hp⟩ |
    @⟨p, hp⟩ := exec_cases h
  · -- one, two or three operations; the log is empty unless there are two
    have h1 := sum_update (Phase.rest m) c.phase p (.inOp ∅)
    rw [hp, rest_inOp] at h1
    have h2 := hi.sum_rest_le
    have h3 : c.log.outstanding * m ≤ c.log.outstanding * 4 := Nat.mul_le_mul_left _ hm
    rw [hmax] at hroom
    dsimp only
    rw [hc, Bool.toNat_false]
    by_cases h0 : c.log.outstanding = 0
    · rw [hi.empty h0 hc, List.length_nil]; omega
    · omega
  · have h1 := sum_update (Phase.rest m) c.phase p (.inOp (insert b U))
    rw [hp, rest_inOp, rest_inOp] at h1
    have hle := card_le_card (Finset.subset_insert b U)
    dsimp only
    split_ifs with hb
    · omega
    · have hbU : b ∉ U := fun hbU => hb ((hi.logged p U hp).2 b hbU)
      rw [Finset.card_insert_of_notMem hbU] at h1 hcard
      rw [List.length_append, List.length_singleton]; omega
  · have h1 := sum_update (Phase.rest m) c.phase p .idle
    rw [hp, rest_idle] at h1
    dsimp only; omega
  · have h1 := sum_update (Phase.rest m) c.phase p .commit
    have hpos := hi.outstanding_pos hp
    rw [hp, rest_commit] at h1
    dsimp only
    rw [Bool.toNat_true]; omega
  · have h1 := sum_update (Phase.rest m) c.phase p .committed
    rw [hp, rest_committed] at h1
    dsimp only
    rw [List.length_nil]; omega
  · have h1 := sum_update (Phase.rest m) c.phase p .idle
    rw [hp, rest_idle] at h1
    dsimp only
    rw [Bool.toNat_false]; omega

theorem Light.getBuf (h : Light s) (hb : Base s) (hf : Free s p) (ha : Asks start s p n)
    (hs : getBuf s p n = some s') : Light s' := by
  have hsub := blocksOf_getBuf hb hs
  have hcore : s'.core = s.core := by obtain ⟨-, _, _, rfl, -⟩ := getBuf_cases hb.counts.rep hs; rfl
  have hother : ∀ q, q ≠ p → blocksOf s' q ⊆ blocksOf s q := fun q hq => by
    have := hsub q; rwa [if_neg hq] at this
  have hself : blocksOf s' p ⊆ insert n (blocksOf s p) := by
    have := hsub p; rwa [if_pos rfl] at this
  have hblocks : s'.blocks = s.blocks := congrArg (fun c => c.log.blocks) hcore
  unfold Asks at ha
  refine ⟨fun q U hq => ?_, fun q hq => ?_, ?_⟩
  · rw [hcore] at hq
    unfold unlogged
    rw [hblocks]
    by_cases hqp : q = p
    · subst hqp
      rw [hq] at ha
      exact (card_le_card (Finset.filter_subset_filter _ hself)).trans ha
    · exact (card_le_card (Finset.filter_subset_filter _ (hother q hqp))).trans (h.op q U hq)
  · rw [hcore] at hq
    by_cases hqp : q = p
    · subst hqp; rw [hq] at ha; rw [ha.1] at hself; exact card_le_card hself
    · exact (card_le_card (hother q hqp)).trans (h.idle q hq)
  · have hreaders : readers s' ⊆ if s.core.phase p = .idle then insert p (readers s) else readers s := by
      intro q hq
      obtain ⟨-, hph, h0⟩ := mem_filter.mp hq
      rw [hcore] at hph
      by_cases hqp : q = p
      · subst hqp; rw [if_pos hph]; exact Finset.mem_insert_self q _
      · have hmem : q ∈ readers s := mem_filter.mpr
          ⟨mem_univ q, hph, fun he => h0 (Finset.subset_empty.mp (he ▸ hother q hqp))⟩
        split_ifs
        · exact Finset.mem_insert_of_mem hmem
        · exact hmem
    have hle := card_le_card hreaders
    split_ifs at hle with hp
    · rw [hp] at ha; exact hle.trans ((Finset.card_insert_le _ _).trans ha.2)
    · exact hle.trans h.few

theorem one_unlogged (start : Word) (l : LogState) (hr : InRange l.blocks.length pc) :
    ∃ x, ∀ n ∈ (bufs start l pc).map Prod.snd ++ asked start l pc, n ∈ l.blocks ∨ n = x := by
  have hhome : ∀ {tail : ℕ}, tail < l.blocks.length → homeBlock l tail ∈ l.blocks := fun h => by
    rw [homeBlock_eq h]; exact List.getElem_mem h
  cases pc with
  | logTo tail | homeLog tail | logRelTo tail dst => exact ⟨logBlock start tail, by simp [bufs, asked, Pc.instr]⟩
  | headBuf last | headFill last buf | headWrite last buf | headRel last buf =>
    exact ⟨start, by simp [bufs, asked, Pc.instr]⟩
  | logFrom tail dst | logCopy tail dst src | logWrite tail dst src | logRelFrom tail dst src
  | homeDst tail lbuf | homeCopy tail lbuf dbuf | homeWrite tail lbuf dbuf | homeUnpin tail lbuf dbuf
  | homeRelLog tail lbuf dbuf | homeRelDst tail dbuf =>
    exact ⟨logBlock start tail, by simp [bufs, asked, Pc.instr, hhome hr]⟩
  | empty | clear | done => exact ⟨0, by simp [bufs, asked, Pc.instr]⟩

theorem mem_bufs_of_brelse {l : LogState} (hi : pc.instr start l = some (.brelse b)) :
    b ∈ (bufs start l pc).map Prod.fst := by
  cases pc <;> simp_all [Pc.instr, bufs]

omit [DecidableEq P] [Fintype P] in
theorem blocksOf_commit (hat : At start s p) (hn : n ∈ blocksOf s p) :
    n ∈ (bufs start s.core.log (s.pc p)).map Prod.snd ++ asked start s.core.log (s.pc p) := by
  obtain ⟨b, hb, rfl⟩ := mem_blocksOf.mp hn
  have hheld : ∀ c ∈ (bufs start s.core.log (s.pc p)).map Prod.fst,
      s.blockno c ∈ (bufs start s.core.log (s.pc p)).map Prod.snd := by
    intro c hc
    obtain ⟨x, hx, rfl⟩ := List.mem_map.mp hc
    rw [(hat.holds x hx).2]; exact List.mem_map_of_mem hx
  have hplace := hat.place
  cases hi : (s.pc p).instr start s.core.log with
  | none =>
    rw [hi] at hplace
    rw [bufsOf, hplace.1, hplace.2, append_nil] at hb
    exact mem_append_left _ (hheld b hb)
  | some i =>
    rw [hi] at hplace
    cases i with
    | bread n =>
      rcases hplace with ⟨hh, hfree | ⟨c, hw, hc⟩⟩
      · rw [bufsOf, hfree, hh, append_nil] at hb
        exact mem_append_left _ (hheld b hb)
      · rw [bufsOf, hw, hh] at hb
        rcases mem_append.mp hb with hb | hb
        · exact mem_append_left _ (hheld b hb)
        · rw [mem_singleton.mp hb, hc.2]
          refine List.mem_append_right _ ?_
          unfold asked
          rw [hi]; exact List.mem_singleton_self n
    | brelse c =>
      rcases hplace with ⟨hfree, hh⟩ | ⟨hl, hh⟩
      · rw [bufsOf, hfree, hh, append_nil] at hb
        exact mem_append_left _ (hheld b hb)
      · rw [bufsOf, hl, hh] at hb
        refine mem_append_left _ (hheld b ?_)
        rcases mem_append.mp hb with hb | hb
        · exact List.mem_of_mem_erase hb
        · rw [mem_singleton.mp hb]; exact mem_bufs_of_brelse hi
    | _ =>
      rw [bufsOf, hplace.1, hplace.2, append_nil] at hb
      exact mem_append_left _ (hheld b hb)

omit [DecidableEq P] in
theorem unlogged_commit (h : Ok start s) (hp : (s.core.phase p).com = 1) : (unlogged s p).card ≤ 1 := by
  have hat := h.ctl.along p hp
  obtain ⟨x, hx⟩ := one_unlogged start s.core.log hat.range
  have hsub : unlogged s p ⊆ {x} := by
    intro n hn
    obtain ⟨h1, h2⟩ := mem_filter.mp hn
    exact Finset.mem_singleton.mpr ((hx n (blocksOf_commit hat h1)).resolve_left h2)
  exact card_le_card hsub

theorem blocksOf_move (h : Ok start s) (hm : Move start s p s') (hq : q ≠ p) : blocksOf s' q ⊆ blocksOf s q := by
  cases hm with
  | get hi hs =>
    have hsub := blocksOf_getBuf h.base hs q; rwa [if_neg hq] at hsub
  | lock hi hb hu => exact blocksOf_lockBuf h.base hu q
  | copy hi hu | head hi hu => exact blocksOf_modifyBuf h.base hu q
  | restore hi hu => exact blocksOf_storeBuf h.base hu q
  | write hi hu => exact blocksOf_writeBuf h.base hu q
  | unpin hi => exact blocksOf_subset h.base (keep_setBuf rfl fun _ => ⟨rfl, rfl⟩) fun b hb => hb
  | unlock hi hs => exact blocksOf_unlockBuf h.base hs q
  | drop hi hb hu => exact blocksOf_dropBuf h.base hu q
  | clear hi hpc hs => exact (blocksOf_congr rfl rfl q).le

theorem Light.rephase (h : Light s) {x : Phase} (hph : s'.core.phase = update s.core.phase p x)
    (hbufs : ∀ q, blocksOf s' q = blocksOf s q) (hnone : blocksOf s p = ∅) (hblocks : s'.blocks = s.blocks) :
    Light s' := by
  have hother : ∀ q, blocksOf s' q ≠ ∅ → s'.core.phase q = s.core.phase q := by
    intro q hq
    have hqp : q ≠ p := by rintro rfl; exact hq ((hbufs q).trans hnone)
    rw [hph, update_of_ne hqp]
  refine h.of_subset (fun q _ => (hbufs q).le) (fun q hq h0 => ?_) fun q U hq h0 => ⟨⟨U, ?_⟩, ?_⟩
  · rwa [hother q h0] at hq
  · rwa [hother q h0] at hq
  · rw [hblocks]; exact List.Subset.refl _

theorem Light.logBuf (h : Light s) (hb : Base s) (hm : MayLog m (s.blockno b) (s.core.phase p))
    (hs : logBuf s p b = some s') : Light s' := by
  have hblocks := logBuf_blocks hs
  have hsub := blocksOf_logBuf hb hs
  obtain ⟨-, l, -, hcore, -⟩ := logBuf_cases hs
  have hph : ∃ U, s.core.phase p = .inOp U ∧
      s'.core.phase = update s.core.phase p (.inOp (insert (s.blockno b) U)) := by
    rw [hcore]
    cases hp : s.core.phase p with
    | inOp U => exact ⟨U, rfl, by simp only [addLogged, hp]⟩
    | _ => rw [hp] at hm; exact hm.elim
  obtain ⟨U, hU, hph⟩ := hph
  refine h.of_subset (fun q _ => hsub q) (fun q hq _ => ?_) fun q V hq _ => ⟨?_, ?_⟩
  · rw [hph] at hq
    rcases phase_update hq with ⟨-, hq⟩ | ⟨-, hq⟩
    · cases hq
    · exact hq
  · rw [hph] at hq
    rcases phase_update hq with ⟨rfl, -⟩ | ⟨-, hq⟩
    · exact ⟨U, hU⟩
    · exact ⟨V, hq⟩
  · rw [hblocks]
    split_ifs
    · exact List.Subset.refl _
    · exact List.subset_append_left _ _

theorem move_core (hb : Base s) (hm : Move start s p s') :
    s'.core = s.core ∨ ∃ c, GroupCommit.exec LOGSIZE s.core (.commit p) = some c ∧ s'.core = c := by
  cases hm with
  | get hi hs =>
    obtain ⟨-, _, _, rfl, -⟩ := getBuf_cases hb.counts.rep hs; exact .inl rfl
  | lock hi hb hu =>
    obtain ⟨_, _, -, -, rfl, -⟩ := lockBuf_cases hu; exact .inl rfl
  | copy hi hu | head hi hu =>
    obtain ⟨v, hv, rfl⟩ := modifyBuf_eq hu
    obtain ⟨-, rfl⟩ := storeBuf_eq hv; exact .inl rfl
  | restore hi hu =>
    obtain ⟨-, rfl⟩ := storeBuf_eq hu; exact .inl rfl
  | write hi hu =>
    obtain ⟨-, rfl⟩ := writeBuf_eq hu; exact .inl rfl
  | unpin hi => exact .inl rfl
  | unlock hi hs =>
    obtain ⟨-, rfl⟩ := unlockBuf_eq hs; exact .inl rfl
  | drop hi hb hu =>
    obtain ⟨_, -, rfl⟩ := dropBuf_eq hu; exact .inl rfl
  | clear hi hpc hs => exact .inr ⟨_, hs, rfl⟩

theorem Light.move (h : Light s) (ho : Ok start s) (hp : (s.core.phase p).com = 1)
    (hm : Move start s p s') : Light s' := by
  have hsub : ∀ q, (s.core.phase q).com = 0 → blocksOf s' q ⊆ blocksOf s q := by
    intro q hq
    refine blocksOf_move ho hm ?_
    rintro rfl; omega
  rcases move_core ho.base hm with hcore | ⟨c, hc, hcore⟩
  · exact h.same_core hcore hsub
  · obtain _ | _ | _ | _ | ⟨hph⟩ | _ := exec_cases hc
    have hphase : s'.core.phase = update s.core.phase p .committed := by rw [hcore]
    refine h.of_subset (fun q hq => hsub q ?_) (fun q hq _ => ?_) fun q U hq _ => ?_
    · rw [hphase] at hq
      by_cases hqp : q = p
      · subst hqp; rw [update_self] at hq; cases hq
      · rwa [update_of_ne hqp] at hq
    · rw [hphase] at hq
      rcases phase_update hq with ⟨-, hq⟩ | ⟨-, hq⟩
      · cases hq
      · exact hq
    · rw [hphase] at hq
      rcases phase_update hq with ⟨-, hq⟩ | ⟨-, hq⟩
      · cases hq
      · exact absurd hq (ho.ctl.core.no_op hp)

variable {e : Ev P}

theorem Light.step (h : Light s) (ho : Ok start s) (ha : Admitted m start s e)
    (hs : exec start s e = some s') : Light s' := by
  have hbegin : ∀ p, e = .beginOp p → (s.thread p).none := by
    rintro p rfl
    simp only [exec] at hs
    split_ifs at hs with hn; exact hn
  cases step_of_exec hs with
  | @beginOp p c hc =>
    obtain _ | _ | _ | _ | _ | _ := exec_cases hc
    exact h.rephase rfl (fun q => blocksOf_congr rfl rfl q) (blocksOf_none (hbegin p rfl)) rfl
  | @endOp p c hn hc =>
    obtain _ | _ | _ | _ | _ | _ := exec_cases hc
    · exact h.rephase rfl (fun q => blocksOf_congr rfl rfl q) (blocksOf_none hn) rfl
    · exact h.rephase rfl (fun q => blocksOf_congr rfl rfl q) (blocksOf_none hn) rfl
  | bget hf hs => exact h.getBuf ho.base hf ha hs
  | lock hf hs =>
    refine h.same_core ?_ fun q _ => blocksOf_lockBuf ho.base hs q
    obtain ⟨_, _, -, -, rfl, -⟩ := lockBuf_cases hs; rfl
  | modify hf hs =>
    refine h.same_core ?_ fun q _ => blocksOf_modifyBuf ho.base hs q
    obtain ⟨u, hu, rfl⟩ := modifyBuf_eq hs
    obtain ⟨-, rfl⟩ := storeBuf_eq hu; rfl
  | logWrite hf hs => exact h.logBuf ho.base ha hs
  | unlock hf hs =>
    refine h.same_core ?_ fun q _ => blocksOf_unlockBuf ho.base hs q
    obtain ⟨-, rfl⟩ := unlockBuf_eq hs; rfl
  | drop hf hs =>
    refine h.same_core ?_ fun q _ => blocksOf_dropBuf ho.base hs q
    obtain ⟨_, -, rfl⟩ := dropBuf_eq hs; rfl
  | commit hp hm => exact h.move ho hp hm
  | @endCommit p c hpc hc =>
    obtain _ | _ | _ | _ | _ | ⟨hp⟩ := exec_cases hc
    have hplace := (ho.ctl.along p (by rw [hp]; rfl)).place
    rw [hpc] at hplace
    exact h.rephase rfl (fun q => blocksOf_congr rfl rfl q) (blocksOf_none hplace) rfl

theorem core_step (hb : Base s) (ha : Admitted m start s e) (hs : Step start s e s') :
    s'.core = s.core ∨ ∃ e', GroupCommit.exec m s.core e' = some s'.core := by
  cases hs with
  | @beginOp p c hc => exact .inr ⟨.beginOp p, hc⟩
  | @endOp p c hn hc => exact .inr ⟨.endOp p, hc⟩
  | bget hf hs =>
    obtain ⟨-, _, _, rfl, -⟩ := getBuf_cases hb.counts.rep hs; exact .inl rfl
  | lock hf hs =>
    obtain ⟨_, _, -, -, rfl, -⟩ := lockBuf_cases hs; exact .inl rfl
  | modify hf hs =>
    obtain ⟨u, hu, rfl⟩ := modifyBuf_eq hs
    obtain ⟨-, rfl⟩ := storeBuf_eq hu; exact .inl rfl
  | @logWrite p b _ hf hs =>
    obtain ⟨-, l, hl, hcore, -⟩ := logBuf_cases hs
    have hm : MayLog m (s.blockno b) (s.core.phase p) := ha
    refine .inr ⟨.logWrite p (s.blockno b), ?_⟩
    rw [hcore]
    cases hp : s.core.phase p with
    | inOp U =>
      rw [hp] at hm
      have hcard : (insert (s.blockno b) U).card ≤ m := hm
      simp only [GroupCommit.exec, addLogged, hp, hl, if_pos hcard]
    | _ => rw [hp] at hm; exact hm.elim
  | unlock hf hs =>
    obtain ⟨-, rfl⟩ := unlockBuf_eq hs; exact .inl rfl
  | drop hf hs =>
    obtain ⟨_, -, rfl⟩ := dropBuf_eq hs; exact .inl rfl
  | @commit p _ hp hm =>
    rcases move_core hb hm with hcore | ⟨c, hc, hcore⟩
    · exact .inl hcore
    · exact .inr ⟨.commit p, by rw [hcore]; exact hc⟩
  | @endCommit p c hpc hc => exact .inr ⟨.endCommit p, hc⟩

structure Fits (m : ℕ) (start : Word) (s : State P) : Prop where
  ok : Ok start s
  core : Inv m s.core
  slack : Slack m s.core
  light : Light s

theorem Fits.step (hm : m ≤ 4) (h : Fits m start s) (hP : Few P) (ha : Admitted m start s e)
    (hs : exec start s e = some s') : Fits m start s' := by
  have hstep := step_of_exec hs
  refine ⟨h.ok.step hP hstep, ?_, ?_, h.light.step h.ok ha hs⟩
  · rcases core_step h.ok.base ha hstep with hcore | ⟨e', he⟩
    · rw [hcore]; exact h.core
    · exact h.core.exec he
  · rcases core_step h.ok.base ha hstep with hcore | ⟨e', he⟩
    · rw [hcore]; exact h.slack
    · exact h.slack.exec hm h.core he

omit [DecidableEq P] in
theorem Fits.boot (disk : Word → Block) : Fits m start (boot P disk) := by
  have hnone : ∀ p, blocksOf (Machine.boot P disk) p = ∅ := fun p => blocksOf_none ⟨rfl, rfl⟩
  refine ⟨Ok.boot disk, Inv.start m, ?_, ⟨fun p U hp => ?_, fun p _ => ?_, ?_⟩⟩
  · have h0 : ∑ p, ((Machine.boot P disk).core.phase p).rest m = 0 := Finset.sum_const_zero
    have hcpu : NCPU ≤ NBUF := by decide
    unfold Slack
    rw [h0]; exact hcpu
  · cases hp
  · rw [hnone p]; exact Nat.zero_le 1
  · have h0 : readers (Machine.boot P disk) = ∅ :=
      Finset.filter_eq_empty_iff.mpr fun p _ hp => hp.2 (hnone p)
    rw [h0]; exact Nat.zero_le NCPU

variable {disk : Word → Block}

theorem fits_reachable (hm : m ≤ 4) (hP : Few P) (hr : Reachable (sys P m start disk) s) : Fits m start s := by
  refine hr.inv (T := sys P m start disk) (fun s h0 => ?_) fun s e s' hi hs =>
    hi.step hm hP hs.2 hs.1
  rw [show s = boot P disk from h0]; exact Fits.boot disk

def share (s : State P) (p : P) : ℕ :=
  2 * (s.core.phase p).op + (s.core.phase p).com + if p ∈ readers s then 1 else 0

section
variable (h : Fits m start s) {U : Finset Word}
include h

theorem Fits.unlogged_le (p : P) : (unlogged s p).card ≤ share s p := by
  unfold share
  cases hp : s.core.phase p with
  | inOp U =>
    have := h.light.op p U hp; simp only [op_inOp]; omega
  | idle =>
    have hle : (unlogged s p).card ≤ (blocksOf s p).card := Finset.card_filter_le _ _
    have h1 := h.light.idle p hp
    by_cases h0 : blocksOf s p = ∅
    · rw [h0, Finset.card_empty] at hle; omega
    · have hmem : p ∈ readers s := mem_filter.mpr ⟨mem_univ p, hp, h0⟩
      rw [if_pos hmem]; omega
  | commit =>
    have := unlogged_commit h.ok (by rw [hp]; rfl)
    simp only [com_commit]; omega
  | committed =>
    have := unlogged_commit h.ok (by rw [hp]; rfl)
    simp only [com_committed]; omega

theorem Fits.sum_share :
    ∑ p, share s p = 2 * s.core.log.outstanding + s.core.log.committing.toNat + (readers s).card := by
  unfold share
  rw [Finset.sum_add_distrib, Finset.sum_add_distrib, ← Finset.mul_sum, ← h.core.outstanding,
    ← h.core.committing, Finset.sum_ite_mem, Finset.univ_inter, Finset.card_eq_sum_ones]

theorem Fits.logged_cached (hp : s.core.phase p = .inOp U) (hn : n ∈ s.blocks) : ∃ b, Holds s b n := by
  have hhome : s.home = 0 := by
    refine h.ok.ctl.idle fun q => ?_
    exact (free_or_com s q).resolve_right fun hq => h.core.no_op hq hp
  have hdrop : n ∈ s.blocks.drop s.home := by rwa [hhome]
  obtain ⟨b, hb, rfl⟩ := h.ok.base.pinned.logged n hdrop
  exact ⟨b, h.ok.base.counts.dev b (.inr (h.ok.base.pinned.pin b hb).2.1), rfl⟩

theorem Fits.unlogged_asks (hp : s.core.phase p = .inOp U)
    (ha : Asks start s p n) (hnew : ∀ b, ¬ Holds s b n) : (unlogged s p).card ≤ 1 := by
  have hlog : n ∉ s.blocks := fun hn => by
    obtain ⟨b, hb⟩ := h.logged_cached hp hn; exact hnew b hb
  have hown : n ∉ unlogged s p := fun hn => by
    obtain ⟨b, hb, rfl⟩ := mem_blocksOf.mp (mem_filter.mp hn).1
    exact hnew b (holds_of_mem h.ok.base hb)
  unfold Asks at ha
  rw [hp] at ha
  have hcard : ((insert n (blocksOf s p)).filter (· ∉ s.blocks)).card ≤ 2 := ha
  have hinsert : (insert n (blocksOf s p)).filter (· ∉ s.blocks) = insert n (unlogged s p) := by
    rw [Finset.filter_insert, if_pos hlog]; rfl
  rw [hinsert, Finset.card_insert_of_notMem hown] at hcard; omega

theorem Fits.bget_isSome (ha : Asks start s p n) : bget s.cache ROOTDEV n ≠ none := by
  intro hnone
  obtain ⟨hnew, hall⟩ := bget_none h.ok.base hnone
  have huse := card_inUse_le h.ok.base
  have hsum : ∑ q, (unlogged s q).card ≤ ∑ q, share s q := Finset.sum_le_sum fun q _ => h.unlogged_le q
  have hshare := h.sum_share
  have hslack := h.slack
  have hfew := h.light.few
  have hlen : s.blocks.length = s.core.log.blocks.length := rfl
  unfold Slack at hslack
  cases hp : s.core.phase p with
  | inOp U =>
    have hown := h.unlogged_asks hp ha hnew
    have hlt : ∑ q, (unlogged s q).card < ∑ q, share s q := by
      refine Finset.sum_lt_sum (fun q _ => h.unlogged_le q) ⟨p, mem_univ p, ?_⟩
      unfold share
      rw [hp, op_inOp]; omega
    omega
  | idle =>
    unfold Asks at ha
    rw [hp] at ha; omega
  | commit =>
    have hcom := le_sum Phase.com s.core.phase p
    rw [hp, ← h.core.committing, com_commit] at hcom; omega
  | committed =>
    have hcom := le_sum Phase.com s.core.phase p
    rw [hp, ← h.core.committing, com_committed] at hcom; omega

end

/-! ## Work that is too much -/

section
variable {P : Type} [Fintype P]

instance (start : Word) (s : State P) (p : P) (n : Word) : Decidable (Asks start s p n) := by
  unfold Asks
  cases s.core.phase p with
  | inOp U => exact Nat.decLe _ _
  | idle => exact inferInstanceAs (Decidable (blocksOf s p = ∅ ∧ (readers s).card < NCPU))
  | _ => exact inferInstanceAs (Decidable (n ∈ asked start s.core.log (s.pc p)))

instance (m : ℕ) (n : Word) (ph : Phase) : Decidable (MayLog m n ph) := by
  unfold MayLog
  split <;> infer_instance

instance (m : ℕ) (start : Word) (s : State P) (e : Ev P) : Decidable (Admitted m start s e) := by
  unfold Admitted
  split <;> infer_instance

end

/-- A step of the admitted work; `none` if it is not admitted, cannot be taken or panics. -/
def execAdmitted (m : ℕ) (start : Word) (s : State P) (e : Ev P) : Option (State P) :=
  if Admitted m start s e then exec start s e else none

theorem step_of_execAdmitted (h : execAdmitted m start s e = some s') : (sys P m start disk).step s e s' := by
  unfold execAdmitted at h
  split_ifs at h with ha; exact ⟨h, ha⟩

/-- A process reads, logs and releases the buffers `b`, `b + 1`, … of as many blocks. -/
def logs {P : Type} (p : P) (b k : ℕ) : List (Ev P) :=
  (List.range k).flatMap fun i =>
    [.bget p (BitVec.ofNat 32 (b + i)), .lock p, .logWrite p (Fin.ofNat NBUF (b + i)),
      .unlock p (Fin.ofNat NBUF (b + i)), .drop p]

/-- Two operations, one of them the third in a row, have logged 20 blocks, five each; both have read two more
blocks, and six processes are reading. -/
def loaded : List (Ev (Fin 9)) :=
  ([.beginOp 0, .beginOp 1] : List (Ev (Fin 9))) ++ logs 1 0 5 ++
    ([.endOp 1, .beginOp 1] : List (Ev (Fin 9))) ++ logs 1 5 5 ++
    ([.endOp 1, .beginOp 1] : List (Ev (Fin 9))) ++ logs 1 10 5 ++ logs 0 15 5 ++
    ([.bget 0 50, .lock 0, .bget 0 51, .lock 0, .bget 1 52, .lock 1, .bget 1 53, .lock 1, .bget 2 54,
      .bget 3 55, .bget 4 56, .bget 5 57, .bget 6 58, .bget 7 59] : List (Ev (Fin 9)))

theorem exhausted_loaded : ∃ s : State (Fin 9), Reachable (sys (Fin 9) 5 2 fun _ _ => 0) s ∧
    Asks 2 s 8 60 ∧ bget s.cache ROOTDEV 60 = none := by
  obtain ⟨s, hr, -, ht⟩ := exists_run (T := sys (Fin 9) 5 2 fun _ _ => 0)
    (f := execAdmitted 5 2) (fun _ _ _ h => step_of_execAdmitted h) rfl loaded
    (fun s => decide (Asks 2 s 8 60) && (bget s.cache ROOTDEV 60).isNone) (by decide +kernel)
  rw [Bool.and_eq_true, isNone_iff_eq_none] at ht
  exact ⟨s, ⟨_, hr⟩, of_decide_eq_true ht.1, ht.2⟩

theorem reachable_mono {k : ℕ} (hk : k ≤ m) (hr : Reachable (sys P k start disk) s) :
    Reachable (sys P m start disk) s := by
  obtain ⟨h, hr⟩ := hr
  induction hr with
  | start h0 => exact .start h0
  | @next _ s s' e _ hs ih =>
    refine ih.next ⟨hs.1, ?_⟩
    cases e with
    | logWrite p b =>
      have ha : MayLog k (s.blockno b) (s.core.phase p) := hs.2
      show MayLog m (s.blockno b) (s.core.phase p)
      cases hp : s.core.phase p with
      | inOp U => rw [hp] at ha; exact Nat.le_trans ha hk
      | _ => rw [hp] at ha; exact ha.elim
    | _ => exact hs.2

/-- **When the cache is large enough.**  If every operation logs at most `m` distinct blocks and has at most
two unlogged buffers, and at most `NCPU` processes read outside of operations, with one buffer each, then
`bget` finds a buffer in every state of every run, whatever the processes and their interleaving, exactly if
`m` is at most 4. -/
theorem buffers_suffice_iff (m : ℕ) :
    (∀ (P : Type) [DecidableEq P] [Fintype P] (start : Word) (disk : Word → Block) (s : State P), Few P →
      Reachable (sys P m start disk) s → ∀ p n, Asks start s p n → bget s.cache ROOTDEV n ≠ none) ↔
    m ≤ 4 := by
  constructor
  · intro h
    by_contra hm
    obtain ⟨s, hr, ha, hnone⟩ := exhausted_loaded
    have hP : Few (Fin 9) := by unfold Few; decide
    exact h (Fin 9) 2 _ s hP (reachable_mono (by omega) hr) 8 60 ha hnone
  · intro hm P _ _ start disk s hP hr p n ha
    exact (fits_reachable hm hP hr).bget_isSome ha

def threeOps {P : Type} (p q r : P) : List (Ev P) :=
  [.beginOp p, .beginOp q, .beginOp r] ++ logs p 0 10 ++ logs q 10 10 ++ logs r 20 9 ++ [.bget p 50, .lock p]

/-- Three operations of at most `MAXOPBLOCKS` distinct blocks leave one buffer, and two of them need one. -/
theorem threeOps_exhaust : ∃ s : State (Fin 3), Reachable (sys (Fin 3) MAXOPBLOCKS 2 fun _ _ => 0) s ∧
    Asks 2 s 1 51 ∧ bget s.cache ROOTDEV 51 = none := by
  obtain ⟨s, hr, -, ht⟩ := exists_run (T := sys (Fin 3) MAXOPBLOCKS 2 fun _ _ => 0)
    (f := execAdmitted MAXOPBLOCKS 2) (fun _ _ _ h => step_of_execAdmitted h) rfl (threeOps 0 1 2)
    (fun s => decide (Asks 2 s 1 51) && (bget s.cache ROOTDEV 51).isNone) (by decide +kernel)
  rw [Bool.and_eq_true, isNone_iff_eq_none] at ht
  exact ⟨s, ⟨_, hr⟩, of_decide_eq_true ht.1, ht.2⟩

end Xv6.Fs.Exhaustion
