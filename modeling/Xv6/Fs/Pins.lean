import Xv6.Fs.Machine

/-!
# References and pins

What holds whatever the processes do with their buffers.  The count of a buffer is the number of references of
the processes plus its pins; a locked buffer has one holder and is valid; and the pinned buffers, with one pin
each, are those of the blocks in the log that the commit going on has not unpinned.

A valid buffer is *clean* if its data is on the disk (`Clean`).
-/

namespace Xv6.Fs.Pins

open Lib.Runs Lib.Ring Param Fs.Buffers Fs.Machine List Function BitVec
open Fs.LogOps (Block)
open Fs.GroupCommit (LogState Phase sum_update le_sum)

/-! ## References -/

/-- `1` for the buffer that a process inside `bread` or `brelse` refers to. -/
def refsOf (b : BufId) : Busy → ℕ
  | .free => 0
  | .want a | .leave a => if a = b then 1 else 0

def refs (b : BufId) (t : Thread) : ℕ := t.held.count b + refsOf b t.busy

variable {P : Type} [DecidableEq P] [Fintype P]

/-- The count of every buffer is the number of its references and pins, and a buffer that is counted or
valid belongs to the file system. -/
structure Counts (s : State P) : Prop where
  rep : ∃ l, Rep s.cache l
  dev : ∀ b, (s.cache.buf b).refcnt ≠ 0 ∨ (s.cache.buf b).valid = true → (s.cache.buf b).dev = ROOTDEV
  count : ∀ b, (s.cache.buf b).refcnt.toNat = (∑ p, refs b (s.thread p)) + s.pins b

/-- A locked buffer has one holder and is valid, and only a holder changes its data. -/
structure Locks (s : State P) : Prop where
  nodup : ∀ p, (s.thread p).held.Nodup
  alone : ∀ p q b, b ∈ (s.thread p).held → b ∈ (s.thread q).held → p = q
  valid : ∀ p, ∀ b ∈ (s.thread p).held, (s.cache.buf b).valid = true
  dirty : ∀ p, ∀ b ∈ (s.thread p).dirty, b ∈ (s.thread p).held

/-- The pinned buffers are valid, have one pin each, and are those of the blocks of the log that are not
home. -/
structure Pinned (s : State P) : Prop where
  pin : ∀ b, s.pins b ≠ 0 → s.pins b = 1 ∧ (s.cache.buf b).valid = true ∧ s.blockno b ∈ s.blocks.drop s.home
  logged : ∀ n ∈ s.blocks.drop s.home, ∃ b, s.pins b ≠ 0 ∧ s.blockno b = n
  distinct : s.blocks.Nodup
  le : s.home ≤ s.blocks.length

structure Base (s : State P) : Prop where
  counts : Counts s
  locks : Locks s
  pinned : Pinned s

variable {t : Thread} {b : BufId}

theorem refs_le (h : t.held.Nodup) (b : BufId) : refs b t ≤ 2 := by
  have h1 : t.held.count b ≤ 1 := nodup_iff_count_le_one.mp h b
  have h2 : refsOf b t.busy ≤ 1 := by
    cases t.busy with
    | free => exact Nat.zero_le 1
    | want a | leave a => simp only [refsOf]; split_ifs <;> omega
  unfold refs; omega

omit [DecidableEq P] in
theorem Base.bound {s : State P} (h : Base s) (b : BufId) :
    (∑ p, refs b (s.thread p)) + s.pins b ≤ 2 * Fintype.card P + 1 := by
  have h1 : ∑ p, refs b (s.thread p) ≤ ∑ _p : P, 2 :=
    Finset.sum_le_sum fun p _ => refs_le (h.locks.nodup p) b
  have h2 : s.pins b ≤ 1 := by
    by_cases h0 : s.pins b = 0
    · omega
    · have h3 := (h.pinned.pin b h0).1; omega
  rw [Finset.sum_const_nat fun _ _ => rfl, Finset.card_univ] at h1
  omega

theorem refs_pos_of_held (h : b ∈ t.held) : 0 < refs b t := by
  have h1 := count_pos_iff.mpr h
  unfold refs; omega

variable {s s' : State P} {p q : P}

theorem Counts.refcnt_ne_zero (h : Counts s) (hr : 0 < refs b (s.thread p)) : (s.cache.buf b).refcnt ≠ 0 := by
  intro h0
  have h1 := h.count b
  have h2 := le_sum (refs b) s.thread p
  rw [h0] at h1; simp only [ofNat_eq_ofNat, toNat_ofNat] at h1; omega

theorem Counts.of_refcnt_zero (h : Counts s) (h0 : (s.cache.buf b).refcnt = 0) :
    (∀ p, refs b (s.thread p) = 0) ∧ s.pins b = 0 := by
  have h1 := h.count b
  rw [h0] at h1
  simp only [ofNat_eq_ofNat, toNat_ofNat] at h1
  refine ⟨fun p => ?_, by omega⟩
  have h2 := le_sum (refs b) s.thread p; omega

variable {a : BufId}

section
omit [DecidableEq P]

theorem Counts.unique_of_dev (h : Counts s) (ha : (s.cache.buf a).dev = ROOTDEV)
    (hb : (s.cache.buf b).dev = ROOTDEV) (hn : s.blockno a = s.blockno b) : a = b := by
  obtain ⟨l, hl⟩ := h.rep
  exact hl.unique a b (by rw [ha]; decide) (ha.trans hb.symm) hn

theorem Counts.unique (h : Counts s) (ha : (s.cache.buf a).valid = true)
    (hb : (s.cache.buf b).valid = true) (hn : s.blockno a = s.blockno b) : a = b :=
  h.unique_of_dev (h.dev a (.inr ha)) (h.dev b (.inr hb)) hn

end

variable {v : Buf} {r : Word} {n : Word}

/-- A process becomes `t` and a buffer becomes `v`. -/
theorem Counts.change (h : Counts s) (hrep : ∃ l, Rep s'.cache l) (hbuf : s'.cache.buf = update s.cache.buf b v)
    (hth : s'.thread = update s.thread p t) (hdev : v.refcnt ≠ 0 ∨ v.valid = true → v.dev = ROOTDEV)
    (hone : v.refcnt.toNat + refs b (s.thread p) + s.pins b = (s.cache.buf b).refcnt.toNat + refs b t + s'.pins b)
    (hrest : ∀ a, a ≠ b → refs a (s.thread p) + s.pins a = refs a t + s'.pins a) : Counts s' := by
  refine ⟨hrep, ?_, fun a => ?_⟩
  · rw [hbuf]
    exact setBuf_cases (c := s.cache) (R := fun _ v => v.refcnt ≠ 0 ∨ v.valid = true → v.dev = ROOTDEV) hdev
      fun a _ => h.dev a
  · have h1 := sum_update (refs a) s.thread p t
    have h2 := h.count a
    rw [hbuf, hth]
    by_cases ha : a = b
    · subst ha; rw [update_self]; omega
    · have h3 := hrest a ha; rw [update_of_ne ha]; omega

theorem toNat_succ (h : r.toNat + 1 < 2 ^ 32) : (r + 1).toNat = r.toNat + 1 := by
  bv_omega

theorem toNat_pred (h : 0 < r.toNat) : (r - 1).toNat + 1 = r.toNat := by
  bv_omega

/-- As many processes as this do not make the count of a buffer overflow. -/
def Few (P : Type) [Fintype P] : Prop := 2 * Fintype.card P + 2 < 2 ^ 32

omit [Fintype P] in
theorem setThread_cases {R : P → Thread → Prop} (hp : R p t)
    (hq : ∀ q, q ≠ p → R q (s.thread q)) (q : P) : R q ((s.setThread p t).thread q) :=
  (forall_update_iff s.thread R).mpr ⟨hp, hq⟩ q

section
omit [DecidableEq P] [Fintype P]

theorem Locks.congr (h : Locks s) (hheld : ∀ q, (s'.thread q).held = (s.thread q).held)
    (hdirty : ∀ q, ∀ b ∈ (s'.thread q).dirty, b ∈ (s.thread q).dirty ∨ b ∈ (s.thread q).held)
    (hvalid : ∀ q, ∀ b ∈ (s.thread q).held, (s'.cache.buf b).valid = (s.cache.buf b).valid) : Locks s' := by
  refine ⟨fun q => ?_, fun q r b => ?_, fun q b hb => ?_, fun q b hb => ?_⟩
  · rw [hheld]; exact h.nodup q
  · rw [hheld, hheld]; exact h.alone q r b
  · rw [hheld] at hb; rw [hvalid q b hb]; exact h.valid q b hb
  · rw [hheld]
    rcases hdirty q b hb with hb | hb
    · exact h.dirty q b hb
    · exact hb

theorem Pinned.congr (h : Pinned s) (hpins : s'.pins = s.pins) (hblocks : s'.blocks = s.blocks)
    (hhome : s'.home = s.home) (hbuf : ∀ b, s.pins b ≠ 0 →
      ((s.cache.buf b).valid = true → (s'.cache.buf b).valid = true) ∧ s'.blockno b = s.blockno b) : Pinned s' := by
  refine ⟨fun b hb => ?_, fun n hn => ?_, ?_, ?_⟩
  · rw [hpins] at hb ⊢
    rw [hblocks, hhome, (hbuf b hb).2]
    obtain ⟨h1, h2, h3⟩ := h.pin b hb; exact ⟨h1, (hbuf b hb).1 h2, h3⟩
  · rw [hblocks, hhome] at hn
    obtain ⟨b, hb, hbn⟩ := h.logged n hn
    refine ⟨b, by rwa [hpins], ?_⟩
    rw [(hbuf b hb).2, hbn]
  · rw [hblocks]; exact h.distinct
  · rw [hblocks, hhome]; exact h.le

end

/-! ## Every call keeps the counts, the locks and the pins -/

theorem refs_free (h : t.busy = .free) (b : BufId) : refs b t = t.held.count b := by
  unfold refs
  rw [h]; rfl

theorem refs_want (t : Thread) (b : BufId) : refs b { t with busy := .want b } = t.held.count b + 1 := by
  simp [refs, refsOf]

theorem refs_want_ne (t : Thread) (h : a ≠ b) : refs a { t with busy := .want b } = t.held.count a := by
  simp [refs, refsOf, h.symm]

omit [DecidableEq P] in
theorem Base.toNat_succ (h : Base s) (hP : Few P) (b : BufId) :
    ((s.cache.buf b).refcnt + 1).toNat = (s.cache.buf b).refcnt.toNat + 1 := by
  have h1 := h.counts.count b
  have h2 := h.bound b
  unfold Few at hP; exact Pins.toNat_succ (by omega)

/-- The same where the process keeps its locks; `b` keeps its block, or nobody uses it. -/
theorem Base.change (h : Base s) (hrep : ∃ l, Rep s'.cache l) (hbuf : s'.cache.buf = update s.cache.buf b v)
    (hth : s'.thread = update s.thread p t) (hpins : s'.pins = s.pins) (hblocks : s'.blocks = s.blocks)
    (hhome : s'.home = s.home) (hdev : v.refcnt ≠ 0 ∨ v.valid = true → v.dev = ROOTDEV)
    (hone : v.refcnt.toNat + refs b (s.thread p) = (s.cache.buf b).refcnt.toNat + refs b t)
    (hrest : ∀ a, a ≠ b → refs a (s.thread p) = refs a t) (hheld : t.held = (s.thread p).held)
    (hdirty : ∀ a ∈ t.dirty, a ∈ (s.thread p).dirty ∨ a ∈ (s.thread p).held)
    (hkeep : v.valid = (s.cache.buf b).valid ∧ v.blockno = s.blockno b ∨
      (∀ q, b ∉ (s.thread q).held) ∧ s.pins b = 0) : Base s' := by
  have hself : s'.cache.buf b = v := by rw [hbuf, update_self]
  have hne : ∀ a, a ≠ b → s'.cache.buf a = s.cache.buf a := fun a ha => by rw [hbuf, update_of_ne ha]
  refine ⟨h.counts.change hrep hbuf hth hdev (by rw [hpins, hone]) fun a ha => by rw [hpins, hrest a ha],
    h.locks.congr ?_ ?_ fun q a ha => ?_, h.pinned.congr hpins hblocks hhome fun a ha => ?_⟩
  · rw [hth]
    exact setThread_cases (R := fun q t => t.held = (s.thread q).held) hheld fun _ _ => rfl
  · rw [hth]
    exact setThread_cases (R := fun q t => ∀ a ∈ t.dirty, a ∈ (s.thread q).dirty ∨ a ∈ (s.thread q).held) hdirty
      fun _ _ _ => .inl
  · by_cases hab : a = b
    · subst hab; rw [hself]; exact (hkeep.resolve_right fun hno => hno.1 q ha).1
    · rw [hne a hab]
  · show _ ∧ (s'.cache.buf a).blockno = _
    by_cases hab : a = b
    · subst hab
      obtain ⟨hv, hn⟩ := hkeep.resolve_right fun hno => ha hno.2
      rw [hself, hv]; exact ⟨id, hn⟩
    · rw [hne a hab]; exact ⟨id, rfl⟩

theorem Base.getBuf (h : Base s) (hP : Few P) (hs : getBuf s p n = some s') : Base s' := by
  obtain ⟨l, hl⟩ := h.counts.rep
  obtain ⟨hf, b, v, rfl, hd, hn, hv⟩ := getBuf_cases ⟨l, hl⟩ hs
  have hrest : ∀ a, a ≠ b → refs a (s.thread p) = refs a { s.thread p with busy := .want b } := fun a hab => by
    rw [refs_free hf, refs_want_ne _ hab]
  rcases hv with hv | ⟨hnew, h0, -, hone⟩
  · refine h.change ⟨l, hl.setBuf (by rw [hv]) (by rw [hv])⟩ rfl rfl rfl rfl rfl (fun _ => hd) ?_ hrest rfl
      (fun _ => .inl) (.inl ⟨by rw [hv], by rw [hv]; rfl⟩)
    have h1 := h.toNat_succ hP b
    rw [hv, refs_free hf, refs_want]
    dsimp only; omega
  · obtain ⟨hz, hp0⟩ := h.counts.of_refcnt_zero h0
    refine h.change ⟨l, hl.recycle (by rw [hd, hn]; exact hnew)⟩ rfl rfl rfl rfl rfl (fun _ => hd) ?_ hrest rfl
      (fun _ => .inl) (.inr ⟨fun q hq => (refs_pos_of_held hq).ne' (hz q), hp0⟩)
    rw [refs_free hf, refs_want, hone, h0]
    simp only [ofNat_eq_ofNat, toNat_ofNat]; omega

theorem Base.lockBuf (h : Base s) (hs : lockBuf s p = some s') : Base s' := by
  obtain ⟨b, v, hw, hq, rfl, hval, hd, hn, hr, -⟩ := lockBuf_cases hs
  obtain ⟨l, hl⟩ := h.counts.rep
  have hwant : ∀ a, refs a (s.thread p) = (s.thread p).held.count a + if b = a then 1 else 0 := by
    intro a
    unfold refs
    rw [hw]; rfl
  have hpos : 0 < refs b (s.thread p) := by rw [hwant, if_pos rfl]; omega
  have hafter : ∀ a, refs a { s.thread p with busy := .free, held := b :: (s.thread p).held } =
      (s.thread p).held.count a + if b = a then 1 else 0 := by
    intro a; simp [refs, refsOf, count_cons]
  refine ⟨h.counts.change ⟨l, hl.setBuf hd hn⟩ rfl rfl (fun _ => ?_) (by rw [hr, hafter, hwant]; rfl)
    fun a _ => by rw [hafter, hwant]; rfl, ⟨?_, ?_, ?_, ?_⟩, h.pinned.congr rfl rfl rfl fun a _ => ?_⟩
  · rw [hd]; exact h.counts.dev b (.inl (h.counts.refcnt_ne_zero hpos))
  · exact setThread_cases (R := fun _ t => t.held.Nodup)
      (nodup_cons.mpr ⟨hq p, h.locks.nodup p⟩) fun q _ => h.locks.nodup q
  · have hmem := setThread_cases (s := { s with cache := s.cache.setBuf b v }) (p := p)
      (t := { s.thread p with busy := .free, held := b :: (s.thread p).held })
      (R := fun q t => ∀ a ∈ t.held, a ∈ (s.thread q).held ∨ (q = p ∧ a = b))
      (fun a ha => (mem_cons.mp ha).symm.imp_right fun he => ⟨rfl, he⟩) fun _ _ _ => .inl
    intro q r a ha ha'
    rcases hmem q a ha with h1 | ⟨rfl, rfl⟩
    · rcases hmem r a ha' with h2 | ⟨-, rfl⟩
      · exact h.locks.alone q r a h1 h2
      · exact absurd h1 (hq q)
    · rcases hmem r a ha' with h2 | ⟨rfl, -⟩
      · exact absurd h2 (hq r)
      · rfl
  · have hvalid : ∀ a, (s.cache.buf a).valid = true → ((s.cache.setBuf b v).buf a).valid = true :=
      setBuf_cases (R := fun a v => (s.cache.buf a).valid = true → v.valid = true) (fun _ => hval)
        fun _ _ => id
    refine setThread_cases (R := fun q t => ∀ a ∈ t.held, ((s.cache.setBuf b v).buf a).valid = true)
      (fun a ha => ?_) fun q _ a ha => hvalid a (h.locks.valid q a ha)
    rcases mem_cons.mp ha with rfl | ha
    · rw [setBuf_self]; exact hval
    · exact hvalid a (h.locks.valid p a ha)
  · exact setThread_cases (R := fun q t => ∀ a ∈ t.dirty, a ∈ t.held)
      (fun a ha => mem_cons_of_mem b (h.locks.dirty p a ha)) fun q _ => h.locks.dirty q
  · exact setBuf_cases (R := fun a w => ((s.cache.buf a).valid = true → w.valid = true) ∧
      w.blockno = s.blockno a) ⟨fun _ => hval, hn⟩ (fun _ _ => ⟨id, rfl⟩) a

omit [DecidableEq P] in
theorem Counts.same (h : Counts s) (hcache : s'.cache = s.cache) (hth : s'.thread = s.thread)
    (hpins : s'.pins = s.pins) : Counts s' := by
  refine ⟨?_, ?_, ?_⟩
  · rw [hcache]; exact h.rep
  · rw [hcache]; exact h.dev
  · rw [hcache, hth, hpins]; exact h.count

omit [DecidableEq P] [Fintype P] in
theorem Locks.same (h : Locks s) (hcache : s'.cache = s.cache) (hth : s'.thread = s.thread) : Locks s' := by
  refine h.congr (fun q => by rw [hth]) (fun q a ha => ?_) fun q a _ => by rw [hcache]
  rw [hth] at ha; exact .inl ha

omit [DecidableEq P] in
theorem Base.same (h : Base s) (hcache : s'.cache = s.cache) (hth : s'.thread = s.thread)
    (hpins : s'.pins = s.pins) (hblocks : s'.blocks = s.blocks) (hhome : s'.home = s.home) : Base s' := by
  refine ⟨h.counts.same hcache hth hpins, h.locks.same hcache hth, h.pinned.congr hpins hblocks hhome fun a _ => ?_⟩
  unfold State.blockno
  rw [hcache]; exact ⟨id, rfl⟩

variable {data : Block}

section
variable (h : Base s)
include h

theorem Base.storeBuf (hs : storeBuf s p b data = some s') : Base s' := by
  obtain ⟨⟨-, hb⟩, rfl⟩ := storeBuf_eq hs
  obtain ⟨l, hl⟩ := h.counts.rep
  refine h.change ⟨l, hl.setBuf rfl rfl⟩ rfl rfl rfl rfl rfl (h.counts.dev b) rfl (fun _ _ => rfl) rfl
    (fun a ha => ?_) (.inl ⟨rfl, rfl⟩)
  rcases mem_cons.mp ha with rfl | ha
  · exact .inr hb
  · exact .inl ha

theorem Base.modifyBuf (hs : modifyBuf s p b data = some s') : Base s' := by
  obtain ⟨u, hu, rfl⟩ := modifyBuf_eq hs
  exact (h.storeBuf hu).same rfl rfl rfl rfl rfl

theorem Base.settle (hcache : s'.cache = s.cache) (hth : s'.thread = (s.setThread p
      { s.thread p with dirty := (s.thread p).dirty.filter (· ≠ b) }).thread)
    (hpins : s'.pins = s.pins) (hblocks : s'.blocks = s.blocks) (hhome : s'.home = s.home) : Base s' :=
  h.change (by rw [hcache]; exact h.counts.rep) (by rw [hcache, update_eq_self]) hth hpins hblocks hhome
    (h.counts.dev b) rfl (fun _ _ => rfl) rfl (fun _ ha => .inl (mem_of_mem_filter ha)) (.inl ⟨rfl, rfl⟩)

theorem Base.writeBuf (hs : writeBuf s p b = some s') : Base s' := by
  obtain ⟨-, rfl⟩ := writeBuf_eq hs; exact h.settle rfl rfl rfl rfl rfl

theorem Base.unlockBuf (hs : unlockBuf s p b = some s') : Base s' := by
  obtain ⟨⟨hf, hb⟩, rfl⟩ := unlockBuf_eq hs
  have hheld := setThread_cases (s := s) (p := p)
    (t := ⟨.leave b, (s.thread p).held.erase b, (s.thread p).dirty.filter (· ≠ b)⟩)
    (R := fun q t => ∀ a ∈ t.held, a ∈ (s.thread q).held)
    (fun _ ha => mem_of_mem_erase ha) fun _ _ _ => id
  refine ⟨h.counts.change h.counts.rep (update_eq_self b _).symm rfl (h.counts.dev b) ?_ fun a hab => ?_,
    ⟨?_, fun q r a ha ha' => ?_, fun q a ha => ?_, ?_⟩, h.pinned.congr rfl rfl rfl fun _ _ => ⟨id, rfl⟩⟩
  · have hpos := count_pos_iff.mpr hb
    rw [refs_free hf]
    unfold refs
    dsimp only [refsOf]
    rw [count_erase_self, if_pos rfl]
    show (s.cache.buf b).refcnt.toNat + _ + _ = _ + s.pins b; omega
  · rw [refs_free hf]
    unfold refs
    dsimp only [refsOf]
    rw [count_erase_of_ne hab, if_neg hab.symm]; rfl
  · exact setThread_cases (R := fun _ t => t.held.Nodup) ((h.locks.nodup p).erase b)
      fun q _ => h.locks.nodup q
  · exact h.locks.alone q r a (hheld q a ha) (hheld r a ha')
  · exact h.locks.valid q a (hheld q a ha)
  · refine setThread_cases (R := fun _ t => ∀ a ∈ t.dirty, a ∈ t.held) (fun a ha => ?_)
      fun q _ => h.locks.dirty q
    rw [mem_filter, decide_eq_true_iff] at ha
    exact (h.locks.nodup p).mem_erase_iff.mpr ⟨ha.2, h.locks.dirty p a ha.1⟩

theorem Base.dropBuf (hs : dropBuf s p = some s') : Base s' := by
  obtain ⟨b, hb, rfl⟩ := dropBuf_eq hs
  obtain ⟨l, hl⟩ := h.counts.rep
  have hrefs : refs b (s.thread p) = (s.thread p).held.count b + 1 := by
    unfold refs
    rw [hb]; simp [refsOf]
  have h1 := le_sum (refs b) s.thread p
  have h2 := h.counts.count b
  have h3 := toNat_pred (r := (s.cache.buf b).refcnt) (by omega)
  refine h.change (hl.brelse b) (brelse_buf _ _) rfl rfl rfl rfl (fun _ => ?_) ?_ (fun a ha => ?_) rfl
    (fun _ => .inl) (.inl ⟨rfl, rfl⟩)
  · exact h.counts.dev b (.inl (h.counts.refcnt_ne_zero (p := p) (by omega)))
  · rw [hrefs, refs_free rfl]; dsimp only; omega
  · unfold refs; rw [hb]; simp [refsOf, ha.symm]

theorem Base.logBuf (hP : Few P) (hs : logBuf s p b = some s') : Base s' := by
  obtain ⟨⟨-, hb⟩, l, hl, hcore, hth, -, -, hhome, -, hcase⟩ := logBuf_cases hs
  have hblocks := logBuf_blocks hs
  rcases hcase with ⟨hn, hc, hp⟩ | ⟨hn, hc, hp⟩
  · rw [if_pos hn] at hblocks; exact h.settle hc hth hp hblocks hhome
  · rw [if_neg hn] at hblocks
    have hp0 : s.pins b = 0 := by by_contra h0; exact hn (mem_of_mem_drop (h.pinned.pin b h0).2.2)
    have hdrop : s'.blocks.drop s'.home = s.blocks.drop s.home ++ [s.blockno b] := by
      rw [hblocks, hhome, drop_append_of_le_length h.pinned.le]
    have hvb := h.locks.valid p b hb
    obtain ⟨k, hk⟩ := h.counts.rep
    have hvalid : ∀ a, (s'.cache.buf a).valid = (s.cache.buf a).valid := by
      rw [hc]
      exact setBuf_cases (R := fun a v => v.valid = (s.cache.buf a).valid) rfl fun _ _ => rfl
    have hno : ∀ a, s'.blockno a = s.blockno a := by
      unfold State.blockno
      rw [hc]
      exact setBuf_cases (R := fun a v => v.blockno = s.blockno a) rfl fun _ _ => rfl
    have hbuf : s'.cache.buf = update s.cache.buf b
        { s.cache.buf b with refcnt := (s.cache.buf b).refcnt + 1 } := by
      rw [hc]; rfl
    refine ⟨h.counts.change ⟨k, by rw [hc]; exact hk.setBuf rfl rfl⟩ hbuf hth
      (fun _ => h.counts.dev b (.inr hvb)) ?_ fun a ha => ?_, h.locks.congr ?_ ?_ fun q a _ => hvalid a,
      ⟨fun a ha => ?_, fun m hm => ?_, ?_, ?_⟩⟩
    · have h1 := h.toNat_succ hP b
      rw [hp, update_self]
      show _ = (s.cache.buf b).refcnt.toNat + refs b (s.thread p) + (s.pins b + 1)
      dsimp only; omega
    · rw [hp, update_of_ne ha]; rfl
    · rw [hth]
      exact setThread_cases (R := fun q t => t.held = (s.thread q).held) rfl fun _ _ => rfl
    · rw [hth]
      exact setThread_cases (R := fun q t => ∀ a ∈ t.dirty, a ∈ (s.thread q).dirty ∨ a ∈ (s.thread q).held)
        (fun a ha => .inl (mem_of_mem_filter ha)) fun _ _ _ => .inl
    · rw [hdrop, hvalid, hno, mem_append]
      rw [hp] at ha ⊢
      by_cases hab : a = b
      · subst hab
        rw [update_self, hp0]; exact ⟨rfl, hvb, .inr (mem_singleton_self _)⟩
      · rw [update_of_ne hab] at ha ⊢
        obtain ⟨h1, h2, h3⟩ := h.pinned.pin a ha; exact ⟨h1, h2, .inl h3⟩
    · rw [hdrop, mem_append] at hm
      rw [hp]
      rcases hm with hm | hm
      · obtain ⟨a, ha, ham⟩ := h.pinned.logged m hm
        have hab : a ≠ b := by rintro rfl; exact ha hp0
        exact ⟨a, by rwa [update_of_ne hab], by rw [hno, ham]⟩
      · refine ⟨b, by rw [update_self]; omega, ?_⟩
        rw [hno, mem_singleton.mp hm]
    · rw [hblocks, nodup_append]
      refine ⟨h.pinned.distinct, nodup_singleton _, ?_⟩
      rintro x hx y hy rfl
      rw [mem_singleton.mp hy] at hx; exact hn hx
    · have hle := h.pinned.le; rw [hblocks, hhome, length_append]; omega

section
omit [DecidableEq P]

theorem Base.unpinBuf (hb : (s.cache.buf b).valid = true) {rest : List Word}
    (hn : s.blocks.drop s.home = s.blockno b :: rest) : Base (unpinBuf s b) := by
  obtain ⟨a, ha, hab⟩ := h.pinned.logged (s.blockno b) (by rw [hn]; exact mem_cons_self)
  obtain rfl : a = b := h.counts.unique (h.pinned.pin a ha).2.1 hb hab
  have hone := (h.pinned.pin a ha).1
  have hdist : (s.blockno a :: rest).Nodup := by
    rw [← hn]; exact h.pinned.distinct.sublist (drop_sublist _ _)
  have hlt : s.home < s.blocks.length := by
    by_contra hge
    rw [drop_eq_nil_of_le (by omega)] at hn; cases hn
  have hdrop : s.blocks.drop (s.home + 1) = rest := by rw [← drop_drop, hn]; rfl
  obtain ⟨k, hk⟩ := h.counts.rep
  have hno : ∀ x, (unpinBuf s a).blockno x = s.blockno x :=
    setBuf_cases (R := fun a v => v.blockno = s.blockno a) rfl fun _ _ => rfl
  have hvalid : ∀ x, ((unpinBuf s a).cache.buf x).valid = (s.cache.buf x).valid :=
    setBuf_cases (R := fun a v => v.valid = (s.cache.buf a).valid) rfl fun _ _ => rfl
  refine ⟨⟨⟨k, hk.setBuf rfl rfl⟩, ?_, ?_⟩, h.locks.congr (fun _ => rfl) (fun _ _ => .inl)
    fun q x _ => hvalid x, ⟨fun x hx => ?_, fun m hm => ?_, h.pinned.distinct, hlt⟩⟩
  · exact setBuf_cases (R := fun a v => v.refcnt ≠ 0 ∨ v.valid = true → v.dev = ROOTDEV)
      (fun _ => h.counts.dev a (.inr hb)) fun x _ => h.counts.dev x
  · refine setBuf_cases (R := fun x v => v.refcnt.toNat = (∑ p, refs x (s.thread p)) +
      update s.pins a (s.pins a - 1) x) ?_ fun x hx => ?_
    · have h1 := h.counts.count a
      have h2 := toNat_pred (r := (s.cache.buf a).refcnt) (by omega)
      rw [update_self]
      dsimp only; omega
    · rw [update_of_ne hx]; exact h.counts.count x
  · have hx : update s.pins a (s.pins a - 1) x ≠ 0 := hx
    have hxa : x ≠ a := by rintro rfl; rw [update_self] at hx; omega
    rw [update_of_ne hxa] at hx
    obtain ⟨h1, h2, h3⟩ := h.pinned.pin x hx
    refine ⟨(update_of_ne hxa _ _).trans h1, (hvalid x).trans h2, ?_⟩
    show (unpinBuf s a).blockno x ∈ s.blocks.drop (s.home + 1)
    rw [hno, hdrop]
    rw [hn] at h3
    rcases mem_cons.mp h3 with he | h3
    · exact absurd (h.counts.unique h2 hb he) hxa
    · exact h3
  · have hm' : m ∈ rest := by rw [← hdrop]; exact hm
    obtain ⟨x, hx, hxm⟩ := h.pinned.logged m (by rw [hn]; exact mem_cons_of_mem _ hm')
    have hxa : x ≠ a := by rintro rfl; rw [hxm] at hdist; exact (nodup_cons.mp hdist).1 hm'
    exact ⟨x, by rw [show (unpinBuf s a).pins x = s.pins x from update_of_ne hxa _ _]; exact hx,
      (hno x).trans hxm⟩

theorem Base.clear (hhome : s.home = s.blocks.length) (hcache : s'.cache = s.cache)
    (hth : s'.thread = s.thread) (hpins : s'.pins = s.pins) (hblocks : s'.blocks = [])
    (hhome' : s'.home = 0) : Base s' := by
  have h0 : ∀ b, s.pins b = 0 := by
    intro b
    by_contra hb
    have h1 := (h.pinned.pin b hb).2.2
    rw [hhome, drop_length] at h1; cases h1
  refine ⟨h.counts.same hcache hth hpins, h.locks.same hcache hth, ⟨fun b hb => ?_, fun n hn => ?_, ?_, ?_⟩⟩
  · rw [hpins] at hb; exact absurd (h0 b) hb
  · rw [hblocks, drop_nil] at hn; cases hn
  · rw [hblocks]; exact nodup_nil
  · rw [hhome']; exact Nat.zero_le _

end

end

/-! ## Clean buffers -/

/-- A valid buffer that is neither pinned nor changed by its holder has the data of its block on the
disk. -/
def Clean (s : State P) : Prop :=
  ∀ b, (s.cache.buf b).valid = true → s.pins b = 0 → (∀ p, b ∉ (s.thread p).dirty) →
    s.data b = s.disk (s.blockno b)

omit [Fintype P] in
/-- A process becomes `t` and a buffer becomes `v`; the dirty buffers stay so. -/
theorem Clean.change (h : Clean s) {c : Bcache} (hbuf : c.buf = update s.cache.buf b v)
    (hkeep : ∀ a ∈ (s.thread p).dirty, a ∈ t.dirty)
    (hv : v.valid = true → s.pins b = 0 → b ∉ t.dirty → (∀ q, b ∉ (s.thread q).dirty) →
      v.data = s.disk v.blockno) : Clean ({ s with cache := c }.setThread p t) := by
  intro a ha hp hd
  have hdp : a ∉ t.dirty := by
    have hdp := hd p
    rwa [show ((State.setThread _ p t).thread p) = t from update_self _ _ _] at hdp
  have hd' : ∀ q, a ∉ (s.thread q).dirty := fun q hq => hd q
    (setThread_cases (R := fun q t => a ∈ (s.thread q).dirty → a ∈ t.dirty) (hkeep a) (fun _ _ => id) q hq)
  change (c.buf a).valid = true at ha
  show (c.buf a).data = s.disk (c.buf a).blockno
  rw [hbuf] at ha ⊢
  by_cases hab : a = b
  · subst hab; rw [update_self] at ha ⊢; exact hv ha hp hdp hd'
  · rw [update_of_ne hab] at ha ⊢; exact h a ha hp hd'

theorem Clean.getBuf (h : Clean s) (hb : Base s) (hs : getBuf s p n = some s') : Clean s' := by
  obtain ⟨-, b, v, rfl, -, -, hv⟩ := getBuf_cases hb.counts.rep hs
  refine h.change rfl (fun _ => id) fun hval hp _ hd => ?_
  rcases hv with rfl | ⟨-, -, hv, -⟩
  · exact h b hval hp hd
  · rw [hv] at hval; cases hval

theorem Clean.lockBuf (h : Clean s) (hs : lockBuf s p = some s') : Clean s' := by
  obtain ⟨b, v, -, -, rfl, -, -, hn, -, hdata⟩ := lockBuf_cases hs
  refine h.change rfl (fun _ => id) fun _ hp _ hd => ?_
  rw [hdata, hn]
  split_ifs with hv
  · exact h b hv hp hd
  · rfl

section
omit [Fintype P]

theorem Clean.storeBuf (h : Clean s) (hs : storeBuf s p b data = some s') : Clean s' := by
  obtain ⟨-, rfl⟩ := storeBuf_eq hs
  exact h.change rfl (fun _ => mem_cons_of_mem b) fun _ _ hd => absurd mem_cons_self hd

theorem mem_filter_dirty (hab : a ≠ b) (q : P) (ha : a ∈ (s.thread q).dirty) : a ∈ ((s.setThread p
      { s.thread p with dirty := (s.thread p).dirty.filter (· ≠ b) }).thread q).dirty := by
  refine setThread_cases (R := fun q t => a ∈ (s.thread q).dirty → a ∈ t.dirty) (fun ha => ?_)
    (fun _ _ => id) q ha
  exact mem_filter.mpr ⟨ha, by simpa using hab⟩

end

section
variable (h : Clean s)
include h

theorem Clean.writeBuf (hb : Base s) (hs : writeBuf s p b = some s') : Clean s' := by
  obtain ⟨⟨-, hheld⟩, rfl⟩ := writeBuf_eq hs
  intro a ha hp hd
  show s.data a = update s.disk (s.blockno b) (s.data b) (s.blockno a)
  by_cases hab : a = b
  · subst hab
    rw [update_self]
  · have hne : s.blockno a ≠ s.blockno b := fun he =>
      hab (hb.counts.unique ha (hb.locks.valid p b hheld) he)
    rw [update_of_ne hne]
    exact h a ha hp fun q => hd q ∘ mem_filter_dirty hab q

theorem Clean.logBuf (hb : Base s) (hhome : s.home = 0) (hs : logBuf s p b = some s') : Clean s' := by
  obtain ⟨⟨-, hheld⟩, l, -, -, hth, hdisk, -, -, -, hcase⟩ := logBuf_cases hs
  have hval := hb.locks.valid p b hheld
  intro a ha hp hd
  rw [hth] at hd
  rcases hcase with ⟨hn, hc, hpins⟩ | ⟨hn, hc, hpins⟩
  · have hab : a ≠ b := by
      rintro rfl
      obtain ⟨x, hx, hxn⟩ := hb.pinned.logged (s.blockno a) (by rw [hhome]; exact hn)
      obtain rfl : x = a := hb.counts.unique (hb.pinned.pin x hx).2.1 hval hxn
      rw [hpins] at hp; exact hx hp
    rw [hpins] at hp
    unfold State.data State.blockno
    rw [hc] at ha ⊢
    rw [hdisk]; exact h a ha hp fun q => hd q ∘ mem_filter_dirty hab q
  · rw [hpins] at hp
    have hab : a ≠ b := by rintro rfl; rw [update_self] at hp; omega
    rw [update_of_ne hab] at hp
    have hne : (bpin s.cache b).buf a = s.cache.buf a := setBuf_ne hab
    unfold State.data State.blockno
    rw [hc, hne] at ha ⊢
    rw [hdisk]; exact h a ha hp fun q => hd q ∘ mem_filter_dirty hab q

section
omit [Fintype P]

theorem Clean.unlockBuf (hd : b ∉ (s.thread p).dirty) (hs : unlockBuf s p b = some s') : Clean s' := by
  obtain ⟨-, rfl⟩ := unlockBuf_eq hs
  refine h.change (update_eq_self b _).symm (fun a ha => mem_filter.mpr ⟨ha, ?_⟩) fun hv hp _ => h b hv hp
  have hab : a ≠ b := by rintro rfl; exact hd ha
  simpa using hab

theorem Clean.dropBuf (hs : dropBuf s p = some s') : Clean s' := by
  obtain ⟨b, -, rfl⟩ := dropBuf_eq hs
  exact h.change (brelse_buf _ _) (fun _ => id) fun hv hp _ => h b hv hp

end

omit [DecidableEq P] [Fintype P] in
theorem Clean.unpinBuf (hw : s.data b = s.disk (s.blockno b)) : Clean (unpinBuf s b) := by
  intro a ha hp hd
  have hbuf : ((bunpin s.cache b).buf a).valid = (s.cache.buf a).valid ∧
      ((bunpin s.cache b).buf a).data = s.data a ∧
      ((bunpin s.cache b).buf a).blockno = s.blockno a := by
    refine setBuf_cases (R := fun a v => v.valid = (s.cache.buf a).valid ∧ v.data = s.data a ∧
      v.blockno = s.blockno a) ?_ (fun _ _ => ⟨rfl, rfl, rfl⟩) a
    exact ⟨rfl, rfl, rfl⟩
  show ((bunpin s.cache b).buf a).data = s.disk ((bunpin s.cache b).buf a).blockno
  rw [hbuf.2.1, hbuf.2.2]
  by_cases hab : a = b
  · rw [hab]; exact hw
  · have hp : update s.pins b (s.pins b - 1) a = 0 := hp
    rw [update_of_ne hab] at hp; exact h a (hbuf.1.symm.trans ha) hp hd

end

end Xv6.Fs.Pins
