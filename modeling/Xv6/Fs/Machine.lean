import Xv6.Fs.Buffers
import Xv6.Fs.GroupCommit

/-!
# Processes, buffers and the log together

Any number of processes use the buffer cache of `Xv6.Fs.Buffers` and the log of `Xv6.Fs.GroupCommit`.  A step is
the text between two points where other processes can get in.  A process in `commit` follows the code of
`write_log`, `write_head` and `install_trans`, one step for each call, and reads `log.lh` anew in every round;
all others read, change, log and release buffers as they like.

No step reads `dirty`, the buffers changed and neither logged nor written since; `pins`, the calls of `bpin`
less those of `bunpin`; `home`, the blocks that the commit has unpinned; and `latest`, what was last put into a
block.
-/

namespace Xv6.Fs.Machine

open Lib.Runs Param Fs.Buffers Function Option
open Fs.LogOps (Block LogHeader headBlock)
open Fs.GroupCommit (LogState Phase)

/-! ## The state -/

theorem any_eq_iff_mem {α : Type} [DecidableEq α] {a : α} {l : List α} :
    (l.any fun x => decide (x = a)) = true ↔ a ∈ l := by
  simp

instance decMemBuf (b : BufId) (l : List BufId) : Decidable (b ∈ l) :=
  decidable_of_iff _ any_eq_iff_mem

instance decMemBlock (n : Word) (l : List Word) : Decidable (n ∈ l) :=
  decidable_of_iff _ any_eq_iff_mem

/-- Whether a process is inside `bread`, waiting for the lock of the buffer that `bget` has found, or
inside `brelse`, having given the lock back. -/
inductive Busy
  | free
  | want (b : BufId)
  | leave (b : BufId)
  deriving DecidableEq

/-- What a process has to do with buffers: the ones it has locked are `held`. -/
structure Thread where
  busy : Busy
  held : List BufId
  dirty : List BufId

/-- The next call in `commit`, with the local variables of `write_log`, `write_head` (`last` for the
second call of it) and `install_trans`. -/
inductive Pc
  | empty
  | logTo (tail : ℕ)
  | logFrom (tail : ℕ) (dst : BufId)
  | logCopy (tail : ℕ) (dst src : BufId)
  | logWrite (tail : ℕ) (dst src : BufId)
  | logRelFrom (tail : ℕ) (dst src : BufId)
  | logRelTo (tail : ℕ) (dst : BufId)
  | headBuf (last : Bool)
  | headFill (last : Bool) (buf : BufId)
  | headWrite (last : Bool) (buf : BufId)
  | headRel (last : Bool) (buf : BufId)
  | homeLog (tail : ℕ)
  | homeDst (tail : ℕ) (lbuf : BufId)
  | homeCopy (tail : ℕ) (lbuf dbuf : BufId)
  | homeWrite (tail : ℕ) (lbuf dbuf : BufId)
  | homeUnpin (tail : ℕ) (lbuf dbuf : BufId)
  | homeRelLog (tail : ℕ) (lbuf dbuf : BufId)
  | homeRelDst (tail : ℕ) (dbuf : BufId)
  | clear
  | done

/-- The cache, the disk, the log with the phases of the processes, what they do with buffers, and where
they are in `commit`. -/
structure State (P : Type) where
  cache : Bcache
  disk : Word → Block
  core : GroupCommit.State P
  thread : P → Thread
  pc : P → Pc
  pins : BufId → ℕ
  home : ℕ
  latest : Word → Block

variable {P : Type} [DecidableEq P]

namespace State

def blocks (s : State P) : List Word := s.core.log.blocks

def blockno (s : State P) (b : BufId) : Word := (s.cache.buf b).blockno

def data (s : State P) (b : BufId) : Block := (s.cache.buf b).data

def setThread (s : State P) (p : P) (t : Thread) : State P :=
  { s with thread := update s.thread p t }

def setPc (s : State P) (p : P) (pc : Pc) : State P := { s with pc := update s.pc p pc }

end State

/-! ## Calls that use buffers -/

/-- A process that is not inside `bread` or `brelse` has locked `b`. -/
def Thread.has (t : Thread) (b : BufId) : Prop := t.busy = .free ∧ b ∈ t.held

instance (t : Thread) (b : BufId) : Decidable (t.has b) :=
  inferInstanceAs (Decidable (t.busy = .free ∧ b ∈ t.held))

/-- `bget` up to `acquiresleep`. -/
def getBuf (s : State P) (p : P) (blockno : Word) : Option (State P) :=
  if (s.thread p).busy = .free then
    (bget s.cache ROOTDEV blockno).map fun r =>
      { s with cache := r.2 }.setThread p { s.thread p with busy := .want r.1 }
  else none

/-- `acquiresleep` in `bget`, and the rest of `bread`. -/
def lockBuf [Fintype P] (s : State P) (p : P) : Option (State P) :=
  match (s.thread p).busy with
  | .want b =>
    if ∀ q, b ∉ (s.thread q).held then
      let c := if (s.cache.buf b).valid then s.cache else fill s.cache b (s.disk (s.blockno b))
      some ({ s with cache := c }.setThread p
        { s.thread p with busy := .free, held := b :: (s.thread p).held })
    else none
  | _ => none

def storeBuf (s : State P) (p : P) (b : BufId) (data : Block) : Option (State P) :=
  if (s.thread p).has b then
    some ({ s with cache := store s.cache b data }.setThread p
      { s.thread p with dirty := b :: (s.thread p).dirty })
  else none

def modifyBuf (s : State P) (p : P) (b : BufId) (data : Block) : Option (State P) :=
  (storeBuf s p b data).map fun s' =>
    { s' with latest := update s.latest (s.blockno b) data }

def addLogged (phase : P → Phase) (p : P) (n : Word) : P → Phase :=
  match phase p with
  | .inOp U => update phase p (.inOp (insert n U))
  | _ => phase

/-- `log_write`; `none` if it panics. -/
def logBuf (s : State P) (p : P) (b : BufId) : Option (State P) :=
  if (s.thread p).has b then
    match GroupCommit.logWrite s.core.log (s.blockno b) with
    | .ok l =>
      let s' := { s with core := ⟨l, addLogged s.core.phase p (s.blockno b)⟩ }.setThread p
        { s.thread p with dirty := (s.thread p).dirty.filter (· ≠ b) }
      some (if s.blockno b ∈ s.blocks then s'
        else { s' with cache := bpin s.cache b, pins := update s.pins b (s.pins b + 1) })
    | .error _ => none
  else none

def writeBuf (s : State P) (p : P) (b : BufId) : Option (State P) :=
  if (s.thread p).has b then
    some ({ s with disk := update s.disk (s.blockno b) (s.data b) }.setThread p
      { s.thread p with dirty := (s.thread p).dirty.filter (· ≠ b) })
  else none

def unpinBuf (s : State P) (b : BufId) : State P :=
  { s with
    cache := bunpin s.cache b
    pins := update s.pins b (s.pins b - 1)
    home := s.home + 1 }

def unlockBuf (s : State P) (p : P) (b : BufId) : Option (State P) :=
  if (s.thread p).has b then
    some (s.setThread p ⟨.leave b, (s.thread p).held.erase b, (s.thread p).dirty.filter (· ≠ b)⟩)
  else none

def dropBuf (s : State P) (p : P) : Option (State P) :=
  match (s.thread p).busy with
  | .leave b =>
    some ({ s with cache := brelse s.cache b }.setThread p { s.thread p with busy := .free })
  | _ => none

variable {start : Word} {s s' : State P} {p : P} {b : BufId} {data : Block}

theorem getBuf_cases (hrep : ∃ l, Rep s.cache l) {n : Word} (hs : getBuf s p n = some s') :
    (s.thread p).busy = .free ∧ ∃ b v, s' = { s with cache := s.cache.setBuf b v }.setThread p
        { s.thread p with busy := .want b } ∧ v.dev = ROOTDEV ∧ v.blockno = n ∧
      ((v = { s.cache.buf b with refcnt := (s.cache.buf b).refcnt + 1 }) ∨
       ((∀ a, ¬ ((s.cache.buf a).dev = ROOTDEV ∧ s.blockno a = n)) ∧
        (s.cache.buf b).refcnt = 0 ∧ v.valid = false ∧ v.refcnt = 1)) := by
  unfold getBuf at hs
  split_ifs at hs with hf
  obtain ⟨⟨b, c⟩, hb, rfl⟩ := map_eq_some_iff.mp hs
  refine ⟨hf, b, ?_⟩
  obtain ⟨l, hl⟩ := hrep
  rcases bget_cases hl hb with ⟨hd, hn, rfl⟩ | ⟨hnew, h0, rfl⟩
  · exact ⟨_, rfl, hd, hn, .inl rfl⟩
  · exact ⟨_, rfl, rfl, rfl, .inr ⟨hnew, h0, rfl, rfl⟩⟩

theorem lockBuf_cases [Fintype P] (hs : lockBuf s p = some s') :
    ∃ b v, (s.thread p).busy = .want b ∧ (∀ q, b ∉ (s.thread q).held) ∧
      s' = { s with cache := s.cache.setBuf b v }.setThread p
        { s.thread p with busy := .free, held := b :: (s.thread p).held } ∧
      v.valid = true ∧ v.dev = (s.cache.buf b).dev ∧ v.blockno = s.blockno b ∧
      v.refcnt = (s.cache.buf b).refcnt ∧
      v.data = if (s.cache.buf b).valid then s.data b else s.disk (s.blockno b) := by
  unfold lockBuf at hs
  split at hs
  · next b hb =>
    split_ifs at hs with hq hv
    · cases hs
      refine ⟨b, s.cache.buf b, hb, hq, ?_, hv, rfl, rfl, rfl, ?_⟩
      · have hc : s.cache.setBuf b (s.cache.buf b) = s.cache := by
          unfold Bcache.setBuf
          rw [update_eq_self]
        rw [hc]
      · rw [if_pos hv]; rfl
    · cases hs
      refine ⟨b, { s.cache.buf b with valid := true, data := s.disk (s.blockno b) }, hb, hq, rfl, rfl,
        rfl, rfl, rfl, ?_⟩
      rw [if_neg hv]
  · cases hs

theorem storeBuf_eq (hs : storeBuf s p b data = some s') :
    (s.thread p).has b ∧ s' = { s with cache := store s.cache b data }.setThread p
      { s.thread p with dirty := b :: (s.thread p).dirty } := by
  unfold storeBuf at hs
  split_ifs at hs with hb; exact ⟨hb, (Option.some.inj hs).symm⟩

theorem modifyBuf_eq (hs : modifyBuf s p b data = some s') :
    ∃ u, storeBuf s p b data = some u ∧ s' = { u with latest := update s.latest (s.blockno b) data } := by
  obtain ⟨u, hu, rfl⟩ := map_eq_some_iff.mp hs; exact ⟨u, hu, rfl⟩

theorem logBuf_cases (hs : logBuf s p b = some s') :
    (s.thread p).has b ∧ ∃ l, GroupCommit.logWrite s.core.log (s.blockno b) = .ok l ∧
      s'.core = ⟨l, addLogged s.core.phase p (s.blockno b)⟩ ∧
      s'.thread = (s.setThread p { s.thread p with dirty := (s.thread p).dirty.filter (· ≠ b) }).thread ∧
      s'.disk = s.disk ∧ s'.pc = s.pc ∧ s'.home = s.home ∧ s'.latest = s.latest ∧
      ((s.blockno b ∈ s.blocks ∧ s'.cache = s.cache ∧ s'.pins = s.pins) ∨
       (s.blockno b ∉ s.blocks ∧ s'.cache = bpin s.cache b ∧ s'.pins = update s.pins b (s.pins b + 1))) := by
  unfold logBuf at hs
  obtain ⟨hb, hs⟩ := ite_none_right_eq_some.mp hs
  split at hs
  · next l hl =>
    cases hs
    refine ⟨hb, l, hl, ?_⟩
    split_ifs with hn
    · exact ⟨rfl, rfl, rfl, rfl, rfl, rfl, .inl ⟨hn, rfl, rfl⟩⟩
    · exact ⟨rfl, rfl, rfl, rfl, rfl, rfl, .inr ⟨hn, rfl, rfl⟩⟩
  · cases hs

theorem logBuf_blocks (hs : logBuf s p b = some s') :
    s'.blocks = if s.blockno b ∈ s.blocks then s.blocks else s.blocks ++ [s.blockno b] := by
  obtain ⟨-, l, hl, hcore, -⟩ := logBuf_cases hs
  unfold State.blocks
  rw [hcore, GroupCommit.logWrite_ok hl]
  split_ifs <;> rfl

theorem writeBuf_eq (hs : writeBuf s p b = some s') :
    (s.thread p).has b ∧ s' = { s with disk := update s.disk (s.blockno b) (s.data b) }.setThread
      p { s.thread p with dirty := (s.thread p).dirty.filter (· ≠ b) } := by
  unfold writeBuf at hs
  split_ifs at hs with hb; exact ⟨hb, (Option.some.inj hs).symm⟩

theorem unlockBuf_eq (hs : unlockBuf s p b = some s') : (s.thread p).has b ∧ s' = s.setThread p
      ⟨.leave b, (s.thread p).held.erase b, (s.thread p).dirty.filter (· ≠ b)⟩ := by
  unfold unlockBuf at hs
  split_ifs at hs with hb; exact ⟨hb, (Option.some.inj hs).symm⟩

theorem dropBuf_eq (hs : dropBuf s p = some s') :
    ∃ b, (s.thread p).busy = .leave b ∧ s' = { s with cache := brelse s.cache b }.setThread p
      { s.thread p with busy := .free } := by
  unfold dropBuf at hs
  split at hs
  · next b hb => exact ⟨b, hb, (Option.some.inj hs).symm⟩
  · cases hs

/-! ## Commit -/

/-- A call in `commit`: `copy` is the `memmove` of `write_log` and `restore` that of
`install_trans`; `head` is what `write_head` stores into its buffer. -/
inductive Instr
  | bread (blockno : Word)
  | copy (dst src : BufId)
  | restore (dst src : BufId)
  | head (buf : BufId)
  | bwrite (b : BufId)
  | bunpin (b : BufId)
  | brelse (b : BufId)

def logBlock (start : Word) (tail : ℕ) : Word := start + BitVec.ofNat 32 tail + 1

def homeBlock (l : LogState) (tail : ℕ) : Word := l.blocks.getD tail 0

theorem homeBlock_eq {l : LogState} {tail : ℕ} (h : tail < l.blocks.length) :
    homeBlock l tail = l.blocks[tail] := by
  unfold homeBlock
  rw [List.getD_eq_getElem?_getD, List.getElem?_eq_getElem h]; rfl

def header (l : LogState) : LogHeader := ⟨BitVec.ofNat 32 l.blocks.length, homeBlock l⟩

/-- The call at a point of `commit`; none where it is not a call of this kind. -/
def Pc.instr (start : Word) (l : LogState) : Pc → Option Instr
  | .logTo tail => some (.bread (logBlock start tail))
  | .logFrom tail _ => some (.bread (homeBlock l tail))
  | .logCopy _ dst src => some (.copy dst src)
  | .logWrite _ dst _ => some (.bwrite dst)
  | .logRelFrom _ _ src => some (.brelse src)
  | .logRelTo _ dst => some (.brelse dst)
  | .headBuf _ => some (.bread start)
  | .headFill _ buf => some (.head buf)
  | .headWrite _ buf => some (.bwrite buf)
  | .headRel _ buf => some (.brelse buf)
  | .homeLog tail => some (.bread (logBlock start tail))
  | .homeDst tail _ => some (.bread (homeBlock l tail))
  | .homeCopy _ lbuf dbuf => some (.restore dbuf lbuf)
  | .homeWrite _ _ dbuf => some (.bwrite dbuf)
  | .homeUnpin _ _ dbuf => some (.bunpin dbuf)
  | .homeRelLog _ lbuf _ => some (.brelse lbuf)
  | .homeRelDst _ dbuf => some (.brelse dbuf)
  | .empty | .clear | .done => none

def logLoop (l : LogState) (tail : ℕ) : Pc :=
  if tail < l.blocks.length then .logTo tail else .headBuf false

def homeLoop (l : LogState) (tail : ℕ) : Pc :=
  if tail < l.blocks.length then .homeLog tail else .clear

/-- The point after a call; `b` is the buffer that `bread` has returned. -/
def Pc.next (l : LogState) (b : BufId) : Pc → Pc
  | .logTo tail => .logFrom tail b
  | .logFrom tail dst => .logCopy tail dst b
  | .logCopy tail dst src => .logWrite tail dst src
  | .logWrite tail dst src => .logRelFrom tail dst src
  | .logRelFrom tail dst _ => .logRelTo tail dst
  | .logRelTo tail _ => logLoop l (tail + 1)
  | .headBuf last => .headFill last b
  | .headFill last buf => .headWrite last buf
  | .headWrite last buf => .headRel last buf
  | .headRel last _ => if last then .done else homeLoop l 0
  | .homeLog tail => .homeDst tail b
  | .homeDst tail lbuf => .homeCopy tail lbuf b
  | .homeCopy tail lbuf dbuf => .homeWrite tail lbuf dbuf
  | .homeWrite tail lbuf dbuf => .homeUnpin tail lbuf dbuf
  | .homeUnpin tail lbuf dbuf => .homeRelLog tail lbuf dbuf
  | .homeRelLog tail _ dbuf => .homeRelDst tail dbuf
  | .homeRelDst tail _ => homeLoop l (tail + 1)
  | .clear => .headBuf true
  | .empty | .done => .done

def commitStep [Fintype P] (start : Word) (s : State P) (p : P) : Option (State P) :=
  let go (b : BufId) (s' : State P) : State P := s'.setPc p ((s.pc p).next s.core.log b)
  match (s.pc p).instr start s.core.log with
  | some (.bread n) =>
    match (s.thread p).busy with
    | .want b => (lockBuf s p).map (go b)
    | _ => getBuf s p n
  | some (.copy dst src) => (modifyBuf s p dst (s.data src)).map (go dst)
  | some (.restore dst src) => (storeBuf s p dst (s.data src)).map (go dst)
  | some (.head b) => (modifyBuf s p b (headBlock (header s.core.log) (s.data b))).map (go b)
  | some (.bwrite b) => (writeBuf s p b).map (go b)
  | some (.bunpin b) => some (go b (unpinBuf s b))
  | some (.brelse b) =>
    match (s.thread p).busy with
    | .leave b => (dropBuf s p).map (go b)
    | _ => unlockBuf s p b
  | none =>
    -- `log.lh.n = 0`, or nothing to do
    match s.pc p with
    | .done => none
    | pc => (GroupCommit.exec LOGSIZE s.core (.commit p)).map fun c =>
        { s with core := c, home := 0, pc := update s.pc p (pc.next s.core.log 0) }

/-- What a step in `commit` is, by the call at the point the process has reached. -/
inductive Move [Fintype P] (start : Word) (s : State P) (p : P) : State P → Prop
  | get {n : Word} {s' : State P} (hi : (s.pc p).instr start s.core.log = some (.bread n))
      (hs : getBuf s p n = some s') : Move start s p s'
  | lock {n : Word} {b : BufId} {u : State P} (hi : (s.pc p).instr start s.core.log = some (.bread n))
      (hb : (s.thread p).busy = .want b) (hu : lockBuf s p = some u) :
      Move start s p (u.setPc p ((s.pc p).next s.core.log b))
  | copy {dst src : BufId} {u : State P} (hi : (s.pc p).instr start s.core.log = some (.copy dst src))
      (hu : modifyBuf s p dst (s.data src) = some u) :
      Move start s p (u.setPc p ((s.pc p).next s.core.log dst))
  | restore {dst src : BufId} {u : State P} (hi : (s.pc p).instr start s.core.log = some (.restore dst src))
      (hu : storeBuf s p dst (s.data src) = some u) :
      Move start s p (u.setPc p ((s.pc p).next s.core.log dst))
  | head {b : BufId} {u : State P} (hi : (s.pc p).instr start s.core.log = some (.head b))
      (hu : modifyBuf s p b (headBlock (header s.core.log) (s.data b)) = some u) :
      Move start s p (u.setPc p ((s.pc p).next s.core.log b))
  | write {b : BufId} {u : State P} (hi : (s.pc p).instr start s.core.log = some (.bwrite b))
      (hu : writeBuf s p b = some u) : Move start s p (u.setPc p ((s.pc p).next s.core.log b))
  | unpin {b : BufId} (hi : (s.pc p).instr start s.core.log = some (.bunpin b)) :
      Move start s p ((unpinBuf s b).setPc p ((s.pc p).next s.core.log b))
  | unlock {b : BufId} {s' : State P} (hi : (s.pc p).instr start s.core.log = some (.brelse b))
      (hs : unlockBuf s p b = some s') : Move start s p s'
  | drop {a b : BufId} {u : State P} (hi : (s.pc p).instr start s.core.log = some (.brelse a))
      (hb : (s.thread p).busy = .leave b) (hu : dropBuf s p = some u) :
      Move start s p (u.setPc p ((s.pc p).next s.core.log b))
  | clear {c : GroupCommit.State P} (hi : (s.pc p).instr start s.core.log = none)
      (hpc : s.pc p ≠ .done) (hs : GroupCommit.exec LOGSIZE s.core (.commit p) = some c) :
      Move start s p { s with
        core := c
        home := 0
        pc := update s.pc p ((s.pc p).next s.core.log 0) }

theorem move_of_commitStep [Fintype P] (hs : commitStep start s p = some s') : Move start s p s' := by
  unfold commitStep at hs
  split at hs
  · next n hi =>
    split at hs
    · next b hb =>
      obtain ⟨u, hu, rfl⟩ := map_eq_some_iff.mp hs; exact .lock hi hb hu
    · exact .get hi hs
  · next dst src hi =>
    obtain ⟨u, hu, rfl⟩ := map_eq_some_iff.mp hs; exact .copy hi hu
  · next dst src hi =>
    obtain ⟨u, hu, rfl⟩ := map_eq_some_iff.mp hs; exact .restore hi hu
  · next b hi =>
    obtain ⟨u, hu, rfl⟩ := map_eq_some_iff.mp hs; exact .head hi hu
  · next b hi =>
    obtain ⟨u, hu, rfl⟩ := map_eq_some_iff.mp hs; exact .write hi hu
  · next b hi =>
    cases hs; exact .unpin hi
  · next b hi =>
    split at hs
    · next a ha =>
      obtain ⟨u, hu, rfl⟩ := map_eq_some_iff.mp hs; exact .drop hi ha hu
    · exact .unlock hi hs
  · next hi =>
    split at hs
    · cases hs
    · next hd =>
      obtain ⟨c, hc, rfl⟩ := map_eq_some_iff.mp hs; exact .clear hi hd hc

/-! ## The processes -/

inductive Ev (P : Type)
  | beginOp (p : P)
  | endOp (p : P)
  | bget (p : P) (blockno : Word)
  | lock (p : P)
  | modify (p : P) (b : BufId) (data : Block)
  | logWrite (p : P) (b : BufId)
  | unlock (p : P) (b : BufId)
  | drop (p : P)
  | commit (p : P)
  | endCommit (p : P)

/-- The process is not in `commit`. -/
def Free (s : State P) (p : P) : Prop := (s.core.phase p).com = 0

instance (s : State P) (p : P) : Decidable (Free s p) :=
  inferInstanceAs (Decidable ((s.core.phase p).com = 0))

def Thread.none (t : Thread) : Prop := t.busy = .free ∧ t.held = []

instance (t : Thread) : Decidable t.none :=
  inferInstanceAs (Decidable (t.busy = .free ∧ t.held = []))

/-- A step; `none` if it cannot be taken or panics. -/
def exec [Fintype P] (start : Word) (s : State P) : Ev P → Option (State P)
  | .beginOp p =>
    if (s.thread p).none then
      (GroupCommit.exec LOGSIZE s.core (.beginOp p)).map fun c => { s with core := c }
    else none
  | .endOp p =>
    if (s.thread p).none then
      (GroupCommit.exec LOGSIZE s.core (.endOp p)).map fun c =>
        { s with core := c }.setPc p (if s.blocks.length = 0 then .empty else .logTo 0)
    else none
  | .bget p n => if Free s p then getBuf s p n else none
  | .lock p => if Free s p then lockBuf s p else none
  | .modify p b data => if Free s p then modifyBuf s p b data else none
  | .logWrite p b => if Free s p then logBuf s p b else none
  | .unlock p b => if Free s p then unlockBuf s p b else none
  | .drop p => if Free s p then dropBuf s p else none
  | .commit p => if Free s p then none else commitStep start s p
  | .endCommit p =>
    match s.pc p with
    | .done => (GroupCommit.exec LOGSIZE s.core (.endCommit p)).map fun c => { s with core := c }
    | _ => none

inductive Step [Fintype P] (start : Word) (s : State P) : Ev P → State P → Prop
  | beginOp {p : P} {c : GroupCommit.State P} (hc : GroupCommit.exec LOGSIZE s.core (.beginOp p) = some c) :
      Step start s (.beginOp p) { s with core := c }
  | endOp {p : P} {c : GroupCommit.State P} (hn : (s.thread p).none)
      (hc : GroupCommit.exec LOGSIZE s.core (.endOp p) = some c) :
      Step start s (.endOp p)
        ({ s with core := c }.setPc p (if s.blocks.length = 0 then .empty else .logTo 0))
  | bget {p : P} {n : Word} {s' : State P} (hf : Free s p) (hs : getBuf s p n = some s') :
      Step start s (.bget p n) s'
  | lock {p : P} {s' : State P} (hf : Free s p) (hs : lockBuf s p = some s') : Step start s (.lock p) s'
  | modify {p : P} {b : BufId} {data : Block} {s' : State P} (hf : Free s p)
      (hs : modifyBuf s p b data = some s') : Step start s (.modify p b data) s'
  | logWrite {p : P} {b : BufId} {s' : State P} (hf : Free s p) (hs : logBuf s p b = some s') :
      Step start s (.logWrite p b) s'
  | unlock {p : P} {b : BufId} {s' : State P} (hf : Free s p) (hs : unlockBuf s p b = some s') :
      Step start s (.unlock p b) s'
  | drop {p : P} {s' : State P} (hf : Free s p) (hs : dropBuf s p = some s') : Step start s (.drop p) s'
  | commit {p : P} {s' : State P} (hp : (s.core.phase p).com = 1) (hm : Move start s p s') :
      Step start s (.commit p) s'
  | endCommit {p : P} {c : GroupCommit.State P} (hpc : s.pc p = .done)
      (hc : GroupCommit.exec LOGSIZE s.core (.endCommit p) = some c) :
      Step start s (.endCommit p) { s with core := c }

omit [DecidableEq P] in
theorem free_or_com (s : State P) (p : P) : Free s p ∨ (s.core.phase p).com = 1 := by
  unfold Free
  cases s.core.phase p with
  | idle | inOp U => exact .inl rfl
  | commit | committed => exact .inr rfl

theorem step_of_exec [Fintype P] {e : Ev P} (hs : exec start s e = some s') : Step start s e s' := by
  cases e <;> simp only [exec] at hs
  case beginOp p =>
    split_ifs at hs
    obtain ⟨c, hc, rfl⟩ := map_eq_some_iff.mp hs; exact .beginOp hc
  case endOp p =>
    obtain ⟨hn, hs⟩ := ite_none_right_eq_some.mp hs
    obtain ⟨c, hc, rfl⟩ := map_eq_some_iff.mp hs; exact .endOp hn hc
  case bget p n =>
    split_ifs at hs with hf; exact .bget hf hs
  case lock p =>
    split_ifs at hs with hf; exact .lock hf hs
  case modify p b data =>
    split_ifs at hs with hf; exact .modify hf hs
  case logWrite p b =>
    split_ifs at hs with hf; exact .logWrite hf hs
  case unlock p b =>
    split_ifs at hs with hf; exact .unlock hf hs
  case drop p =>
    split_ifs at hs with hf; exact .drop hf hs
  case commit p =>
    split_ifs at hs with hf
    exact .commit ((free_or_com s p).resolve_left hf) (move_of_commitStep hs)
  case endCommit p =>
    split at hs
    · next hpc =>
      obtain ⟨c, hc, rfl⟩ := map_eq_some_iff.mp hs; exact .endCommit hpc hc
    · cases hs

/-- After `binit`, with an empty log and any disk. -/
def boot (P : Type) (disk : Word → Block) : State P where
  cache := binit
  disk := disk
  core := GroupCommit.start P
  thread _ := ⟨.free, [], []⟩
  pc _ := .done
  pins _ := 0
  home := 0
  latest := disk

def sys (P : Type) [DecidableEq P] [Fintype P] (start : Word) (disk : Word → Block) :
    Sys (State P) (Ev P) where
  init s := s = boot P disk
  step s e s' := exec start s e = some s'

end Xv6.Fs.Machine
