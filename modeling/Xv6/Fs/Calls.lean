import Xv6.Fs.Control
import Xv6.Fs.Unlogged

/-!
# Calls of the file system

The processes of `Xv6.Fs.Machine` run the functions of `Xv6.Fs.Files`, with any arguments, in any order
and interleaving, between `begin_op` and `end_op` or outside.  A process has the rest of the program that
it is in; a step gives the next command, and `bread` and `brelse` take two.

While no `writei` stops half-way in the copy of a round, every step meets `Control.Tidy`, so a valid
buffer that nobody refers to has the data of its block on the disk.
-/

namespace Xv6.Fs.Calls

open Lib.Runs Lib.Programs Param Vm.Copy List Option Function
open Fs.Layout Fs.Files Fs.Unlogged Fs.Pins Fs.Control
open Fs.Buffers (BufId setBuf_cases setBuf_ne)
open Fs.LogOps (Block)
open Fs.Machine (Free Move Step getBuf lockBuf getBuf_cases lockBuf_cases storeBuf_eq modifyBuf_eq unlockBuf_eq dropBuf_eq logBuf_cases step_of_exec)
open GroupCommit (exec_cases)

/-! ## What a step leaves alone -/

section
variable {P : Type} [DecidableEq P] [Fintype P] {start : Word} {s s' : Machine.State P} {p : P}

def actor : Machine.Ev P → P
  | .beginOp p | .endOp p | .bget p _ | .lock p | .modify p _ _ | .logWrite p _ | .unlock p _
  | .drop p | .commit p | .endCommit p => p

structure Apart (p : P) (s s' : Machine.State P) : Prop where
  thread : ∀ q, q ≠ p → s'.thread q = s.thread q
  com : ∀ q, q ≠ p → (s'.core.phase q).com = (s.core.phase q).com
  keep : Keep s s'

omit [DecidableEq P] [Fintype P] in
theorem keep_of_cache (h : s'.cache = s.cache) : Keep s s' := by
  intro b n _ hb
  unfold Holds Machine.State.blockno at hb ⊢
  rw [h]; exact hb

omit [Fintype P] in
theorem apart_thread {t : Machine.Thread} (hth : s'.thread = (s.setThread p t).thread)
    (hcore : s'.core = s.core) (hk : Keep s s') : Apart p s s' ∧ s'.core = s.core := by
  refine ⟨⟨fun q hq => ?_, fun q _ => by rw [hcore], hk⟩, hcore⟩
  rw [hth]; exact thread_ne hq

theorem apart_getBuf (hb : Base s) {n : Word} (hs : getBuf s p n = some s') : Apart p s s' ∧ s'.core = s.core := by
  have hk := keep_getBuf hb hs
  obtain ⟨-, _, _, rfl, -⟩ := getBuf_cases hb.counts.rep hs
  exact apart_thread rfl rfl hk

theorem apart_lockBuf (hs : lockBuf s p = some s') : Apart p s s' ∧ s'.core = s.core := by
  have hk := keep_lockBuf hs
  obtain ⟨_, _, -, -, rfl, -⟩ := lockBuf_cases hs; exact apart_thread rfl rfl hk

variable {b : BufId} {data : Block}

section
omit [Fintype P]

theorem apart_storeBuf (hs : Machine.storeBuf s p b data = some s') : Apart p s s' ∧ s'.core = s.core := by
  have hk := keep_storeBuf hs
  obtain ⟨-, rfl⟩ := storeBuf_eq hs; exact apart_thread rfl rfl hk

theorem apart_modifyBuf (hs : Machine.modifyBuf s p b data = some s') : Apart p s s' ∧ s'.core = s.core := by
  obtain ⟨u, hu, rfl⟩ := modifyBuf_eq hs
  obtain ⟨h, hcore⟩ := apart_storeBuf hu
  exact ⟨⟨h.thread, h.com, h.keep⟩, hcore⟩

theorem apart_unlockBuf (hs : Machine.unlockBuf s p b = some s') : Apart p s s' ∧ s'.core = s.core := by
  obtain ⟨-, rfl⟩ := unlockBuf_eq hs
  exact apart_thread rfl rfl (keep_of_cache rfl)

theorem apart_dropBuf (hs : Machine.dropBuf s p = some s') : Apart p s s' ∧ s'.core = s.core := by
  have hk := keep_dropBuf hs
  obtain ⟨_, -, rfl⟩ := dropBuf_eq hs; exact apart_thread rfl rfl hk

theorem apart_logBuf (hs : Machine.logBuf s p b = some s') : Apart p s s' := by
  obtain ⟨-, l, -, hcore, hth, -, -, -, -, hc⟩ := logBuf_cases hs
  refine ⟨fun q hq => ?_, fun q _ => ?_, ?_⟩
  · rw [hth]; exact thread_ne hq
  · rw [hcore]; exact com_addLogged _ _ _ q
  · rcases hc with ⟨-, hc, -⟩ | ⟨-, hc, -⟩
    · exact keep_of_cache hc
    · exact keep_setBuf (congrArg Buffers.Bcache.buf hc) fun _ => ⟨rfl, rfl⟩

theorem apart_core {x : GroupCommit.Phase} (hc : s'.core.phase = update s.core.phase p x)
    (hth : s'.thread = s.thread) (hcache : s'.cache = s.cache) : Apart p s s' := by
  refine ⟨fun q _ => by rw [hth], fun q hq => ?_, keep_of_cache hcache⟩
  rw [hc, update_of_ne hq]

theorem apart_setPc {u : Machine.State P} (h : Apart p s u ∧ u.core = s.core) (pc : Machine.Pc) :
    Apart p s (u.setPc p pc) ∧ ((u.setPc p pc).core.phase p).com = (s.core.phase p).com := by
  refine ⟨⟨h.1.thread, h.1.com, h.1.keep⟩, ?_⟩
  show (u.core.phase p).com = _
  rw [h.2]

end

theorem apart_move (hb : Base s) (hm : Move start s p s') :
    Apart p s s' ∧ (s'.core.phase p).com = (s.core.phase p).com := by
  cases hm with
  | get hi hs =>
    obtain ⟨h, hcore⟩ := apart_getBuf hb hs; exact ⟨h, by rw [hcore]⟩
  | lock hi hb hu => exact apart_setPc (apart_lockBuf hu) _
  | copy hi hu | head hi hu => exact apart_setPc (apart_modifyBuf hu) _
  | restore hi hu => exact apart_setPc (apart_storeBuf hu) _
  | write hi hu =>
    obtain ⟨-, rfl⟩ := Machine.writeBuf_eq hu
    exact ⟨⟨fun q hq => thread_ne hq, fun _ _ => rfl, keep_of_cache rfl⟩, rfl⟩
  | unpin hi => exact ⟨⟨fun _ _ => rfl, fun _ _ => rfl, keep_setBuf rfl fun _ => ⟨rfl, rfl⟩⟩, rfl⟩
  | unlock hi hs =>
    obtain ⟨h, hcore⟩ := apart_unlockBuf hs; exact ⟨h, by rw [hcore]⟩
  | drop hi hb hu => exact apart_setPc (apart_dropBuf hu) _
  | clear hi hpc hs =>
    obtain _ | _ | _ | _ | ⟨hp⟩ | _ := exec_cases hs
    refine ⟨apart_core rfl rfl rfl, ?_⟩
    show (update s.core.phase p .committed p).com = _
    rw [update_self, hp]; rfl

theorem apart_step (hb : Base s) {e : Machine.Ev P} (hs : Step start s e s') : Apart (actor e) s s' := by
  cases hs with
  | beginOp hc =>
    obtain _ | _ | _ | _ | _ | _ := exec_cases hc; exact apart_core rfl rfl rfl
  | endOp hn hc =>
    obtain _ | _ | _ | _ | _ | _ := exec_cases hc
    · exact apart_core rfl rfl rfl
    · exact apart_core rfl rfl rfl
  | bget hf hs => exact (apart_getBuf hb hs).1
  | lock hf hs => exact (apart_lockBuf hs).1
  | modify hf hs => exact (apart_modifyBuf hs).1
  | logWrite hf hs => exact apart_logBuf hs
  | unlock hf hs => exact (apart_unlockBuf hs).1
  | drop hf hs => exact (apart_dropBuf hs).1
  | commit hp hm => exact (apart_move hb hm).1
  | endCommit hpc hc =>
    obtain _ | _ | _ | _ | _ | _ := exec_cases hc; exact apart_core rfl rfl rfl

end

/-! ## The system -/

/-- A call of a function of `kernel/fs.c`.  The inode is what the caller has locked. -/
inductive Call
  | ialloc (type : BitVec 16)
  | iupdate (ip : Inode)
  | ilock (inum : ℕ)
  | itrunc (ip : Inode)
  | iput (ip : Inode)
  | readi (ip : Inode) (dst : Dst) (off n : Word)
  | writei (ip : Inode) (src : Src) (off n : Word)
  | dirlookup (dp : Inode) (name : ℕ → Byte)
  | dirlink (dp : Inode) (name : ℕ → Byte) (inum : BitVec 16)

def Call.code (sb : Superblock) : Call → Code Unit
  | .ialloc type => do let _ ← Files.ialloc sb type
  | .iupdate ip => Files.iupdate sb ip
  | .ilock inum => do let _ ← ilockRead sb inum
  | .itrunc ip => do let _ ← Files.itrunc sb ip
  | .iput ip => do let _ ← iputFree sb ip
  | .readi ip dst off n => do let _ ← Files.readi sb ip dst off n
  | .writei ip src off n => do let _ ← Files.writei sb ip src off n
  | .dirlookup dp name => do let _ ← Files.dirlookup sb dp name
  | .dirlink dp name inum => do let _ ← Files.dirlink sb dp name inum

structure State (P : Type) where
  mach : Machine.State P
  code : P → Code Unit

variable {P : Type} [DecidableEq P]

def State.goOn (s : State P) (p : P) (m : Machine.State P) (k : Code Unit) : State P :=
  ⟨m, update s.code p k⟩

def bufOf (m : Machine.State P) (p : P) (b : Word) : Option BufId :=
  (m.thread p).held.find? fun a => m.blockno a = b

def stepCode [Fintype P] (start : Word) (s : State P) (p : P) : Option (State P) :=
  match s.code p with
  | .cmd (.bread b) k =>
    match (s.mach.thread p).busy with
    | .want a => (Machine.exec start s.mach (.lock p)).map fun m => s.goOn p m (k (m.data a))
    | _ => (Machine.exec start s.mach (.bget p b)).map fun m => ⟨m, s.code⟩
  | .cmd (.store b data) k =>
    (bufOf s.mach p b).bind fun a =>
      (Machine.exec start s.mach (.modify p a data)).map fun m => s.goOn p m (k ())
  | .cmd (.logWrite b) k =>
    (bufOf s.mach p b).bind fun a =>
      (Machine.exec start s.mach (.logWrite p a)).map fun m => s.goOn p m (k ())
  | .cmd (.brelse b) k =>
    match (s.mach.thread p).busy with
    | .leave _ => (Machine.exec start s.mach (.drop p)).map fun m => s.goOn p m (k ())
    | _ =>
      (bufOf s.mach p b).bind fun a =>
        (Machine.exec start s.mach (.unlock p a)).map fun m => ⟨m, s.code⟩
  | .cmd (.enter _) k => some (s.goOn p s.mach (k ()))
  | _ => none

inductive CodeStep [Fintype P] (start : Word) (s : State P) (p : P) : State P → Prop
  | bget {b : Word} {k : Block → Code Unit} {m : Machine.State P} (hc : s.code p = .cmd (.bread b) k)
      (hm : Machine.exec start s.mach (.bget p b) = some m) : CodeStep start s p ⟨m, s.code⟩
  | lock {b : Word} {k : Block → Code Unit} {a : BufId} {m : Machine.State P}
      (hc : s.code p = .cmd (.bread b) k) (hm : Machine.exec start s.mach (.lock p) = some m) :
      CodeStep start s p (s.goOn p m (k (m.data a)))
  | store {b : Word} {data : Block} {k : Unit → Code Unit} {a : BufId} {m : Machine.State P}
      (hc : s.code p = .cmd (.store b data) k) (ha : bufOf s.mach p b = some a)
      (hm : Machine.exec start s.mach (.modify p a data) = some m) :
      CodeStep start s p (s.goOn p m (k ()))
  | logWrite {b : Word} {k : Unit → Code Unit} {a : BufId} {m : Machine.State P}
      (hc : s.code p = .cmd (.logWrite b) k) (ha : bufOf s.mach p b = some a)
      (hm : Machine.exec start s.mach (.logWrite p a) = some m) :
      CodeStep start s p (s.goOn p m (k ()))
  | unlock {b : Word} {k : Unit → Code Unit} {a : BufId} {m : Machine.State P}
      (hc : s.code p = .cmd (.brelse b) k) (ha : bufOf s.mach p b = some a)
      (hm : Machine.exec start s.mach (.unlock p a) = some m) : CodeStep start s p ⟨m, s.code⟩
  | drop {b : Word} {k : Unit → Code Unit} {m : Machine.State P} (hc : s.code p = .cmd (.brelse b) k)
      (hm : Machine.exec start s.mach (.drop p) = some m) : CodeStep start s p (s.goOn p m (k ()))
  | enter {f : Fn} {k : Unit → Code Unit} (hc : s.code p = .cmd (.enter f) k) :
      CodeStep start s p (s.goOn p s.mach (k ()))

theorem codeStep_of_stepCode [Fintype P] {start : Word} {s s' : State P} {p : P}
    (hs : stepCode start s p = some s') : CodeStep start s p s' := by
  unfold stepCode at hs
  split at hs
  · next b k hc =>
    split at hs
    · next a _ =>
      obtain ⟨m, hm, rfl⟩ := map_eq_some_iff.mp hs; exact .lock hc hm
    · obtain ⟨m, hm, rfl⟩ := map_eq_some_iff.mp hs; exact .bget hc hm
  · next b data k hc =>
    obtain ⟨a, ha, hs⟩ := bind_eq_some_iff.mp hs
    obtain ⟨m, hm, rfl⟩ := map_eq_some_iff.mp hs; exact .store hc ha hm
  · next b k hc =>
    obtain ⟨a, ha, hs⟩ := bind_eq_some_iff.mp hs
    obtain ⟨m, hm, rfl⟩ := map_eq_some_iff.mp hs; exact .logWrite hc ha hm
  · next b k hc =>
    split at hs
    · obtain ⟨m, hm, rfl⟩ := map_eq_some_iff.mp hs; exact .drop hc hm
    · obtain ⟨a, ha, hs⟩ := bind_eq_some_iff.mp hs
      obtain ⟨m, hm, rfl⟩ := map_eq_some_iff.mp hs; exact .unlock hc ha hm
  · next f k hc =>
    cases hs; exact .enter hc
  · cases hs

inductive Ev (P : Type)
  | beginOp (p : P)
  | endOp (p : P)
  | call (p : P) (c : Call)
  | step (p : P)
  | commit (p : P)
  | endCommit (p : P)

/-- A step; `none` if it cannot be taken or panics.  A process that is in a program goes on with it. -/
def exec [Fintype P] (sb : Superblock) (start : Word) (s : State P) : Ev P → Option (State P)
  | .beginOp p =>
    if (s.code p).done then (Machine.exec start s.mach (.beginOp p)).map fun m => ⟨m, s.code⟩
    else none
  | .endOp p =>
    if (s.code p).done then (Machine.exec start s.mach (.endOp p)).map fun m => ⟨m, s.code⟩
    else none
  | .call p c =>
    if (s.code p).done ∧ Free s.mach p then some (s.goOn p s.mach (c.code sb)) else none
  | .step p => stepCode start s p
  | .commit p => (Machine.exec start s.mach (.commit p)).map fun m => ⟨m, s.code⟩
  | .endCommit p => (Machine.exec start s.mach (.endCommit p)).map fun m => ⟨m, s.code⟩

/-- The processes `P` on the disk, with the log at block `start`. -/
def sys (P : Type) [DecidableEq P] [Fintype P] (sb : Superblock) (start : Word)
    (disk : Word → Block) : Sys (State P) (Ev P) where
  init s := s = ⟨Machine.boot P disk, fun _ => .ret ()⟩
  step s e s' := exec sb start s e = some s'

/-! ## What is changed is logged -/

variable [Fintype P] {sb : Superblock} {start : Word} {s : State P} {p q : P}

/-- A process outside `commit` has a program that logs what it has changed, and one in `commit` has
none. -/
structure Follows (s : State P) (p : P) : Prop where
  logs : Free s.mach p → ∃ D, (∀ a ∈ (s.mach.thread p).dirty, s.mach.blockno a ∈ D) ∧
    wp unlogged (s.code p) (fun _ D => D = []) D
  done : ¬ Free s.mach p → (s.code p).done = true

variable {m m' : Machine.State P} {a : BufId} {s' : State P} {c : P → Code Unit} {k : Code Unit} {n : Word}

theorem blockno_keep (hb : Base m) (hk : Keep m m') (ha : a ∈ (m.thread p).held) : m'.blockno a = m.blockno a := by
  have hr := hb.counts.refcnt_ne_zero (refs_pos_of_held ha)
  exact (hk a _ hr ⟨hb.counts.dev a (.inl hr), rfl⟩).2

theorem Follows.other (h : Follows s q) (hb : Base s.mach)
    (ha : Apart p s.mach m) (hq : q ≠ p) (hc : c q = s.code q) : Follows ⟨m, c⟩ q := by
  have hf : Free m q ↔ Free s.mach q := by unfold Free; rw [ha.com q hq]
  refine ⟨fun hfree => ?_, fun hfree => ?_⟩
  · obtain ⟨D, hD, hw⟩ := h.logs (hf.mp hfree)
    refine ⟨D, fun a hda => ?_, ?_⟩
    · have hda : a ∈ (s.mach.thread q).dirty := by rwa [← ha.thread q hq]
      rw [blockno_keep hb ha.keep (hb.locks.dirty q a hda)]; exact hD a hda
    · show wp unlogged (c q) _ D
      rw [hc]; exact hw
  · show (c q).done = true
    rw [hc]; exact h.done fun h' => hfree (hf.mpr h')

theorem eq_ret_of_done (h : k.done = true) : k = .ret () := by
  cases k with
  | ret a => rfl
  | fail e | cmd c k => cases h

section
omit [DecidableEq P] [Fintype P]

theorem Follows.of_done (hc : (s.code p).done = true)
    (hd : Free s.mach p → (s.mach.thread p).dirty = []) : Follows s p := by
  refine ⟨fun hf => ⟨[], fun a ha => ?_, ?_⟩, fun _ => hc⟩
  · rw [hd hf] at ha; exact (not_mem_nil ha).elim
  · rw [eq_ret_of_done hc]; rfl

theorem Follows.dirty_of_done (h : Follows s p) (hf : Free s.mach p)
    (hc : (s.code p).done = true) : (s.mach.thread p).dirty = [] := by
  obtain ⟨D, hD, hw⟩ := h.logs hf
  rw [eq_ret_of_done hc] at hw
  obtain rfl : D = [] := hw
  exact eq_nil_iff_forall_not_mem.mpr fun a ha => not_mem_nil (hD a ha)

end

theorem Follows.of_cover (hb : Base s.mach) (D : List Word) (hk : Keep s.mach m) (hf : Free m p)
    (hd : ∀ a ∈ (m.thread p).dirty, a ∈ (s.mach.thread p).held ∧ s.mach.blockno a ∈ D)
    (hw : wp unlogged (c p) (fun _ D => D = []) D) : Follows ⟨m, c⟩ p := by
  refine ⟨fun _ => ⟨D, fun a ha => ?_, hw⟩, fun h => absurd hf h⟩
  obtain ⟨hh, hD⟩ := hd a ha
  rw [← blockno_keep hb hk hh] at hD; exact hD

theorem Follows.goOn (hb : Base s.mach) (D : List Word) (hk : Keep s.mach m) (hf : Free m p)
    (hd : ∀ a ∈ (m.thread p).dirty, a ∈ (s.mach.thread p).held ∧ s.mach.blockno a ∈ D)
    (hw : wp unlogged k (fun _ D => D = []) D) : Follows (s.goOn p m k) p := by
  refine .of_cover hb D hk hf hd ?_
  rw [update_self]; exact hw

section
omit [DecidableEq P] [Fintype P]

theorem bufOf_some {b : Word} (h : bufOf m p b = some a) : a ∈ (m.thread p).held ∧ m.blockno a = b :=
  ⟨mem_of_find?_eq_some h, by simpa using List.find?_some h⟩

theorem free_of_core (h : Free m p) (hcore : m'.core = m.core) : Free m' p := by
  unfold Free
  rw [hcore]; exact h

end

theorem follows_codeStep (hok : Ok start s.mach) (h : Follows s p)
    (hs : CodeStep start s p s') : Follows s' p ∧ (∀ q, q ≠ p → s'.code q = s.code q) ∧
      (s'.mach = s.mach ∨ ∃ e, actor e = p ∧ Machine.exec start s.mach e = some s'.mach ∧ Tidy s.mach e) := by
  have hne : ∀ {m : Machine.State P} {k : Code Unit} (q : P), q ≠ p →
      (s.goOn p m k).code q = s.code q := fun q hq => update_of_ne hq _ _
  have hfree : ∀ {c k}, s.code p = .cmd c k → Free s.mach p := by
    intro c k hc
    by_contra hf
    have := h.done hf
    rw [hc] at this; cases this
  have hheld := hok.base.locks.dirty p
  cases hs with
  | @bget b k m hc hm =>
    obtain ⟨D, hD, hw⟩ := h.logs (hfree hc)
    cases step_of_exec hm with
    | bget hf hs =>
      obtain ⟨ha, hcore⟩ := apart_getBuf hok.base hs
      refine ⟨.of_cover hok.base D ha.keep (free_of_core hf hcore) (fun a hda => ?_) hw,
        fun _ _ => rfl, .inr ⟨_, rfl, hm, trivial⟩⟩
      obtain ⟨-, _, _, rfl, -⟩ := getBuf_cases hok.base.counts.rep hs
      rw [thread_self] at hda; exact ⟨hheld a hda, hD a hda⟩
  | @lock b k x m hc hm =>
    obtain ⟨D, hD, hw⟩ := h.logs (hfree hc)
    rw [hc] at hw
    cases step_of_exec hm with
    | lock hf hs =>
      obtain ⟨ha, hcore⟩ := apart_lockBuf hs
      refine ⟨.goOn hok.base D ha.keep (free_of_core hf hcore) (fun a hda => ?_) (hw _), hne,
        .inr ⟨_, rfl, hm, trivial⟩⟩
      obtain ⟨_, _, -, -, rfl, -⟩ := lockBuf_cases hs
      rw [thread_self] at hda; exact ⟨hheld a hda, hD a hda⟩
  | @store b data k x m hc hx hm =>
    obtain ⟨D, hD, hw⟩ := h.logs (hfree hc)
    rw [hc] at hw
    obtain ⟨hxh, hxb⟩ := bufOf_some hx
    cases step_of_exec hm with
    | modify hf hs =>
      obtain ⟨ha, hcore⟩ := apart_modifyBuf hs
      refine ⟨.goOn hok.base (b :: D) ha.keep (free_of_core hf hcore) (fun a hda => ?_) hw, hne,
        .inr ⟨_, rfl, hm, trivial⟩⟩
      obtain ⟨u, hu, rfl⟩ := modifyBuf_eq hs
      obtain ⟨-, rfl⟩ := storeBuf_eq hu
      rw [thread_self] at hda
      rcases mem_cons.mp hda with rfl | hda
      · exact ⟨hxh, by rw [hxb]; exact mem_cons_self⟩
      · exact ⟨hheld a hda, mem_cons_of_mem _ (hD a hda)⟩
  | @logWrite b k x m hc hx hm =>
    obtain ⟨D, hD, hw⟩ := h.logs (hfree hc)
    rw [hc] at hw
    obtain ⟨hxh, hxb⟩ := bufOf_some hx
    cases step_of_exec hm with
    | logWrite hf hs =>
      have ha := apart_logBuf hs
      obtain ⟨-, l, -, hcore, hth, -⟩ := logBuf_cases hs
      have hf' : Free m p := by unfold Free; rw [hcore]; exact (com_addLogged _ _ _ p).trans hf
      refine ⟨.goOn hok.base (D.filter (· ≠ b)) ha.keep hf' (fun a hda => ?_) hw, hne,
        .inr ⟨_, rfl, hm, trivial⟩⟩
      rw [hth, thread_self] at hda
      obtain ⟨hda, hax⟩ := mem_filter.mp hda
      refine ⟨hheld a hda, mem_filter.mpr ⟨hD a hda, ?_⟩⟩
      -- another buffer has another block
      refine decide_eq_true fun hab => of_decide_eq_true hax ?_
      exact hok.base.counts.unique (hok.base.locks.valid p a (hheld a hda))
        (hok.base.locks.valid p x hxh) (hab.trans hxb.symm)
  | @unlock b k x m hc hx hm =>
    obtain ⟨D, hD, hw⟩ := h.logs (hfree hc)
    obtain ⟨hxh, hxb⟩ := bufOf_some hx
    have hxd : x ∉ (s.mach.thread p).dirty := by
      intro hxd
      have hw' := hw
      rw [hc] at hw'
      refine hw'.1 ?_
      rw [← hxb]; exact hD x hxd
    cases step_of_exec hm with
    | unlock hf hs =>
      obtain ⟨ha, hcore⟩ := apart_unlockBuf hs
      refine ⟨.of_cover hok.base D ha.keep (free_of_core hf hcore) (fun a hda => ?_) hw,
        fun _ _ => rfl, .inr ⟨_, rfl, hm, hxd⟩⟩
      obtain ⟨-, rfl⟩ := unlockBuf_eq hs
      rw [thread_self] at hda
      have hda := (mem_filter.mp hda).1; exact ⟨hheld a hda, hD a hda⟩
  | @drop b k m hc hm =>
    obtain ⟨D, hD, hw⟩ := h.logs (hfree hc)
    rw [hc] at hw
    cases step_of_exec hm with
    | drop hf hs =>
      obtain ⟨ha, hcore⟩ := apart_dropBuf hs
      refine ⟨.goOn hok.base D ha.keep (free_of_core hf hcore) (fun a hda => ?_) hw.2, hne,
        .inr ⟨_, rfl, hm, trivial⟩⟩
      obtain ⟨_, -, rfl⟩ := dropBuf_eq hs
      rw [thread_self] at hda; exact ⟨hheld a hda, hD a hda⟩
  | @enter f k hc =>
    obtain ⟨D, hD, hw⟩ := h.logs (hfree hc)
    rw [hc] at hw
    refine ⟨.goOn hok.base D (fun _ _ _ hb => hb) (hfree hc) (fun a hda => ?_) hw, hne, .inl rfl⟩
    exact ⟨hheld a hda, hD a hda⟩

/-- In each round of a `writei` the copy succeeds, or fails at its first byte. -/
def WholeCopy : Ev P → Prop
  | .call _ (.writei _ src off n) => Whole src off.toNat n.toNat
  | _ => True

omit [DecidableEq P] [Fintype P] in
theorem logs_code {c : Call} (h : WholeCopy (.call p c)) : Logs (c.code sb) := by
  cases c with
  | ialloc type => exact (logs_iallocLoop _ _).bind fun _ => logs_pure _
  | iupdate ip => exact logs_iupdate ip
  | ilock inum => exact (logs_ilockRead inum).bind fun _ => logs_pure _
  | itrunc ip => exact (logs_itrunc ip).bind fun _ => logs_pure _
  | iput ip => exact (logs_iputFree ip).bind fun _ => logs_pure _
  | readi ip dst off n => exact (logs_readi ip dst off n).bind fun _ => logs_pure _
  | writei ip src off n => exact (logs_writei h ip).bind fun _ => logs_pure _
  | dirlookup dp name => exact (logs_dirlookup dp name).bind fun _ => logs_pure _
  | dirlink dp name inum => exact (logs_dirlink dp name inum).bind fun _ => logs_pure _

structure Inv (start : Word) (s : State P) : Prop where
  ok : Ok start s.mach
  clean : Clean s.mach
  follows : ∀ p, Follows s p

theorem Inv.mach (hP : Few P) (h : Inv start s) {e : Machine.Ev P}
    (hs : Machine.exec start s.mach e = some s'.mach) (ht : Tidy s.mach e)
    (hc : ∀ q, q ≠ actor e → s'.code q = s.code q) (hp : Follows s' (actor e)) : Inv start s' := by
  have hstep := step_of_exec hs
  refine ⟨h.ok.step hP hstep, clean_step h.clean h.ok ht hstep, fun q => ?_⟩
  by_cases hq : q = actor e
  · rw [hq]; exact hp
  · exact (h.follows q).other h.ok.base (apart_step h.ok.base hstep) hq (hc q hq)

theorem Inv.silent (h : Inv start s) (hm : s'.mach = s.mach)
    (hc : ∀ q, q ≠ p → s'.code q = s.code q) (hp : Follows s' p) : Inv start s' := by
  obtain ⟨m, c⟩ := s'
  subst hm
  refine ⟨h.ok, h.clean, fun q => ?_⟩
  by_cases hq : q = p
  · rw [hq]; exact hp
  · exact (h.follows q).other h.ok.base ⟨fun _ _ => rfl, fun _ _ => rfl, fun _ _ _ hb => hb⟩ hq (hc q hq)

theorem Inv.step (hP : Few P) (h : Inv start s) {e : Ev P} (hw : WholeCopy e)
    (hs : exec sb start s e = some s') : Inv start s' := by
  cases e with
  | beginOp p =>
    simp only [exec] at hs
    split_ifs at hs with hd
    obtain ⟨m, hm, rfl⟩ := map_eq_some_iff.mp hs
    refine h.mach hP hm trivial (fun _ _ => rfl) (.of_done hd fun _ => ?_)
    cases step_of_exec hm with
    | beginOp hc =>
      refine (h.follows p).dirty_of_done ?_ hd
      obtain ⟨hi⟩ | _ | _ | _ | _ | _ := exec_cases hc
      unfold Free
      rw [hi]; rfl
  | endOp p =>
    simp only [exec] at hs
    split_ifs at hs with hd
    obtain ⟨m, hm, rfl⟩ := map_eq_some_iff.mp hs
    refine h.mach hP hm trivial (fun _ _ => rfl) (.of_done hd fun _ => ?_)
    cases step_of_exec hm with
    | endOp hn hc =>
      refine eq_nil_iff_forall_not_mem.mpr fun a ha => ?_
      have hh := h.ok.base.locks.dirty p a ha
      rw [hn.2] at hh; exact not_mem_nil hh
  | call p c =>
    simp only [exec] at hs
    split_ifs at hs with hd
    cases hs
    refine h.silent rfl (fun q hq => update_of_ne hq _ _) ?_
    refine .goOn h.ok.base [] (fun _ _ _ hb => hb) hd.2 (fun a ha => ?_) (logs_code hw)
    rw [(h.follows p).dirty_of_done hd.2 hd.1] at ha
    exact (not_mem_nil ha).elim
  | step p =>
    obtain ⟨hp, hc, hm⟩ := follows_codeStep h.ok (h.follows p) (codeStep_of_stepCode hs)
    rcases hm with hm | ⟨e, rfl, hm, ht⟩
    · exact h.silent hm hc hp
    · exact h.mach hP hm ht hc hp
  | commit p =>
    obtain ⟨m, hm, rfl⟩ := map_eq_some_iff.mp hs
    cases step_of_exec hm with
    | commit hp hmove =>
      have hcom := (apart_move h.ok.base hmove).2
      have hdone := (h.follows p).done fun hf => by unfold Free at hf; omega
      refine h.mach hP hm trivial (fun _ _ => rfl) (.of_done hdone fun hf => ?_)
      unfold Free at hf
      dsimp only [actor] at hf; omega
  | endCommit p =>
    obtain ⟨m, hm, rfl⟩ := map_eq_some_iff.mp hs
    cases step_of_exec hm with
    | endCommit hpc hc =>
      obtain _ | _ | _ | _ | _ | ⟨hi⟩ := exec_cases hc
      have hcom : (s.mach.core.phase p).com = 1 := by rw [hi]; rfl
      have hdone := (h.follows p).done fun hf => by unfold Free at hf; omega
      refine h.mach hP hm trivial (fun _ _ => rfl) (.of_done hdone fun hf => ?_)
      have hd := (h.ok.ctl.along p hcom).dirty
      rw [hpc] at hd; exact hd

theorem run_inv (hP : Few P) {disk : Word → Block} {h : List (State P × Ev P)}
    (hr : Run (sys P sb start disk) h s) (hw : ∀ x ∈ h, WholeCopy x.2) : Inv start s := by
  refine hr.inv_of_ok (fun s h0 => ?_)
    (fun s e s' hi hc hs => hi.step hP hc hs) hw
  rw [show s = _ from h0]
  refine ⟨Ok.boot disk, fun b hb => ?_, fun p => .of_done rfl fun _ => rfl⟩
  cases hb

theorem data_of_getBuf (hb : Base m) {b : BufId} (hv : (m.cache.buf b).valid = true) (hs : getBuf m p n = some m')
    (ha : (m'.cache.buf a).valid = true) (hn : m'.blockno a = m.blockno b) : m'.data a = m.data b := by
  obtain ⟨-, x, v, rfl, -, -, hx⟩ := getBuf_cases hb.counts.rep hs
  refine setBuf_cases (R := fun _ v => v.valid = true → v.blockno = m.blockno b →
    v.data = m.data b) (fun h1 h2 => ?_) (fun y _ h1 h2 => ?_) a ha hn
  · rcases hx with rfl | ⟨-, -, h3, -⟩
    · rw [hb.counts.unique hv h1 h2.symm]; rfl
    · rw [h3] at h1; cases h1
  · rw [hb.counts.unique hv h1 h2.symm]; rfl

theorem data_of_bread {m1 m2 : Machine.State P} (hb : Base m)
    (h1 : getBuf m q n = some m1) (h2 : lockBuf m1 q = some m2) :
    ∃ a ∈ (m2.thread q).held, m2.blockno a = n ∧ (m2.data a = m.disk n ∨
      (m.cache.buf a).valid = true ∧ m.blockno a = n ∧ m2.data a = m.data a) := by
  obtain ⟨-, a, v, rfl, -, hn, hv⟩ := getBuf_cases hb.counts.rep h1
  obtain ⟨x, w, hx, -, rfl, -, -, hwn, -, hwd⟩ := lockBuf_cases h2
  rw [thread_self] at hx
  obtain rfl : a = x := Machine.Busy.want.inj hx
  have hbuf : (m.cache.setBuf a v).buf a = v := Buffers.setBuf_self
  have hbuf' : ((m.cache.setBuf a v).setBuf a w).buf a = w := Buffers.setBuf_self
  refine ⟨a, by rw [thread_self]; exact mem_cons_self, ?_, ?_⟩
  · show (((m.cache.setBuf a v).setBuf a w).buf a).blockno = n
    rw [hbuf', hwn]
    show ((m.cache.setBuf a v).buf a).blockno = n
    rw [hbuf, hn]
  · show (((m.cache.setBuf a v).setBuf a w).buf a).data = _ ∨
      _ ∧ _ ∧ (((m.cache.setBuf a v).setBuf a w).buf a).data = _
    rw [hbuf', hwd]
    show (if ((m.cache.setBuf a v).buf a).valid = true then ((m.cache.setBuf a v).buf a).data
        else m.disk ((m.cache.setBuf a v).buf a).blockno) = _ ∨ _ ∧ _ ∧
      (if ((m.cache.setBuf a v).buf a).valid = true then ((m.cache.setBuf a v).buf a).data
        else m.disk ((m.cache.setBuf a v).buf a).blockno) = _
    rw [hbuf, hn]
    split_ifs with hval
    · rcases hv with rfl | ⟨-, -, h0, -⟩
      · exact .inr ⟨hval, hn, rfl⟩
      · rw [h0] at hval; cases hval
    · exact .inl rfl

/-- **Buffers that nobody refers to are clean**, in every run in which no copy of a `writei` stops
half-way: a valid buffer with a count of 0 has the data of its block on the disk, so when a `bget` has
taken a buffer, a `bread` of the block gives the same data. -/
theorem unreferenced_clean (hP : Few P) {disk : Word → Block} {h : List (State P × Ev P)}
    (hr : Run (sys P sb start disk) h s) (hw : ∀ x ∈ h, WholeCopy x.2) :
    ∀ b, (s.mach.cache.buf b).valid = true → (s.mach.cache.buf b).refcnt = 0 →
      s.mach.data b = s.mach.disk (s.mach.blockno b) ∧
      ∀ p n m₁ q m₂ m₃, getBuf s.mach p n = some m₁ → getBuf m₁ q (s.mach.blockno b) = some m₂ →
        lockBuf m₂ q = some m₃ →
        ∃ a ∈ (m₃.thread q).held, m₃.blockno a = s.mach.blockno b ∧ m₃.data a = s.mach.data b := by
  intro b hv h0
  have hi := run_inv hP hr hw
  have hclean : s.mach.data b = s.mach.disk (s.mach.blockno b) := by
    obtain ⟨hrefs, hpins⟩ := hi.ok.base.counts.of_refcnt_zero h0
    refine hi.clean b hv hpins fun p hd => ?_
    have := refs_pos_of_held (hi.ok.base.locks.dirty p b hd)
    rw [hrefs p] at this; omega
  refine ⟨hclean, fun p n m₁ q m₂ m₃ h1 h2 h3 => ?_⟩
  obtain ⟨a, ha, hn, hd⟩ := data_of_bread (hi.ok.base.getBuf hP h1) h2 h3
  refine ⟨a, ha, hn, ?_⟩
  rcases hd with hd | ⟨hva, hna, hd⟩
  · have hdisk : m₁.disk = s.mach.disk := by
      obtain ⟨-, _, _, rfl, -⟩ := getBuf_cases hi.ok.base.counts.rep h1; rfl
    rw [hd, hdisk, hclean]
  · rw [hd]; exact data_of_getBuf hi.ok.base hv h1 hva hna

def smallFile : Inode where
  type := 2
  major := 0
  minor := 0
  nlink := 1
  size := 8
  addrs i := if i.val = 0 then 1000 else 0
  inum := 2

def smallDisk : Word → Block := fun b =>
  if b = mkfsSb.IBLOCK 2 then setDinode zeroBlock 2 smallFile.toDinode else zeroBlock

def onePage : UserMem := fun i => if i = 0 then some ⟨true, fun _ => 1⟩ else none

/-- `ilock`, and `write` of 8 bytes from the start of the page, up to the `iupdate` in `writei`. -/
def wholeCopy : List (Ev (Unit)) :=
  [.beginOp (), .call () (.ilock 2), .step (), .step (), .step (), .step (),
    .call () (.writei smallFile (.user onePage 0) 0 8), .step (), .step (), .step (), .step (), .step (),
    .step ()]

/-- The block that is written has a buffer with other data than the disk and a count of 1; the block of
the inode has one with a count of 0. -/
theorem unreferenced_clean_once : ∃ s : State (Unit), ∃ a b,
    (s.mach.data a).word 0 ≠ (s.mach.disk (s.mach.blockno a)).word 0 ∧
    (s.mach.cache.buf a).refcnt = 1 ∧ s.mach.blockno b = mkfsSb.IBLOCK 2 ∧
    (s.mach.cache.buf b).refcnt = 0 ∧ s.mach.data b = s.mach.disk (s.mach.blockno b) := by
  obtain ⟨s, hr, hes, ht⟩ := exists_run (T := sys (Unit) mkfsSb 2 smallDisk) (f := exec mkfsSb 2)
    (fun _ _ _ h => h) rfl wholeCopy
    (fun s : State (Unit) => decide (∃ a b, (s.mach.data a).word 0 ≠ (s.mach.disk (s.mach.blockno a)).word 0 ∧
      (s.mach.cache.buf a).refcnt = 1 ∧ s.mach.blockno b = mkfsSb.IBLOCK 2 ∧
      (s.mach.cache.buf b).refcnt = 0 ∧ (s.mach.cache.buf b).valid = true))
    (by decide +kernel)
  obtain ⟨a, b, h1, h2, h3, h4, h5⟩ := of_decide_eq_true ht
  have hP : Few (Unit) := by unfold Few; decide
  have hw : ∀ e ∈ wholeCopy, WholeCopy e := by
    have hm : Whole (.user onePage 0) 0 8 := by
      intro tot ht h
      refine .inr fun i hi => ?_
      have hi : 0 + tot + i < 8 := by unfold chunk at hi; omega
      have hpage : (0 + tot + i) / PGSIZE = 0 := Nat.div_eq_of_lt (by unfold PGSIZE; omega)
      unfold UserMem.walkaddr
      rw [hpage]; exact some_ne_none _
    simp only [wholeCopy, forall_mem_cons, not_mem_nil, false_imp_iff, implies_true,
      WholeCopy, and_true, true_and]
    exact hm
  have hw' : ∀ x ∈ stepsOf (exec mkfsSb 2) _ wholeCopy, WholeCopy x.2 := fun x hx =>
    hw x.2 (by rw [← hes]; exact mem_map_of_mem hx)
  exact ⟨s, a, b, h1, h2, h3, h4, (unreferenced_clean hP hr hw' b h5 h4).1⟩

/-- `write` of 8 bytes to the file, 4 before the end of the page, up to the `brelse` in `writei`. -/
def halfCopy : List (Ev (Unit)) :=
  [.beginOp (), .call () (.writei smallFile (.user onePage 4092) 0 8), .step (), .step (), .step (),
    .step (), .step ()]

/-- **A copy that stops half-way** leaves a valid buffer with a count of 0 and other data than the
disk. -/
theorem half_copy_unlogged : ¬ ∀ s : State (Unit), Reachable (sys (Unit) mkfsSb 2 smallDisk) s →
    ∀ b, (s.mach.cache.buf b).valid = true → (s.mach.cache.buf b).refcnt = 0 →
      s.mach.data b = s.mach.disk (s.mach.blockno b) := by
  intro hall
  obtain ⟨s, hr, -, ht⟩ := exists_run (T := sys (Unit) mkfsSb 2 smallDisk) (f := exec mkfsSb 2)
    (fun _ _ _ h => h) rfl halfCopy
    (fun s : State (Unit) => decide (∃ b, (s.mach.cache.buf b).valid = true ∧
      (s.mach.cache.buf b).refcnt = 0 ∧ (s.mach.data b).word 0 ≠ (s.mach.disk (s.mach.blockno b)).word 0))
    (by decide +kernel)
  obtain ⟨b, hv, h0, hd⟩ := of_decide_eq_true ht
  exact hd (by rw [hall s ⟨_, hr⟩ b hv h0])

end Xv6.Fs.Calls
