import Mathlib.Algebra.BigOperators.Group.Finset.Basic
import Mathlib.Algebra.Order.BigOperators.Group.Finset
import Xv6.Fs.Layout
import Xv6.Lib.Runs

/-!
# The inode table shared by processes

Processes call `iget`, `idup`, `ilock`, `iunlock`, `iput` and `ialloc` in any order and are interleaved where
locks are taken and released.  A process that has locked an inode may change it and calls `iupdate` before it
unlocks it.  The code does not read `held`, the references of each process, and `fresh`, the inodes that have
been allocated and not been written since.

`iput` lets go of `itable.lock` while it frees an inode.  All rests on `iget` being called for inodes with links or
that the caller refers to already, but for the call in `ialloc`: otherwise an inode may be freed between its
allocation and that `iget`.
-/

namespace Xv6.Fs.Sharing

open Param Vm.Copy Lib.Runs Fs.Layout Finset Function Option Nat

abbrev Slot := Fin NINODE

structure Key where
  dev : Word
  inum : Word
  deriving DecidableEq

/-- `struct inode`.  `dirty` tells that a change has not been passed to `iupdate`. -/
structure Entry (P : Type) where
  key : Key
  ref : ℕ
  valid : Bool
  copy : Dinode
  lock : Option P
  dirty : Bool

/-- Where a process is: in the loop of `ialloc`, before its `iget`, in `ilock` before the `bread`, or in
`iput` before `itrunc`, before `type = 0`, before `valid = 0`, before `releasesleep`, before `ref--`. -/
inductive Pc
  | idle
  | scan (key : Key) (type : BitVec 16)
  | found (key : Key)
  | read (e : Slot)
  | trunc (e : Slot)
  | clear (e : Slot)
  | invalidate (e : Slot)
  | unlock (e : Slot)
  | drop (e : Slot)
  deriving DecidableEq

inductive Panic
  | igetNoInodes
  | ilock
  | ilockNoType
  | iunlock
  | deadlock
  deriving DecidableEq

structure State (P : Type) where
  entry : Slot → Entry P
  disk : Key → Dinode
  pc : P → Pc
  held : P × Slot → ℕ
  fresh : Key → Option (P × BitVec 16)

variable {P : Type} [DecidableEq P] {e : Slot} {pc : Pc}

def State.setEntry (s : State P) (e : Slot) (x : Entry P) : State P :=
  { s with entry := update s.entry e x }

def State.goto (s : State P) (p : P) (pc : Pc) : State P := { s with pc := update s.pc p pc }

def State.hold (s : State P) (p : P) (e : Slot) (n : ℕ) : State P :=
  { s with held := update s.held (p, e) n }

def State.write (s : State P) (e : Slot) (d : Dinode) : State P :=
  { s.setEntry e { s.entry e with copy := d, dirty := false } with
    disk := update s.disk (s.entry e).key d
    fresh := update s.fresh (s.entry e).key none }

def State.refUp (s : State P) (p : P) (e : Slot) : State P :=
  (s.setEntry e { s.entry e with ref := (s.entry e).ref + 1 }).hold p e (s.held (p, e) + 1)

def State.refDown (s : State P) (p : P) (e : Slot) : State P :=
  (s.setEntry e { s.entry e with ref := (s.entry e).ref - 1 }).hold p e (s.held (p, e) - 1)

/-- The entry that `iget` takes when the inode is not in the table. -/
def State.recycle (s : State P) (p : P) (key : Key) (e : Slot) : State P :=
  (s.setEntry e { s.entry e with key := key, ref := 1, valid := false }).hold p e 1

def State.find (s : State P) (key : Key) : Option Slot :=
  (List.finRange NINODE).find? fun e => decide (0 < (s.entry e).ref ∧ (s.entry e).key = key)

def State.empty (s : State P) : Option Slot :=
  (List.finRange NINODE).find? fun e => decide ((s.entry e).ref = 0)

def iget (s : State P) (p : P) (key : Key) : Except Panic (State P) :=
  match s.find key with
  | some e => .ok ((s.refUp p e).goto p .idle)
  | none =>
    match s.empty with
    | some e => .ok ((s.recycle p key e).goto p .idle)
    | none => .error .igetNoInodes

/-- What a process does next inside a call, where `ninodes` is `sb.ninodes`. -/
def step (ninodes : ℕ) (s : State P) (p : P) : Except Panic (State P) :=
  match s.pc p with
  | .idle => .ok s
  | .scan key type =>
    if ninodes ≤ key.inum.toNat then .ok (s.goto p .idle)
    else if (s.disk key).type = 0 then
      .ok (State.goto { s with
        disk := update s.disk key { Dinode.zero with type := type }
        fresh := update s.fresh key (some (p, type)) } p (.found key))
    else .ok (s.goto p (.scan { key with inum := key.inum + 1 } type))
  | .found key => iget s p key
  | .read e =>
    if (s.disk (s.entry e).key).type = 0 then .error .ilockNoType
    else .ok ((s.setEntry e { s.entry e with copy := s.disk (s.entry e).key, valid := true }).goto p .idle)
  | .trunc e => .ok ((s.write e { (s.entry e).copy with size := 0, addrs := fun _ => 0 }).goto p (.clear e))
  | .clear e => .ok ((s.write e { (s.entry e).copy with type := 0 }).goto p (.invalidate e))
  | .invalidate e => .ok ((s.setEntry e { s.entry e with valid := false }).goto p (.unlock e))
  | .unlock e => .ok ((s.setEntry e { s.entry e with lock := none }).goto p (.drop e))
  | .drop e => .ok ((s.refDown p e).goto p .idle)

inductive Ev (P : Type)
  | iget (p : P) (key : Key)
  | idup (p : P) (e : Slot)
  | ilock (p : P) (e : Slot)
  | iunlock (p : P) (e : Slot)
  | iput (p : P) (e : Slot)
  | ialloc (p : P) (dev : Word) (type : BitVec 16)
  | change (p : P) (e : Slot) (d : Dinode)
  | iupdate (p : P) (e : Slot)
  | step (p : P)

/-- `ilock` up to the `acquiresleep`, when the lock is free. -/
def lockEntry (s : State P) (p : P) (e : Slot) : State P :=
  (s.setEntry e { s.entry e with lock := some p }).goto p (if (s.entry e).valid then .idle else .read e)

/-- A step, if it can be taken.  The caller of `idup`, `ilock` and `iput` has a reference. -/
def exec (ninodes : ℕ) (s : State P) : Ev P → Option (Except Panic (State P))
  | .iget p key => if s.pc p = .idle then some (iget s p key) else none
  | .idup p e => if s.pc p = .idle ∧ 0 < s.held (p, e) then some (.ok (s.refUp p e)) else none
  | .ilock p e =>
    if s.pc p = .idle ∧ 0 < s.held (p, e) then
      if (s.entry e).ref < 1 then some (.error .ilock)
      else if (s.entry e).lock = none then some (.ok (lockEntry s p e))
      else none
    else none
  | .iunlock p e =>
    if s.pc p = .idle ∧ (s.entry e).dirty = false then
      if (s.entry e).lock ≠ some p ∨ (s.entry e).ref < 1 then some (.error .iunlock)
      else some (.ok (s.setEntry e { s.entry e with lock := none }))
    else none
  | .iput p e =>
    if s.pc p = .idle ∧ 0 < s.held (p, e) ∧ (s.entry e).lock ≠ some p then
      if (s.entry e).ref = 1 ∧ (s.entry e).valid = true ∧ (s.entry e).copy.nlink = 0 then
        if (s.entry e).lock = none then
          some (.ok ((s.setEntry e { s.entry e with lock := some p }).goto p (.trunc e)))
        else some (.error .deadlock)
      else some (.ok (s.refDown p e))
    else none
  | .ialloc p dev type =>
    if s.pc p = .idle ∧ type ≠ 0 then some (.ok (s.goto p (.scan ⟨dev, 1⟩ type))) else none
  | .change p e d =>
    if s.pc p = .idle ∧ (s.entry e).lock = some p ∧ d.type ≠ 0 then
      some (.ok (s.setEntry e { s.entry e with copy := d, dirty := true }))
    else none
  | .iupdate p e =>
    if s.pc p = .idle ∧ (s.entry e).lock = some p then some (.ok (s.write e (s.entry e).copy)) else none
  | .step p => if s.pc p ≠ .idle then some (step ninodes s p) else none

structure Fresh (s : State P) : Prop where
  ref : ∀ e, (s.entry e).ref = 0
  lock : ∀ e, (s.entry e).lock = none
  dirty : ∀ e, (s.entry e).dirty = false
  pc : ∀ p, s.pc p = .idle
  held : ∀ x, s.held x = 0
  fresh : ∀ key, s.fresh key = none

def sys (P : Type) [DecidableEq P] (ninodes : ℕ) : Sys (State P) (Ev P) where
  init := Fresh
  step s ev s' := exec ninodes s ev = some (.ok s')

/-- But for the call in `ialloc`, `iget` is called for an allocated inode with links, or for one that the caller
refers to. -/
def Named (s : State P) : Ev P → Prop
  | .iget p key => ((s.disk key).type ≠ 0 ∧ (s.disk key).nlink ≠ 0) ∨ ∃ e, 0 < s.held (p, e) ∧ (s.entry e).key = key
  | _ => True

/-! ## The invariant -/

def stageOf : Pc → Option Slot
  | .read e | .trunc e | .clear e | .invalidate e | .unlock e => some e
  | _ => none

def about : Pc → Option Slot
  | .drop e => some e
  | pc => stageOf pc

theorem about_of_stageOf (h : stageOf pc = some e) : about pc = some e := by
  cases pc <;> first | exact h | cases h

/-- A process is at a point that concerns `e` or no entry. -/
def Only (e : Slot) (pc : Pc) : Prop := about pc = none ∨ about pc = some e

theorem Only.ne (h : Only e pc) {e' : Slot} (he : e' ≠ e) : about pc ≠ some e' := by
  rcases h with h | h <;> simp [h, he.symm]

theorem stageOf_of_freeing (h : pc = .trunc e ∨ pc = .clear e) : stageOf pc = some e := by
  rcases h with rfl | rfl <;> rfl

/-- A process is past the `iupdate` that frees the inode of an entry. -/
def past (pc : Pc) (e : Slot) : Prop := pc = .invalidate e ∨ pc = .unlock e ∨ pc = .drop e

theorem about_of_past (h : past pc e) : about pc = some e := by
  rcases h with rfl | rfl | rfl <;> rfl

theorem not_past_idle : ¬ past .idle e := by
  rintro (h | h | h) <;> cases h

structure At (s : State P) (e : Slot) : Prop where
  owner : ∀ p, (s.entry e).lock = some p → 0 < s.held (p, e)
  stage : ∀ p, stageOf (s.pc p) = some e → (s.entry e).lock = some p ∧ (s.entry e).dirty = false
  dropping : ∀ p, s.pc p = .drop e → 0 < s.held (p, e) ∧ (s.entry e).lock ≠ some p
  reading : ∀ p, s.pc p = .read e → (s.entry e).valid = false
  ready : ∀ p, (s.entry e).lock = some p → stageOf (s.pc p) ≠ some e → (s.entry e).valid = true
  clean : (s.entry e).dirty = true → (s.entry e).lock ≠ none
  live : (s.entry e).valid = true → 0 < (s.entry e).ref → (∀ p, s.pc p ≠ .invalidate e) →
    (s.entry e).copy.type ≠ 0 ∧ (s.disk (s.entry e).key).type ≠ 0 ∧
      ((s.entry e).dirty = false → (s.entry e).copy = s.disk (s.entry e).key)
  freeing : ∀ p, s.pc p = .trunc e ∨ s.pc p = .clear e →
    (s.entry e).valid = true ∧ (s.entry e).copy.nlink = 0 ∧ (s.entry e).ref = 1
  single : ∀ p, past (s.pc p) e → s.held (p, e) = 1
  dead : ∀ p, (s.disk (s.entry e).key).type = 0 → 0 < s.held (p, e) → past (s.pc p) e

/-- What holds of an inode that `p` has allocated and nobody has written since: no process refers to it but
`p` and those that have freed it before. -/
structure New (s : State P) (key : Key) (p : P) (type : BitVec 16) : Prop where
  typed : type ≠ 0
  disk : s.disk key = { Dinode.zero with type := type }
  sole : ∀ e q, (s.entry e).key = key → 0 < s.held (q, e) → q = p ∨ past (s.pc q) e

structure Inv [Fintype P] (s : State P) : Prop where
  refs : ∀ e, (s.entry e).ref = ∑ p, s.held (p, e)
  alone : ∀ e e', 0 < (s.entry e).ref → 0 < (s.entry e').ref → (s.entry e).key = (s.entry e').key → e = e'
  each : ∀ e, At s e
  new : ∀ key p type, s.fresh key = some (p, type) → New s key p type
  found : ∀ p key, s.pc p = .found key → ∃ type, s.fresh key = some (p, type)
  scanning : ∀ p key type, s.pc p = .scan key type → type ≠ 0

variable {s s' : State P} {p q : P} {e' : Slot} {key : Key} {x : Entry P} {c : Pc}

section
omit [DecidableEq P]

theorem At.clean_of_unlocked (h : At s e) (hl : (s.entry e).lock = none) : (s.entry e).dirty = false := by
  cases hd : (s.entry e).dirty with
  | false => rfl
  | true => exact absurd hl (h.clean hd)

theorem At.held_of_freeing (h : At s e) (hp : s.pc p = .trunc e ∨ s.pc p = .clear e) : 0 < s.held (p, e) :=
  h.owner p (h.stage p (stageOf_of_freeing hp)).1

theorem At.unstaged (h : At s e) (hl : (s.entry e).lock = none ∨ (s.entry e).lock = some p) (hq : q ≠ p) :
    stageOf (s.pc q) ≠ some e := by
  intro hs
  have hlock := (h.stage q hs).1
  rcases hl with hl | hl
  · rw [hl] at hlock; cases hlock
  · rw [hl] at hlock; exact hq (some.inj hlock).symm

theorem At.other (h : At s e) (hentry : s'.entry e = s.entry e)
    (hheld : ∀ q, s'.held (q, e) = s.held (q, e)) (hpos : ∀ q, 0 < s.held (q, e) → 0 < (s.entry e).ref)
    (hdisk : 0 < (s.entry e).ref → s'.disk (s.entry e).key = s.disk (s.entry e).key ∨
      (s.disk (s.entry e).key).type = 0 ∧ (s'.disk (s.entry e).key).type ≠ 0)
    (hpc : ∀ q, s'.pc q = s.pc q ∨ about (s.pc q) ≠ some e ∧ about (s'.pc q) ≠ some e) : At s' e := by
  have hsame : ∀ q, about (s'.pc q) = some e → s'.pc q = s.pc q := fun q hq =>
    (hpc q).resolve_right fun hno => hno.2 hq
  have hsame' : ∀ q, about (s.pc q) = some e → s'.pc q = s.pc q := fun q hq =>
    (hpc q).resolve_right fun hno => hno.1 hq
  refine ⟨fun q hq => ?_, fun q hq => ?_, fun q hq => ?_, fun q hq => ?_, fun q hq hst => ?_, fun hd => ?_,
    fun hv hr hinv => ?_, fun q hq => ?_, fun q hq => ?_, fun q ht hq => ?_⟩
  · rw [hentry] at hq; rw [hheld]; exact h.owner q hq
  · rw [hsame q (about_of_stageOf hq)] at hq; rw [hentry]; exact h.stage q hq
  · rw [hsame q (by rw [hq]; rfl)] at hq
    rw [hheld, hentry]; exact h.dropping q hq
  · rw [hsame q (by rw [hq]; rfl)] at hq; rw [hentry]; exact h.reading q hq
  · rw [hentry] at hq ⊢
    refine h.ready q hq fun hs => hst ?_
    rw [hsame' q (about_of_stageOf hs)]; exact hs
  · rw [hentry] at hd ⊢; exact h.clean hd
  · rw [hentry] at hv hr ⊢
    have hlive := h.live hv hr fun q hq => hinv q (by rw [hsame' q (by rw [hq]; rfl)]; exact hq)
    rcases hdisk hr with hd | ⟨h0, -⟩
    · rw [hd]; exact hlive
    · exact absurd h0 hlive.2.1
  · rw [hsame q (about_of_stageOf (stageOf_of_freeing hq))] at hq
    rw [hentry]; exact h.freeing q hq
  · rw [hsame q (about_of_past hq)] at hq; rw [hheld]; exact h.single q hq
  · rw [hentry] at ht
    rw [hheld] at hq
    rcases hdisk (hpos q hq) with hd | ⟨-, h0⟩
    · rw [hd] at ht
      have hpast := h.dead q ht hq
      rw [hsame' q (about_of_past hpast)]; exact hpast
    · exact absurd ht h0

end

/-- What an entry must be for a process that holds `n` references to it and goes to `c`. -/
structure Suits (disk : Key → Dinode) (n : ℕ) (p : P) (e : Slot) (x : Entry P) (c : Pc) : Prop where
  lock : x.lock = none ∨ x.lock = some p
  stage : stageOf c = some e → x.lock = some p ∧ x.dirty = false
  drop : c = .drop e → x.lock = none
  read : c = .read e → x.valid = false
  ready : x.lock = some p → stageOf c ≠ some e → x.valid = true
  clean : x.dirty = true → x.lock = some p
  live : x.valid = true → c ≠ .invalidate e → x.copy.type ≠ 0 ∧ (disk x.key).type ≠ 0 ∧
    (x.dirty = false → x.copy = disk x.key)
  free : c = .trunc e ∨ c = .clear e → x.valid = true ∧ x.copy.nlink = 0 ∧ x.ref = 1
  single : past c e → n = 1

theorem At.own (h : At s e) (hc : s'.pc p = c) (hl : (s.entry e).lock = none ∨ (s.entry e).lock = some p)
    (hentry : s'.entry e = x) (hheld : ∀ q, s'.held (q, e) = s.held (q, e)) (hpos : 0 < s.held (p, e))
    (hpc : ∀ q, q ≠ p → s'.pc q = s.pc q) (hx : Suits s'.disk (s.held (p, e)) p e x c)
    (hdead : ∀ q, (s'.disk x.key).type = 0 → 0 < s.held (q, e) → past (s'.pc q) e) : At s' e := by
  subst hc
  have hno : ∀ q, q ≠ p → stageOf (s'.pc q) ≠ some e := fun q hq => by
    rw [hpc q hq]; exact h.unstaged hl hq
  have hlock : ∀ q, x.lock = some q → q = p := by
    intro q hq
    rcases hx.lock with hx | hx
    · rw [hx] at hq; cases hq
    · rw [hx] at hq; exact (some.inj hq).symm
  refine ⟨fun q hq => ?_, fun q hq => ?_, fun q hq => ?_, fun q hq => ?_, fun q hq hst => ?_, fun hd hnone => ?_,
    fun hv hr hinv => ?_, fun q hq => ?_, fun q hq => ?_, fun q ht hq => ?_⟩
  · rw [hentry] at hq; rw [hlock q hq, hheld]; exact hpos
  · obtain rfl : q = p := by
      by_contra hqp; exact hno q hqp hq
    rw [hentry]; exact hx.stage hq
  · rw [hheld, hentry]
    by_cases hqp : q = p
    · rw [hqp] at hq ⊢; rw [hx.drop hq]; exact ⟨hpos, nofun⟩
    · rw [hpc q hqp] at hq
      exact ⟨(h.dropping q hq).1, fun hl => hqp (hlock q hl)⟩
  · obtain rfl : q = p := by
      by_contra hqp; exact hno q hqp (by rw [hq]; rfl)
    rw [hentry]; exact hx.read hq
  · rw [hentry] at hq ⊢; obtain rfl := hlock q hq; exact hx.ready hq hst
  · rw [hentry] at hd hnone; rw [hx.clean hd] at hnone; cases hnone
  · rw [hentry] at hv ⊢; exact hx.live hv (hinv p)
  · obtain rfl : q = p := by
      by_contra hqp; exact hno q hqp (stageOf_of_freeing hq)
    rw [hentry]; exact hx.free hq
  · rw [hheld]
    by_cases hqp : q = p
    · rw [hqp] at hq ⊢; exact hx.single hq
    · rw [hpc q hqp] at hq; exact h.single q hq
  · rw [hentry] at ht; rw [hheld] at hq; exact hdead q ht hq

theorem At.count (h : At s e) {n : ℕ} (hentry : s'.entry e = { s.entry e with ref := n })
    (hn : 0 < n → 0 < (s.entry e).ref) (hheld : ∀ q, q ≠ p → s'.held (q, e) = s.held (q, e))
    (hpos : (s.entry e).lock = some p → 0 < s'.held (p, e)) (hpc : ∀ q, q ≠ p → s'.pc q = s.pc q)
    (hpcp : about (s'.pc p) ≠ some e) (hold : stageOf (s.pc p) ≠ some e)
    (hfree : ∀ q, q ≠ p → ¬ (s.pc q = .trunc e ∨ s.pc q = .clear e)) (hdisk : s'.disk = s.disk)
    (hdead : (s.disk (s.entry e).key).type = 0 → s'.held (p, e) = 0) : At s' e := by
  have hne : ∀ q, about (s'.pc q) = some e → q ≠ p := by rintro q hq rfl; exact hpcp hq
  refine ⟨fun q hq => ?_, fun q hq => ?_, fun q hq => ?_, fun q hq => ?_, fun q hq hst => ?_, fun hd => ?_,
    fun hv hr hinv => ?_, fun q hq => ?_, fun q hq => ?_, fun q ht hq => ?_⟩
  · rw [hentry] at hq
    by_cases hqp : q = p
    · rw [hqp] at hq ⊢; exact hpos hq
    · rw [hheld q hqp]; exact h.owner q hq
  · have hqp := hne q (about_of_stageOf hq)
    rw [hpc q hqp] at hq
    rw [hentry]; exact h.stage q hq
  · have hqp := hne q (by rw [hq]; rfl)
    rw [hpc q hqp] at hq
    rw [hheld q hqp, hentry]; exact h.dropping q hq
  · have hqp := hne q (by rw [hq]; rfl)
    rw [hpc q hqp] at hq
    rw [hentry]; exact h.reading q hq
  · rw [hentry] at hq ⊢
    by_cases hqp : q = p
    · rw [hqp] at hq; exact h.ready p hq hold
    · rw [hpc q hqp] at hst; exact h.ready q hq hst
  · rw [hentry] at hd ⊢; exact h.clean hd
  · rw [hentry] at hv hr ⊢
    rw [hdisk]
    refine h.live hv (hn hr) fun q hq => ?_
    by_cases hqp : q = p
    · rw [hqp] at hq; exact hold (by rw [hq]; rfl)
    · refine hinv q ?_
      rw [hpc q hqp]; exact hq
  · have hqp := hne q (about_of_stageOf (stageOf_of_freeing hq))
    rw [hpc q hqp] at hq; exact absurd hq (hfree q hqp)
  · have hqp := hne q (about_of_past hq)
    rw [hpc q hqp] at hq
    rw [hheld q hqp]; exact h.single q hq
  · rw [hentry, hdisk] at ht
    by_cases hqp : q = p
    · rw [hqp, hdead ht] at hq; exact absurd hq (lt_irrefl 0)
    · rw [hheld q hqp] at hq; rw [hpc q hqp]; exact h.dead q ht hq

omit [DecidableEq P] in
theorem New.keep {type : BitVec 16} (h : New s key p type) (hdisk : s'.disk key = s.disk key)
    (hkey : ∀ e, (s'.entry e).key = (s.entry e).key) (hheld : s'.held = s.held)
    (hpc : ∀ q e, past (s.pc q) e → past (s'.pc q) e) : New s' key p type := by
  refine ⟨h.typed, hdisk.trans h.disk, fun e q hk hq => ?_⟩
  rw [hkey] at hk
  rw [hheld] at hq; exact (h.sole e q hk hq).imp_right (hpc q e)

/-! ## The rules for one step -/

variable [Fintype P]

theorem sum_hold (held : P × Slot → ℕ) (p : P) (e : Slot) (n : ℕ) :
    ∑ q, update held (p, e) n (q, e) + held (p, e) = ∑ q, held (q, e) + n := by
  rw [← sum_erase_add _ _ (mem_univ p), ← sum_erase_add _ _ (mem_univ p), update_self]
  have hrest : ∑ q ∈ Finset.univ.erase p, update held (p, e) n (q, e) =
      ∑ q ∈ Finset.univ.erase p, held (q, e) := by
    refine sum_congr rfl fun q hq => update_of_ne (fun he => ?_) _ _
    exact ne_of_mem_erase hq (Prod.mk.inj he).1
  rw [hrest]; omega

theorem sum_hold_ne (held : P × Slot → ℕ) (p : P) (n : ℕ) (he : e' ≠ e) :
    ∑ q, update held (p, e) n (q, e') = ∑ q, held (q, e') :=
  sum_congr rfl fun _ _ => update_of_ne (fun hc => he (Prod.mk.inj hc).2) _ _

section
variable (h : Inv s)
include h

omit [DecidableEq P] in
theorem Inv.held_le (p : P) (e : Slot) : s.held (p, e) ≤ (s.entry e).ref := by
  rw [h.refs e]
  exact single_le_sum (fun q _ => zero_le (s.held (q, e))) (mem_univ p)

theorem Inv.held_add_le (hpq : p ≠ q) : s.held (p, e) + s.held (q, e) ≤ (s.entry e).ref := by
  rw [h.refs e, ← sum_pair hpq (f := fun r => s.held (r, e))]
  exact sum_le_sum_of_subset (subset_univ _)

omit [DecidableEq P] in
theorem Inv.ref_pos (hp : 0 < s.held (p, e)) : 0 < (s.entry e).ref :=
  lt_of_lt_of_le hp (h.held_le p e)

theorem Inv.own (hc : s'.pc p = c) (hentry : ∀ e', e' ≠ e → s'.entry e' = s.entry e')
    (hkey : (s'.entry e).key = (s.entry e).key) (href : (s'.entry e).ref = (s.entry e).ref)
    (hheld : s'.held = s.held) (hpos : 0 < s.held (p, e)) (hpc : ∀ q, q ≠ p → s'.pc q = s.pc q)
    (hp : Only e (s.pc p)) (ho : Only e c)
    (hpast : past (s.pc p) e → past c e) (hfound : ∀ k, c ≠ .found k) (hscan : ∀ k t, c ≠ .scan k t) (hat : At s' e)
    (hdisk : s'.disk = s.disk ∧ s'.fresh = s.fresh ∨ ¬ past (s.pc p) e ∧ ∃ d,
      s'.disk = update s.disk (s.entry e).key d ∧ s'.fresh = update s.fresh (s.entry e).key none) : Inv s' := by
  subst hc
  have hkeys : ∀ e', (s'.entry e').key = (s.entry e').key := fun e' => by
    by_cases he : e' = e
    · rw [he, hkey]
    · rw [hentry e' he]
  have hrefs : ∀ e', (s'.entry e').ref = (s.entry e').ref := fun e' => by
    by_cases he : e' = e
    · rw [he, href]
    · rw [hentry e' he]
  have hpasts : ∀ q e', past (s.pc q) e' → past (s'.pc q) e' := by
    intro q e' hq
    by_cases hqp : q = p
    · rw [hqp] at hq ⊢
      by_cases he : e' = e
      · rw [he] at hq ⊢; exact hpast hq
      · exact absurd (about_of_past hq) (hp.ne he)
    · rw [hpc q hqp]; exact hq
  -- the disk changes at the inode of this entry only, which has been written then
  have hsame : ∀ k, (∃ r, s'.fresh k = some r) → s'.disk k = s.disk k ∧ s'.fresh k = s.fresh k := by
    rintro k ⟨r, hr⟩
    rcases hdisk with ⟨hd, hf⟩ | ⟨-, d, hd, hf⟩
    · rw [hd, hf]; exact ⟨rfl, rfl⟩
    · have hk : k ≠ (s.entry e).key := by rintro rfl; rw [hf, update_self] at hr; cases hr
      rw [hd, hf, update_of_ne hk, update_of_ne hk]; exact ⟨rfl, rfl⟩
  refine ⟨fun e' => ?_, fun e1 e2 h1 h2 hk => ?_, fun e' => ?_, fun k q t hf => ?_, fun q k hq => ?_,
    fun q k t hq => ?_⟩
  · rw [hrefs e', hheld, h.refs e']
  · rw [hrefs] at h1 h2; rw [hkeys, hkeys] at hk; exact h.alone e1 e2 h1 h2 hk
  · by_cases he : e' = e
    · rw [he]
      exact hat
    · refine (h.each e').other (hentry e' he) (fun q => by rw [hheld]) (fun q hq => h.ref_pos hq)
        (fun hr => .inl ?_) fun q => ?_
      · rcases hdisk with ⟨hd, -⟩ | ⟨-, d, hd, -⟩
        · rw [hd]
        · rw [hd, update_of_ne]
          exact fun hk => he (h.alone e' e hr (h.ref_pos hpos) hk)
      · by_cases hqp : q = p
        · rw [hqp]; exact .inr ⟨hp.ne he, ho.ne he⟩
        · exact .inl (hpc q hqp)
  · obtain ⟨hd, hf'⟩ := hsame k ⟨_, hf⟩
    rw [hf'] at hf; exact (h.new k q t hf).keep hd hkeys hheld hpasts
  · have hqp : q ≠ p := by rintro rfl; exact hfound k hq
    rw [hpc q hqp] at hq
    obtain ⟨t, ht⟩ := h.found q k hq
    rcases hdisk with ⟨-, hf⟩ | ⟨hnp, d, -, hf⟩
    · rw [hf]; exact ⟨t, ht⟩
    · have hk : k ≠ (s.entry e).key := by
        rintro rfl
        rcases (h.new _ q t ht).sole e p rfl hpos with hpq | hp
        · exact hqp hpq.symm
        · exact hnp hp
      rw [hf, update_of_ne hk]; exact ⟨t, ht⟩
  · have hqp : q ≠ p := by rintro rfl; exact hscan k t hq
    rw [hpc q hqp] at hq; exact h.scanning q k t hq

/-- A process ends a call with `m` references to an entry that becomes `x`; all but the entry itself. -/
theorem Inv.rehold {m : ℕ} (hs : s' = ((s.setEntry e x).hold p e m).goto p .idle)
    (hsum : x.ref + s.held (p, e) = (s.entry e).ref + m)
    (halone : ∀ e', e' ≠ e → 0 < x.ref → 0 < (s.entry e').ref → (s.entry e').key ≠ x.key)
    (habout : ∀ e', about (s.pc p) = some e' → e' = e) (hkey : x.key = (s.entry e).key ∨ ∀ q, s.held (q, e) = 0)
    (hnew : 0 < m → ∀ q t, s.fresh x.key = some (q, t) → p = q) (hat : At s' e) : Inv s' := by
  subst hs
  have hne : ∀ q e', (q, e') ≠ (p, e) → update s.held (p, e) m (q, e') = s.held (q, e') := fun q e' =>
    (update_of_ne · _ _)
  have hpc : ∀ q, q ≠ p → update s.pc p .idle q = s.pc q := fun q hq => update_of_ne hq _ _
  have hentry : ∀ e', e' ≠ e → update s.entry e x e' = s.entry e' := fun e' he => update_of_ne he _ _
  have hidle : ∀ {q pc}, update s.pc p .idle q = pc → pc ≠ .idle → s.pc q = pc := fun {q pc} hq hn => by
    by_cases hqp : q = p
    · rw [hqp, update_self] at hq; exact absurd hq.symm hn
    · rwa [hpc q hqp] at hq
  refine ⟨fun e' => ?_, fun e1 e2 h1 h2 hk => ?_, fun e' => ?_, fun k q t hf => ?_, fun q k hq => ?_,
    fun q k t hq => ?_⟩
  · show (update s.entry e x e').ref = ∑ q, update s.held (p, e) m (q, e')
    by_cases he : e' = e
    · have hsum' := sum_hold s.held p e m
      rw [he, update_self]
      rw [h.refs e] at hsum; omega
    · rw [hentry e' he, sum_hold_ne s.held p m he, h.refs e']
  · change 0 < (update s.entry e x e1).ref at h1
    change 0 < (update s.entry e x e2).ref at h2
    change (update s.entry e x e1).key = (update s.entry e x e2).key at hk
    by_cases he1 : e1 = e <;> by_cases he2 : e2 = e
    · rw [he1, he2]
    · rw [he1, update_self] at h1 hk
      rw [hentry e2 he2] at h2 hk; exact absurd hk.symm (halone e2 he2 h1 h2)
    · rw [he2, update_self] at h2 hk
      rw [hentry e1 he1] at h1 hk; exact absurd hk (halone e1 he1 h2 h1)
    · rw [hentry e1 he1] at h1 hk
      rw [hentry e2 he2] at h2 hk; exact h.alone e1 e2 h1 h2 hk
  · by_cases he : e' = e
    · rw [he]
      exact hat
    · refine (h.each e').other (hentry e' he) (fun q => hne q e' fun hc => he (Prod.mk.inj hc).2)
        (fun q hq => h.ref_pos hq) (fun _ => .inl rfl) fun q => ?_
      by_cases hqp : q = p
      · refine .inr ⟨fun ha => he (habout e' (hqp ▸ ha)), ?_⟩
        show about (update s.pc p .idle q) ≠ _
        rw [hqp, update_self]; exact nofun
      · exact .inl (hpc q hqp)
  · have hN := h.new k q t hf
    refine ⟨hN.typed, hN.disk, fun e' r hk hr => ?_⟩
    change (update s.entry e x e').key = k at hk
    change 0 < update s.held (p, e) m (r, e') at hr
    show _ ∨ past (update s.pc p .idle r) e'
    by_cases hre : (r, e') = (p, e)
    · cases hre; rw [update_self] at hk hr; exact .inl (hnew hr q t (hk ▸ hf))
    · rw [hne r e' hre] at hr
      have hk' : (s.entry e').key = k := by
        by_cases he : e' = e
        · subst he
          rw [update_self] at hk
          exact (hkey.resolve_right fun h0 => hr.ne' (h0 r)).symm.trans hk
        · rwa [hentry e' he] at hk
      refine (hN.sole e' r hk' hr).imp_right fun hp => ?_
      have hrp : r ≠ p := by rintro rfl; exact hre (by rw [habout e' (about_of_past hp)])
      rwa [hpc r hrp]
  · exact h.found q k (hidle hq nofun)
  · exact h.scanning q k t (hidle hq nofun)

theorem Inv.count {n m : ℕ} (hs : s' = ((s.setEntry e { s.entry e with ref := n }).hold p e m).goto
      p .idle) (hsum : n + s.held (p, e) = (s.entry e).ref + m) (hn : 0 < n → 0 < (s.entry e).ref)
    (hlock : (s.entry e).lock = some p → 0 < m) (hstage : stageOf (s.pc p) = none)
    (habout : ∀ e', about (s.pc p) = some e' → e' = e)
    (hfree : ∀ q, q ≠ p → ¬ (s.pc q = .trunc e ∨ s.pc q = .clear e))
    (hdead : (s.disk (s.entry e).key).type = 0 → m = 0)
    (hnew : 0 < m → ∀ q t, s.fresh (s.entry e).key = some (q, t) → p = q) : Inv s' := by
  refine h.rehold hs hsum (fun e' he h0 h1 hk => he (h.alone e' e h1 (hn h0) hk)) habout (.inl rfl) hnew ?_
  subst hs
  have hm : update s.held (p, e) m (p, e) = m := update_self _ _ _
  refine (h.each e).count (update_self _ _ _) hn (fun q hq => update_of_ne (fun hc => hq (Prod.mk.inj hc).1) _ _)
    (fun hl => ?_) (fun q hq => update_of_ne hq _ _) ?_ (by rw [hstage]; exact nofun) hfree rfl fun h0 => ?_
  · exact (hlock hl).trans_eq hm.symm
  · show about (update s.pc p .idle p) ≠ _
    rw [update_self]; exact nofun
  · exact hm.trans (hdead h0)

theorem Inv.walk (hold : about (s.pc p) = none) (hnew : about pc = none)
    (hfound : ∀ k, pc ≠ .found k) (hscan : ∀ k t, pc = .scan k t → t ≠ 0) : Inv (s.goto p pc) := by
  have hpc : ∀ q, q ≠ p → (s.goto p pc).pc q = s.pc q := fun q hq => update_of_ne hq _ _
  have hself : (s.goto p pc).pc p = pc := update_self _ _ _
  refine ⟨h.refs, h.alone, fun e => ?_, fun k q t hf => ?_, fun q k hq => ?_, fun q k t hq => ?_⟩
  · refine (h.each e).other rfl (fun _ => rfl) (fun q hq => h.ref_pos hq) (fun _ => .inl rfl) fun q => ?_
    by_cases hqp : q = p
    · rw [hqp, hself, hold, hnew]; exact .inr ⟨nofun, nofun⟩
    · exact .inl (hpc q hqp)
  · refine (h.new k q t hf).keep rfl (fun _ => rfl) rfl fun r e hr => ?_
    have hrp : r ≠ p := by rintro rfl; rw [about_of_past hr] at hold; cases hold
    rw [hpc r hrp]; exact hr
  · by_cases hqp : q = p
    · rw [hqp, hself] at hq; exact absurd hq (hfound k)
    · rw [hpc q hqp] at hq; exact h.found q k hq
  · by_cases hqp : q = p
    · rw [hqp, hself] at hq; exact hscan k t hq
    · rw [hpc q hqp] at hq; exact h.scanning q k t hq

theorem Inv.take {type : BitVec 16} (hp : s.pc p = .scan key type)
    (hfree : (s.disk key).type = 0) : Inv (State.goto { s with
      disk := update s.disk key { Dinode.zero with type := type }
      fresh := update s.fresh key (some (p, type)) } p (.found key)) := by
  have htype := h.scanning p key type hp
  have hpc : ∀ q, q ≠ p → update s.pc p (.found key) q = s.pc q := fun q hq =>
    update_of_ne hq _ _
  have hself : update s.pc p (.found key) p = .found key := update_self _ _ _
  have hpasts : ∀ q e, past (s.pc q) e → past (update s.pc p (.found key) q) e := by
    intro q e hq
    have hqp : q ≠ p := by
      rintro rfl
      have hab := about_of_past hq
      rw [hp] at hab; cases hab
    rw [hpc q hqp]; exact hq
  refine ⟨h.refs, h.alone, fun e => ?_, fun k q t hf => ?_, fun q k hq => ?_, fun q k t hq => ?_⟩
  · refine (h.each e).other rfl (fun _ => rfl) (fun q hq => h.ref_pos hq) (fun _ => ?_) fun q => ?_
    · show update s.disk key _ (s.entry e).key = _ ∨ _ ∧ (update s.disk key _ _).type ≠ 0
      by_cases hk : (s.entry e).key = key
      · rw [hk, update_self]; exact .inr ⟨hfree, htype⟩
      · rw [update_of_ne hk]; exact .inl rfl
    · by_cases hqp : q = p
      · rw [hqp, hp]
        refine .inr ⟨nofun, ?_⟩
        show about (update s.pc p (.found key) p) ≠ _
        rw [hself]; exact nofun
      · exact .inl (hpc q hqp)
  · replace hf : update s.fresh key (some (p, type)) k = some (q, t) := hf
    by_cases hk : k = key
    · rw [hk, update_self] at hf
      cases hf
      rw [hk]
      refine ⟨htype, update_self _ _ _, fun e r hke hr => .inr (hpasts r e ?_)⟩
      refine (h.each e).dead r ?_ hr
      rw [show (s.entry e).key = key from hke]; exact hfree
    · rw [update_of_ne hk] at hf
      exact (h.new k q t hf).keep (update_of_ne hk _ _) (fun _ => rfl) rfl hpasts
  · show ∃ t, update s.fresh key (some (p, type)) k = some (q, t)
    by_cases hqp : q = p
    · replace hq : update s.pc p (.found key) q = .found k := hq
      rw [hqp, hself] at hq
      cases hq; exact ⟨type, by rw [hqp, update_self]⟩
    · have hq' : s.pc q = .found k := (hpc q hqp).symm.trans hq
      obtain ⟨t, ht⟩ := h.found q k hq'
      have hk : k ≠ key := by
        rintro rfl
        have hN := h.new k q t ht
        rw [hN.disk] at hfree; exact hN.typed hfree
      exact ⟨t, by rw [update_of_ne hk]; exact ht⟩
  · have hqp : q ≠ p := by
      rintro rfl
      replace hq : update s.pc q (.found key) q = .scan k t := hq
      rw [update_self] at hq; cases hq
    exact h.scanning q k t ((hpc q hqp).symm.trans hq)

theorem Inv.recycle (h0 : (s.entry e).ref = 0)
    (hnone : ∀ e', 0 < (s.entry e').ref → (s.entry e').key ≠ key) (hold : about (s.pc p) = none)
    (htype : (s.disk key).type ≠ 0) (hnew : ∀ q t, s.fresh key = some (q, t) → p = q) :
    Inv ((s.recycle p key e).goto p .idle) := by
  have hheld0 : ∀ q, ¬ 0 < s.held (q, e) := fun q hq => (h.ref_pos hq).ne' h0
  have hat := h.each e
  have hlock : ∀ q, (s.entry e).lock ≠ some q := fun q hq => hheld0 q (hat.owner q hq)
  set s' := (s.recycle p key e).goto p .idle with hs
  have hself : s'.entry e = { s.entry e with key := key, ref := 1, valid := false } :=
    update_self _ _ _
  have habout : ∀ q, about (s'.pc q) ≠ some e := by
    intro q ha
    by_cases hqp : q = p
    · rw [hqp, show s'.pc p = .idle from update_self _ _ _] at ha; cases ha
    · rw [show s'.pc q = s.pc q from update_of_ne hqp _ _] at ha
      cases hpcq : s.pc q with
      | drop e1 =>
        rw [hpcq] at ha
        cases ha; exact hheld0 q (hat.dropping q hpcq).1
      | _ =>
        have hst : stageOf (s.pc q) = some e := by rw [hpcq] at ha ⊢; exact ha
        exact hlock q (hat.stage q hst).1
  refine h.rehold hs ?_ (fun e' _ _ => hnone e') (fun e' ha => absurd (hold.symm.trans ha) nofun)
    (.inr fun q => Nat.eq_zero_of_not_pos (hheld0 q)) (fun _ => hnew) ?_
  · rw [h0, Nat.eq_zero_of_not_pos (hheld0 p), Nat.zero_add]
  · refine ⟨fun q hq => ?_, fun q hq => absurd (about_of_stageOf hq) (habout q),
      fun q hq => absurd (by rw [hq]; rfl) (habout q), fun q hq => absurd (by rw [hq]; rfl) (habout q),
      fun q hq => ?_, fun hd => ?_, fun hv => ?_,
      fun q hq => absurd (about_of_stageOf (stageOf_of_freeing hq)) (habout q),
      fun q hq => absurd (about_of_past hq) (habout q), fun q ht => ?_⟩
    · rw [hself] at hq; exact absurd hq (hlock q)
    · rw [hself] at hq; exact absurd hq (hlock q)
    · rw [hself] at hd ⊢; exact hat.clean hd
    · rw [hself] at hv; cases hv
    · rw [hself] at ht; exact absurd ht htype

end

omit [Fintype P] in
theorem At.uninvalidated (h : At s e) (hl : (s.entry e).lock = none ∨ (s.entry e).lock = some p)
    (hp : s.pc p ≠ .invalidate e) : ∀ q, s.pc q ≠ .invalidate e := by
  intro q hq
  by_cases hqp : q = p
  · rw [hqp] at hq; exact hp hq
  · exact h.unstaged hl hqp (by rw [hq]; rfl)

theorem Inv.set (h : Inv s) (hl : (s.entry e).lock = none ∨ (s.entry e).lock = some p)
    (hkey : x.key = (s.entry e).key) (href : x.ref = (s.entry e).ref) (hpos : 0 < s.held (p, e))
    (hp : Only e (s.pc p)) (ho : Only e c)
    (hc : (∀ k, c ≠ .found k) ∧ ∀ k t, c ≠ .scan k t) (hpast : past (s.pc p) e → past c e)
    (hx : Suits s.disk (s.held (p, e)) p e x c) : Inv ((s.setEntry e x).goto p c) := by
  have hentry : ((s.setEntry e x).goto p c).entry e = x := update_self _ _ _
  have hself : ((s.setEntry e x).goto p c).pc p = c := update_self _ _ _
  have hpc : ∀ q, q ≠ p → ((s.setEntry e x).goto p c).pc q = s.pc q := fun q hq =>
    update_of_ne hq _ _
  refine h.own hself (fun e' he => update_of_ne he _ _) (by rw [hentry, hkey])
    (by rw [hentry, href]) rfl hpos hpc hp ho hpast hc.1 hc.2 ?_ (.inl ⟨rfl, rfl⟩)
  refine (h.each e).own hself hl hentry (fun _ => rfl) hpos hpc hx fun q ht hq => ?_
  have hdead := (h.each e).dead q (by rw [← hkey]; exact ht) hq
  by_cases hqp : q = p
  · rw [hqp] at hdead ⊢; rw [hself]; exact hpast hdead
  · rw [hpc q hqp]; exact hdead

theorem Inv.write (h : Inv s) {d : Dinode} (hl : (s.entry e).lock = some p)
    (hv : (s.entry e).valid = true) (hp : Only e (s.pc p)) (ho : Only e c)
    (hc : (∀ k, c ≠ .found k) ∧ ∀ k t, c ≠ .scan k t) (hpast : ¬ past (s.pc p) e)
    (hdrop : c ≠ .drop e) (hread : c ≠ .read e) (hlive : c ≠ .invalidate e → d.type ≠ 0)
    (hfree : c = .trunc e ∨ c = .clear e → d.nlink = 0 ∧ (s.entry e).ref = 1)
    (hsingle : past c e → s.held (p, e) = 1)
    (hdead : d.type = 0 → c = .invalidate e ∧ (s.entry e).ref = 1) : Inv ((s.write e d).goto p c) := by
  have hpos := (h.each e).owner p hl
  set s' := (s.write e d).goto p c
  have hentry : s'.entry e = { s.entry e with copy := d, dirty := false } := update_self _ _ _
  have hself : s'.pc p = c := update_self _ _ _
  have hpc : ∀ q, q ≠ p → s'.pc q = s.pc q := fun q hq => update_of_ne hq _ _
  have hdisk : s'.disk (s.entry e).key = d := update_self _ _ _
  refine h.own hself (fun e' he => update_of_ne he _ _) (by rw [hentry])
    (by rw [hentry]) rfl hpos hpc hp ho (absurd · hpast) hc.1 hc.2 ?_ (.inr ⟨hpast, d, rfl, rfl⟩)
  refine (h.each e).own hself (.inr hl) hentry (fun _ => rfl) hpos hpc ⟨.inr hl, fun _ => ⟨hl, rfl⟩,
    (absurd · hdrop), (absurd · hread), fun _ _ => hv, nofun, fun _ hci => ?_, fun hq => ?_, hsingle⟩
    fun q ht hq => ?_
  · rw [hdisk]; exact ⟨hlive hci, hlive hci, fun _ => rfl⟩
  · obtain ⟨hn, hr⟩ := hfree hq; exact ⟨hv, hn, hr⟩
  · replace ht : (s'.disk (s.entry e).key).type = 0 := ht
    rw [hdisk] at ht
    obtain ⟨hci, hone⟩ := hdead ht
    have hqp : q = p := by
      by_contra hqp
      have := h.held_add_le (e := e) hqp; omega
    rw [hqp, hself, hci]; exact .inl rfl

/-! ## The steps -/

omit [Fintype P] in
theorem goto_idle (hp : s.pc p = .idle) : s.goto p .idle = s := by
  have hself : update s.pc p .idle = s.pc := by rw [← hp]; exact update_eq_self _ _
  unfold State.goto
  rw [hself]

theorem Inv.not_freeing (h : Inv s) (hp : 0 < s.held (p, e)) :
    ∀ q, q ≠ p → ¬ (s.pc q = .trunc e ∨ s.pc q = .clear e) := by
  intro q hqp hq
  have hone := ((h.each e).freeing q hq).2.2
  have hheld := (h.each e).held_of_freeing hq
  have := h.held_add_le (e := e) hqp; omega

theorem Inv.freeing_nlink (h : Inv s) (hq : s.pc q = .trunc e ∨ s.pc q = .clear e) :
    (s.disk (s.entry e).key).nlink = 0 := by
  obtain ⟨hv, hn, hone⟩ := (h.each e).freeing q hq
  obtain ⟨hlock, hclean⟩ := (h.each e).stage q (stageOf_of_freeing hq)
  have hninv := (h.each e).uninvalidated (.inr hlock) (by rcases hq with hq | hq <;> rw [hq] <;> exact nofun)
  have hlive := (h.each e).live hv (by omega) hninv
  rw [← hlive.2.2 hclean]; exact hn

theorem Inv.iget (h : Inv s) (hp : s.pc p = .idle ∨ s.pc p = .found key) (htype : (s.disk key).type ≠ 0)
    (hnew : ∀ q t, s.fresh key = some (q, t) → p = q)
    (hfree : ∀ e q, (s.entry e).key = key → q ≠ p → ¬ (s.pc q = .trunc e ∨ s.pc q = .clear e))
    (hs : iget s p key = .ok s') : Inv s' := by
  have habout : about (s.pc p) = none := by rcases hp with hp | hp <;> rw [hp] <;> rfl
  have hstage : stageOf (s.pc p) = none := by rcases hp with hp | hp <;> rw [hp] <;> rfl
  unfold Sharing.iget at hs
  cases hfind : s.find key with
  | some e =>
    rw [hfind] at hs
    cases hs
    have hprop := List.find?_some hfind
    obtain ⟨hr, hk⟩ := of_decide_eq_true hprop
    refine h.count rfl (by omega) (fun _ => hr) (fun _ => succ_pos _) hstage
      (fun e' ha => absurd (habout.symm.trans ha) nofun) (fun q hqp => hfree e q hk hqp) (fun h0 => ?_)
      fun _ q t hf => hnew q t (by rw [← hk]; exact hf)
    rw [hk] at h0; exact absurd h0 htype
  | none =>
    rw [hfind] at hs
    cases hempty : s.empty with
    | none => rw [hempty] at hs; cases hs
    | some e =>
      rw [hempty] at hs
      cases hs
      have hprop := List.find?_some hempty
      refine h.recycle (of_decide_eq_true hprop) (fun e' hr hk => ?_) habout htype hnew
      have hno := List.find?_eq_none.mp hfind e' (List.mem_finRange e')
      exact hno (decide_eq_true ⟨hr, hk⟩)

theorem Inv.step {ninodes : ℕ} (h : Inv s) (hs : step ninodes s p = .ok s') : Inv s' := by
  unfold Sharing.step at hs
  cases hp : s.pc p with
  | idle =>
    rw [hp] at hs
    cases hs; exact h
  | scan key type =>
    rw [hp] at hs
    have htype := h.scanning p key type hp
    have hab : about (s.pc p) = none := by rw [hp]; rfl
    simp only at hs
    split_ifs at hs with hend hfree
    · cases hs; exact h.walk hab rfl nofun nofun
    · cases hs; exact h.take hp hfree
    · cases hs
      refine h.walk hab rfl nofun fun k t hkt => ?_
      cases hkt; exact htype
  | found key =>
    rw [hp] at hs
    obtain ⟨t, ht⟩ := h.found p key hp
    have hN := h.new key p t ht
    refine h.iget (.inr hp) ?_ (fun q t' hf => ?_) (fun e q hk hqp hq => ?_) hs
    · rw [hN.disk]; exact hN.typed
    · rw [ht] at hf; exact (Prod.mk.inj (some.inj hf)).1
    · rcases hN.sole e q hk ((h.each e).held_of_freeing hq) with hqp' | hpast
      · exact hqp hqp'
      · rcases hq with hq | hq <;> rw [hq] at hpast <;> rcases hpast with hc | hc | hc <;> cases hc
  | read e =>
    rw [hp] at hs
    simp only at hs
    split_ifs at hs with h0
    cases hs
    obtain ⟨hlock, hclean⟩ := (h.each e).stage p (by rw [hp]; rfl)
    exact h.set (.inr hlock) rfl rfl ((h.each e).owner p hlock) (by rw [hp]; exact .inr rfl) (.inl rfl)
      ⟨nofun, nofun⟩ (by simp [past, hp]) ⟨.inr hlock, nofun, nofun, nofun, fun _ _ => rfl,
        fun hd => absurd (hclean.symm.trans hd) nofun, fun _ _ => ⟨h0, h0, fun _ => rfl⟩, by simp, by simp [past]⟩
  | trunc e =>
    rw [hp] at hs
    cases hs
    obtain ⟨hlock, hclean⟩ := (h.each e).stage p (by rw [hp]; rfl)
    obtain ⟨hv, hn, hone⟩ := (h.each e).freeing p (.inl hp)
    have hninv := (h.each e).uninvalidated (.inr hlock) (by rw [hp]; exact nofun)
    have htype := ((h.each e).live hv (by omega) hninv).1
    exact h.write hlock hv (by rw [hp]; exact .inr rfl) (.inr rfl) ⟨nofun, nofun⟩ (by simp [past, hp]) nofun nofun
      (fun _ => htype) (fun _ => ⟨hn, hone⟩) (by simp [past]) fun h0 => absurd h0 htype
  | clear e =>
    rw [hp] at hs
    cases hs
    obtain ⟨hlock, hclean⟩ := (h.each e).stage p (by rw [hp]; rfl)
    obtain ⟨hv, hn, hone⟩ := (h.each e).freeing p (.inr hp)
    refine h.write hlock hv (by rw [hp]; exact .inr rfl) (.inr rfl) ⟨nofun, nofun⟩ (by simp [past, hp]) nofun nofun
      (fun hc => absurd rfl hc) (by simp) (fun _ => ?_) fun _ => ⟨rfl, hone⟩
    have := (h.each e).owner p hlock
    have := h.held_le p e; omega
  | invalidate e =>
    rw [hp] at hs
    cases hs
    obtain ⟨hlock, hclean⟩ := (h.each e).stage p (by rw [hp]; rfl)
    have hsingle := (h.each e).single p (by rw [hp]; exact .inl rfl)
    exact h.set (.inr hlock) rfl rfl ((h.each e).owner p hlock) (by rw [hp]; exact .inr rfl) (.inr rfl)
      ⟨nofun, nofun⟩ (fun _ => .inr (.inl rfl)) ⟨.inr hlock, fun _ => ⟨hlock, hclean⟩, nofun, nofun,
        fun _ hst => absurd rfl hst, fun hd => absurd (hclean.symm.trans hd) nofun, nofun, by simp, fun _ => hsingle⟩
  | unlock e =>
    rw [hp] at hs
    cases hs
    obtain ⟨hlock, hclean⟩ := (h.each e).stage p (by rw [hp]; rfl)
    have hsingle := (h.each e).single p (by rw [hp]; exact .inr (.inl rfl))
    refine h.set (.inr hlock) rfl rfl ((h.each e).owner p hlock) (by rw [hp]; exact .inr rfl) (.inr rfl)
      ⟨nofun, nofun⟩ (fun _ => .inr (.inr rfl)) ⟨.inl rfl, nofun, fun _ => rfl, nofun, nofun,
        fun hd => absurd (hclean.symm.trans hd) nofun, fun hv _ => ?_, by simp, fun _ => hsingle⟩
    have hpos := h.ref_pos ((h.each e).owner p hlock)
    exact (h.each e).live hv hpos ((h.each e).uninvalidated (.inr hlock) (by rw [hp]; exact nofun))
  | drop e =>
    rw [hp] at hs
    cases hs
    obtain ⟨hheld, hlock⟩ := (h.each e).dropping p hp
    have hsingle := (h.each e).single p (by rw [hp]; exact .inr (.inr rfl))
    have hpos := h.ref_pos hheld
    refine h.count rfl (by omega) (fun _ => hpos) (fun hl => absurd hl hlock) (by rw [hp]; rfl)
      (fun e' ha => ?_) (h.not_freeing hheld) (fun _ => by omega) fun hm => by omega
    rw [hp] at ha; exact (some.inj ha).symm

/-! The calls of a process that is not inside one. -/

omit [DecidableEq P] [Fintype P] in
theorem not_past (hp : s.pc p = .idle) (e : Slot) : ¬ past (s.pc p) e := by
  rw [hp]; exact not_past_idle

section
variable (h : Inv s)
include h

section
variable (hp : s.pc p = .idle)
include hp

section
variable (hheld : 0 < s.held (p, e))
include hheld

theorem Inv.live_idle (hl : (s.entry e).lock = none ∨ (s.entry e).lock = some p) (hv : (s.entry e).valid = true) :
    (s.entry e).copy.type ≠ 0 ∧ (s.disk (s.entry e).key).type ≠ 0 ∧
      ((s.entry e).dirty = false → (s.entry e).copy = s.disk (s.entry e).key) :=
  (h.each e).live hv (h.ref_pos hheld) ((h.each e).uninvalidated (p := p) hl (by rw [hp]; exact nofun))

/-- A process that has a reference takes or gives up one. -/
theorem Inv.recount {n m : ℕ}
    (hsum : n + s.held (p, e) = (s.entry e).ref + m) (hlock : (s.entry e).lock = some p → 0 < m) :
    Inv ((s.setEntry e { s.entry e with ref := n }).hold p e m) := by
  have hpast := not_past hp
  have hpos := h.ref_pos hheld
  refine h.count ?_ hsum (fun _ => hpos) hlock (by rw [hp]; rfl) (fun e' ha => by rw [hp] at ha; cases ha)
    (h.not_freeing hheld) (fun h0 => absurd ((h.each e).dead p h0 hheld) (hpast e)) fun _ q t hf => ?_
  · exact (goto_idle (s := (s.setEntry e _).hold p e _) hp).symm
  · exact ((h.new _ q t hf).sole e p rfl hheld).resolve_right (hpast e)

theorem Inv.idup : Inv (s.refUp p e) :=
  h.recount hp hheld (by omega) fun _ => succ_pos _

theorem Inv.ilock (hl : (s.entry e).lock = none) : Inv (lockEntry s p e) := by
  have hclean := (h.each e).clean_of_unlocked hl
  have hpast := not_past hp e
  unfold lockEntry
  split_ifs with hv
  · exact h.set (.inl hl) rfl rfl hheld (by rw [hp]; exact .inl rfl) (.inl rfl) ⟨nofun, nofun⟩ (absurd · hpast)
      ⟨.inr rfl, nofun, nofun, nofun, fun _ _ => hv, fun _ => rfl,
        fun _ _ => h.live_idle hp hheld (.inl hl) hv, by simp, (absurd · not_past_idle)⟩
  · have hv' : (s.entry e).valid = false := Bool.eq_false_iff.mpr hv
    exact h.set (.inl hl) rfl rfl hheld (by rw [hp]; exact .inl rfl) (.inr rfl) ⟨nofun, nofun⟩ (absurd · hpast)
      ⟨.inr rfl, fun _ => ⟨rfl, hclean⟩, nofun, fun _ => hv', fun _ hst => absurd rfl hst, fun _ => rfl,
        fun hc => absurd hc hv, by simp, by simp [past]⟩

end

theorem Inv.setIdle (hl : (s.entry e).lock = some p)
    (hlock : x.lock = none ∨ x.lock = some p) (hkey : x.key = (s.entry e).key) (href : x.ref = (s.entry e).ref)
    (hvalid : x.lock = some p → x.valid = true) (hdirty : x.dirty = true → x.lock = some p)
    (hlive : x.valid = true → x.copy.type ≠ 0 ∧ (s.disk x.key).type ≠ 0 ∧
      (x.dirty = false → x.copy = s.disk x.key)) : Inv (s.setEntry e x) := by
  have hheld := (h.each e).owner p hl
  have hset : s.setEntry e x = (s.setEntry e x).goto p .idle := (goto_idle (s := s.setEntry e _) hp).symm
  rw [hset]
  exact h.set (.inr hl) hkey href hheld (by rw [hp]; exact .inl rfl) (.inl rfl) ⟨nofun, nofun⟩
    (absurd · (not_past hp e)) ⟨hlock, nofun, nofun, nofun, fun hx _ => hvalid hx, hdirty, fun hv _ => hlive hv,
      by simp, (absurd · not_past_idle)⟩

/-- A reference of the caller keeps the inode from being freed. -/
theorem Inv.igetOwn (hheld : 0 < s.held (p, e)) (hs : Sharing.iget s p (s.entry e).key = .ok s') : Inv s' := by
  refine h.iget (.inl hp) (fun h0 => ?_) (fun q t hf => ?_) (fun e' q hk hqp hq => ?_) hs
  · exact not_past hp e ((h.each e).dead p h0 hheld)
  · exact ((h.new _ q t hf).sole e p rfl hheld).resolve_right (not_past hp e)
  · obtain ⟨-, -, hone⟩ := (h.each e').freeing q hq
    have hheldq := (h.each e').held_of_freeing hq
    obtain rfl := h.alone e' e (by omega) (h.ref_pos hheld) hk
    have := h.held_add_le (e := e') hqp; omega

theorem Inv.iput (hheld : 0 < s.held (p, e)) (hl : (s.entry e).lock ≠ some p) : Inv (s.refDown p e) := by
  have hpos := h.ref_pos hheld
  exact h.recount hp hheld (by omega) fun hc => absurd hc hl

theorem Inv.iputLast (hheld : 0 < s.held (p, e))
    (hnone : (s.entry e).lock = none) (hone : (s.entry e).ref = 1) (hv : (s.entry e).valid = true)
    (hn : (s.entry e).copy.nlink = 0) :
    Inv ((s.setEntry e { s.entry e with lock := some p }).goto p (.trunc e)) := by
  have hclean := (h.each e).clean_of_unlocked hnone
  exact h.set (.inl hnone) rfl rfl hheld (by rw [hp]; exact .inl rfl) (.inr rfl) ⟨nofun, nofun⟩
    (absurd · (not_past hp e)) ⟨.inr rfl, fun _ => ⟨rfl, hclean⟩, nofun, nofun, fun _ hst => absurd rfl hst,
      fun _ => rfl, fun _ _ => h.live_idle hp hheld (.inl hnone) hv, fun _ => ⟨hv, hn, hone⟩, by simp [past]⟩

theorem Inv.iupdate (hl : (s.entry e).lock = some p) : Inv (s.write e (s.entry e).copy) := by
  have hv := (h.each e).ready p hl (by rw [hp]; exact nofun)
  have htype := (h.live_idle hp ((h.each e).owner p hl) (.inr hl) hv).1
  have hset : s.write e (s.entry e).copy = (s.write e (s.entry e).copy).goto p .idle :=
    (goto_idle (s := s.write e _) hp).symm
  rw [hset]
  exact h.write hl hv (by rw [hp]; exact .inl rfl) (.inl rfl) ⟨nofun, nofun⟩ (not_past hp e) nofun nofun
    (fun _ => htype) (by simp) (absurd · not_past_idle) fun h0 => absurd h0 htype

end

theorem Inv.exec {ninodes : ℕ} {ev : Ev P} (hok : Named s ev)
    (hs : exec ninodes s ev = some (.ok s')) : Inv s' := by
  cases ev with
  | iget p key =>
    obtain ⟨hp, hs⟩ := ite_none_right_eq_some.mp hs
    rcases hok with ⟨htype, hlink⟩ | ⟨e, hheld, rfl⟩
    · refine h.iget (.inl hp) htype (fun q t hf => ?_) (fun e q hk _ hq => ?_) (some.inj hs)
      · rw [(h.new key q t hf).disk] at hlink; exact absurd rfl hlink
      · have hnlink := h.freeing_nlink hq; rw [hk] at hnlink; exact hlink hnlink
    · exact h.igetOwn hp hheld (some.inj hs)
  | idup p e =>
    obtain ⟨⟨hp, hheld⟩, hs⟩ := ite_none_right_eq_some.mp hs
    cases hs; exact h.idup hp hheld
  | ilock p e =>
    obtain ⟨⟨hp, hheld⟩, hs⟩ := ite_none_right_eq_some.mp hs
    split_ifs at hs with hr hl
    · cases hs
    cases hs; exact h.ilock hp hheld hl
  | iunlock p e =>
    obtain ⟨⟨hp, hclean⟩, hs⟩ := ite_none_right_eq_some.mp hs
    split_ifs at hs with hbad
    · cases hs
    cases hs
    obtain ⟨hl, -⟩ := not_or.mp hbad
    replace hl := not_not.mp hl
    exact h.setIdle hp hl (.inl rfl) rfl rfl nofun (fun hd => absurd (hclean.symm.trans hd) nofun)
      fun hv => h.live_idle hp ((h.each e).owner p hl) (.inr hl) hv
  | iput p e =>
    obtain ⟨⟨hp, hheld, hl⟩, hs⟩ := ite_none_right_eq_some.mp hs
    split_ifs at hs with hlast hnone
    · cases hs
      obtain ⟨hone, hv, hn⟩ := hlast; exact h.iputLast hp hheld hnone hone hv hn
    · cases hs
    · cases hs; exact h.iput hp hheld hl
  | ialloc p dev type =>
    obtain ⟨⟨hp, htype⟩, hs⟩ := ite_none_right_eq_some.mp hs
    cases hs
    refine h.walk (by rw [hp]; rfl) rfl nofun fun k t hkt => ?_
    cases hkt; exact htype
  | change p e d =>
    obtain ⟨⟨hp, hl, hd⟩, hs⟩ := ite_none_right_eq_some.mp hs
    cases hs
    have hv := (h.each e).ready p hl (by rw [hp]; exact nofun)
    have hlive := h.live_idle hp ((h.each e).owner p hl) (.inr hl) hv
    exact h.setIdle hp hl (.inr hl) rfl rfl (fun _ => hv) (fun _ => hl) fun _ => ⟨hd, hlive.2.1, nofun⟩
  | iupdate p e =>
    obtain ⟨⟨hp, hl⟩, hs⟩ := ite_none_right_eq_some.mp hs
    cases hs; exact h.iupdate hp hl
  | step p =>
    obtain ⟨-, hs⟩ := ite_none_right_eq_some.mp hs; exact h.step (some.inj hs)

end

omit [DecidableEq P] in
theorem inv_fresh (h : Fresh s) : Inv s := by
  have hstage : ∀ p e, about (s.pc p) ≠ some e := fun p e => by rw [h.pc p]; exact nofun
  refine ⟨fun e => ?_, fun e e' hr => ?_, fun e => ⟨fun p hl => ?_, fun p hp => ?_, fun p hp => ?_, fun p hp => ?_,
    fun p hl => ?_, fun hd => ?_, fun _ hr => ?_, fun p hp => ?_, fun p hp => ?_, fun p _ hq => ?_⟩,
    fun k p t hf => ?_, fun p k hp => ?_, fun p k t hp => ?_⟩
  · rw [h.ref e]; exact (sum_eq_zero fun p _ => h.held (p, e)).symm
  · rw [h.ref e] at hr; exact absurd hr (lt_irrefl 0)
  · rw [h.lock e] at hl; cases hl
  · exact absurd (about_of_stageOf hp) (hstage p e)
  · exact absurd (by rw [hp]; rfl) (hstage p e)
  · exact absurd (by rw [hp]; rfl) (hstage p e)
  · rw [h.lock e] at hl; cases hl
  · rw [h.dirty e] at hd; cases hd
  · rw [h.ref e] at hr; exact absurd hr (lt_irrefl 0)
  · exact absurd (about_of_stageOf (stageOf_of_freeing hp)) (hstage p e)
  · exact absurd (about_of_past hp) (hstage p e)
  · rw [h.held] at hq; exact absurd hq (lt_irrefl 0)
  · rw [h.fresh k] at hf; cases hf
  · rw [h.pc p] at hp; cases hp
  · rw [h.pc p] at hp; cases hp

/-- **The inode table.**  In every run in which `iget` is called, but for `ialloc`, for allocated inodes with
links or that the caller refers to: an inode has one entry in use; an entry that may be recycled has no
references; an entry that is valid and not locked is as on the disk; `iput` frees an inode without links whose only
reference is its own, and does not wait for the sleep-lock; and the process that locks an inode that it has
allocated finds it as `ialloc` has left it, since nobody else can write it. -/
theorem table_sound {ninodes : ℕ} {h : List (State P × Ev P)} (hr : Run (sys P ninodes) h s)
    (hok : ∀ x ∈ h, Named x.1 x.2) :
    (∀ e e', 0 < (s.entry e).ref → 0 < (s.entry e').ref → (s.entry e).key = (s.entry e').key → e = e') ∧
    (∀ e, (s.entry e).ref = 0 → ∀ p, s.held (p, e) = 0) ∧
    (∀ e, 0 < (s.entry e).ref → (s.entry e).valid = true → (s.entry e).lock = none →
      (s.entry e).copy = s.disk (s.entry e).key) ∧
    (∀ p e, s.pc p = .trunc e ∨ s.pc p = .clear e → (s.entry e).copy.nlink = 0 ∧ (s.entry e).ref = 1 ∧
      s.held (p, e) = 1 ∧ ∀ q, q ≠ p → s.held (q, e) = 0) ∧
    (∀ p e, exec ninodes s (.iput p e) ≠ some (.error .deadlock)) ∧
    ∀ key p type, s.fresh key = some (p, type) → ∀ e, (s.entry e).key = key → 0 < (s.entry e).ref →
      (∀ q, (s.entry e).lock = some q → s.pc q = .idle ∨ s.pc q = .trunc e ∨ s.pc q = .clear e → q = p) ∧
      ((s.entry e).lock = some p → s.pc p = .idle → (s.entry e).dirty = false →
        (s.entry e).copy = { Dinode.zero with type := type }) := by
  have hinv : Inv s := hr.inv_of_ok (fun _ => inv_fresh)
    (fun _ _ _ hi hC hs => hi.exec hC hs) hok
  refine ⟨hinv.alone, fun e h0 p => le_zero.mp (h0 ▸ hinv.held_le p e), fun e hr hv hl => ?_,
    fun p e hp => ?_, fun p e hs => ?_, fun key p type hf e hk hr => ⟨fun q hl hq => ?_, fun hl hp hc => ?_⟩⟩
  · have hat := hinv.each e
    refine (hat.live hv hr fun q hq => ?_).2.2 (hat.clean_of_unlocked hl)
    have hlock := (hat.stage q (by rw [hq]; rfl)).1
    rw [hl] at hlock; cases hlock
  · obtain ⟨-, hn, hone⟩ := (hinv.each e).freeing p hp
    have hheld := (hinv.each e).held_of_freeing hp
    have hle := hinv.held_le p e
    refine ⟨hn, hone, by omega, fun q hqp => ?_⟩
    have := hinv.held_add_le (e := e) hqp; omega
  · obtain ⟨⟨hp, hheld, hl⟩, hs⟩ := ite_none_right_eq_some.mp hs
    split_ifs at hs with hlast hnone
    · cases hs
    · obtain ⟨q, hq⟩ := ne_none_iff_exists'.mp hnone
      have hqp : q ≠ p := by rintro rfl; exact hl hq
      have := (hinv.each e).owner q hq
      have := hinv.held_add_le (e := e) hqp; omega
    · cases hs
  · rcases (hinv.new key p type hf).sole e q hk ((hinv.each e).owner q hl) with hqp | hpast
    · exact hqp
    · rcases hq with hq | hq | hq <;> rw [hq] at hpast <;> rcases hpast with hc | hc | hc <;> cases hc
  · have hat := hinv.each e
    have hv := hat.ready p hl (by rw [hp]; exact nofun)
    have hlive := hat.live hv hr (hat.uninvalidated (.inr hl) (by rw [hp]; exact nofun))
    rw [hlive.2.2 hc, hk]; exact (hinv.new key p type hf).disk

def next (ninodes : ℕ) (s : State P) (ev : Ev P) : Option (State P) := okOf (exec ninodes s ev)

def blank : State Bool where
  entry _ := ⟨⟨0, 0⟩, 0, false, Dinode.zero, none, false⟩
  disk _ := Dinode.zero
  pc _ := .idle
  held _ := 0
  fresh _ := none

theorem fresh_blank : Fresh blank :=
  ⟨fun _ => rfl, fun _ => rfl, fun _ => rfl, fun _ => rfl, fun _ => rfl, fun _ => rfl⟩

def allocate : List (Ev Bool) :=
  [.ialloc false 1 2, .step false, .step false, .ilock false 0, .step false]

/-- The file is as `ialloc` has made it. -/
theorem table_sound_alloc : ∃ s : State Bool, (s.entry 0).lock = some false ∧
    (s.entry 0).copy = { Dinode.zero with type := 2 } := by
  obtain ⟨s, hr, hmap, ht⟩ := exists_run (T := sys Bool 200) (f := next 200) (fun _ _ _ h => okOf_eq_some h)
    fresh_blank allocate (fun s => decide ((s.entry 0).lock = some false ∧ s.pc false = .idle ∧
      (s.entry 0).dirty = false ∧ 0 < (s.entry 0).ref ∧
      s.fresh (s.entry 0).key = some (false, 2))) (by decide +kernel)
  obtain ⟨hl, hp, hd, hpos, hf⟩ := of_decide_eq_true ht
  have hok : ∀ x ∈ stepsOf (next 200) blank allocate, Named x.1 x.2 := by
    intro x hx
    have hev : x.2 ∈ allocate := by rw [← hmap]; exact List.mem_map_of_mem hx
    have hno : ∀ ev ∈ allocate, Named x.1 ev := by
      intro ev hev
      simp only [allocate, List.mem_cons, List.not_mem_nil, or_false] at hev
      rcases hev with rfl | rfl | rfl | rfl | rfl <;> trivial
    exact hno x.2 hev
  obtain ⟨-, -, -, -, -, hnew⟩ := table_sound hr hok
  exact ⟨s, hl, (hnew _ false 2 hf 0 rfl hpos).2 hl hp hd⟩

/-- A process marks inode 1 as allocated; before its `iget`, another one refers to the inode, locks it and
puts it; the first one goes on and locks it. -/
def freedUnder : List (Ev Bool) :=
  [.ialloc false 1 2, .step false, .iget true ⟨1, 1⟩, .ilock true 0, .step true, .iunlock true 0,
    .iput true 0, .step true, .step true, .step true, .step true, .step true, .step false, .ilock false 0]

def leftCopy : List (Ev Bool) :=
  [.ialloc false 1 2, .step false, .step false, .ialloc false 1 2, .step false, .step false, .step false,
    .ilock false 1, .step false, .change false 1 { Dinode.zero with type := 2, nlink := 1 },
    .iupdate false 1, .iunlock false 1, .iput false 1, .iput false 0, .iget false ⟨1, 2⟩, .ilock false 0,
    .step false, .change false 0 { Dinode.zero with type := 2, nlink := 2 }, .iupdate false 0]

/-- Without these conditions, a process that has allocated an inode may find it free; and an entry that is
not in use may be valid and differ from the disk. -/
theorem table_needs_links : (∃ s : State Bool, Reachable (sys Bool 200) s ∧ s.held (false, 0) = 1 ∧
      (s.entry 0).key = ⟨1, 1⟩ ∧ s.pc false = .read 0 ∧
      exec 200 s (.step false) = some (.error .ilockNoType)) ∧
    ∃ s : State Bool, Reachable (sys Bool 200) s ∧ (s.entry 1).ref = 0 ∧ (s.entry 1).valid = true ∧
      (s.entry 1).lock = none ∧ (s.entry 1).copy ≠ s.disk (s.entry 1).key := by
  constructor
  · obtain ⟨s, hr, -, ht⟩ := exists_run (T := sys Bool 200) (f := next 200) (fun _ _ _ h => okOf_eq_some h)
      fresh_blank freedUnder (fun s => decide (s.held (false, 0) = 1 ∧ (s.entry 0).key = ⟨1, 1⟩ ∧
        s.pc false = .read 0 ∧ (s.disk (s.entry 0).key).type = 0)) (by decide +kernel)
    obtain ⟨hheld, hkey, hp, h0⟩ := of_decide_eq_true ht
    refine ⟨s, ⟨_, hr⟩, hheld, hkey, hp, ?_⟩
    have hne : s.pc false ≠ .idle := by rw [hp]; exact nofun
    have hstep : step 200 s false = .error .ilockNoType := by unfold step; rw [hp]; exact if_pos h0
    show (if s.pc false ≠ .idle then some (step 200 s false) else none) = _
    rw [if_pos hne, hstep]
  · obtain ⟨s, hr, -, ht⟩ := exists_run (T := sys Bool 200) (f := next 200) (fun _ _ _ h => okOf_eq_some h)
      fresh_blank leftCopy (fun s => decide ((s.entry 1).ref = 0 ∧ (s.entry 1).valid = true ∧
        (s.entry 1).lock = none ∧ (s.entry 1).copy.nlink ≠ (s.disk (s.entry 1).key).nlink))
      (by decide +kernel)
    obtain ⟨h0, hv, hl, hn⟩ := of_decide_eq_true ht
    exact ⟨s, ⟨_, hr⟩, h0, hv, hl, fun he => hn (congrArg Dinode.nlink he)⟩

end Xv6.Fs.Sharing
