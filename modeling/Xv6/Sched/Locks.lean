import Xv6.Lib.Stateful
import Xv6.Sched.Scans

/-!
# The locks of the selection scans

The FCFS, priority and HRRN branches of `scheduler` at the level of `spinlock.c`: `acquire` and `release` with
their panics, the nesting depth `noff` of `push_off`, and the interrupt enable bit.  `Scanned` says which locks
the CPU has when it has scanned a part of the table; a round keeps it (`Scanned.round`).

**Main result**: `scan_locks`.
-/

namespace Xv6.Sched.Locks

open Lib.Stateful Param Sched.Defs Sched.Scans List Function

/-! ## spinlock.c -/

/-- `struct spinlock`; `cpu` is `none` for the null pointer. -/
structure Lock where
  locked : Bool
  cpu : Option ℕ
  deriving DecidableEq

/-- The fields of `struct cpu` that the locks use, and the interrupt enable bit of `sstatus`. -/
structure Cpu where
  noff : ℕ
  intena : Bool
  intr : Bool
  deriving DecidableEq

inductive Event
  | acquired (p : Slot)
  | released (p : Slot)
  deriving DecidableEq

structure Machine where
  lock : Slot → Lock
  cpu : Cpu
  log : List Event

/-- The panics; `spins` is the loop of `acquire` for a lock that is not free. -/
inductive Panic
  | acquire
  | spins
  | release
  | popOffInterruptible
  | popOff
  | schedLock
  | schedLocks
  | schedRunning
  | schedInterruptible
  deriving DecidableEq

abbrev L := StateT Machine (Except Panic)

def holding (me : ℕ) (l : Lock) : Bool := l.locked && l.cpu == some me

def intrOn : L Unit := modify fun m => { m with cpu := { m.cpu with intr := true } }

def pushOff : L Unit := modify fun m =>
  { m with cpu :=
    { noff := m.cpu.noff + 1, intena := if m.cpu.noff = 0 then m.cpu.intr else m.cpu.intena, intr := false } }

def popOff : L Unit := do
  let m ← get
  if m.cpu.intr then throw .popOffInterruptible
  else if m.cpu.noff < 1 then throw .popOff
  else set { m with cpu :=
    { m.cpu with
      noff := m.cpu.noff - 1
      intr := m.cpu.noff - 1 == 0 && m.cpu.intena } }

def acquire (me : ℕ) (p : Slot) : L Unit := do
  pushOff
  let m ← get
  if holding me (m.lock p) then throw .acquire
  else if (m.lock p).locked then throw .spins
  else set { m with lock := update m.lock p ⟨true, some me⟩, log := m.log ++ [Event.acquired p] }

def release (me : ℕ) (p : Slot) : L Unit := do
  let m ← get
  if holding me (m.lock p) then
    set { m with lock := update m.lock p ⟨false, none⟩, log := m.log ++ [Event.released p] }
    popOff
  else throw .release

/-! ## The branches of scheduler -/

/-- One round of a scan, for slot `p`; the branches differ in the test `better` and the locals. -/
def round (me : ℕ) (b : SchedPolicy) (ticks : Word) (table : Slot → Proc) (a : Scan) (p : Slot) : L Scan := do
  acquire me p
  if (table p).state = .runnable then
    if a.better b ticks table p then
      match a.chosen with
      | some q => release me q
      | none => pure ()
      return Scan.take ticks table p
    else
      release me p
      return a
  else
    release me p
    return a

/-- The scan up to `if (chosen)`. -/
def scanLocked (me : ℕ) (b : SchedPolicy) (ticks : Word) (table : Slot → Proc) : L (Option Slot) := do
  let a ← slots.foldlM (round me b ticks table) Scan.start
  return a.chosen

def sched (me : ℕ) (p : Slot) (st : ProcState) : L Unit := do
  let m ← get
  if holding me (m.lock p) = false then throw .schedLock
  else if m.cpu.noff ≠ 1 then throw .schedLocks
  else if st = .running then throw .schedRunning
  else if m.cpu.intr then throw .schedInterruptible
  else return ()

/-- What the dispatched process does to its CPU: `saved` is the `intena` that `sched` restores (`none` for
a process that starts in `forkret`), `intr` and `intena` are those when it takes its lock again to give up
the CPU, and `st` is its state when it calls `sched`. -/
structure Stay where
  saved : Option Bool
  intr : Bool
  intena : Bool
  st : ProcState

/-- The process `p` from `swtch` to `swtch`: it releases its lock, runs, and comes back by `sched`.  What it
takes in between it has released. -/
def stay (me : ℕ) (p : Slot) (y : Stay) : L Unit := do
  match y.saved with
  | some i => modify fun m => { m with cpu := { m.cpu with intena := i } }
  | none => pure ()
  release me p
  modify fun m => { m with cpu := { m.cpu with intr := y.intr, intena := y.intena } }
  acquire me p
  sched me p y.st

/-- One iteration of `scheduler` in a branch that scans, with the stay of the process it chooses. -/
def branch (me : ℕ) (b : SchedPolicy) (ticks : Word) (table : Slot → Proc) (y : Stay) : L (Option Slot) := do
  intrOn
  match ← scanLocked me b ticks table with
  | some p =>
    stay me p y
    release me p
    return some p
  | none =>
    intrOn
    return none

def fcfsBranch (me : ℕ) : Word → (Slot → Proc) → Stay → L (Option Slot) := branch me .fcfs

def priorityBranch (me : ℕ) : Word → (Slot → Proc) → Stay → L (Option Slot) := branch me .priority

def hrrnBranch (me : ℕ) : Word → (Slot → Proc) → Stay → L (Option Slot) := branch me .hrrn

variable {me : ℕ} {b : SchedPolicy} {ticks : Word} {table : Slot → Proc} {p q : Slot} {m m' : Machine}

def Machine.take (me : ℕ) (p : Slot) (m : Machine) : Machine where
  lock := update m.lock p ⟨true, some me⟩
  cpu := ⟨m.cpu.noff + 1, if m.cpu.noff = 0 then m.cpu.intr else m.cpu.intena, false⟩
  log := m.log ++ [.acquired p]

def Machine.give (p : Slot) (m : Machine) : Machine where
  lock := update m.lock p ⟨false, none⟩
  cpu := ⟨m.cpu.noff - 1, m.cpu.intena, m.cpu.noff - 1 == 0 && m.cpu.intena⟩
  log := m.log ++ [.released p]

variable {E : Panic → Prop} {Q : Unit → Machine → Prop}

theorem wp_acquire (h : (m.lock p).locked = false) (hQ : Q () (m.take me p)) : wp E (acquire me p) Q m := by
  have hh : holding me (m.lock p) = false := by simp [holding, h]
  unfold acquire pushOff
  rw [wp_bind, wp_modify, wp_bind, wp_get]; simp only [hh, h]; exact hQ

theorem wp_release (h : m.lock p = ⟨true, some me⟩)
    (hi : m.cpu.intr = false) (hn : 1 ≤ m.cpu.noff) (hQ : Q () (m.give p)) : wp E (release me p) Q m := by
  have hh : holding me (m.lock p) = true := by simp [holding, h]
  have hlt : ¬ m.cpu.noff < 1 := by omega
  unfold release popOff
  rw [wp_bind, wp_get]
  simp only [hh, if_true]
  rw [wp_bind, wp_set, wp_bind, wp_get]; simp only [hi, hlt]; exact hQ

/-! ## The scan -/

/-- The CPU has scanned the slots of `done` and its candidate is `c`; `log` is what was done before the
scan. -/
structure Scanned (me : ℕ) (log : List Event) (done : List Slot) (c : Option Slot) (m : Machine) : Prop where
  held : ∀ q, c = some q → m.lock q = ⟨true, some me⟩
  free : ∀ q, c ≠ some q → (m.lock q).locked = false
  noff : m.cpu.noff = if c.isSome then 1 else 0
  off : ∀ q, c = some q → m.cpu.intr = false
  mem : ∀ q, c = some q → q ∈ done
  acquired : ∀ q, m.log.count (.acquired q) = log.count (.acquired q) + if q ∈ done then 1 else 0
  released : ∀ q, m.log.count (.released q) = log.count (.released q) + if q ∈ done ∧ c ≠ some q then 1 else 0

variable {log : List Event} {done : List Slot} {c : Option Slot} {a : Scan} {y : Stay}

/-- No lock of the process table is taken, and interrupts have not been turned off. -/
structure Free (m : Machine) : Prop where
  free : ∀ q, (m.lock q).locked = false
  noff : m.cpu.noff = 0

theorem Free.scanned (h : Free m) : Scanned me m.log [] none m :=
  ⟨nofun, fun q _ => h.free q, h.noff, nofun, nofun, fun q => by simp, fun q => by simp⟩

theorem count_take (m : Machine) (p : Slot) (e : Event) :
    (m.take me p).log.count e = m.log.count e + if e = .acquired p then 1 else 0 := by
  show (m.log ++ [Event.acquired p]).count e = _
  rw [count_append, count_singleton]; simp only [beq_iff_eq, @eq_comm Event e]

theorem count_give (m : Machine) (p : Slot) (e : Event) :
    (m.give p).log.count e = m.log.count e + if e = .released p then 1 else 0 := by
  show (m.log ++ [Event.released p]).count e = _
  rw [count_append, count_singleton]; simp only [beq_iff_eq, @eq_comm Event e]

theorem Scanned.first (h : Scanned me log done none m) (hp : p ∉ done) :
    Scanned me log (done ++ [p]) (some p) (m.take me p) := by
  refine ⟨?_, ?_, ?_, ?_, ?_, fun q => ?_, fun q => ?_⟩
  · rintro q ⟨⟩; exact update_self _ _ _
  · intro q hq
    have hne : q ≠ p := fun he => hq (by rw [he])
    show (update m.lock p _ q).locked = false
    rw [update_of_ne hne]; exact h.free q nofun
  · show m.cpu.noff + 1 = 1
    rw [h.noff]; rfl
  · exact fun q _ => rfl
  · rintro q ⟨⟩; simp
  · rw [count_take, h.acquired q]
    by_cases hq : q = p
    · subst hq; simp [hp]
    · simp [hq]
  · rw [count_take, h.released q]
    by_cases hq : q = p
    · subst hq; simp [hp]
    · have hq' : p ≠ q := fun h => hq h.symm
      simp [hq, hq']

theorem Scanned.replace {c : Slot} (h : Scanned me log done (some c) m) (hp : p ∉ done) :
    Scanned me log (done ++ [p]) (some p) ((m.take me p).give c) := by
  have hc := h.mem c rfl
  have hcp : c ≠ p := fun he => hp (he ▸ hc)
  refine ⟨?_, ?_, ?_, ?_, ?_, fun q => ?_, fun q => ?_⟩
  · rintro q ⟨⟩
    show update (update m.lock p _) c _ p = _
    rw [update_of_ne hcp.symm, update_self]
  · intro q hq
    have hne : q ≠ p := fun he => hq (by rw [he])
    show (update (update m.lock p _) c _ q).locked = false
    by_cases hqc : q = c
    · rw [hqc, update_self]
    · rw [update_of_ne hqc, update_of_ne hne]
      exact h.free q fun he => hqc (Option.some.inj he).symm
  · show m.cpu.noff + 1 - 1 = 1
    rw [h.noff]; rfl
  · intro q _
    show (m.cpu.noff + 1 - 1 == 0 && _) = false
    rw [h.noff]; simp
  · rintro q ⟨⟩; simp
  · rw [count_give, count_take, h.acquired q]
    by_cases hq : q = p
    · subst hq; simp [hp]
    · simp [hq]
  · rw [count_give, count_take, h.released q]
    by_cases hq : q = p
    · subst hq; simp [hp, hcp.symm]
    · by_cases hqc : q = c
      · subst hqc; simp [hc, hcp.symm]
      · have hq' : p ≠ q := fun h => hq h.symm
        have hqc' : c ≠ q := fun h => hqc h.symm
        simp [hq, hq', hqc, hqc']

theorem Scanned.skip (h : Scanned me log done c m) (hp : p ∉ done) :
    Scanned me log (done ++ [p]) c ((m.take me p).give p) := by
  have hcp : c ≠ some p := fun he => hp (h.mem p he)
  have hlock : ∀ q, q ≠ p → ((m.take me p).give p).lock q = m.lock q := by
    intro q hq
    show update (update m.lock p _) p _ q = _
    rw [update_of_ne hq, update_of_ne hq]
  refine ⟨fun q hq => ?_, fun q hq => ?_, ?_, fun q hq => ?_, fun q hq => ?_, fun q => ?_, fun q => ?_⟩
  · have hne : q ≠ p := fun he => hcp (by rw [hq, he])
    rw [hlock q hne]; exact h.held q hq
  · by_cases hqp : q = p
    · subst hqp
      show (update (update m.lock q _) q _ q).locked = false
      rw [update_self]
    · rw [hlock q hqp]; exact h.free q hq
  · exact h.noff
  · show (m.cpu.noff + 1 - 1 == 0 && _) = false
    rw [h.noff, hq]; simp
  · exact mem_append_left _ (h.mem q hq)
  · rw [count_give, count_take, h.acquired q]
    by_cases hq : q = p
    · subst hq; simp [hp]
    · simp [hq]
  · rw [count_give, count_take, h.released q]
    by_cases hq : q = p
    · subst hq; simp [hp, hcp]
    · simp [hq]

theorem Scanned.round (h : Scanned me log done a.chosen m) (hp : p ∉ done) :
    wp E (round me b ticks table a p) (fun a' m' => a' = Scan.step b ticks table a p ∧
      Scanned me log (done ++ [p]) a'.chosen m') m := by
  have hfree : (m.lock p).locked = false := h.free p fun he => hp (h.mem p he)
  have hskip : wp E (release me p) (fun _ m' => Scanned me log (done ++ [p]) a.chosen m') (m.take me p) :=
    wp_release (update_self _ _ _) rfl (Nat.le_add_left 1 _) (h.skip hp)
  unfold Locks.round Scan.step
  refine .bind (wp_acquire hfree ?_)
  by_cases hrun : (table p).state = .runnable
  · rw [if_pos hrun]
    by_cases hbet : a.better b ticks table p = true
    · rw [if_pos hbet, if_pos ⟨hrun, hbet⟩]
      rcases hc : a.chosen with _ | q
      · rw [hc] at h; exact ⟨rfl, h.first hp⟩
      · rw [hc] at h
        have hqp : q ≠ p := fun he => hp (he ▸ h.mem q rfl)
        refine .bind (wp_release ?_ rfl (Nat.le_add_left 1 _) ⟨rfl, h.replace hp⟩)
        show update m.lock p _ q = _
        rw [update_of_ne hqp]; exact h.held q rfl
    · rw [if_neg hbet, if_neg fun h => hbet h.2]
      exact wp_seq hskip fun _ m' hm' => ⟨rfl, hm'⟩
  · rw [if_neg hrun, if_neg fun h => hrun h.1]
    exact wp_seq hskip fun _ m' hm' => ⟨rfl, hm'⟩

theorem Scanned.rounds {rest : List Slot} (h : Scanned me log done a.chosen m)
    (hnd : (done ++ rest).Nodup) : wp E (rest.foldlM (Locks.round me b ticks table) a)
      (fun a' m' => a' = rest.foldl (Scan.step b ticks table) a ∧
        Scanned me log (done ++ rest) a'.chosen m') m := by
  induction rest generalizing done a m with
  | nil => rw [append_nil]; exact ⟨rfl, h⟩
  | cons p rest ih =>
    have hp : p ∉ done := fun hp => (nodup_append.mp hnd).2.2 p hp p (by simp) rfl
    rw [append_cons] at hnd ⊢
    refine wp_seq (h.round hp) fun a' m' ⟨ha', hm'⟩ => ?_
    rw [foldl_cons, ← ha']; exact ih hm' hnd

theorem wp_scanLocked (h : Free m) : wp E (scanLocked me b ticks table)
    (fun r m' => r = scan b ticks table ∧ Scanned me m.log slots r m') m := by
  have hnd : ([] ++ slots).Nodup := by rw [nil_append]; exact slots_nodup
  refine wp_seq (Scanned.rounds h.scanned hnd) fun a m' ⟨ha, hm'⟩ => ?_
  -- left to unification, the kernel would compute the list of slots
  rw [nil_append] at hm'; exact ⟨by rw [ha]; rfl, hm'⟩

/-! ## The whole branch -/

structure Only (me : ℕ) (p : Slot) (m : Machine) : Prop where
  held : m.lock p = ⟨true, some me⟩
  free : ∀ q, q ≠ p → (m.lock q).locked = false
  noff : m.cpu.noff = 1
  off : m.cpu.intr = false

theorem Scanned.only (h : Scanned me log done (some p) m) : Only me p m :=
  ⟨h.held p rfl, fun q hq => h.free q fun he => hq (Option.some.inj he).symm, h.noff, h.off p rfl⟩

theorem Scanned.none_free (h : Scanned me log done none m) : Free m :=
  ⟨fun q => h.free q nofun, h.noff⟩

theorem Only.wp_release (h : Only me p m) : wp E (release me p) (fun _ m' => Free m') m := by
  refine Locks.wp_release h.held h.off h.noff.ge ⟨fun q => ?_, ?_⟩
  · show (update m.lock p _ q).locked = false
    by_cases hq : q = p
    · rw [hq, update_self]
    · rw [update_of_ne hq]; exact h.free q hq
  · show m.cpu.noff - 1 = 0
    rw [h.noff]

theorem Free.wp_acquire (h : Free m) : wp E (acquire me p) (fun _ m' => Only me p m') m := by
  refine Locks.wp_acquire (h.free p) ⟨update_self _ _ _, fun q hq => ?_, ?_, rfl⟩
  · show (update m.lock p _ q).locked = false
    rw [update_of_ne hq]; exact h.free q
  · show m.cpu.noff + 1 = 1
    rw [h.noff]

theorem Only.wp_sched (h : Only me p m) {st : ProcState} (hst : st ≠ .running) :
    wp E (sched me p st) (fun _ m' => m' = m) m := by
  have hh : holding me (m.lock p) = true := by simp [holding, h.held]
  unfold sched; simp [hh, h.noff, hst, h.off]

theorem Only.wp_stay (h : Only me p m) (hy : y.st ≠ .running) :
    wp E (stay me p y) (fun _ m' => Only me p m') m := by
  have hrest : ∀ {m1}, Only me p m1 → wp E (do
      release me p
      modify fun m => { m with cpu := { m.cpu with intr := y.intr, intena := y.intena } }
      acquire me p
      sched me p y.st) (fun _ m' => Only me p m') m1 := by
    intro m1 h1
    refine wp_seq h1.wp_release fun _ m2 h2 => ?_
    rw [wp_bind]
    have h3 : Free { m2 with cpu := { m2.cpu with intr := y.intr, intena := y.intena } } :=
      ⟨h2.free, h2.noff⟩
    refine wp_seq h3.wp_acquire fun _ m4 h4 => ?_
    exact wp_mono (h4.wp_sched hy) fun _ m' hm' => hm' ▸ h4
  unfold stay
  rcases y.saved with _ | i
  · exact hrest h
  · exact hrest ⟨h.held, h.free, h.noff, h.off⟩

theorem Free.wp_branch (h : Free m) (hy : y.st ≠ .running) :
    wp E (branch me b ticks table y) (fun r m' => r = scan b ticks table ∧ Free m') m := by
  have h1 : Free { m with cpu := { m.cpu with intr := true } } := ⟨h.free, h.noff⟩
  unfold branch intrOn
  rw [wp_bind]
  refine wp_seq (wp_scanLocked h1) fun r m2 ⟨hr, h2⟩ => ?_
  rcases r with _ | p
  · have h3 := h2.none_free; exact ⟨hr, h3.free, h3.noff⟩
  · refine wp_seq (h2.only.wp_stay hy) fun _ m3 h3 => wp_seq h3.wp_release fun _ m4 h4 => ?_
    exact ⟨hr, h4⟩

theorem Free.branch (h : Free m) (hy : y.st ≠ .running) :
    ∃ m', branch me b ticks table y m = .ok (scan b ticks table, m') ∧ Free m' := by
  obtain ⟨_, m', hrun, rfl, hf⟩ := wp_returns (h.wp_branch hy)
  exact ⟨m', hrun, hf⟩

/-- **The scans are lock balanced.**  From a state without locks the scan of the FCFS, priority or HRRN
branch returns; the CPU then has the lock of the chosen process if there is one, and no other; each lock
has been acquired once and, but for that of the chosen process, released once; `noff` is 1 at `swtch` and
0 on the idle path.  With the stay of the chosen process none of the three branches panics either. -/
theorem scan_locks (me : ℕ) (b : SchedPolicy) (_hb : b = .fcfs ∨ b = .priority ∨ b = .hrrn) (ticks : Word)
    (table : Slot → Proc) (m : Machine) (h : Free m) :
    (∃ m', (do intrOn; scanLocked me b ticks table) m = .ok (scan b ticks table, m') ∧
      (∀ q, holding me (m'.lock q) = true ↔ scan b ticks table = some q) ∧
      (∀ q, scan b ticks table ≠ some q → (m'.lock q).locked = false) ∧
      (∀ q, m'.log.count (.acquired q) = m.log.count (.acquired q) + 1 ∧ m'.log.count (.released q) =
          m.log.count (.released q) + if scan b ticks table = some q then 0 else 1) ∧
      m'.cpu.noff = if (scan b ticks table).isSome then 1 else 0) ∧
    ∀ y : Stay, y.st ≠ .running →
      (∃ m', fcfsBranch me ticks table y m = .ok (scan .fcfs ticks table, m') ∧ Free m') ∧
      (∃ m', priorityBranch me ticks table y m = .ok (scan .priority ticks table, m') ∧ Free m') ∧
      ∃ m', hrrnBranch me ticks table y m = .ok (scan .hrrn ticks table, m') ∧ Free m' := by
  constructor
  · have h1 : Free { m with cpu := { m.cpu with intr := true } } := ⟨h.free, h.noff⟩
    have hwp : wp (fun _ => False) (do intrOn; scanLocked me b ticks table)
        (fun r m' => r = scan b ticks table ∧ Scanned me m.log slots r m') m :=
      .bind (wp_scanLocked h1)
    obtain ⟨_, m', hrun, rfl, hs⟩ := wp_returns hwp
    refine ⟨m', hrun, fun q => ?_, hs.free, fun q => ⟨?_, ?_⟩, hs.noff⟩
    · constructor
      · intro hh; by_contra hne; simp [holding, hs.free q hne] at hh
      · intro he; simp [holding, hs.held q he]
    · rw [hs.acquired q, if_pos (mem_slots q)]
    · rw [hs.released q]
      by_cases he : scan b ticks table = some q <;> simp [he]
  · exact fun y hy => ⟨h.branch hy, h.branch hy, h.branch hy⟩

def allFree : Machine := ⟨fun _ => ⟨false, none⟩, ⟨0, false, false⟩, []⟩

/-- Of two runnable processes the HRRN branch switches to the second, with its lock alone. -/
theorem scan_locks_one : ∃ m', (do intrOn; scanLocked 0 .hrrn 10 (bursts 10)) allFree = .ok (some 1, m') ∧
    holding 0 (m'.lock 1) = true ∧ m'.cpu.noff = 1 := by
  have hs : scan .hrrn 10 (bursts 10) = some 1 := by decide +kernel
  obtain ⟨⟨m', hrun, hheld, -, -, hnoff⟩, -⟩ :=
    scan_locks 0 .hrrn (by simp) 10 (bursts 10) allFree ⟨fun _ => rfl, rfl⟩
  rw [hs] at hrun hheld hnoff; exact ⟨m', hrun, (hheld 1).mpr rfl, hnoff⟩

end Xv6.Sched.Locks
