import Mathlib.Logic.Relation
import Xv6.Smp.Running

/-!
# Waiting for process locks, and the accesses to the queues

The scans of FCFS, priority and HRRN keep the lock of their candidate while they acquire the locks of the
processes behind it, and no other code waits for a `p->lock` while it holds one, so along a chain of waiting CPUs
the slots go up (`lt_of_waits`).  So the checks of `acquire`, `release`, `sched` and `exit` do not fail.  The queues
are read and written at the points `touches`.
-/

namespace Xv6.Smp.Locking

open Param Sched.Defs Lib.Runs Smp.Defs Smp.Control Smp.Invariant Smp.Running

variable {s s' : State} {c c' : ℕ} {t : Tid} {p q : Slot} {pc : Pc} {a : Act} {n : Next}

def Behind : Pc → Prop
  | .scan _ (some r) i => r.val < i
  | .scanTest _ (some r) q => r < q
  | _ => True

theorem behind_instr (h : Instr t s pc a n) (hb : Behind pc) : Behind (n.pc .user) := by
  rcases h with h | h
  · cases h
    case scanEnd k _ _ _ => cases k <;> trivial
    all_goals trivial
  · cases t with
    | proc p =>
      cases h
      case sleepRelock lk => cases lk <;> trivial
      all_goals trivial
    | cpu c =>
      cases h
      case scan b chosen q =>
        cases chosen with
        | none => trivial
        | some r => exact hb
      case scanSkip b chosen q =>
        cases chosen with
        | none => trivial
        | some r => exact Nat.lt_succ_of_lt hb
      case scanFirst b q _ => exact Nat.lt_succ_self _
      case scanBetter b r q _ => exact Nat.lt_succ_self _
      all_goals trivial

theorem behind_step (hI : Inv s) (h : ∀ t, Behind (s.th t).base) (hs : Step s c s') (t : Tid) :
    Behind (s'.th t).base := by
  cases hs with
  | instr hi _ =>
    rcases after_base hI hi t with hb | ⟨rfl, hint, hb⟩ | ⟨np, -, -, hb⟩
    · rw [hb]; exact h t
    · rw [hb]; rw [Exec, Inv.pc_of_none hint] at hi; exact behind_instr hi (h _)
    · rw [hb]; trivial
  | timer _ hth _ | device _ hth _ =>
    rw [base_setThread (by rw [hth])]; exact h t

theorem behind_reachable (h : Reachable sys s) (t : Tid) : Behind (s.th t).base := by
  have hboth : Inv s ∧ ∀ t, Behind (s.th t).base := by
    refine h.inv (I := fun s => Inv s ∧ ∀ t, Behind (s.th t).base) (fun s hs => ?_) fun s c s' hi hs => ?_
    · obtain rfl : s = boot := hs
      refine ⟨inv_boot, fun t => ?_⟩
      cases t <;> trivial
    · exact ⟨inv_step hi.1 hs, behind_step hi.1 hi.2 hs⟩
  exact hboth.2 t

def Wants (s : State) (c : ℕ) (q : Slot) : Prop := ∃ n, Exec s c (.acquire (.proc q)) n

def WaitsFor (s : State) (c c' : ℕ) : Prop := ∃ q, Wants s c q ∧ s.lock (.proc q) = some c'

theorem acquire_holding (h : Instr t s pc (.acquire (.proc q)) n) (hp : .proc p ∈ holds t pc) :
    ∃ b, pc = .scan b (some p) q := by
  generalize ha : Act.acquire (.proc q) = act at h
  rcases h with h | h
  · cases h <;> cases ha
    cases ‹WakeCaller› <;> simp [holds, WakeCaller.holds] at hp
  · cases t with
    | proc r =>
      cases h
      case sleepLock chan lk => cases lk <;> simp [holds] at hp
      case sleepRelock lk => cases lk <;> cases ha
      all_goals first | cases ha; simp [holds] at hp | cases ha
    | cpu c =>
      cases h <;> cases ha
      case inr.cpu.scan.refl b chosen =>
        cases chosen with
        | none => simp [holds] at hp
        | some r =>
          have hpr : p = r := by simpa [holds] using hp
          exact ⟨b, by rw [hpr]⟩
      all_goals simp [holds] at hp

theorem lt_of_waits (h : Reachable sys s) (hp : s.lock (.proc p) = some c) (hq : Wants s c q) : p < q := by
  have hI := inv_reachable h
  obtain ⟨n, hi⟩ := hq
  obtain ⟨b, hpc⟩ := acquire_holding hi ((hI.held c _).mp hp)
  have hb := behind_reachable h (s.cur c)
  rw [hI.base_eq hpc rfl] at hb; exact hb

theorem lt_of_chain (h : Reachable sys s) (hc : Relation.TransGen (WaitsFor s) c c') (hq : Wants s c' q) :
    ∃ p, Wants s c p ∧ p < q := by
  induction hc generalizing q with
  | single hw =>
    obtain ⟨p, hp, hl⟩ := hw; exact ⟨p, hp, lt_of_waits h hl hq⟩
  | tail _ hw ih =>
    obtain ⟨r, hr, hl⟩ := hw
    obtain ⟨p, hp, hlt⟩ := ih hr; exact ⟨p, hp, hlt.trans (lt_of_waits h hl hq)⟩

/-- **The scans cannot deadlock.**  No CPU waits, through others, for itself. -/
theorem no_waiting_cycle (h : Reachable sys s) (c : ℕ) : ¬ Relation.TransGen (WaitsFor s) c c := by
  intro hc
  -- a slot that `c` waits for gives a smaller one
  have hno : ∀ k, ∀ q : Slot, q.val = k → ¬ Wants s c q := by
    intro k
    induction k using Nat.strong_induction_on with
    | _ k ih =>
      intro q hk hq
      obtain ⟨p, hp, hlt⟩ := lt_of_chain h hc hq
      exact ih p.val (hk ▸ hlt) p rfl hp
  obtain ⟨d, ⟨q, hq, -⟩, -⟩ := Relation.TransGen.head'_iff.mp hc
  exact hno q.val q rfl hq

/-- The state of CPU 0 that has the first process as its candidate, and CPU 1 that scans behind it. -/
theorem no_waiting_cycle_scans : ∃ s, Reachable sys s ∧ WaitsFor s 1 0 ∧
    ¬ Relation.TransGen (WaitsFor s) 1 1 := by
  have h0 : Reachable sys boot := .start rfl
  have h1 := reach h0 0 (.inr (SchedInstr.topScan .fcfs (by decide) (by decide)))
  have h2 := reach h1 0 (.inr (SchedInstr.scan (q := 0)))
  have h3 := reach h2 1 (.inr (SchedInstr.topScan .hrrn (by decide) (by decide)))
  exact ⟨_, h3, ⟨0, ⟨_, .inr (SchedInstr.scan (q := 0))⟩, rfl⟩, no_waiting_cycle h3 1⟩

/-! ## The checks of the locks -/

theorem lock_instr (h : Instr t s pc a n) : (∀ L, a = .release L → L ∈ holds t pc) ∧
    ∀ L, a = .acquire L → (∀ q, L ≠ .proc q) → L ∉ holds t pc := by
  rcases h with h | h
  · cases h
    case enqueue k _ _ => cases k <;> simp [holds, WakeCaller.holds]
    all_goals simp [holds]
  · cases t with
    | proc p => cases h <;> simp [holds, own]
    | cpu c => cases h <;> simp [holds]

/-- **The checks of `acquire`, `release`, `sched` and `exit` hold**: a CPU does not have the lock it is about to
acquire and has the one it is about to release; at `sched` it has the lock of its process and no other, and the
process is not `RUNNING`; it switches to a process with no lock but that of the process, which is where `sched` left
it or at `forkret`; and a process that has left `sched` in `exit` does not run again. -/
theorem no_lock_panic (h : Reachable sys s) (c : ℕ) : (∀ L n, Exec s c (.acquire L) n → s.lock L ≠ some c) ∧
    (∀ L n, Exec s c (.release L) n → s.lock L = some c) ∧
    (∀ n, Exec s c .swtchBack n → ∃ p, s.cproc c = some p ∧ (∀ L, s.lock L = some c ↔ L = .proc p) ∧
      (s.proc p).state ≠ .running) ∧ (∀ p n, Exec s c (.swtchTo p) n → (∀ L, s.lock L = some c ↔ L = .proc p) ∧
      parks (s.th (.proc p)).pc = true) ∧ ∀ p, s.cur c = .proc p → (s.th (.proc p)).pc ≠ .exitDead := by
  have hI := inv_reachable h
  refine ⟨fun L n hi hL => ?_, fun L n hi => (hI.held c L).mpr ((lock_instr hi).1 L rfl), fun n hi => ?_,
    fun p n hi => ?_, fun p hc hpc => ?_⟩
  · by_cases hq : ∃ q, L = .proc q
    · obtain ⟨q, rfl⟩ := hq; exact lt_irrefl q (lt_of_waits h hL ⟨n, hi⟩)
    · exact (lock_instr hi).2 L rfl (not_exists.mp hq) ((hI.held c L).mp hL)
  · obtain ⟨p, -, hcur, hholds, hwant, -⟩ := swtchBack_instr hi
    refine ⟨p, hI.cproc_of_cur hcur, fun L => ?_, ?_⟩
    · rw [hI.held, heldBy, hholds, List.mem_singleton]
    · rw [hI.active c p hcur, ← hcur]; exact hwant
  · obtain ⟨b, hcur, hth, -⟩ := hI.swtchTo_facts hi
    refine ⟨fun L => ?_, hI.parked p (hI.not_cur_of_swtch (congrArg Thread.base hth))⟩
    rw [hI.held, heldBy, hcur, hth]; exact List.mem_singleton
  · have hst := hI.active c p hc
    rw [hpc] at hst
    rcases hI.dead p hpc with hd | hd <;> rw [hd] at hst <;> cases hst

/-- `init` is in `yield`, at the call of `sched`. -/
theorem no_lock_panic_yield : ∃ s n, Reachable sys s ∧ Exec s 0 .swtchBack n ∧ ∃ p, s.cproc 0 = some p ∧
    (∀ L, s.lock L = some 0 ↔ L = .proc p) ∧ (s.proc p).state ≠ .running := by
  have h1 := reachable_initRuns.next (.timer (c := 0) (p := 0) rfl rfl rfl)
  have h2 := reach h1 0 (.inr ProcInstr.yieldLock)
  have h3 := reach h2 0 (.inr ProcInstr.yieldSet)
  exact ⟨_, _, h3, .inr ProcInstr.yieldSched, (no_lock_panic h3 0).2.2.1 _ (.inr ProcInstr.yieldSched)⟩

/-! ## The accesses to the queues -/

/-- The points of the MLFQ branch of `scheduler()` outside the refill that read or write `mlfq.queue` or
`mlfq.qsize`: the sum of the sizes, the scan, and the removal with `compact_queue` before the switch. -/
def inBranch : Pc → Bool
  | .mlfqTop | .mlfqScan | .swtch .mlfq _ => true
  | _ => false

/-- The points that read or write `mlfq.queue` or `mlfq.qsize`. -/
def touches : Pc → Bool
  | .forkEnqueued _ | .yieldEnqueued | .wakeEnqueued _ _ _ | .mlfqRefill => true
  | pc => inBranch pc

/-- Every access is made by a CPU that holds `mlfq.lock`. -/
def Locked (s : State) : Prop :=
  ∀ c, touches (s.th (s.cur c)).pc = true → s.lock .mlfq = some c

/-- What `userinit` does with locks and the queues before the CPUs enter `scheduler()`. -/
inductive Op
  | acquire (L : Lock)
  | release (L : Lock)
  | access

def userinit : List Op :=
  [.acquire (.proc initproc), .acquire .mlfq, .access, .release .mlfq, .release (.proc initproc)]

/-- The accesses of a sequence of operations are made with `mlfq.lock` held. -/
def lockedOps : List Lock → List Op → Bool
  | _, [] => true
  | held, .acquire L :: rest => lockedOps (L :: held) rest
  | held, .release L :: rest => lockedOps (held.erase L) rest
  | held, .access :: rest => decide (Lock.mlfq ∈ held) && lockedOps held rest

theorem mlfq_mem_holds (ht : touches pc = true) (hb : inBranch pc = false) : Lock.mlfq ∈ holds t pc := by
  cases pc <;> first | cases ht; done | simp_all [touches, inBranch, holds]

theorem mlfq_notMem_holds (hb : inBranch pc = true) : Lock.mlfq ∉ holds t pc := by
  cases pc <;> first | cases hb; done | simp [holds]

/-- **The queues are accessed under `mlfq.lock`** by `userinit`, and in a state of a run exactly when no CPU
is in the MLFQ branch of `scheduler()` outside its refill. -/
theorem queues_locked_iff (h : Reachable sys s) :
    lockedOps [] userinit = true ∧ (Locked s ↔ ∀ c, inBranch (s.th (s.cur c)).pc = false) := by
  have hI := inv_reachable h
  refine ⟨by decide, fun hl c => ?_, fun hb c ht => ?_⟩
  · by_contra hc
    have hin : inBranch (s.th (s.cur c)).pc = true := by simpa using hc
    have hheld := (hI.held c _).mp (hl c (by cases hpc : (s.th (s.cur c)).pc <;> simp_all [touches, inBranch]))
    exact mlfq_notMem_holds hin hheld
  · exact (hI.held c _).mpr (mlfq_mem_holds ht (hb c))

/-- In the refill the queues are accessed under the lock. -/
theorem queues_locked_iff_refill : ∃ s, Reachable sys s ∧ touches (s.th (s.cur 0)).pc = true ∧ Locked s := by
  have h0 : Reachable sys boot := .start rfl
  have h1 := reach h0 0 (.inr SchedInstr.topMlfq)
  have h2 := reach h1 0 (.inr SchedInstr.mlfqRefill)
  refine ⟨_, h2, rfl, (queues_locked_iff h2).2.mpr fun c => ?_⟩
  by_cases hc : c = 0
  · subst hc; rfl
  · have hcur : (Tid.cpu c) ≠ .cpu 0 := fun he => hc (Tid.cpu.inj he)
    show inBranch (Thread.pc (Function.update (Function.update boot.th (.cpu 0) _) (.cpu 0) _ (.cpu c))) = false
    rw [Function.update_of_ne hcur, Function.update_of_ne hcur]; rfl

/-- CPU 0 removes an entry and compacts the queue while CPU 1 holds `mlfq.lock` and enqueues. -/
theorem compacts_unlocked : ∃ s, Reachable sys s ∧ (s.th (s.cur 0)).pc = .swtch .mlfq 0 ∧
    (s.th (s.cur 1)).pc = .mlfqRefill ∧ s.lock .mlfq = some 1 ∧ ¬ Locked s := by
  have h0 : Reachable sys boot := .start rfl
  have h1 := reach h0 0 (.inr SchedInstr.topMlfq)
  have h2 := reach h1 0 (.inr SchedInstr.mlfqNonempty)
  have h3 := reach h2 0 (.inr (SchedInstr.mlfqScan 0))
  have h4 := reach h3 0 (.inr (SchedInstr.mlfqPick rfl))
  have h5 := reach h4 1 (.inr SchedInstr.topMlfq)
  have h6 := reach h5 1 (.inr SchedInstr.mlfqRefill)
  refine ⟨_, h6, rfl, rfl, rfl, fun hl => ?_⟩
  have h01 := hl 0 rfl; cases h01

end Xv6.Smp.Locking
