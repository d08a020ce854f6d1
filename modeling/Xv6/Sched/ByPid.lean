import Xv6.Sched.Life

/-!
# Operations on a `pid`

`kill`, `sys_set_priority` and `get_waiting_time` search the table for a `pid` and do not look at the
state of the entry they find.  An unused entry has `pid` 0 (`run_unused`), so the search for a `pid`
other than 0 finds live processes only; `kill(0)` sets the `killed` flag of an unused entry, which
`allocproc` does not clear.
-/

namespace Xv6.Sched.ByPid

open Lib.Runs Param Sched.Defs Sched.Ops Sched.Step Sched.Facts
open Sched.Running Sched.Life

variable {k k' : Kernel} {pid : Word} {op : Op} {h : List (Kernel × Op)} {v v' : Proc} {t n : Word}

def Live (k : Kernel) (pid : Word) : Prop := ∃ p, (k.proc p).state ≠ .unused ∧ (k.proc p).pid = pid

def KillsNonzero : Op → Prop
  | .kill _ pid => pid ≠ 0
  | _ => True

instance : DecidablePred KillsNonzero
  | .kill _ pid => inferInstanceAs (Decidable (pid ≠ 0))
  | .fork _ _ | .forkWithPriority _ _ _ | .yield _ | .sleep _ _ | .wakeup _ _ | .setkilled _
  | .exit _ _ | .wait _ _ | .setSched _ _ | .setPriority _ _ _ | .usertrapTimer _
  | .kerneltrapTimer _ | .schedule _ | .forkret _ => .isTrue trivial

/-! ## Unused entries -/

theorem Change.unused (h : Change op t n v v') (hs : v'.state = .unused) :
    (v.state = .unused ∧ v'.pid = v.pid ∧ (v'.killed = v.killed ∨ ∃ c, op = .kill c v.pid)) ∨
    (v'.pid = 0 ∧ v'.killed = false) := by
  rcases h with ⟨e, -, hk⟩ | ⟨c, hop, rfl⟩ | ⟨c, -, e, rfl⟩ | ⟨-, -, e, -⟩ | ⟨-, e, -⟩ | ⟨-, e, -⟩ |
    ⟨c, -, -, e, -⟩ | ⟨c, o, -, -, rfl⟩ | ⟨-, -, hp, hk⟩ | ⟨c, a, -, -, e, -⟩ | ⟨c, m, a, -, -, e, -⟩
  · exact .inl ⟨e.symm.trans hs, hk.pid, .inl hk.killed⟩
  · unfold Proc.kill at hs; split_ifs at hs; exact .inl ⟨hs, rfl, .inr ⟨c, hop⟩⟩
  · have hun : v.state = .unused := hs; simp [hun] at e
  · simp [hs] at e
  · simp [hs] at e
  · simp [hs] at e
  · simp [hs] at e
  · exact .inr ⟨rfl, rfl⟩
  · exact .inr ⟨hp, hk⟩
  · simp [hs] at e
  · simp [hs] at e

theorem Change.born (h : Change op t n v v')
    (hs : v.state = .unused) (hs' : v'.state ≠ .unused) : v'.killed = v.killed := by
  rcases h with ⟨-, -, hk⟩ | ⟨c, -, rfl⟩ | ⟨c, -, e, -⟩ | ⟨-, -, -, -, hk⟩ | ⟨-, -, -, hk⟩ |
    ⟨-, -, hk⟩ | ⟨c, -, -, -, -, hk⟩ | ⟨c, o, -, e, -⟩ | ⟨-, e, -⟩ | ⟨c, a, -, -, -, -, -, hk⟩ |
    ⟨c, m, a, -, -, -, -, -, hk⟩
  · exact hk.killed
  · simp [Proc.kill, hs] at hs'
  · simp [hs] at e
  · exact hk.killed
  · exact hk.killed
  · exact hk.killed
  · exact hk.killed
  · simp [hs] at e
  · exact absurd e hs'
  · exact hk
  · exact hk

def UnusedPid (k : Kernel) : Prop := ∀ p, (k.proc p).state = .unused → (k.proc p).pid = 0

def UnusedKilled (k : Kernel) : Prop := ∀ p, (k.proc p).state = .unused → (k.proc p).killed = false

theorem boot_unused (p : Slot) (hs : (boot.proc p).state = .unused) : boot.proc p = {} := by
  have hp : p ≠ 0 := by rintro rfl; cases hs
  exact Function.update_of_ne hp _ _

theorem unusedPid_exec (hb : Base k) (hu : UnusedPid k) (h : exec k op = some k') : UnusedPid k' := by
  intro p hs
  rcases Change.unused (exec_change hb h p) hs with ⟨hs0, hp, -⟩ | ⟨hp, -⟩
  · rw [hp]; exact hu p hs0
  · exact hp

theorem unusedKilled_exec (hb : Base k) (hu : UnusedPid k) (hk : UnusedKilled k)
    (hop : KillsNonzero op) (h : exec k op = some k') : UnusedKilled k' := by
  intro p hs
  rcases Change.unused (exec_change hb h p) hs with ⟨hs0, -, he | ⟨c, rfl⟩⟩ | ⟨-, he⟩
  · rw [he]; exact hk p hs0
  · -- the `pid` of an unused entry is the one that is not killed
    exact absurd (hu p hs0) hop
  · exact he

theorem run_unused (hr : Run sys h k) : Base k ∧ UnusedPid k := by
  refine hr.inv (I := fun k => Base k ∧ UnusedPid k) (fun s h0 => ?_) fun s op s' hi hs =>
    ⟨hi.1.exec hs, unusedPid_exec hi.1 hi.2 hs⟩
  rw [sys_init h0]
  refine ⟨Base.boot, fun p hp => ?_⟩
  rw [boot_unused p hp]

theorem run_unusedKilled (hr : Run sys h k) (hok : ∀ x ∈ h, KillsNonzero x.2) : UnusedKilled k := by
  have h0 : ∀ s, sys.init s → (Base s ∧ UnusedPid s) ∧ UnusedKilled s := by
    intro s h0
    refine ⟨run_unused (Run.start h0), fun p hp => ?_⟩
    rw [sys_init h0] at hp ⊢
    rw [boot_unused p hp]
  have key := hr.inv_of_ok h0 (fun s op s' hi hc hs =>
    ⟨⟨hi.1.1.exec hs, unusedPid_exec hi.1.1 hi.1.2 hs⟩, unusedKilled_exec hi.1.1 hi.1.2 hi.2 hc hs⟩) hok
  exact key.2

theorem findPid_live (hu : UnusedPid k) (h0 : pid ≠ 0) {p : Slot} (hp : findPid k pid = some p) : Live k pid := by
  have hpid : (k.proc p).pid = pid := by simpa using List.find?_some hp
  refine ⟨p, fun hs => h0 ?_, hpid⟩
  rw [← hpid]; exact hu p hs

theorem findPid_none (hu : UnusedPid k) (h0 : pid ≠ 0) (hl : ¬ Live k pid) : findPid k pid = none := by
  rcases hf : findPid k pid with _ | p
  · rfl
  · exact absurd (findPid_live hu h0 hf) hl

/-- **Operations on a `pid` other than 0 touch live processes only**, and in a run without `kill(0)`
no process is born killed. -/
theorem byPid_live {h : List (Kernel × Op)} (hr : Run sys h k) (hok : ∀ x ∈ h, KillsNonzero x.2) :
    (∀ pid, pid ≠ 0 → ¬ Live k pid → kill k pid = (-1, k) ∧ (∀ prio, setPriority k pid prio = (-1, k)) ∧
      getWaitingTime k pid = -1) ∧ (∀ p, (k.proc p).state = .unused → (k.proc p).killed = false) ∧
    ∀ op k', exec k op = some k' → ∀ np, (k.proc np).state = .unused →
      (k'.proc np).state ≠ .unused → (k'.proc np).killed = false := by
  obtain ⟨hb, hu⟩ := run_unused hr
  have hk := run_unusedKilled hr hok
  refine ⟨fun pid h0 hl => ?_, hk, fun op k' he np hs hs' => ?_⟩
  · have hf := findPid_none hu h0 hl
    refine ⟨?_, fun prio => ?_, ?_⟩
    · unfold kill
      rw [hf]
    · unfold setPriority
      rw [hf]
    · unfold getWaitingTime
      rw [hf]
  · rw [Change.born (exec_change hb he np) hs hs']; exact hk np hs

/-- After a fork and a `kill` of the child, a second child is not born killed. -/
theorem byPid_live_fork : ∃ k k', exec k (.fork 0 ⟨true, true, true⟩) = some k' ∧
    (k.proc 1).killed = true ∧ (k.proc 2).state = .unused ∧ (k'.proc 2).state = .runnable ∧
    (k'.proc 2).killed = false := by
  obtain ⟨k, hr, -, ht⟩ := run_of_ops [.schedule 0, .forkret 0, .fork 0 ⟨true, true, true⟩, .kill 0 2]
    (fun k => (exec k (.fork 0 ⟨true, true, true⟩)).map (fun k => (k.proc 2).state) =
      some .runnable ∧ (k.proc 1).killed = true ∧ (k.proc 2).state = .unused) (by decide +kernel)
  obtain ⟨h1, h2, h3⟩ := of_decide_eq_true ht
  obtain ⟨k', hk', hs⟩ := Option.map_eq_some_iff.mp h1
  exact ⟨k, k', hk', h2, h3, hs, (byPid_live hr (by decide +kernel)).2.2 _ k' hk' 2 h3 (by rw [hs]; simp)⟩

/-- No process has `pid` 0, but `kill(0)` succeeds, and the next child is born killed. -/
theorem kill_zero_marks_unused : ∃ h k k', Run sys h k ∧ h.map Prod.snd = [.schedule 0, .forkret 0] ∧
    ¬ Live k 0 ∧ (kill k 0).1 = 0 ∧ (setPriority k 0 5).1 = 0 ∧ getWaitingTime k 0 = 0 ∧
    ((kill k 0).2.proc 1).state = .unused ∧ ((kill k 0).2.proc 1).killed = true ∧
    exec (kill k 0).2 (.fork 0 ⟨true, true, true⟩) = some k' ∧ (k'.proc 1).state = .runnable ∧
    (k'.proc 1).killed = true := by
  obtain ⟨k, hr, hops, ht⟩ := run_of_ops [.schedule 0, .forkret 0]
    (fun k => (∀ p, (k.proc p).state ≠ .unused → (k.proc p).pid ≠ 0) ∧
      (kill k 0).1 = 0 ∧ (setPriority k 0 5).1 = 0 ∧ getWaitingTime k 0 = 0 ∧
      ((kill k 0).2.proc 1).state = .unused ∧ ((kill k 0).2.proc 1).killed = true ∧
      (exec (kill k 0).2 (.fork 0 ⟨true, true, true⟩)).map
        (fun k => ((k.proc 1).state, (k.proc 1).killed)) = some (.runnable, true))
    (by decide +kernel)
  obtain ⟨h1, h2, h3, h4, h5, h6, h7⟩ := of_decide_eq_true ht
  obtain ⟨k', hk', he⟩ := Option.map_eq_some_iff.mp h7
  obtain ⟨h8, h9⟩ := Prod.mk.inj he
  exact ⟨_, k, k', hr, hops, fun ⟨p, hp, h0⟩ => h1 p hp h0, h2, h3, h4, h5, h6, hk', h8, h9⟩

end Xv6.Sched.ByPid
