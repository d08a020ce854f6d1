import Xv6.Sched.Life

/-!
# Waiting times

Each branch of `scheduler` stores in `waiting_time` the ticks since `ready_time`.  A history variable (`Hist`)
records the tick at which a process last became runnable, and whether that change was *fresh*: `fork`, `userinit`
and `wakeup` store `ready_time`, while `yield`, `kill` and `fork_with_priority` do not.
-/

namespace Xv6.Sched.Waiting

open Lib.Runs Param Sched.Defs Sched.Queues Sched.Ops Sched.Step Sched.Facts BitVec
open Sched.Running Sched.Life

variable {k k' : Kernel} {c : ℕ} {p : Slot} {op : Op}

/-- What is recorded of a run: the ticks since boot, the tick at which each process last became
runnable, and whether its `ready_time` was that tick then. -/
structure Hist where
  now : ℕ
  readyAt : Slot → ℕ
  fresh : Slot → Bool

def Hist.start : Hist := ⟨0, fun _ => 0, fun _ => true⟩

def Becomes (k k' : Kernel) (p : Slot) : Prop :=
  (k.proc p).state ≠ .runnable ∧ (k'.proc p).state = .runnable

instance (k k' : Kernel) (p : Slot) : Decidable (Becomes k k' p) :=
  inferInstanceAs (Decidable (_ ∧ _))

/-- The ways to become runnable that store no `ready_time`: a running process yields, a sleeper is
killed, a slot is filled by `fork_with_priority`. -/
def forgets (v : Proc) (op : Op) : Bool :=
  match v.state, op with
  | .running, _ | .sleeping, .kill _ _ | .unused, .forkWithPriority _ _ _ => true
  | _, _ => false

def record (k : Kernel) (op : Op) (k' : Kernel) (g : Hist) : Hist where
  now := g.now + (ticked op).toNat
  readyAt p := if Becomes k k' p then g.now + (ticked op).toNat else g.readyAt p
  fresh p := if Becomes k k' p then
      !forgets (k.proc p) op || decide ((k.proc p).readyTime = k.ticks + ticked op)
    else g.fresh p

def timedSys : Sys (Kernel × Hist) Op := sys.hist Hist.start record

/-- The record and the tick counter agree, and the `ready_time` of a runnable process is the tick at
which it became runnable exactly if the change was fresh. -/
structure Timed (x : Kernel × Hist) : Prop where
  ticks : x.1.ticks = BitVec.ofNat 32 x.2.now
  le : ∀ p, x.2.readyAt p ≤ x.2.now
  ready : ∀ p, (x.1.proc p).state = .runnable →
    (x.2.fresh p = true ↔ (x.1.proc p).readyTime = BitVec.ofNat 32 (x.2.readyAt p))

theorem readyTime_change {t pid : Word} {v v' : Proc} (h : Change op t pid v v')
    (hs' : v'.state = .runnable) : (v.state = .runnable ∧ v'.readyTime = v.readyTime) ∨
    (v.state ≠ .runnable ∧ v'.readyTime = if forgets v op then v.readyTime else t) := by
  rcases h with ⟨e, hr, -⟩ | ⟨c, rfl, rfl⟩ | ⟨c, rfl, e, rfl⟩ | ⟨hop, e, -, hr, -⟩ | ⟨e, -, hr, -⟩ |
    ⟨-, e, -⟩ | ⟨c, -, -, e, -⟩ | ⟨c, o, -, -, rfl⟩ | ⟨-, e, -⟩ | ⟨c, a, rfl, e, -, hr, -⟩ |
    ⟨c, n, a, rfl, e, -, hr, -⟩
  · exact .inl ⟨e.symm.trans hs', hr⟩
  · by_cases hsl : v.state = .sleeping
    · exact .inr ⟨by simp [hsl], by simp [forgets, hsl, Proc.kill]⟩
    · simp only [Proc.kill, hsl] at hs'; exact .inl ⟨hs', rfl⟩
  · exact .inl ⟨hs', rfl⟩
  · have hf : forgets v op = false := by
      unfold forgets
      rw [e]
      cases op <;> first | rfl | exact absurd rfl (hop _ _)
    exact .inr ⟨by simp [e], by simp [hf, hr]⟩
  · exact .inr ⟨by simp [e], by simp [forgets, e, hr]⟩
  · simp [hs'] at e
  · simp [hs'] at e
  · simp [Proc.freeproc] at hs'
  · simp [hs'] at e
  · exact .inr ⟨by simp [e], by simp [forgets, e, hr]⟩
  · exact .inr ⟨by simp [e], by simp [forgets, e, hr]⟩

theorem Timed.step (hb : Base k) {g : Hist} (ht : Timed (k, g)) (h : exec k op = some k') :
    Timed (k', record k op k' g) := by
  have htick : k.ticks + ticked op = BitVec.ofNat 32 (g.now + (ticked op).toNat) := by
    rw [ht.ticks, ofNat_add, ofNat_toNat, setWidth_eq]
  refine ⟨(exec_ticks h).trans htick, fun p => ?_, fun p hs' => ?_⟩
  · simp only [record]
    split_ifs
    · exact le_rfl
    · exact (ht.le p).trans (Nat.le_add_right _ _)
  · simp only [record]
    rcases readyTime_change (exec_change hb h p) hs' with ⟨hs, hr⟩ | ⟨hs, hr⟩
    · have hnb : ¬ Becomes k k' p := fun hbec => hbec.1 hs
      rw [if_neg hnb, if_neg hnb, hr]; exact ht.ready p hs
    · have hbec : Becomes k k' p := ⟨hs, hs'⟩
      rw [if_pos hbec, if_pos hbec, hr, ← htick]
      by_cases hf : forgets (k.proc p) op
      · simp [hf]
      · simp [hf]

theorem Timed.run {x : Kernel × Hist} {h : List ((Kernel × Hist) × Op)} (hr : Run timedSys h x) : Timed x := by
  have key : Base x.1 ∧ Timed x := by
    refine hr.inv (I := fun x => Base x.1 ∧ Timed x) (fun x h0 => ?_) fun x op y hx hs => ?_
    · obtain ⟨k, g⟩ := x
      obtain ⟨h1, rfl⟩ := h0
      rw [show k = boot from sys_init h1]
      refine ⟨Base.boot, rfl, fun _ => le_rfl, ?_⟩
      intro p hp
      by_cases h0 : p = 0
      · subst h0; exact ⟨fun _ => rfl, fun _ => rfl⟩
      · rw [show boot.proc p = {} from Function.update_of_ne h0 _ _] at hp
        cases hp
    · obtain ⟨k, g⟩ := x
      obtain ⟨k', g'⟩ := y
      obtain ⟨h1, h2⟩ := hs
      have hg : g' = record k op k' g := h2
      subst hg; exact ⟨hx.1.exec h1, hx.2.step hx.1 h1⟩
  exact key.2

theorem schedule_waitingTime (h : schedule k c = some (some p, k')) :
    (k.proc p).state = .runnable ∧ (k'.proc p).waitingTime = k.ticks - (k.proc p).readyTime := by
  have hdisp : ∀ (m : Kernel) (b : SchedPolicy),
      ((dispatch m c b p).proc p).waitingTime = m.ticks - (m.proc p).readyTime := by
    intro m b
    simp only [dispatch, setCpu_proc, modProc_proc_self, Proc.resume]
    split <;> rfl
  rcases schedule_cases h with ⟨hr, -⟩ | ⟨p', b, hr, -, -, hs, rfl⟩ |
    ⟨k1, l, i, p', hr, h1, -, -, -, hs, rfl⟩
  · cases hr
  · cases hr; exact ⟨hs, hdisp k b⟩
  · cases hr
    have href := refill_refilled h1
    obtain ⟨s, hps⟩ := href.proc p
    rw [hdisp, href.ticks]
    rw [hps] at hs ⊢; exact ⟨hs, rfl⟩

theorem toInt_sub_eq_iff {m n : ℕ} (h : m ≤ n) (w : Word) :
    (BitVec.ofNat 32 n - w).toInt = (n : ℤ) - m ↔ w = BitVec.ofNat 32 m ∧ n - m < 2 ^ 31 := by
  rw [toInt_eq_toNat_cond, toNat_sub, toNat_ofNat, ← toNat_inj, toNat_ofNat]
  split_ifs
  · omega
  · omega

/-- **When the stored waiting time is right**: at every dispatch of every run, exactly if the process
last became runnable by a way that stores `ready_time` (or found the right value there), and has been
runnable for less than `2 ^ 31` ticks. -/
theorem waitingTime_iff {h : List ((Kernel × Hist) × Op)} {g : Hist} (hr : Run timedSys h (k, g))
    (hd : schedule k c = some (some p, k')) : (k'.proc p).waitingTime.toInt = (g.now : ℤ) - g.readyAt p ↔
      g.fresh p = true ∧ g.now - g.readyAt p < 2 ^ 31 := by
  obtain ⟨hs, hw⟩ := schedule_waitingTime hd
  have ht := Timed.run hr
  rw [hw, ht.ticks, toInt_sub_eq_iff (ht.le p), ht.ready p hs]

/-- A child is forked under FCFS and dispatched by another CPU one tick later. -/
theorem waitingTime_iff_fork : ∃ k, ∃ g : Hist, ∃ k', schedule k 1 = some (some 1, k') ∧ g.now = 1 ∧
    (k'.proc 1).waitingTime.toInt = (g.now : ℤ) - g.readyAt 1 := by
  obtain ⟨⟨k, g⟩, hr, -, ht⟩ := hist_of_ops Hist.start record
    [.schedule 0, .forkret 0, .setSched 0 1, .fork 0 ⟨true, true, true⟩, .kerneltrapTimer 0]
    (fun x => (schedule x.1 1).map Prod.fst = some (some 1) ∧ x.2.now = 1 ∧
      x.2.fresh 1 = true ∧ x.2.now - x.2.readyAt 1 < 2 ^ 31) (by decide +kernel)
  obtain ⟨h1, h2, h3, h4⟩ := of_decide_eq_true ht
  obtain ⟨⟨r, k'⟩, hs, rfl⟩ := Option.map_eq_some_iff.mp h1
  exact ⟨k, g, k', hs, h2, (waitingTime_iff hr hs).mpr ⟨h3, h4⟩⟩

/-- A tick makes `init` yield: it is dispatched again in the same tick, with a waiting time of 1. -/
theorem yield_forgets_readyTime : ∃ h k g k', Run timedSys h (k, g) ∧ h.map Prod.snd =
      [.schedule 0, .forkret 0, .usertrapTimer 0, .schedule 0] ∧
    schedule k 0 = some (some 0, k') ∧ (k'.proc 0).waitingTime.toInt = 1 ∧ (g.now : ℤ) - g.readyAt 0 = 0 := by
  obtain ⟨⟨k, g⟩, hr, hops, ht⟩ := hist_of_ops Hist.start record [.schedule 0, .forkret 0, .usertrapTimer 0, .schedule 0]
    (fun x => (schedule x.1 0).map (fun y => (y.1, (y.2.proc 0).waitingTime.toInt)) =
      some (some 0, 1) ∧ (x.2.now : ℤ) - x.2.readyAt 0 = 0) (by decide +kernel)
  obtain ⟨h1, h2⟩ := of_decide_eq_true ht
  obtain ⟨⟨r, k'⟩, hs, h3⟩ := Option.map_eq_some_iff.mp h1
  obtain ⟨rfl, hw⟩ := Prod.mk.inj h3; exact ⟨_, k, g, k', hr, hops, hs, hw, h2⟩

end Xv6.Sched.Waiting
