import Xv6.Smp.Exiting
import Xv6.Smp.ProcTree

/-!
# Round robin on one CPU

Runs of one CPU during which the policy stays round robin.  `pos` is the slot the pass of the scheduler comes to
next; every step keeps it, leaves the slot it is at behind, or starts a new pass (`Move`), and a process that is
`RUNNABLE` stays so until the pass comes to it.
-/

namespace Xv6.Smp.RoundRobin

open Param Sched.Defs Lib.Runs Smp.Defs Smp.Control Smp.Invariant Smp.Running Function List
  Smp.ProcTree
open ProcInstr SchedInstr

def oneCpu : Sys State ℕ := ⟨fun s => s = boot, fun s c s' => c = 0 ∧ Step s c s'⟩

def schedPc (s : State) : Pc := (s.th (.cpu 0)).base

def inRr : Pc → Bool
  | .schedTop | .rrScan _ | .rrTest _ | .swtch .rr _ | .swtched .rr _ | .schedDone .rr _ => true
  | _ => false

/-- The process a step dispatches: the one it stores in `c->proc`. -/
def dispatched (s s' : State) : Option Slot := if s'.cproc 0 = s.cproc 0 then none else s'.cproc 0

def rr (s₀ : State) : Sys State (Option Slot) where
  init s := s = s₀
  step s e s' := Step s 0 s' ∧ inRr (schedPc s') = true ∧ e = dispatched s s'

def dispatches (h : List (State × Option Slot)) : List Slot := h.filterMap Prod.snd

def pos : Pc → ℕ
  | .rrScan i => min i NPROC
  | .rrTest r => r
  | .swtch _ r | .swtched _ r | .schedDone _ r => r + 1
  | _ => NPROC

variable {s s₀ s' : State} {p q : Slot} {e : Option Slot} {a : Act} {n : Next} {pc : Pc}
  {h : List (State × Option Slot)}

theorem reachable_of_oneCpu (h : Reachable oneCpu s) : Reachable sys s := by
  obtain ⟨l, hl⟩ := h
  induction hl with
  | start h => exact .start h
  | next _ hs ih => exact ih.next hs.2

inductive Move (s s' : State) : Option Slot → Prop
  | stay : pos (schedPc s') = pos (schedPc s) →
      (∀ q, (s.proc q).state = .runnable → (s'.proc q).state = .runnable) → Move s s' none
  | skip {r : Slot} : schedPc s = .rrTest r → (s.proc r).state ≠ .runnable → schedPc s' = .rrScan (r + 1) →
      (∀ q, (s.proc q).state = .runnable → (s'.proc q).state = .runnable) → Move s s' none
  | pick {r : Slot} : schedPc s = .rrTest r → schedPc s' = .swtch .rr r →
      (∀ q, q ≠ r → (s.proc q).state = .runnable → (s'.proc q).state = .runnable) → Move s s' (some r)
  | wrap : schedPc s = .schedTop → schedPc s' = .rrScan 0 →
      (∀ q, (s.proc q).state = .runnable → (s'.proc q).state = .runnable) → Move s s' none

theorem sched_cases (hi : Instr (.cpu 0) s pc a n) (hin : inRr pc = true) (hin' : inRr (n.pc .user) = true) :
    ((∀ r, a ≠ .store (.run r)) ∧ pos (n.pc .user) = pos pc ∧
      (loaded (n.pc .user) = loaded pc ∨ loaded (n.pc .user) = none)) ∨
    (∃ r, pc = .rrTest r ∧ (s.proc r).state ≠ .runnable ∧ n.pc .user = .rrScan (r + 1) ∧
      ∀ r, a ≠ .store (.run r)) ∨ (∃ r, pc = .rrTest r ∧ n.pc .user = .swtch .rr r ∧ a = .store (.run r)) ∨
    (pc = .schedTop ∧ n.pc .user = .rrScan 0 ∧ ∀ r, a ≠ .store (.run r)) := by
  rcases hi with hi | hi
  · cases hi <;> cases hin
  · cases hi <;> first | cases hin; done | cases hin'; done | skip
    case topRr => exact .inr (.inr (.inr ⟨rfl, rfl, fun _ => Act.noConfusion⟩))
    case rrEnd i hle => exact .inl ⟨fun _ => Act.noConfusion, (min_eq_right hle).symm, .inl rfl⟩
    case rrScan q =>
      exact .inl ⟨fun _ => Act.noConfusion, (min_eq_left q.isLt.le).symm, .inl rfl⟩
    case rrSkip q hq => exact .inr (.inl ⟨q, rfl, hq, rfl, fun _ => Act.noConfusion⟩)
    case rrPick q hq => exact .inr (.inr (.inl ⟨q, rfl, rfl, rfl⟩))
    case swtch b p => exact .inl ⟨fun _ => Act.noConfusion, rfl, .inl rfl⟩
    case swtched b p => exact .inl ⟨fun _ h => Store.noConfusion (Act.store.inj h), rfl, .inr rfl⟩
    case done b p hb => cases b <;> first | exact absurd rfl hb | cases hin
    case doneRr p => exact .inl ⟨fun _ => Act.noConfusion, min_eq_left p.isLt, .inl rfl⟩

theorem sched_step (hI : Inv s) (hi : Exec s 0 a n) :
    (schedPc (s.after 0 a n) = schedPc s ∧ ∀ r, a ≠ .store (.run r)) ∨
      (Instr (.cpu 0) s (schedPc s) a n ∧ schedPc (s.after 0 a n) = n.pc .user) := by
  by_cases hcur : s.cur 0 = .cpu 0
  · cases hint : (s.th (.cpu 0)).intr with
    | none =>
      have hth := after_th_self hI hi
      rw [Exec, hcur, Inv.pc_of_none hint] at hi
      rw [hcur] at hth
      refine .inr ⟨hi, ?_⟩
      unfold schedPc
      rw [hth, base_next_of_none n hint]
    | some pc =>
      have hth := after_th_self hI hi
      rw [hcur] at hth
      refine .inl ⟨?_, fun r ha => ?_⟩
      · unfold schedPc
        rw [hth, base_next_of_some n hint]
      · subst ha
        obtain ⟨-, -, hno, -⟩ := guard_instr hi
        rw [hcur, Thread.pc, hint] at hno
        have hyes := (hI.intr _ _ hint).1
        exact Bool.false_ne_true (hno.symm.trans hyes)
  · refine .inl ⟨congrArg Thread.base (after_th_cpu hcur), fun r ha => ?_⟩
    subst ha
    obtain ⟨⟨c, hc⟩, -⟩ := guard_instr hi
    rw [hI.cur_cpu_eq hc] at hc; exact hcur hc

theorem runnable_kept (hI : Inv s) (hi : Exec s 0 a n) (ha : a ≠ .store (.run q))
    (hq : (s.proc q).state = .runnable) : ((s.after 0 a n).proc q).state = .runnable := by
  rcases shift hI hi q with hsame | ⟨-, hsh⟩
  · rw [hsame]; exact hq
  · exact absurd (hsh.of_runnable hq) ha

theorem dispatched_of_loaded (hI : Inv s) (hI' : Inv s')
    (hl : loaded (schedPc s') = loaded (schedPc s) ∨ loaded (schedPc s') = none) : dispatched s s' = none := by
  unfold dispatched
  rw [hI.cproc 0, hI'.cproc 0]
  split_ifs with he
  · rfl
  · exact hl.resolve_left he

theorem move_handler {t : Tid} {th : Thread} (hb : th.base = (s.th t).base) :
    Move s (s.setThread t th) (dispatched s (s.setThread t th)) := by
  have hd : dispatched s (s.setThread t th) = none := if_pos rfl
  rw [hd]; exact .stay (congrArg pos (base_setThread hb _)) fun _ hq => hq

theorem move (hI : Inv s) (hin : inRr (schedPc s) = true) (hs : (rr s₀).step s e s') : Move s s' e := by
  obtain ⟨hst, hin', rfl⟩ := hs
  have hI' := inv_step hI hst
  cases hst with
  | @instr a n hi _ =>
    rcases sched_step hI hi with ⟨hpc, hrun⟩ | ⟨hinstr, hpc⟩
    · rw [dispatched_of_loaded hI hI' (by rw [hpc]; exact .inl rfl)]
      exact .stay (by rw [hpc]) fun q hq => runnable_kept hI hi (hrun q) hq
    · rw [hpc] at hin'
      rcases sched_cases hinstr hin hin' with ⟨hrun, hpos, hl⟩ | ⟨r, hr, hnot, hn, hrun⟩ | ⟨r, hr, hn, rfl⟩ |
        ⟨htop, hn, hrun⟩
      · rw [dispatched_of_loaded hI hI' (by rw [hpc]; exact hl)]
        exact .stay (by rw [hpc, hpos]) fun q hq => runnable_kept hI hi (hrun q) hq
      · rw [dispatched_of_loaded hI hI' (by rw [hpc, hn]; exact .inr rfl)]
        exact .skip hr hnot (hpc.trans hn) fun q hq => runnable_kept hI hi (hrun q) hq
      · have hd : dispatched s (s.after 0 (.store (.run r)) n) = some r := by
          have h0 : s.cproc 0 = none := by rw [hI.cproc 0]; exact congrArg loaded hr
          unfold dispatched
          rw [h0]; rfl
        rw [hd]
        refine .pick hr (hpc.trans hn) fun q hq hst => runnable_kept hI hi (fun ha => ?_) hst
        cases ha; exact hq rfl
      · rw [dispatched_of_loaded hI hI' (by rw [hpc, hn]; exact .inr rfl)]
        exact .wrap htop (hpc.trans hn) fun q hq => runnable_kept hI hi (hrun q) hq
  | timer _ hth _ | device _ hth _ => exact move_handler (by rw [hth])

/-! ## The turn of each process -/

/-- How far the pass has come since a dispatch of `p`: over slots behind `p`, then over those in front of it,
and whether it has gone on over `p` since. -/
inductive Leg
  | behind
  | front
  | past

def Leg.been (p q : Slot) (i : ℕ) : Leg → Prop
  | .behind => p < q ∧ q.val < i
  | .front => p < q ∨ q.val < i
  | .past => True

def Leg.at (p : Slot) (i : ℕ) : Leg → Prop
  | .behind => p.val < i
  | .front => i ≤ p.val
  | .past => True

/-- `q` has had its turn, once unless the pass has gone on over `p`, or waits for it. -/
structure Turn (p q : Slot) (h : List (State × Option Slot)) (s : State) (leg : Leg) : Prop where
  place : leg.at p (pos (schedPc s))
  had : leg.been p q (pos (schedPc s)) → 1 ≤ (dispatches h).count q
  waits : ¬ leg.been p q (pos (schedPc s)) → (dispatches h).count q = 0 ∧ (s.proc q).state = .runnable
  once : leg ≠ .past → (dispatches h).count q ≤ 1
  skipped : leg = .past → ∃ x ∈ h, schedPc x.1 = .rrTest p ∧ (x.1.proc p).state ≠ .runnable

theorem dispatches_snoc : dispatches (h ++ [(s, e)]) = dispatches h ++ e.toList := by
  unfold dispatches
  rw [filterMap_append]
  cases e <;> rfl

section Turns
variable {leg leg' : Leg} {r : Slot}

theorem been_succ (hr : q ≠ r) : leg.been p q (r + 1) ↔ leg.been p q r := by
  have hne : q.val ≠ r.val := fun he => hr (Fin.ext he)
  cases leg with
  | behind => exact and_congr_right fun _ => by omega
  | front => exact or_congr_right (by omega)
  | past => exact Iff.rfl

theorem at_succ (hr : r ≠ p) (h : leg.at p r) : leg.at p (r + 1) := by
  have hne : r.val ≠ p.val := fun he => hr (Fin.ext he)
  cases leg with
  | behind => exact Nat.lt_succ_of_lt h
  | front => exact Nat.lt_of_le_of_ne h hne
  | past => trivial

theorem not_been (hp : leg ≠ .past) (h : leg.at p q) : ¬ leg.been p q q := by
  cases leg with
  | behind => exact fun hb => lt_irrefl _ hb.2
  | front => exact fun hb => hb.elim (fun hlt => absurd hlt (not_lt.mpr h)) (lt_irrefl _)
  | past => exact absurd rfl hp

section
variable (ht : Turn p q h s leg)
include ht

theorem Turn.keep (he : e ≠ some q)
    (hrun : (s.proc q).state = .runnable → (s'.proc q).state = .runnable) (hat : leg'.at p (pos (schedPc s')))
    (hbeen : leg'.been p q (pos (schedPc s')) ↔ leg.been p q (pos (schedPc s)))
    (hleg : leg' = .past ↔ leg = .past) : Turn p q (h ++ [(s, e)]) s' leg' := by
  have hcount : (dispatches (h ++ [(s, e)])).count q = (dispatches h).count q := by
    rw [dispatches_snoc, count_append]
    cases e with
    | none => rfl
    | some r =>
      have hne : r ≠ q := fun hq => he (congrArg some hq)
      rw [Option.toList_some, count_singleton, if_neg (by simpa using hne), Nat.add_zero]
  refine ⟨hat, fun hb => ?_, fun hb => ?_, fun hp => ?_, fun hp => ?_⟩
  · rw [hcount]; exact ht.had (hbeen.mp hb)
  · obtain ⟨h0, hq⟩ := ht.waits (mt hbeen.mpr hb)
    rw [hcount]; exact ⟨h0, hrun hq⟩
  · rw [hcount]; exact ht.once (mt hleg.mpr hp)
  · obtain ⟨x, hx, hs⟩ := ht.skipped (hleg.mp hp)
    exact ⟨x, mem_append_left _ hx, hs⟩

theorem Turn.over (hpq : p ≠ q) (hpc : schedPc s = .rrTest p)
    (hp : (s.proc p).state ≠ .runnable) : Turn p q (h ++ [(s, none)]) s' .past := by
  have hbeen : leg.been p q (pos (schedPc s)) := by
    have hplace := ht.place
    rw [hpc] at hplace ⊢
    cases leg with
    | behind => exact absurd hplace (lt_irrefl _)
    | front => exact (lt_or_gt_of_ne hpq).imp id id
    | past => trivial
  have hhad := ht.had hbeen
  have hcount : dispatches (h ++ [(s, none)]) = dispatches h := by
    rw [dispatches_snoc]; exact append_nil _
  refine ⟨trivial, fun _ => ?_, fun hb => absurd trivial hb, fun hb => absurd rfl hb, fun _ => ?_⟩
  · rw [hcount]; exact hhad
  · exact ⟨(s, none), mem_append_right _ (mem_singleton_self _), hpc, hp⟩

theorem Turn.take (hpq : p ≠ q) (hpc : schedPc s = .rrTest q)
    (hpc' : schedPc s' = .swtch .rr q) : Turn p q (h ++ [(s, some q)]) s' leg := by
  have hplace := ht.place
  have hpos : pos (schedPc s) = q := by rw [hpc]; rfl
  have hpos' : pos (schedPc s') = q + 1 := by rw [hpc']; rfl
  rw [hpos] at hplace
  have hcount : (dispatches (h ++ [(s, some q)])).count q = (dispatches h).count q + 1 := by
    rw [dispatches_snoc, count_append, Option.toList_some, count_singleton_self]
  refine ⟨?_, fun _ => ?_, fun hb => ?_, fun hp => ?_, fun hp => ?_⟩
  · rw [hpos']; exact at_succ (Ne.symm hpq) hplace
  · rw [hcount]; exact Nat.le_add_left _ _
  · refine absurd ?_ hb
    rw [hpos']
    cases leg with
    | behind => exact ⟨hplace, Nat.lt_succ_self _⟩
    | front => exact .inr (Nat.lt_succ_self _)
    | past => trivial
  · have h0 := (ht.waits (by rw [hpos]; exact not_been hp hplace)).1
    rw [hcount, h0]
  · obtain ⟨x, hx, hs⟩ := ht.skipped hp; exact ⟨x, mem_append_left _ hx, hs⟩

theorem Turn.next (hpq : p ≠ q) (hm : Move s s' e) (hep : e ≠ some p) :
    ∃ leg', Turn p q (h ++ [(s, e)]) s' leg' := by
  cases hm with
  | stay hpos hrun =>
    exact ⟨leg, ht.keep nofun (hrun q) (by rw [hpos]; exact ht.place) (by rw [hpos]) Iff.rfl⟩
  | @skip r hpc hnot hpc' hrun =>
    have hpos : pos (schedPc s) = r := by rw [hpc]; rfl
    have hpos' : pos (schedPc s') = r + 1 := by rw [hpc']; exact min_eq_left r.isLt
    by_cases hrp : r = p
    · subst hrp; exact ⟨.past, ht.over hpq hpc hnot⟩
    · refine ⟨leg, ht.keep nofun (hrun q) ?_ ?_ Iff.rfl⟩
      · have hplace := ht.place
        rw [hpos] at hplace
        rw [hpos']; exact at_succ hrp hplace
      · rw [hpos, hpos']
        by_cases hrq : q = r
        · -- a process that waits for its turn is `RUNNABLE`
          subst hrq
          cases hleg : leg with
          | past => exact Iff.rfl
          | _ =>
            have hplace := ht.place
            rw [hpos] at hplace
            have hb := not_been (by rw [hleg]; exact nofun) hplace
            rw [← hpos] at hb; exact absurd (ht.waits hb).2 hnot
        · exact been_succ hrq
  | @pick r hpc hpc' hrun =>
    have hrp : r ≠ p := fun he => hep (congrArg some he)
    by_cases hrq : q = r
    · subst hrq; exact ⟨leg, ht.take hpq hpc hpc'⟩
    · have hpos : pos (schedPc s) = r := by rw [hpc]; rfl
      have hpos' : pos (schedPc s') = r + 1 := by rw [hpc']; rfl
      refine ⟨leg, ht.keep (fun he => hrq (Option.some.inj he).symm) (hrun q hrq) ?_ ?_ Iff.rfl⟩
      · have hplace := ht.place
        rw [hpos] at hplace
        rw [hpos']; exact at_succ hrp hplace
      · rw [hpos, hpos']; exact been_succ hrq
  | wrap hpc hpc' hrun =>
    have hpos : pos (schedPc s) = NPROC := by rw [hpc]; rfl
    have hpos' : pos (schedPc s') = 0 := by rw [hpc']; rfl
    have hplace := ht.place
    rw [hpos] at hplace
    cases leg with
    | behind =>
      refine ⟨.front, ht.keep nofun (hrun q) ?_ ?_ ⟨nofun, nofun⟩⟩
      · rw [hpos']; exact Nat.zero_le _
      · rw [hpos, hpos']
        exact ⟨fun hb => ⟨hb.resolve_right (Nat.not_lt_zero _), q.isLt⟩, fun hb => .inl hb.1⟩
    | front => exact absurd p.isLt (not_lt.mpr hplace)
    | past => exact ⟨.past, ht.keep nofun (hrun q) trivial Iff.rfl Iff.rfl⟩

end

end Turns

theorem turn_run (hI : Inv s₀) (hpq : p ≠ q) (hpc : schedPc s₀ = .swtch .rr p)
    (hq : (s₀.proc q).state = .runnable) (hr : Run (rr s₀) h s) (hp : p ∉ dispatches h) :
    Inv s ∧ inRr (schedPc s) = true ∧ ∃ leg, Turn p q h s leg := by
  induction hr with
  | @start t h0 =>
    obtain rfl : t = s₀ := h0
    have hpos : pos (schedPc t) = p + 1 := by rw [hpc]; rfl
    refine ⟨hI, by rw [hpc]; rfl, .behind, ?_, fun hb => ?_, fun _ => ⟨rfl, hq⟩, fun _ => Nat.zero_le _, nofun⟩
    · rw [hpos]; exact Nat.lt_succ_self _
    · rw [hpos] at hb; exact absurd hb.1 (not_lt.mpr (Nat.lt_succ_iff.mp hb.2))
  | @next h s s' e _ hs ih =>
    rw [dispatches_snoc, mem_append, not_or] at hp
    obtain ⟨hI, hin, leg, ht⟩ := ih hp.1
    have hep : e ≠ some p := fun he => hp.2 (by rw [he]; exact mem_singleton_self _)
    exact ⟨inv_step hI hs.1, hs.2.1, ht.next hpq (move hI hin hs) hep⟩

/-- **Round robin.**  On one CPU, while the policy stays round robin: between two dispatches of `p` with none
in between, every other process that was `RUNNABLE` at the first is dispatched, and exactly once if `p` is
`RUNNABLE` whenever the pass comes to it. -/
theorem bypass_bounded (hs : Reachable oneCpu s) (hin : inRr (schedPc s) = true) {s₁ s₂ s₃ : State}
    (hfirst : (rr s).step s (some p) s₁) (hr : Run (rr s₁) h s₂) (hnone : p ∉ dispatches h)
    (hsecond : (rr s₁).step s₂ (some p) s₃) (hpq : q ≠ p) (hq : (s.proc q).state = .runnable) :
    1 ≤ (dispatches h).count q ∧
      ((∀ x ∈ h, schedPc x.1 = .rrTest p → (x.1.proc p).state = .runnable) → (dispatches h).count q = 1) := by
  have hI := inv_reachable (reachable_of_oneCpu hs)
  cases move hI hin hfirst with
  | pick _ hpc1 hrun =>
    obtain ⟨hI2, hin2, leg, ht⟩ := turn_run (inv_step hI hfirst.1) (Ne.symm hpq) hpc1 (hrun q hpq hq) hr hnone
    cases move hI2 hin2 hsecond with
    | pick hpc2 _ _ =>
      have hplace := ht.place
      have hhad := ht.had
      rw [hpc2] at hplace hhad
      cases leg with
      | behind => exact absurd hplace (lt_irrefl _)
      | front =>
        have hone := hhad ((lt_or_gt_of_ne hpq).symm.imp id id)
        exact ⟨hone, fun _ => le_antisymm (ht.once nofun) hone⟩
      | past =>
        refine ⟨hhad trivial, fun hp => ?_⟩
        obtain ⟨x, hx, hpc, hnot⟩ := ht.skipped rfl
        exact absurd (hp x hx hpc) hnot

/-! ## A process that sleeps is passed over -/

/-- A run of steps from `s₀` with its dispatches, each step from a state where `P` holds. -/
def Path (P : State → Prop) (s₀ : State) (l : List Slot) (s : State) : Prop :=
  ∃ h, Run (rr s₀) h s ∧ dispatches h = l ∧ ∀ x ∈ h, P x.1

variable {l : List Slot} {P : State → Prop}

section
variable (hp : Path P s₀ l s)
include hp

theorem Path.step (hP : P s) (hs : Step s 0 s') (hin : inRr (schedPc s') = true)
    (hd : dispatched s s' = e) : Path P s₀ (l ++ e.toList) s' := by
  obtain ⟨h, hr, rfl, hh⟩ := hp
  refine ⟨_, hr.next ⟨hs, hin, rfl⟩, ?_, forall_mem_append.mpr ⟨hh, by simpa using hP⟩⟩
  rw [dispatches_snoc, hd]

theorem Path.quiet (hP : P s) (hs : Step s 0 s') (hin : inRr (schedPc s') = true)
    (hd : dispatched s s' = none) : Path P s₀ l s' := by
  simpa using hp.step hP hs hin hd

theorem Path.pick (hP : P s) (hs : Step s 0 s') (hin : inRr (schedPc s') = true)
    (hd : dispatched s s' = some q) : Path P s₀ (l ++ [q]) s' :=
  hp.step hP hs hin hd

end

def atSched (s : State) (pc : Pc) : State := s.setThread (.cpu 0) ⟨pc, none⟩

theorem schedPc_atSched : schedPc (atSched s pc) = pc := by
  unfold schedPc atSched State.setThread; simp only [update_self]

theorem Path.pass (hc : s.cur 0 = .cpu 0) {i : ℕ} (hi : i ≤ NPROC)
    (hfree : ∀ r : Slot, i ≤ r.val → s.lock (.proc r) = none ∧ (s.proc r).state ≠ .runnable)
    (hP : ∀ s' : State, i ≤ pos (schedPc s') → P s') (hp : Path P s₀ l (atSched s (.rrScan i))) :
    Path P s₀ l (atSched s .schedTop) := by
  induction hk : NPROC - i generalizing i with
  | zero =>
    exact hp.quiet (hP _ (by rw [schedPc_atSched]; exact le_min le_rfl hi))
      (Exiting.step_instr hc (.inr (rrEnd (by omega))) trivial) rfl (if_pos rfl)
  | succ k ih =>
    have hlt : i < NPROC := by omega
    obtain ⟨hlock, hst⟩ := hfree ⟨i, hlt⟩ le_rfl
    have h1 := hp.quiet (hP _ (by rw [schedPc_atSched]; exact le_min le_rfl hi))
      (Exiting.step_instr hc (.inr (rrScan (q := ⟨i, hlt⟩))) hlock) rfl (if_pos rfl)
    have h2 := h1.quiet (hP _ le_rfl)
      (Exiting.step_instr (s := (Act.acquire (.proc ⟨i, hlt⟩)).apply 0 s) hc (.inr (rrSkip hst))
        (update_self _ _ _)) rfl (if_pos rfl)
    rw [Exiting.lock_unlock hlock] at h2
    exact ih hlt (fun r hr => hfree r (by omega)) (fun s' hs' => hP s' (by omega)) h2 (by omega)

def slotOf : Act → Option Slot
  | .acquire (.proc q) | .release (.proc q) => some q
  | .store (.alloc q) | .store (.free q) | .store (.parent q _) | .store (.start q) | .store (.yield q)
  | .store (.sleep q _) | .store (.tidy q) | .store (.wake q) | .store (.kill q) | .store (.reparent q)
  | .store (.zombie q _) | .store (.reap q) | .store (.run q) => some q
  | _ => none

theorem after_other (hr : slotOf a ≠ some q) :
    (s.after 0 a n).proc q = s.proc q ∧ (s.after 0 a n).lock (.proc q) = s.lock (.proc q) := by
  have hne : ∀ {r : Slot}, slotOf a = some r → q ≠ r := fun h he => hr (he ▸ h)
  cases a with
  | acquire L | release L =>
    have hL : Lock.proc q ≠ L := fun he => hr (by rw [← he]; rfl)
    exact ⟨rfl, update_of_ne hL _ _⟩
  | store e => cases e <;> first | exact ⟨rfl, rfl⟩ | exact ⟨update_of_ne (hne rfl) _ _, rfl⟩
  | _ => exact ⟨rfl, rfl⟩

def TwoSlots (s : State) : Prop := ∀ r : Slot, 2 ≤ r.val → s.lock (.proc r) = none ∧ (s.proc r).state = .unused

theorem TwoSlots.after (hs : TwoSlots s) (ha : slotOf a = none ∨ slotOf a = some 0 ∨ slotOf a = some 1) :
    TwoSlots (s.after 0 a n) := by
  intro r hr
  have hother : slotOf a ≠ some r := by
    intro he
    rcases ha with ha | ha | ha <;> rw [ha] at he <;> cases he <;> contradiction
  obtain ⟨hproc, hlock⟩ := after_other hother
  rw [hproc, hlock]; exact hs r hr

theorem atSched_self (hth : s.th (.cpu 0) = ⟨pc, none⟩) : atSched s pc = s := by
  unfold atSched State.setThread
  rw [← hth, update_eq_self]

theorem twoSlots_boot : TwoSlots boot := by
  intro r hr
  have h0 : r ≠ initproc := by rintro rfl; exact absurd hr (by decide)
  have hboot : update (fun _ : Slot => ({} : Entry)) initproc { state := .runnable, pid := 1 } r = {} :=
    update_of_ne h0 _ _
  exact ⟨rfl, congrArg Entry.state hboot⟩

def childTurn : State :=
  ([(.acquire (.proc 0), .goto .yieldSet), (.store (.yield 0), .goto .yieldSched),
    (.swtchBack, .goto .yieldBack), (.store .idle, .goto (.schedDone .rr 0)),
    (.release (.proc 0), .goto (.rrScan 1)), (.acquire (.proc 1), .goto (.rrTest 1))] : List (Act × Next)).foldl
    (fun s x => s.after 0 x.1 x.2) (childForked.setThread (.proc 0) ⟨.user, some .yieldLock⟩)

def childPicked : State := childTurn.after 0 (.store (.run 1)) (.goto (.swtch .rr 1))

def Along (P : State → Prop) (s₀ : State) (l : List Slot) (s : State) : Prop := TwoSlots s ∧ Path P s₀ l s

theorem Along.start (hs : TwoSlots s) : Along P s [] s := ⟨hs, [], .start rfl, rfl, nofun⟩

section
variable (hp : Along P s₀ l s)
include hp

theorem Along.instr (hi : (s.cur 0).casesOn
      (fun _ => SchedInstr s (s.th (s.cur 0)).pc a n) (ProcInstr · s (s.th (s.cur 0)).pc a n))
    (he : a.Enabled 0 s := by first | exact trivial | exact rfl)
    (hP : P s := by first | exact trivial | exact rfl)
    (hin : inRr (schedPc (s.after 0 a n)) = true := by exact rfl)
    (hd : dispatched s (s.after 0 a n) = none := by first | exact if_pos rfl | exact rfl)
    (ha : slotOf a = none ∨ slotOf a = some 0 ∨ slotOf a = some 1 := by decide) :
    Along P s₀ l (s.after 0 a n) := by
  have hexec : Exec s 0 a n := by
    refine .inr ?_
    revert hi
    cases s.cur 0 <;> exact id
  exact ⟨hp.1.after ha, hp.2.quiet hP (.instr hexec he) hin hd⟩

theorem Along.pick (hi : Exec s 0 (.store (.run q)) n) (hP : P s := by first | exact trivial | exact rfl)
    (hin : inRr (schedPc (s.after 0 (.store (.run q)) n)) = true := by exact rfl)
    (hd : dispatched s (s.after 0 (.store (.run q)) n) = some q := by exact rfl)
    (ha : some q = none ∨ some q = some 0 ∨ some q = some (1 : Slot) := by decide) :
    Along P s₀ (l ++ [q]) (s.after 0 (.store (.run q)) n) :=
  ⟨hp.1.after ha, hp.2.pick hP (.instr hi trivial) hin hd⟩

theorem Along.timer (p : Slot) (hc : s.cur 0 = .proc p := by exact rfl)
    (hth : s.th (.proc p) = ⟨.user, none⟩ := by exact rfl) (hP : P s := by first | exact trivial | exact rfl)
    (hin : inRr (schedPc (s.setThread (.proc p) ⟨.user, some .yieldLock⟩)) = true := by exact rfl) :
    Along P s₀ l (s.setThread (.proc p) ⟨.user, some .yieldLock⟩) :=
  ⟨hp.1, hp.2.quiet hP (.timer hc hth rfl) hin (if_pos rfl)⟩

theorem Along.pass (hP : ∀ s' : State, 2 ≤ pos (schedPc s') → P s')
    (hc : s.cur 0 = .cpu 0 := by exact rfl) (hth : s.th (.cpu 0) = ⟨.rrScan 2, none⟩ := by exact rfl) :
    Along P s₀ l (atSched s .schedTop) := by
  obtain ⟨hs, hp⟩ := hp
  rw [← atSched_self hth] at hp
  refine ⟨hs, hp.pass hc (by decide) (fun r hr => ⟨(hs r hr).1, ?_⟩) hP⟩
  rw [(hs r hr).2]; decide

end

theorem oneCpu_of_rr (hr : Run (rr boot) h s) : Reachable oneCpu s := by
  induction hr with
  | start h => exact .start h
  | next _ hs ih => exact ih.next ⟨rfl, hs.1⟩

theorem along_childTurn : Along (fun _ => True) boot [0] childTurn := by
  have h1 := (Along.start (P := fun _ => True) twoSlots_boot).instr topRr
  have h2 := h1.instr (rrScan (q := 0))
  have h4 := (h2.pick (.inr (rrPick rfl))).instr swtch
  have h6 := (h4.instr forkret).instr callFork
  have h7 := h6.instr (forkScan (q := 0))
  have h8 := h7.instr (forkBusy (by decide))
  have h9 := h8.instr (forkScan (q := 1))
  have h10 := h9.instr (forkFound rfl)
  have h11 := h10.instr forkMade
  have h12 := h11.instr forkWait
  have h13 := h12.instr forkParent
  have h14 := h13.instr forkUnwait
  have h15 := h14.instr forkLock
  have h16 := h15.instr forkStart
  have h17 := h16.instr forkDone
  have h18 := (h17.timer 0).instr yieldLock
  have h19 := h18.instr yieldSet
  have h20 := h19.instr yieldSched
  have h21 := h20.instr swtched
  have h22 := h21.instr doneRr; exact h22.instr (rrScan (q := 1))

theorem oneCpu_childTurn : Reachable oneCpu childTurn := by
  obtain ⟨-, h, hr, -⟩ := along_childTurn; exact oneCpu_of_rr hr

theorem dispatch_child (s₀ : State) : (rr s₀).step childTurn (some 1) childPicked :=
  ⟨Step.instr (.inr (rrPick rfl)) trivial, rfl, rfl⟩

theorem twoSlots_childPicked : TwoSlots childPicked := along_childTurn.1.after (by decide)

/-- The child sleeps and is passed over; the first process kills it in its next turn, and it is `RUNNABLE`. -/
theorem along_childKilled : ∃ s2 s3, Along (fun _ => True) childPicked [0, 0] s2 ∧
    (rr childPicked).step s2 (some 1) s3 ∧ (s3.proc 0).state ≠ .unused ∧
    (s3.proc 0).pid = (childTurn.proc 0).pid := by
  have h1 := (Along.start (P := fun _ => True) twoSlots_childPicked).instr swtch
  have h2 := h1.instr forkret
  have h3 := (h2.instr (callObj 5)).instr objLock
  have hchan : ∀ q, Chan.obj 7 ≠ .proc q := fun _ => Chan.noConfusion
  have h4 := h3.instr (objSleep hchan)
  have h5 := (h4.instr sleepLock).instr sleepUnlock
  have h6 := (h5.instr sleepSet).instr sleepSched
  have h7 := (h6.instr swtched).instr doneRr
  -- a time slice of the first process
  have h8 := (h7.pass fun _ _ => trivial).instr topRr
  have h9 := (h8.instr (rrScan (q := 0))).pick (.inr (rrPick rfl))
  have h10 := (h9.instr swtch).instr yieldBack
  have h11 := (h10.timer 0).instr yieldLock
  have h12 := (h11.instr yieldSet).instr yieldSched
  have h13 := (h12.instr swtched).instr doneRr
  have h14 := h13.instr (rrScan (q := 1))
  have h15 := h14.instr (rrSkip (by decide))
  -- the one in which it kills the child
  have h16 := (h15.pass fun _ _ => trivial).instr topRr
  have h17 := (h16.instr (rrScan (q := 0))).pick (.inr (rrPick rfl))
  have h18 := (h17.instr swtch).instr yieldBack
  have h19 := h18.instr (callKill 2)
  have h20 := h19.instr (killScan (q := 0))
  have h21 := h20.instr (killMiss (by decide))
  have h22 := h21.instr (killScan (q := 1))
  have h23 := (h22.instr (killHit rfl)).instr killDone
  have h24 := (h23.timer 0).instr yieldLock
  have h25 := (h24.instr yieldSet).instr yieldSched
  have h26 := (h25.instr swtched).instr doneRr
  have h27 := h26.instr (rrScan (q := 1))
  exact ⟨_, _, h27, ⟨Step.instr (.inr (rrPick (by decide +kernel))) trivial, rfl, rfl⟩,
    by decide +kernel, by decide +kernel⟩

/-- The child is dispatched, sleeps, and is dispatched again; the first process has had two turns. -/
theorem sleeper_passed_over : ∃ (s s₁ : State) (h : List (State × Option Slot)) (s₂ s₃ : State),
    Reachable oneCpu s ∧ inRr (schedPc s) = true ∧ (rr s).step s (some 1) s₁ ∧ Run (rr s₁) h s₂ ∧
      1 ∉ dispatches h ∧ (rr s₁).step s₂ (some 1) s₃ ∧ (s.proc 0).state = .runnable ∧
      (s₃.proc 0).state ≠ .unused ∧ (s₃.proc 0).pid = (s.proc 0).pid ∧ (dispatches h).count 0 = 2 := by
  obtain ⟨s₂, s₃, ⟨-, h, hr, hd, -⟩, hsecond, hst, hpid⟩ := along_childKilled
  refine ⟨childTurn, childPicked, h, s₂, s₃, oneCpu_childTurn, rfl, dispatch_child _, hr, ?_, hsecond, rfl, hst,
    hpid, ?_⟩
  · rw [hd]; decide
  · rw [hd]; decide

/-- The child is `RUNNABLE` if the pass is at its slot. -/
def awake (s : State) : Bool :=
  match schedPc s with
  | .rrTest q => q != 1 || (s.proc 1).state = .runnable
  | _ => true

theorem awake_of_pos (hs : 2 ≤ pos (schedPc s)) : awake s = true := by
  unfold awake
  split
  · next q hq =>
    rw [hq] at hs
    have hne : q ≠ 1 := by rintro rfl; exact absurd hs (by decide)
    simp [hne]
  · rfl

theorem runnable_of_awake (hs : awake s = true) (hpc : schedPc s = .rrTest 1) : (s.proc 1).state = .runnable := by
  simpa [awake, hpc] using hs

theorem along_childAgain : ∃ s2 s3, Along (fun s => awake s = true) childPicked [0] s2 ∧
    (rr childPicked).step s2 (some 1) s3 := by
  have h1 := (Along.start (P := fun s => awake s = true) twoSlots_childPicked).instr swtch
  have h2 := (h1.instr forkret).timer 1
  have h3 := (h2.instr yieldLock).instr yieldSet
  have h4 := (h3.instr yieldSched).instr swtched
  have h5 := (h4.instr doneRr).pass fun _ => awake_of_pos
  have h6 := (h5.instr topRr).instr (rrScan (q := 0))
  have h7 := (h6.pick (.inr (rrPick rfl))).instr swtch
  have h8 := (h7.instr yieldBack).timer 0
  have h9 := (h8.instr yieldLock).instr yieldSet
  have h10 := (h9.instr yieldSched).instr swtched
  have h11 := (h10.instr doneRr).instr (rrScan (q := 1))
  exact ⟨_, _, h11, Step.instr (.inr (rrPick (by decide +kernel))) trivial, rfl, rfl⟩

/-- The child and the first process take turns. -/
theorem bypass_bounded_turns : ∃ (s s₁ : State) (h : List (State × Option Slot)) (s₂ s₃ : State),
    Reachable oneCpu s ∧ inRr (schedPc s) = true ∧ (rr s).step s (some 1) s₁ ∧ Run (rr s₁) h s₂ ∧
      1 ∉ dispatches h ∧ (rr s₁).step s₂ (some 1) s₃ ∧ (s.proc 0).state = .runnable ∧
      (∀ x ∈ h, schedPc x.1 = .rrTest 1 → (x.1.proc 1).state = .runnable) ∧ (dispatches h).count 0 = 1 := by
  obtain ⟨s₂, s₃, ⟨-, h, hr, hd, hawake⟩, hsecond⟩ := along_childAgain
  have hfirst : (rr childTurn).step childTurn (some 1) childPicked := dispatch_child _
  have hnone : 1 ∉ dispatches h := by rw [hd]; decide
  have hrun : ∀ x ∈ h, schedPc x.1 = .rrTest 1 → (x.1.proc 1).state = .runnable :=
    fun x hx => runnable_of_awake (hawake x hx)
  have hfair := bypass_bounded oneCpu_childTurn rfl hfirst hr hnone hsecond (q := 0) (by decide) rfl
  exact ⟨childTurn, childPicked, h, s₂, s₃, oneCpu_childTurn, rfl, hfirst, hr, hnone, hsecond, rfl, hrun,
    hfair.2 hrun⟩

end Xv6.Smp.RoundRobin
