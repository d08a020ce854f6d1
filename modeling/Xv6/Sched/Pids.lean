import Xv6.Sched.Life

/-!
# Process identifiers

`allocpid` hands out the values of `nextpid` one after the other, and nothing checks that the counter is still
positive or that no process has the value.  The counter has 32 bits: a long enough run makes a process of
negative `pid`, and later one with the `pid` of `init`.
-/

namespace Xv6.Sched.Pids

open Lib.Runs Param Sched.Defs Sched.Queues Sched.Ops Sched.Step Sched.Facts Option BitVec List
open Sched.Running Sched.Life

variable {k k' : Kernel} {c : ℕ} {p q : Slot} {op : Op} {n : Word}

def Forks : Op → Prop
  | .fork _ _ | .forkWithPriority _ _ _ => True
  | _ => False

def InUse (k : Kernel) (p : Slot) : Prop := (k.proc p).state ≠ .unused

theorem Change.live {t n : Word} {v v' : Proc} (h : Change op t n v v') (hop : ¬ Forks op)
    (hs : v'.state ≠ .unused) : v.state ≠ .unused ∧ v'.pid = v.pid := by
  rcases h with ⟨e, -, hk⟩ | ⟨c, -, rfl⟩ | ⟨c, -, e, rfl⟩ | ⟨-, e, -, -, hk⟩ | ⟨e, -, -, hk⟩ |
    ⟨e, -, hk⟩ | ⟨c, -, e, -, -, hk⟩ | ⟨c, o, -, -, rfl⟩ | ⟨-, e, -⟩ | ⟨c, a, rfl, -⟩ | ⟨c, m, a, rfl, -⟩
  · exact ⟨e ▸ hs, hk.pid⟩
  · refine ⟨fun hu => hs ?_, rfl⟩
    simp [Proc.kill, hu]
  · exact ⟨hs, rfl⟩
  · exact ⟨by simp [e], hk.pid⟩
  · exact ⟨by simp [e], hk.pid⟩
  · exact ⟨by simp [e], hk.pid⟩
  · exact ⟨by simp [e], hk.pid⟩
  · exact absurd rfl hs
  · exact absurd e hs
  · exact absurd trivial hop
  · exact absurd trivial hop

theorem schedBack_nextpid (k : Kernel) (c : ℕ) (p : Slot) : (schedBack k c p).nextpid = k.nextpid := by
  unfold schedBack
  split <;> rfl

theorem yield_nextpid (h : yield k c p = some k') : k'.nextpid = k.nextpid := by
  obtain ⟨m, rfl, -⟩ := yield_eq h; exact schedBack_nextpid _ _ _

theorem exit_nextpid {status : Word} (h : exit k c p status = some k') : k'.nextpid = k.nextpid := by
  obtain ⟨-, k1, h1, rfl⟩ := exit_eq h
  exact (schedBack_nextpid _ _ _).trans h1.nextpid

theorem exec_nextpid (h : exec k op = some k') (hop : ¬ Forks op) : k'.nextpid = k.nextpid := by
  cases exec_ran h with
  | fork | forkWithPriority => exact absurd trivial hop
  | yield _ h => exact yield_nextpid h
  | sleep | waitSleep => exact schedBack_nextpid _ _ _
  | wakeup h => exact (wakeup_woken h).nextpid
  | kill | killNone | setkilled | reap | waitNone | setSched | setSchedNone | setPriority | setPriorityNone | forkret =>
    rfl
  | exit _ h => exact exit_nextpid h
  | usertrapTimer _ h =>
    obtain ⟨k1, h1, h⟩ := usertrapTimer_cases h
    have hclock : k1.nextpid = k.nextpid := (clockintr_woken h1).nextpid
    rcases h with h | ⟨f, -, k2, rfl, rfl | h⟩
    · exact (exit_nextpid h).trans hclock
    · exact hclock
    · exact (yield_nextpid h).trans hclock
  | kerneltrapTimer h =>
    obtain ⟨k1, h1, h⟩ := kerneltrapTimer_cases h
    have hclock : k1.nextpid = k.nextpid := (clockintr_woken h1).nextpid
    rcases h with rfl | ⟨p, -, h⟩
    · exact hclock
    · exact (yield_nextpid h).trans hclock
  | schedule hs =>
    rcases schedule_cases hs with ⟨-, k2, rfl | h1, rfl⟩ | ⟨p, b, -, -, -, -, rfl⟩ |
      ⟨k2, l, i, p, -, h1, -, -, -, -, rfl⟩
    · rfl
    · exact (refill_refilled h1).nextpid
    · rfl
    · exact (refill_refilled h1).nextpid

/-! ## The invariant -/

/-- The processes have distinct identifiers between 0 and `nextpid`, which has not wrapped. -/
structure Numbered (k : Kernel) : Prop where
  bound : k.nextpid.toNat ≤ 2 ^ 31
  range : ∀ p, InUse k p → 0 < (k.proc p).pid.toNat ∧ (k.proc p).pid.toNat < k.nextpid.toNat
  uniq : ∀ p q, InUse k p → InUse k q → (k.proc p).pid = (k.proc q).pid → p = q

theorem Numbered.pos (h : Numbered k) (hp : InUse k p) : 0 < (k.proc p).pid.toInt := by
  obtain ⟨h0, hlt⟩ := h.range p hp
  have hb := h.bound
  rw [toInt_eq_toNat_of_lt (by omega)]; omega

def PidFits (k : Kernel) (op : Op) : Prop :=
  Forks op → (∃ p, ¬ InUse k p) → 0 < k.nextpid.toInt

theorem toNat_of_toInt_pos (h : 0 < n.toInt) : 0 < n.toNat ∧ n.toNat < 2 ^ 31 := by
  have hn := toInt_eq_toNat_cond n
  split_ifs at hn <;> omega

theorem toNat_succ (h : n.toNat < 2 ^ 31) : (n + 1).toNat = n.toNat + 1 := by
  have h1 : (1 : Word).toNat = 1 := rfl
  rw [toNat_add, h1, Nat.mod_eq_of_lt (by omega)]

theorem Numbered.next (hn : Numbered k) (hpos : 0 < k.nextpid.toInt) (np : Slot)
    (hnext : k'.nextpid = k.nextpid + 1) (huse : ∀ q, InUse k' q → InUse k q ∧ (k'.proc q).pid = (k.proc q).pid ∨
      q = np ∧ (k'.proc q).pid = k.nextpid) : Numbered k' := by
  obtain ⟨h0, hlt⟩ := toNat_of_toInt_pos hpos
  have hsucc : k'.nextpid.toNat = k.nextpid.toNat + 1 := by rw [hnext, toNat_succ hlt]
  -- the value of the counter is above those in use
  have hfresh : ∀ q, InUse k q → (k.proc q).pid ≠ k.nextpid := by
    intro q hq he
    have := (hn.range q hq).2
    rw [he] at this; omega
  refine ⟨by omega, fun q hq => ?_, fun q q' hq hq' he => ?_⟩
  · rcases huse q hq with ⟨hq, he⟩ | ⟨-, he⟩
    · have hr := hn.range q hq; rw [he]; omega
    · rw [he]; omega
  · rcases huse q hq with ⟨hq, e⟩ | ⟨rfl, e⟩
    · rcases huse q' hq' with ⟨hq', e'⟩ | ⟨-, e'⟩
      · exact hn.uniq q q' hq hq' (e.symm.trans (he.trans e'))
      · exact absurd (e.symm.trans (he.trans e')) (hfresh q hq)
    · rcases huse q' hq' with ⟨hq', e'⟩ | ⟨rfl, -⟩
      · exact absurd (e'.symm.trans (he.symm.trans e)) (hfresh q' hq')
      · rfl

theorem Numbered.forkWith (hn : Numbered k) {start : Word → Proc → Proc} {a : Alloc} {r : Word}
    (h : forkWith start k p a = some (r, k')) (hfit : (∃ p, ¬ InUse k p) → 0 < k.nextpid.toInt)
    (hst : ∀ t v, (start t v).pid = v.pid) (hst' : ∀ t v, (start t v).state = .runnable) :
    Numbered k' ∧ (r = -1 ∨ ∃ q, InUse k' q ∧ (k'.proc q).pid = r) := by
  rcases forkWith_cases h with ⟨hr, rfl⟩ | ⟨np, w, hun, hr, -, rfl⟩ | ⟨np, m, hun, hr, rfl, -⟩
  · exact ⟨hn, .inl hr⟩
  · refine ⟨hn.next (hfit ⟨np, not_not.mpr hun⟩) np rfl fun q hq => ?_, .inl hr⟩
    unfold InUse at hq
    by_cases he : q = np
    · subst he; rw [modProc_proc_self] at hq; exact absurd rfl hq
    · rw [modProc_proc_ne _ he] at hq ⊢; exact .inl ⟨hq, rfl⟩
  · have hpid : (child start k p np).pid = k.nextpid := hst _ _
    refine ⟨hn.next (hfit ⟨np, not_not.mpr hun⟩) np rfl fun q hq => ?_, .inr ⟨np, ?_, ?_⟩⟩
    · unfold InUse at hq
      by_cases he : q = np
      · subst he; rw [modProc_proc_self]; exact .inr ⟨rfl, hpid⟩
      · rw [modProc_proc_ne _ he] at hq ⊢; exact .inl ⟨hq, rfl⟩
    · unfold InUse
      rw [modProc_proc_self, show (child start k p np).state = .runnable from hst' _ _]
      simp
    · rw [modProc_proc_self, hr]; exact hpid

theorem Numbered.exec (hb : Base k) (hn : Numbered k) (h : exec k op = some k') (hfit : PidFits k op) :
    Numbered k' := by
  by_cases hop : Forks op
  · cases exec_ran h with
    | fork hf | forkWithPriority hf => exact (hn.forkWith hf (hfit trivial) (fun _ _ => rfl) fun _ _ => rfl).1
    | _ => exact absurd hop id
  · have hnext := exec_nextpid h hop
    have hlive := fun q hq => Change.live (exec_change hb h q) hop hq
    refine ⟨by rw [hnext]; exact hn.bound, fun q hq => ?_, fun q q' hq hq' he => ?_⟩
    · rw [hnext, (hlive q hq).2]; exact hn.range q (hlive q hq).1
    · rw [(hlive q hq).2, (hlive q' hq').2] at he
      exact hn.uniq q q' (hlive q hq).1 (hlive q' hq').1 he

theorem numbered_boot : Numbered boot := by
  have huse : ∀ q, InUse boot q → q = 0 := by
    intro q hq
    by_contra he
    have hu : boot.proc q = {} := Function.update_of_ne he _ _
    exact hq (by rw [hu])
  refine ⟨by decide, fun q hq => ?_, fun q q' hq hq' _ => (huse q hq).trans (huse q' hq').symm⟩
  rw [huse q hq]; decide

theorem numbered_run {h : List (Kernel × Op)} (hr : Run sys h k) (hok : ∀ x ∈ h, PidFits x.1 x.2) : Numbered k := by
  refine (hr.inv_of_ok (I := fun k => Base k ∧ Numbered k) ?_ ?_ hok).2
  · intro s hs; rw [sys_init hs]; exact ⟨Base.boot, numbered_boot⟩
  · intro s e s' hi hc hs; exact ⟨hi.1.exec hs, hi.2.exec hi.1 hs hc⟩

/-- **Identifiers are unique and positive** in every run in which each fork that takes a slot finds
`nextpid` positive; the next such fork then returns `-1` or a positive `pid` that one process has. -/
theorem pids_unique {h : List (Kernel × Op)} (hr : Run sys h k) (hok : ∀ x ∈ h, PidFits x.1 x.2) :
    (∀ p q, InUse k p → InUse k q → (k.proc p).pid = (k.proc q).pid → p = q) ∧
    (∀ p, InUse k p → 0 < (k.proc p).pid.toInt) ∧
    ∀ c a p r k', k.myproc c = some p → PidFits k (.fork c a) → fork k p a = some (r, k') →
      r = -1 ∨ 0 < r.toInt ∧ ∃! q, InUse k' q ∧ (k'.proc q).pid = r := by
  have hn := numbered_run hr hok
  refine ⟨hn.uniq, fun p hp => hn.pos hp, fun c a p r k' _ hfit hf => ?_⟩
  obtain ⟨hn', hr'⟩ := hn.forkWith hf (hfit trivial) (fun _ _ => rfl) fun _ _ => rfl
  refine hr'.imp_right fun ⟨q, hq, he⟩ => ⟨he ▸ hn'.pos hq, q, ⟨hq, he⟩, fun q' hq' => ?_⟩
  exact hn'.uniq q' q hq'.1 hq (hq'.2.trans he.symm)

/-- After one fork there are two processes. -/
theorem pids_unique_two : ∃ k : Kernel, InUse k 0 ∧ InUse k 1 ∧ (k.proc 0).pid ≠ (k.proc 1).pid := by
  obtain ⟨k, hr, hops, ht⟩ := run_of_ops [.schedule 0, .forkret 0, .fork 0 ⟨true, true, true⟩]
    (fun k => (k.proc 0).state ≠ .unused ∧ (k.proc 1).state ≠ .unused) (by decide +kernel)
  obtain ⟨h0, h1⟩ := of_decide_eq_true ht
  have hpos : ∀ x ∈ stepsOf exec boot [.schedule 0, .forkret 0, .fork 0 ⟨true, true, true⟩], 0 < x.1.nextpid.toInt := by
    decide +kernel
  refine ⟨k, h0, h1, fun he => ?_⟩
  exact absurd ((pids_unique hr fun x hx _ _ => hpos x hx).1 0 1 h0 h1 he) (by decide)

/-- `init` runs on CPU 0 and the next process will have the `pid` `n`. -/
def counting (n : Word) : Kernel := { (dispatch boot 0 .rr 0).modProc 0 (Proc.forkret 0) with nextpid := n }

theorem exec_boot_schedule : exec boot (.schedule 0) = some (dispatch boot 0 .rr 0) := by
  have hfind : (slots.find? fun p : Slot => 0 ≤ (p : ℕ) ∧ (boot.proc p).state = .runnable) = some 0 :=
    find_slots_zero (by decide)
  show some (schedRr boot 0 0).2 = _
  unfold schedRr
  rw [hfind]

theorem find_counting (n : Word) : (slots.find? fun q => ((counting n).proc q).state = .unused) = some 1 := by
  show (slots.find? fun q => ((counting 0).proc q).state = .unused) = some 1
  decide +kernel

theorem exec_counting_fails (n : Word) :
    exec (counting n) (.fork 0 ⟨false, false, false⟩) = some (counting (n + 1)) := by
  have hself : Function.update (counting n).proc 1 {} = (counting n).proc :=
    Function.update_eq_self_iff.mpr rfl
  have hfork : forkWith Proc.forkStart (counting n) 0 ⟨false, false, false⟩ =
      some (-1, { counting (n + 1) with proc := Function.update (counting n).proc 1 {} }) := by
    rw [forkWith_eq, find_counting]; rfl
  show (forkWith Proc.forkStart (counting n) 0 ⟨false, false, false⟩).map Prod.snd = _
  rw [hfork, hself]; rfl

def ForksOnly (op : Op) : Prop := op = .schedule 0 ∨ op = .forkret 0 ∨ ∃ a, op = .fork 0 a

theorem run_counting (n : ℕ) : ∃ h, Run sys h (counting (BitVec.ofNat 32 (2 + n))) ∧ ∀ x ∈ h, ForksOnly x.2 := by
  induction n with
  | zero =>
    have hr : Run sys _ (counting 2) := .next (.next (.start userinit_procinit) exec_boot_schedule)
      (show exec (dispatch boot 0 .rr 0) (.forkret 0) = _ from rfl)
    refine ⟨_, hr, fun x hx => ?_⟩
    rcases mem_append.mp hx with hx | hx <;> rw [mem_singleton.mp hx]
    · exact .inl rfl
    · exact .inr (.inl rfl)
  | succ n ih =>
    obtain ⟨h, hr, hall⟩ := ih
    have hstep := exec_counting_fails (BitVec.ofNat 32 (2 + n))
    rw [show BitVec.ofNat 32 (2 + n) + 1 = BitVec.ofNat 32 (2 + (n + 1)) from (ofNat_add (2 + n) 1).symm] at hstep
    refine ⟨_, hr.next hstep, fun x hx => ?_⟩
    rcases mem_append.mp hx with hx | hx
    · exact hall x hx
    · rw [mem_singleton.mp hx]; exact .inr (.inr ⟨_, rfl⟩)

theorem run_fork_at (n : ℕ) (t : Kernel → Bool)
    (ht : (exec (counting (BitVec.ofNat 32 (2 + n))) (.fork 0 ⟨true, true, true⟩)).any t = true) :
    ∃ h k, Run sys h k ∧ (∀ x ∈ h, ForksOnly x.2) ∧ t k = true := by
  obtain ⟨h, hr, hall⟩ := run_counting n
  rcases he : exec (counting (BitVec.ofNat 32 (2 + n))) (.fork 0 ⟨true, true, true⟩) with _ | k
  · rw [he] at ht; cases ht
  · rw [he] at ht
    refine ⟨_, k, hr.next he, fun x hx => ?_, ht⟩
    rcases mem_append.mp hx with hx | hx
    · exact hall x hx
    · rw [mem_singleton.mp hx]; exact .inr (.inr ⟨_, rfl⟩)

/-- Runs of forks alone: one makes a process of negative `pid`, a longer one a second process with the
`pid` of `init`. -/
theorem pid_wraps : (∃ h k, Run sys h k ∧ (∀ x ∈ h, ForksOnly x.2) ∧ InUse k 1 ∧ (k.proc 1).pid.toInt < 0) ∧
    ∃ h k, Run sys h k ∧ (∀ x ∈ h, ForksOnly x.2) ∧ InUse k 0 ∧ InUse k 1 ∧
      (k.proc 0).pid = (k.proc 1).pid := by
  constructor
  · obtain ⟨h, k, hr, hall, ht⟩ := run_fork_at (2 ^ 31 - 2)
      (fun k => (k.proc 1).state ≠ .unused ∧ (k.proc 1).pid.toInt < 0) (by decide +kernel)
    have hk := of_decide_eq_true ht; exact ⟨h, k, hr, hall, hk⟩
  · obtain ⟨h, k, hr, hall, ht⟩ := run_fork_at (2 ^ 32 - 1)
      (fun k => (k.proc 0).state ≠ .unused ∧ (k.proc 1).state ≠ .unused ∧
        (k.proc 0).pid = (k.proc 1).pid) (by decide +kernel)
    have hk := of_decide_eq_true ht; exact ⟨h, k, hr, hall, hk⟩

end Xv6.Sched.Pids
