import Xv6.Smp.Exiting
import Xv6.Smp.ProcTree

/-!
# Exit and wait

`exit` wakes its parent before it is `ZOMBIE` and while it holds `wait_lock`; `wait` looks at its children under
`wait_lock` and lets go of it inside `sleep`, when it already holds its own lock.  So a process that is falling
asleep in `wait` (`Dozing`) has no `ZOMBIE` child, but for `initproc` while it is being given one.
-/

namespace Xv6.Smp.Reaping

open Param Sched.Defs Lib.Runs Lib.Forest List Function
open Smp.Defs Smp.Control Smp.Invariant Smp.Running Smp.ProcTree Smp.Exiting

/-- `q` is in `wait`, past the release of `wait_lock` in `sleep`, and not woken since. -/
def Dozing (s : State) (q : Slot) : Prop :=
  (∃ chan, (s.th (.proc q)).base = .sleepSet chan .wait) ∨
    (s.proc q).state = .sleeping ∧ (s.proc q).chan = .proc q

/-- How many slots a `wait` has searched for a `ZOMBIE` child. -/
def searched : Pc → Option ℕ
  | .waitScan i _ => some i
  | .waitTest q => some q
  | .waitKilled | .sleepLock _ .wait | .sleepUnlock _ .wait => some NPROC
  | _ => none

/-- The arguments of a `sleep` that has not slept yet. -/
def sleepArgs : Pc → Option (Chan × CondLock)
  | .sleepLock chan lk | .sleepUnlock chan lk | .sleepSet chan lk => some (chan, lk)
  | _ => none

/-- The caller and channel of a `wakeup`, and how many slots it has gone through. -/
def waking : Pc → Option (WakeCaller × Chan × ℕ)
  | .wakeScan k chan i => some (k, chan, i)
  | .wakeTest k chan q => some (k, chan, q)
  | .wakeEnqueue k chan q | .wakeEnqueued k chan q | .wakeDone k chan q =>
    some (k, chan, q + 1)
  | _ => none

def told : Pc → Option ℕ
  | .exitLock _ | .exitSet _ => some NPROC
  | pc =>
    match waking pc with
    | some (.exit _, _, i) => some i
    | _ => none

/-- A wakeup for `initproc`, after it has been given a child, that has not passed it. -/
def TellsInit (pc : Pc) : Prop :=
  ∃ j status i, waking pc = some (.reparent j status, .proc initproc, i) ∧ i ≤ (initproc : ℕ)

structure Reap (s : State) : Prop where
  args : ∀ p chan lk, sleepArgs (s.th (.proc p)).base = some (chan, lk) → (lk = .wait ↔ chan = .proc p)
  searched : ∀ q i, searched (s.th (.proc q)).base = some i → ∀ j : Slot, (j : ℕ) < i →
    parentOf s j = some q → (s.proc j).state ≠ .zombie
  testing : ∀ p q, (s.th (.proc p)).base = .waitTest q → parentOf s q = some p
  exitChan : ∀ p status chan i, waking (s.th (.proc p)).base = some (.exit status, chan, i) →
    chan = Chan.ofProc (parentOf s p)
  told : ∀ z q i, told (s.th (.proc z)).base = some i → parentOf s z = some q → (q : ℕ) < i → ¬ Dozing s q
  zombie : ∀ z q, (s.proc z).state = .zombie → parentOf s z = some q → Dozing s q →
    q = initproc ∧ ∃ p, TellsInit (s.th (.proc p)).base

variable {s s' : State} {c : ℕ} {t : Tid} {p q r z : Slot} {pc : Pc} {a : Act} {n : Next} {i : ℕ}
  {k : WakeCaller} {chan : Chan} {status : Word} {th : Thread}

theorem reap_boot : Reap boot where
  args p chan lk h := by cases h
  searched q i h := by cases h
  testing p q h := by cases h
  exitChan p status chan i h := by cases h
  told z q i h := by cases h
  zombie z q h := by
    by_cases hz : z = initproc
    · subst hz; simp [boot] at h
    · simp [boot, hz] at h

theorem sleepArgs_instr {x : Chan × CondLock} (h : Instr (.proc p) s pc a n)
    (hn : sleepArgs (n.pc .user) = some x) : sleepArgs pc = some x ∨ (x.2 = .wait ↔ x.1 = .proc p) := by
  rcases h with h | h
  · cases h
    case scanEnd k _ _ _ => cases k <;> cases hn
    all_goals cases hn
  · cases h
    case sleepRelock lk => cases lk <;> cases hn
    case objSleep chan hc => cases hn; right; simp [hc]
    case waitSleep => cases hn; right; simp
    all_goals first | exact .inl hn | cases hn

theorem searched_instr (h : Instr (.proc p) s pc a n) (hn : searched (n.pc .user) = some i) :
    searched pc = some i ∨ i = 0 ∨ (∃ q : Slot, searched pc = some (q : ℕ) ∧ i = q + 1 ∧
        (parentOf s q ≠ some p ∨ (s.proc q).state ≠ .zombie)) ∨ ∃ j, searched pc = some j ∧ NPROC ≤ j := by
  rcases h with h | h
  · cases h
    case scanEnd k _ _ _ => cases k <;> cases hn
    all_goals cases hn
  · cases h
    case sleepRelock lk => cases lk <;> cases hn; exact .inr (.inl rfl)
    case waitLock => cases hn; exact .inr (.inl rfl)
    case waitSkip q _ hq =>
      cases hn; exact .inr (.inr (.inl ⟨q, rfl, rfl, .inl hq⟩))
    case waitLive q hq =>
      cases hn; exact .inr (.inr (.inl ⟨q, rfl, rfl, .inr hq⟩))
    case waitKids j hj => exact .inr (.inr (.inr ⟨j, rfl, hj⟩))
    case sleepLock lk => cases lk <;> exact .inl hn
    all_goals first | exact .inl hn | cases hn

/-- A wakeup passes slot `q`: it skips itself, wakes `q`, or has found under its lock that there is
nothing to wake. -/
def Passes (t : Tid) (s : State) (pc : Pc) (a : Act) (chan : Chan) (q : Slot) : Prop :=
  t = .proc q ∨ .proc q ∈ holds t pc ∧
    (a = .store (.wake q) ∨ ¬ ((s.proc q).state = .sleeping ∧ (s.proc q).chan = chan))

theorem waking_instr (h : Instr t s pc a n) (hpc : waking pc = some (k, chan, i)) :
    waking (n.pc .user) = some (k, chan, i) ∨
      (∃ q : Slot, i = q ∧ waking (n.pc .user) = some (k, chan, (q : ℕ) + 1) ∧ Passes t s pc a chan q) ∨
      NPROC ≤ i := by
  rcases h with h | h
  · cases h
    case scanEnd hi => cases hpc; exact .inr (.inr hi)
    case scanSelf q ht => cases hpc; exact .inr (.inl ⟨q, rfl, rfl, .inl ht⟩)
    case miss q hq =>
      cases hpc; exact .inr (.inl ⟨q, rfl, rfl, .inr ⟨mem_cons_self, .inr hq⟩⟩)
    case hit q _ _ =>
      cases hpc; exact .inr (.inl ⟨q, rfl, rfl, .inr ⟨mem_cons_self, .inl rfl⟩⟩)
    case hitMlfq q _ _ =>
      cases hpc; exact .inr (.inl ⟨q, rfl, rfl, .inr ⟨mem_cons_self, .inl rfl⟩⟩)
    all_goals first | exact .inl hpc | cases hpc
  · cases t with
    | proc p | cpu c => cases h <;> cases hpc

theorem exitChan_instr (h : Instr (.proc p) s pc a n)
    (hn : waking (n.pc .user) = some (.exit status, chan, i)) : (∃ j, waking pc = some (.exit status, chan, j)) ∨
      i = 0 ∧ a = .tau ∧ chan = Chan.ofProc (parentOf s p) := by
  rcases h with h | h
  · cases h
    case scanEnd k _ _ _ => cases k <;> cases hn
    all_goals first | cases hn; exact .inl ⟨_, rfl⟩ | cases hn
  · cases h
    case sleepRelock lk => cases lk <;> cases hn
    case exitWake => cases hn; exact .inr ⟨rfl, rfl, rfl⟩
    all_goals cases hn

theorem told_of_waking (h : waking pc = some (.exit status, chan, i)) : told pc = some i := by
  cases pc <;> simp_all [told, waking]

theorem told_cases (h : told pc = some i) : (∃ status chan, waking pc = some (.exit status, chan, i)) ∨
      i = NPROC ∧ ∃ status, pc = .exitLock status ∨ pc = .exitSet status := by
  cases pc <;> simp_all [told, waking]
  all_goals rename_i k _ _; cases k <;> simp_all

theorem told_instr (h : Instr (.proc p) s pc a n) (hn : told (n.pc .user) = some i) :
    told pc = some i ∨ i = 0 ∧ a = .tau ∨ (∃ (q : Slot) (status : Word) (chan : Chan),
        waking pc = some (.exit status, chan, (q : ℕ)) ∧ i = q + 1 ∧ Passes (.proc p) s pc a chan q) ∨
      ∃ j, told pc = some j ∧ NPROC ≤ j := by
  rcases told_cases hn with ⟨status, chan, hw'⟩ | ⟨rfl, status, hpc | hpc⟩
  · rcases exitChan_instr h hw' with ⟨j, hw⟩ | ⟨rfl, ha, -⟩
    · have htold := told_of_waking hw
      rcases waking_instr h hw with hsame | ⟨q, rfl, hnext, hp⟩ | hj
      · rw [told_of_waking hsame] at hn; exact .inl (htold.trans hn)
      · rw [told_of_waking hnext] at hn
        exact .inr (.inr (.inl ⟨q, status, chan, hw, (Option.some.inj hn).symm, hp⟩))
      · exact .inr (.inr (.inr ⟨j, htold, hj⟩))
    · exact .inr (.inl ⟨rfl, ha⟩)
  · obtain ⟨chan, j, rfl, hj⟩ := arrives_instr h hpc
    exact .inr (.inr (.inr ⟨j, rfl, hj⟩))
  · obtain rfl := arrives_instr h hpc; exact .inl rfl

theorem reparent_instr (h : Instr t s pc (.store (.reparent q)) n) : TellsInit (n.pc .user) := by
  rcases h with h | h
  · cases h
  · cases t with
    | proc p => cases h; exact ⟨_, _, 0, rfl, Nat.zero_le _⟩
    | cpu c => cases h

theorem reap_instr (h : Instr t s pc (.store (.reap q)) n) :
    ∃ status, n = .goto (.waitFreed q (s.proc q).pid status) ∧
      (status = none ∨ status = some (s.proc q).xstate) := by
  rcases h with h | h
  · cases h
  · cases t with
    | proc p =>
      cases h
      · exact ⟨_, rfl, .inl rfl⟩
      · exact ⟨_, rfl, .inr rfl⟩
    | cpu c => cases h

/-! ## Who holds `wait_lock` -/

theorem exists_cpu (h : Inv s) {L : Lock} (hL : L ∈ holds (.proc p) (s.th (.proc p)).base)
    (hp : parks (s.th (.proc p)).base = false) : ∃ c, s.cur c = .proc p ∧ L ∈ heldBy s c := by
  have hint := h.intr_none (ne_nil_of_mem hL)
  have hpc := Inv.pc_of_none hint
  by_contra hno
  have hpark := h.parked p fun c hc => hno ⟨c, hc, by rw [heldBy, hc, hpc]; exact hL⟩
  rw [hpc, hp] at hpark; cases hpark

theorem exists_cpu_of_wait (h : Inv s) (hp : .wait ∈ holds (.proc p) (s.th (.proc p)).base) :
    ∃ c, s.cur c = .proc p ∧ .wait ∈ heldBy s c := by
  refine exists_cpu h hp ?_
  by_contra hpk
  rw [holds_parks (by simpa using hpk)] at hp; simp at hp

theorem eq_of_wait (h : Inv s) (hp : .wait ∈ holds (.proc p) (s.th (.proc p)).base)
    (hq : .wait ∈ holds (.proc q) (s.th (.proc q)).base) : p = q := by
  obtain ⟨c, hc, hcL⟩ := exists_cpu_of_wait h hp
  obtain ⟨c', hc', hcL'⟩ := exists_cpu_of_wait h hq
  obtain rfl := h.mutex hcL hcL'
  rw [hc] at hc'
  cases hc'; rfl

theorem at_of_wait (h : Inv s) (hq : .wait ∈ holds (.proc q) (s.th (.proc q)).base)
    (hc : s.cur c = .proc p) (hpc : (s.th (s.cur c)).pc = pc) (hint : isIntr pc = false)
    (hw : .wait ∈ holds (.proc p) pc) : p = q ∧ (s.th (.proc q)).base = pc := by
  rw [hc] at hpc
  have hb := h.base_eq hpc hint
  obtain rfl := eq_of_wait h (by rw [hb]; exact hw) hq; exact ⟨rfl, hb⟩

theorem wait_of_searched (h : searched pc = some i) : .wait ∈ holds (.proc p) pc := by
  cases pc <;> simp_all [searched, holds]
  all_goals rename_i lk; cases lk <;> simp_all

theorem swept_of_tellsInit (h : TellsInit pc) : ∃ j, swept pc = some j := by
  obtain ⟨j, status, i, hw, -⟩ := h
  cases pc <;> simp_all [waking, swept]

theorem wait_of_tellsInit (h : TellsInit pc) : .wait ∈ holds (.proc p) pc := by
  obtain ⟨j, status, i, hw, -⟩ := h
  cases pc <;> simp_all [waking, holds, WakeCaller.holds]

section
variable (h : told pc = some i)
include h

theorem wait_of_told : .wait ∈ holds (.proc p) pc := by
  cases pc <;> simp_all [told, waking, holds]
  all_goals rename_i k _ _; cases k <;> simp_all [WakeCaller.holds]

theorem want_of_told : want pc = .running := by
  cases pc <;> simp_all [told, waking, want]

theorem swept_of_told : swept pc = some NPROC := by
  cases pc <;> simp_all [told, waking, swept]
  all_goals rename_i k _ _; cases k <;> simp_all

end

theorem running_of_told (h : Inv s) (hz : told (s.th (.proc z)).base = some i) : (s.proc z).state = .running := by
  have hw : .wait ∈ holds (.proc z) (s.th (.proc z)).base := wait_of_told hz
  obtain ⟨c, hc, -⟩ := exists_cpu_of_wait h hw
  rw [h.active c z hc, Inv.pc_of_none (h.intr_none (ne_nil_of_mem hw)), want_of_told hz]

theorem ne_of_told (h : Inv s) (ht : Tree s) (hz : told (s.th (.proc z)).base = some i)
    (hp : parentOf s z = some q) : z ≠ q := by
  rintro rfl
  have hr := ht.reaches z (.inl (.inr (.inr (running_of_told h hz))))
  exact (ht.exiting z _ (swept_of_told hz)).1 (hr.eq_of_self hp)

/-! ## One instruction keeps the invariant -/

section Step
variable (h : Inv s) (ht : Tree s) (hR : Reap s) (hi : Exec s c a n)
include h hi

theorem parentOf_after_of_told (hz : told (s.th (.proc z)).base = some i) :
    parentOf (s.after c a n) z = parentOf s z := by
  have hrun := running_of_told h hz
  rw [parentOf_after]
  refine parentAfter_of_ne ?_ ?_ ?_ ?_
  · rintro p rfl
    have hst := (h.fork _ z (by rw [h.base_eq (guard_instr hi).2 rfl]; rfl)).1
    rw [hrun] at hst; cases hst
  · rintro rfl
    obtain ⟨p, status, hc, hpc, -⟩ := guard_instr hi
    obtain ⟨rfl, hb⟩ := at_of_wait h (wait_of_told hz) hc hpc rfl mem_cons_self
    rw [hb] at hz; cases hz
  · rintro rfl
    have hst := (h.fork _ z (child_of_store h hi (.inl rfl)).2).1
    rw [hrun] at hst; cases hst
  · rintro rfl
    obtain ⟨-, -, -, hst⟩ := guard_instr hi
    rw [hrun] at hst; cases hst

include hR in
theorem dozing_of_after (hq : Dozing (s.after c a n) q) : Dozing s q ∨
    ∃ chan, s.cur c = .proc q ∧ (s.th (.proc q)).base = .sleepUnlock chan .wait ∧ a = .release .wait := by
  rcases hq with ⟨chan, hb'⟩ | ⟨hst, hch⟩
  · rcases after_base h hi (.proc q) with hb | ⟨hc, hint, hb⟩ | ⟨np, -, -, hb⟩
    · rw [hb] at hb'; exact .inl (.inl ⟨chan, hb'⟩)
    · rw [hb] at hb'
      rw [Exec, ← hc, Inv.pc_of_none hint] at hi
      obtain ⟨hpc, ha⟩ := arrives_instr hi hb'
      exact .inr ⟨chan, hc.symm, hpc, ha⟩
    · rw [hb] at hb'; cases hb'
  · left
    cases a with
    | store e =>
      cases he : e.entry s with
      | none => rw [after_proc_of_none he] at hst hch; exact .inr ⟨hst, hch⟩
      | some x =>
        rw [after_proc he] at hst hch
        by_cases hx : q = x.1
        · subst hx
          rw [update_self] at hst hch
          have hg := guard_instr hi
          cases e with
          | sleep p chan =>
            cases he
            obtain ⟨hc, lk, hpc⟩ := hg
            rw [hc] at hpc
            have hb := h.base_eq hpc rfl
            obtain rfl := (hR.args p chan lk (by rw [hb]; rfl)).mpr hch
            exact .inl ⟨chan, hb⟩
          | kill p =>
            cases he
            by_cases hs : (s.proc p).state = .sleeping <;> simp [Entry.kill, hs] at hst
          | parent np p | reparent p => cases he; exact .inr ⟨hst, hch⟩
          | tidy p => cases he; cases hch
          | idle => cases he
          | _ => cases he; cases hst
        · rw [update_of_ne hx] at hst hch; exact .inr ⟨hst, hch⟩
    | _ => exact .inr ⟨hst, hch⟩

omit hi in
theorem not_sleepSet {lk : CondLock} (hL : .proc q ∈ heldBy s c) (hc : s.cur c ≠ .proc q) :
    (s.th (.proc q)).base ≠ .sleepSet chan lk := by
  intro hb
  obtain ⟨c', hc', hL'⟩ := exists_cpu h
    (by rw [hb]; exact mem_cons_self) (by rw [hb]; rfl)
  obtain rfl := h.mutex hL hL'; exact hc hc'

include hR in
/-- **No lost wakeup.**  A process that a wakeup on its own channel has passed is not falling
asleep. -/
theorem not_dozing_of_passes (hc : s.cur c = .proc z) (hne : z ≠ q)
    (hp : Passes (.proc z) s (s.th (.proc z)).pc a (.proc q) q) : ¬ Dozing (s.after c a n) q := by
  intro hd
  have hcq : s.cur c ≠ .proc q := by rw [hc]; rintro ⟨rfl⟩; exact hne rfl
  rcases hp with hzq | ⟨hL, hp⟩
  · exact hcq (hc.trans hzq)
  have hL' : .proc q ∈ heldBy s c := by rw [heldBy, hc]; exact hL
  rcases dozing_of_after h hR hi hd with hold | ⟨chan, hcq', -⟩
  · rcases hold with ⟨chan, hb⟩ | hsl
    · exact not_sleepSet h hL' hcq hb
    · rcases hp with rfl | hp
      · rcases hd with ⟨chan, hb'⟩ | ⟨hst, -⟩
        · rcases after_base h hi (.proc q) with hb | ⟨hcq', -⟩ | ⟨np, ha, -⟩
          · rw [hb] at hb'; exact not_sleepSet h hL' hcq hb'
          · exact hcq hcq'.symm
          · cases ha
        · rw [after_proc rfl, update_self] at hst; cases hst
      · exact hp hsl
  · exact hcq hcq'

include hR

theorem args_after (p : Slot) (chan : Chan) (lk : CondLock)
    (hp : sleepArgs ((s.after c a n).th (.proc p)).base = some (chan, lk)) : lk = .wait ↔ chan = .proc p := by
  rcases value_after h hi rfl hp with hold | ⟨-, hi', hnew⟩
  · exact hR.args p chan lk hold
  · rcases sleepArgs_instr hi' hnew with hold | hx
    · exact hR.args p chan lk hold
    · exact hx

theorem exitChan_after (p : Slot) (status : Word) (chan : Chan) (i : ℕ)
    (hp : waking ((s.after c a n).th (.proc p)).base = some (.exit status, chan, i)) :
    chan = Chan.ofProc (parentOf (s.after c a n) p) := by
  have hkeep : ∀ j, waking (s.th (.proc p)).base = some (.exit status, chan, j) →
      chan = Chan.ofProc (parentOf (s.after c a n) p) := by
    intro j hold
    rw [parentOf_after_of_told h hi (told_of_waking hold)]
    exact hR.exitChan p status chan j hold
  rcases value_after h hi rfl hp with hold | ⟨-, hi', hnew⟩
  · exact hkeep i hold
  · rcases exitChan_instr hi' hnew with ⟨j, hold⟩ | ⟨-, rfl, hch⟩
    · exact hkeep j hold
    · exact hch

omit hR in
theorem searched_keep (hq : searched (s.th (.proc q)).base = some i)
    (hj : parentOf s r = some q → (s.proc r).state ≠ .zombie)
    (hr : parentOf (s.after c a n) r = some q) : ((s.after c a n).proc r).state ≠ .zombie := by
  have hw : .wait ∈ holds (.proc q) (s.th (.proc q)).base := wait_of_searched hq
  have hother : ∀ p pc, s.cur c = .proc p → (s.th (s.cur c)).pc = pc → isIntr pc = false →
      .wait ∈ holds (.proc p) pc → searched pc = none → False := by
    intro p pc hc hpc hint hwp hnone
    rw [(at_of_wait h hw hc hpc hint hwp).2, hnone] at hq; cases hq
  rw [parentOf_after] at hr
  rcases parentAfter_some hr with hr | rfl | ⟨rfl, rfl⟩
  · intro hz
    rcases shift h hi r with hst | ⟨-, hst⟩
    · rw [hst] at hz; exact hj hr hz
    · obtain ⟨status, rfl⟩ := Shift.to_zombie hst hz
      obtain ⟨hc, hpc⟩ := guard_instr hi
      exact hother r _ hc hpc rfl (by simp [holds]) rfl
  · obtain ⟨hc, hpc⟩ := guard_instr hi
    exact (hother q _ hc hpc rfl (by simp [holds]) rfl).elim
  · obtain ⟨p, status, hc, hpc, -⟩ := guard_instr hi
    exact (hother p _ hc hpc rfl (by simp [holds]) rfl).elim

theorem searched_after (q : Slot) (i : ℕ)
    (hq : Reaping.searched ((s.after c a n).th (.proc q)).base = some i) (j : Slot) (hj : (j : ℕ) < i)
    (hjq : parentOf (s.after c a n) j = some q) : ((s.after c a n).proc j).state ≠ .zombie := by
  rcases value_after h hi rfl hq with hold | ⟨-, hi', hnew⟩
  · exact searched_keep h hi hold (hR.searched q i hold j hj) hjq
  rcases searched_instr hi' hnew with hold | rfl | ⟨r, hold, rfl, hr⟩ | ⟨j0, hold, hj0⟩
  · exact searched_keep h hi hold (hR.searched q i hold j hj) hjq
  · exact absurd hj (Nat.not_lt_zero _)
  · refine searched_keep h hi hold (fun hjq => ?_) hjq
    rcases Nat.lt_succ_iff_lt_or_eq.mp hj with hj | hj
    · exact hR.searched q r hold j hj hjq
    · obtain rfl : j = r := Fin.ext hj
      rcases hr with hr | hr
      · exact absurd hjq hr
      · exact hr
  · exact searched_keep h hi hold (hR.searched q j0 hold j (lt_of_lt_of_le j.isLt hj0)) hjq

include ht

theorem testing_after (p q : Slot) (hp : ((s.after c a n).th (.proc p)).base = .waitTest q) :
    parentOf (s.after c a n) q = some p := by
  rcases after_base h hi (.proc p) with hb | ⟨hc, hint, hb⟩ | ⟨np, -, -, hb⟩
  · rw [hb] at hp
    have hq := hR.testing p q hp
    have hw : .wait ∈ holds (.proc p) (s.th (.proc p)).base := by rw [hp]; simp [holds]
    rw [parentOf_after]
    refine (parentAfter_of_ne ?_ ?_ ?_ ?_).trans hq
    · rintro p' rfl
      obtain ⟨hc, hpc⟩ := guard_instr hi
      obtain ⟨-, hb'⟩ := at_of_wait h hw hc hpc rfl (by simp [holds])
      rw [hp] at hb'; cases hb'
    · rintro rfl
      obtain ⟨p', status, hc, hpc, -⟩ := guard_instr hi
      obtain ⟨-, hb'⟩ := at_of_wait h hw hc hpc rfl (by simp [holds])
      rw [hp] at hb'; cases hb'
    · rintro rfl
      have hbc := h.base_eq (guard_instr hi) rfl
      have hnone := ht.fresh _ q (by rw [hbc]; rfl) (by rw [hbc]; rfl)
      rw [hq] at hnone; cases hnone
    · rintro rfl
      -- the process that frees the child goes on
      obtain ⟨p', hc, hpc, -⟩ := guard_instr hi
      obtain ⟨rfl, -⟩ := at_of_wait h hw hc hpc rfl (by simp [holds])
      obtain ⟨status, rfl, -⟩ := reap_instr hi
      rw [← hc, after_th_self h hi, base_next_of_none _ (h.base_of_not_isIntr (by rw [hpc]; rfl)), hc, hp] at hb
      cases hb
  · rw [hb] at hp
    have hi' := hi
    rw [Exec, ← hc] at hi'
    obtain ⟨rfl, p', ⟨rfl⟩, hq⟩ := arrives_instr hi' hp; exact hq
  · rw [hb] at hp; cases hp

theorem told_after (he : a.Enabled c s) (z q : Slot) (i : ℕ)
    (hz : Reaping.told ((s.after c a n).th (.proc z)).base = some i)
    (hp : parentOf (s.after c a n) z = some q) (hq : (q : ℕ) < i) : ¬ Dozing (s.after c a n) q := by
  intro hd
  have hne := ne_of_told (inv_after h hi he) (tree_after h ht hi) hz hp
  rcases dozing_of_after h hR hi hd with hold | ⟨chan, hcq, hbq, -⟩
  · -- the parent was falling asleep before: the wakeup has not passed it before either
    have hkeep : ∀ j, Reaping.told (s.th (.proc z)).base = some j → ¬ (q : ℕ) < j := by
      intro j hz hq
      rw [parentOf_after_of_told h hi hz] at hp
      exact hR.told z q j hz hp hq hold
    rcases value_after h hi rfl hz with hz | ⟨hc, hi', hnew⟩
    · exact hkeep i hz hq
    rcases told_instr hi' hnew with hz | ⟨rfl, -⟩ | ⟨q', status, chan, hw, rfl, hps⟩ | ⟨j, hz, hj⟩
    · exact hkeep i hz hq
    · exact Nat.not_lt_zero _ hq
    · have hz := told_of_waking hw
      rcases Nat.lt_succ_iff_lt_or_eq.mp hq with hq | hq
      · exact hkeep q' hz hq
      · obtain rfl : q = q' := Fin.ext hq
        have hch := hR.exitChan z status chan q hw
        rw [← parentOf_after_of_told h hi hz, hp] at hch
        have hint := h.intr_none (ne_nil_of_mem (wait_of_told hz))
        rw [hch, ← Inv.pc_of_none hint] at hps
        exact not_dozing_of_passes h hR hi hc.symm hne hps hd
    · exact hkeep j hz (lt_of_lt_of_le q.isLt hj)
  · -- both hold `wait_lock`
    rcases after_base h hi (.proc z) with hb | ⟨hc, -, -⟩ | ⟨np, -, -, hb⟩
    · rw [hb] at hz
      refine hne (eq_of_wait h (wait_of_told hz) ?_)
      rw [hbq]; simp [holds]
    · rw [← hc] at hcq; cases hcq; exact hne rfl
    · rw [hb] at hz; cases hz

theorem zombie_after (z q : Slot) (hz : ((s.after c a n).proc z).state = .zombie)
    (hp : parentOf (s.after c a n) z = some q) (hd : Dozing (s.after c a n) q) :
    q = initproc ∧ ∃ p, TellsInit ((s.after c a n).th (.proc p)).base := by
  rcases dozing_of_after h hR hi hd with hold | ⟨chan, -, hbq, rfl⟩
  · rcases shift h hi z with hst | ⟨-, hst⟩
    · rw [hst] at hz
      rw [parentOf_after] at hp
      rcases parentAfter_some hp with hp | rfl | ⟨rfl, rfl⟩
      · obtain ⟨rfl, p, hT⟩ := hR.zombie z q hz hp hold
        refine ⟨rfl, ?_⟩
        rcases after_base h hi (.proc p) with hb | ⟨hc, hint, hb⟩ | ⟨np, rfl, hnp, -⟩
        · exact ⟨p, by rw [hb]; exact hT⟩
        · obtain ⟨j, hsw⟩ := swept_of_tellsInit hT
          obtain ⟨j, status, i, hw, hle⟩ := hT
          have hi' := hi
          rw [Exec, ← hc, Inv.pc_of_none hint] at hi'
          rcases waking_instr hi' hw with hw' | ⟨q', rfl, hw', hps⟩ | hi''
          · exact ⟨p, by rw [hb]; exact ⟨j, status, i, hw', hle⟩⟩
          · rcases Nat.lt_or_eq_of_le hle with hlt | heq
            · exact ⟨p, by rw [hb]; exact ⟨j, status, _, hw', hlt⟩⟩
            · obtain rfl : q' = initproc := Fin.ext heq
              rw [← Inv.pc_of_none hint] at hps
              exact absurd hd (not_dozing_of_passes h hR hi hc.symm (ht.exiting p _ hsw).1 hps)
          · exact absurd (lt_of_lt_of_le initproc.isLt hi'') (Nat.not_lt.mpr hle)
        · cases hnp
          obtain ⟨c', hc', -⟩ := exists_cpu_of_wait h (wait_of_tellsInit hT)
          exact absurd (guard_instr hi).2 (h.state_of_cur hc').1
      · have hst := (h.fork _ z (by rw [h.base_eq (guard_instr hi).2 rfl]; rfl)).1
        rw [hz] at hst; cases hst
      · obtain ⟨p, status, hc, hpc, -⟩ := guard_instr hi
        refine ⟨rfl, p, ?_⟩
        rw [← hc, after_th_self h hi, base_next_of_none n (h.base_of_not_isIntr (by rw [hpc]; rfl))]
        exact reparent_instr hi
    · obtain ⟨status, rfl⟩ := Shift.to_zombie hst hz
      obtain ⟨hc, hpc⟩ := guard_instr hi
      rw [hc] at hpc
      rw [parentOf_after] at hp
      exact absurd hold (hR.told z q NPROC (by rw [h.base_eq hpc rfl]; rfl) hp q.isLt)
  · exact absurd hz (hR.searched q NPROC (by rw [hbq]; rfl) z z.isLt hp)

theorem reap_after (he : a.Enabled c s) : Reap (s.after c a n) where
  args := args_after h hR hi
  searched := searched_after h hR hi
  testing := testing_after h ht hR hi
  exitChan := exitChan_after h hR hi
  told := told_after h ht hR hi he
  zombie := zombie_after h ht hR hi

end Step

theorem reap_setThread (hR : Reap s) (hb : th.base = (s.th t).base) : Reap (s.setThread t th) := by
  have hbase := base_setThread hb
  have hdoze : ∀ q, Dozing (s.setThread t th) q → Dozing s q := by
    rintro q (⟨chan, hq⟩ | hq)
    · rw [hbase] at hq; exact .inl ⟨chan, hq⟩
    · exact .inr hq
  refine ⟨fun p chan lk hp => ?_, fun q i hq => ?_, fun p q hp => ?_, fun p status chan i hp => ?_,
    fun z q i hz hp hq hd => ?_, fun z q hz hp hd => ?_⟩
  · rw [hbase] at hp; exact hR.args p chan lk hp
  · rw [hbase] at hq; exact hR.searched q i hq
  · rw [hbase] at hp; exact hR.testing p q hp
  · rw [hbase] at hp; exact hR.exitChan p status chan i hp
  · rw [hbase] at hz; exact hR.told z q i hz hp hq (hdoze q hd)
  · obtain ⟨hq, p, hT⟩ := hR.zombie z q hz hp (hdoze q hd)
    exact ⟨hq, p, by rw [hbase]; exact hT⟩

theorem reap_step (h : Inv s) (ht : Tree s) (hR : Reap s) (hs : Step s c s') : Reap s' := by
  cases hs with
  | instr hi he => exact reap_after h ht hR hi he
  | timer _ hth _ | device _ hth _ => exact reap_setThread hR (by rw [hth])

/-! ## What each call of `wait` frees -/

structure Freed where
  slot : Slot
  pid : Word
  xstate : Word

/-- The processes that are `ZOMBIE` before a step and not after it. -/
def freedBy (s s' : State) : Set Freed :=
  {f | (s.proc f.slot).state = .zombie ∧ (s'.proc f.slot).state ≠ .zombie ∧
    f.pid = (s.proc f.slot).pid ∧ f.xstate = (s.proc f.slot).xstate}

/-- The history variable: what each process has freed since it last entered `wait`. -/
def record (s : State) (c : ℕ) (s' : State) (g : Slot → Set Freed) (p : Slot) : Set Freed :=
  {f | s.cur c = .proc p ∧ f ∈ freedBy s s'} ∪
    {f | f ∈ g p ∧ ¬ (s.cur c = .proc p ∧ (s.th (.proc p)).pc = .waitLock)}

def waitSys : Sys (State × (Slot → Set Freed)) ℕ := sys.hist (fun _ => ∅) record

/-- Inside `wait`: nothing freed yet, or a child with this pid freed and this status stored. -/
def freedAt : Pc → Option (Option (Word × Option Word))
  | .waitScan _ _ | .waitTest _ | .waitKilled | .waitRet none _ => some none
  | .sleepLock _ .wait | .sleepUnlock _ .wait | .sleepSet _ .wait | .sleepSched .wait
  | .sleepBack .wait | .sleepTidied .wait | .sleepRelock .wait => some none
  | .waitFreed _ pid status | .waitRet (some pid) status => some (some (pid, status))
  | _ => none

def Accounts (g : Set Freed) : Option (Option (Word × Option Word)) → Prop
  | none => True
  | some none => g = ∅
  | some (some (pid, status)) => ∃ q x, g = {⟨q, pid, x⟩} ∧ (status = none ∨ status = some x)

theorem freedAt_instr (h : Instr (.proc p) s pc a n) : freedAt (n.pc .user) = none ∨
      freedAt (n.pc .user) = freedAt pc ∧ pc ≠ .waitLock ∧ (∀ q, a ≠ .store (.reap q)) ∨
      freedAt (n.pc .user) = some none ∧ pc = .waitLock ∧ (∀ q, a ≠ .store (.reap q)) ∨
      ∃ q status, freedAt pc = some none ∧ a = .store (.reap q) ∧
        freedAt (n.pc .user) = some (some ((s.proc q).pid, status)) ∧
        (status = none ∨ status = some (s.proc q).xstate) := by
  rcases h with h | h
  · cases h
    case scanEnd k _ _ _ => cases k <;> exact .inl rfl
    all_goals exact .inl rfl
  · cases h
    case waitReapNull => exact .inr (.inr (.inr ⟨_, _, rfl, rfl, rfl, .inl rfl⟩))
    case waitReap => exact .inr (.inr (.inr ⟨_, _, rfl, rfl, rfl, .inr rfl⟩))
    case waitLock => exact .inr (.inr (.inl ⟨rfl, rfl, by simp⟩))
    all_goals first
      | exact .inl rfl
      | exact .inr (.inl ⟨rfl, by simp, by simp⟩)
      | (rename_i lk; cases lk <;> first
          | exact .inl rfl
          | exact .inr (.inl ⟨rfl, by simp, by simp⟩))

theorem freedBy_of_ne_reap (h : Inv s) (hi : Exec s c a n) (ha : ∀ q, a ≠ .store (.reap q)) :
    freedBy s (s.after c a n) = ∅ := by
  refine Set.eq_empty_of_forall_notMem fun f ⟨hz, hz', _⟩ => ?_
  rcases shift h hi f.slot with hst | ⟨-, hst⟩
  · exact hz' (hst.trans hz)
  · exact ha _ (hst.of_zombie hz).1

theorem freedBy_reap (h : Inv s) (hi : Exec s c (.store (.reap q)) n) :
    freedBy s (s.after c (.store (.reap q)) n) = {⟨q, (s.proc q).pid, (s.proc q).xstate⟩} := by
  obtain ⟨-, -, -, hz⟩ := guard_instr hi
  ext ⟨r, pid, x⟩
  constructor
  · rintro ⟨hr, hr', hpid, hx⟩
    rcases shift h hi r with hst | ⟨-, hst⟩
    · exact absurd (hst.trans hr) hr'
    · cases (hst.of_zombie hr).1
      exact Set.mem_singleton_iff.mpr (by rw [Freed.mk.injEq]; exact ⟨rfl, hpid, hx⟩)
  · rintro ⟨⟩
    refine ⟨hz, ?_, rfl, rfl⟩
    rw [after_proc rfl]; simp [Entry.freeproc]

variable {g : Slot → Set Freed}

theorem record_of_quiet (hf : freedBy s s' = ∅)
    (hw : ¬ (s.cur c = .proc p ∧ (s.th (.proc p)).pc = .waitLock)) : record s c s' g p = g p := by
  ext f; simp [record, hf, hw]

theorem accounts_after (h : Inv s) (hg : ∀ p, Accounts (g p) (freedAt (s.th (.proc p)).base))
    (hi : Exec s c a n) (p : Slot) :
    Accounts (record s c (s.after c a n) g p) (freedAt ((s.after c a n).th (.proc p)).base) := by
  by_cases hc : s.cur c = .proc p
  · have hold := hg p
    have hth := after_th_self h hi
    rw [hc] at hth
    rw [hth]
    cases hint : (s.th (.proc p)).intr with
    | none =>
      have hi' := hi
      rw [Exec, hc, Inv.pc_of_none hint] at hi'
      have hpc := Inv.pc_of_none hint
      rw [base_next_of_none n hint]
      rcases freedAt_instr hi' with hn | ⟨hn, hne, ha⟩ | ⟨hn, hl, ha⟩ | ⟨q, status, hpc', rfl, hn, hs⟩
      · rw [hn]; trivial
      · rw [hn]
        rw [record_of_quiet (freedBy_of_ne_reap h hi ha) fun hw => hne (hpc.symm.trans hw.2)]
        exact hold
      · rw [hn]
        change record s c (s.after c a n) g p = ∅
        simp [record, freedBy_of_ne_reap h hi ha, hc, hpc, hl]
      · rw [hpc'] at hold
        rw [hn]
        have hempty : g p = ∅ := hold
        refine ⟨q, _, ?_, hs⟩
        simp [record, freedBy_reap h hi, hc, hempty]
    | some pc0 =>
      have hpc : isIntr (s.th (.proc p)).pc = true := by
        rw [Thread.pc, hint]; exact (h.intr _ pc0 hint).1
      have ha : ∀ q, a ≠ .store (.reap q) := by
        rintro q rfl
        obtain ⟨-, -, hpc', -⟩ := guard_instr hi
        rw [hc] at hpc'
        rw [hpc'] at hpc; cases hpc
      have hne : (s.th (.proc p)).pc ≠ .waitLock := by intro e; rw [e] at hpc; cases hpc
      rw [base_next_of_some n hint]
      rw [record_of_quiet (freedBy_of_ne_reap h hi ha) fun hw => hne hw.2]
      exact hold
  · have hrec : record s c (s.after c a n) g p = g p := by simp [record, hc]
    rw [hrec]
    rcases after_base h hi (.proc p) with hb | ⟨hc', -, -⟩ | ⟨np, -, -, hb⟩
    · rw [hb]; exact hg p
    · exact absurd hc'.symm hc
    · rw [hb]; trivial

theorem accounts_setThread (hg : ∀ p, Accounts (g p) (freedAt (s.th (.proc p)).base))
    (hint : (s.th (s.cur c)).intr = none) (hb : th.base = (s.th (s.cur c)).base) (p : Slot) :
    Accounts (record s c (s.setThread (s.cur c) th) g p)
      (freedAt ((s.setThread (s.cur c) th).th (.proc p)).base) := by
  rw [base_setThread hb]
  have hfreed : freedBy s (s.setThread (s.cur c) th) = ∅ :=
    Set.eq_empty_of_forall_notMem fun f ⟨hz, hz', _⟩ => hz' hz
  by_cases hw : s.cur c = .proc p ∧ (s.th (.proc p)).pc = .waitLock
  · obtain ⟨hc, hpc⟩ := hw
    rw [hc] at hint
    rw [Inv.pc_of_none hint] at hpc
    rw [hpc]; trivial
  · rw [record_of_quiet hfreed hw]; exact hg p

theorem accounts_step (h : Inv s) (hg : ∀ p, Accounts (g p) (freedAt (s.th (.proc p)).base))
    (hs : Step s c s') (p : Slot) : Accounts (record s c s' g p) (freedAt (s'.th (.proc p)).base) := by
  cases hs with
  | instr hi _ => exact accounts_after h hg hi p
  | timer hc hth _ =>
    rw [← hc] at hth ⊢
    exact accounts_setThread hg (by rw [hth]) (by rw [hth]) p
  | device _ hth _ => exact accounts_setThread hg (by rw [hth]) (by rw [hth]) p

theorem accounts_reachable {x : State × (Slot → Set Freed)} (h : Reachable waitSys x) :
    (Inv x.1 ∧ Tree x.1 ∧ Reap x.1) ∧ ∀ p, Accounts (x.2 p) (freedAt (x.1.th (.proc p)).base) := by
  refine h.inv (I := fun x => (Inv x.1 ∧ Tree x.1 ∧ Reap x.1) ∧
    ∀ p, Accounts (x.2 p) (freedAt (x.1.th (.proc p)).base)) (fun x hx => ?_) ?_
  · obtain ⟨s, g⟩ := x
    obtain ⟨h0, -⟩ := hx
    obtain rfl : s = boot := h0
    exact ⟨⟨inv_boot, tree_boot, reap_boot⟩, fun p => trivial⟩
  · rintro ⟨s, g⟩ c ⟨s', g'⟩ ⟨⟨hI, ht, hR⟩, hg⟩ ⟨hs, hg'⟩
    obtain rfl : g' = record s c s' g := hg'
    exact ⟨⟨inv_step hI hs, tree_step hI ht hs, reap_step hI ht hR hs⟩, accounts_step hI hg hs⟩

theorem reaped_by_parent (h : Inv s) (hR : Reap s) (hs : Step s c s')
    (hz : (s.proc z).state = .zombie) (hz' : (s'.proc z).state ≠ .zombie) :
    ∃ p status, s.cur c = .proc p ∧ (s.proc z).parent = some p ∧
      (s.th (.proc p)).pc = .waitTest z ∧ (s'.proc z).state = .unused ∧
      (s'.th (.proc p)).pc = .waitFreed z (s.proc z).pid status ∧
      (status = none ∨ status = some (s.proc z).xstate) := by
  cases hs with
  | instr hi he =>
    rcases shift h hi z with hst | ⟨-, hst⟩
    · exact absurd (hst.trans hz) hz'
    · obtain ⟨rfl, hu⟩ := hst.of_zombie hz
      obtain ⟨p, hc, hpc, -⟩ := guard_instr hi
      obtain ⟨status, rfl, hstatus⟩ := reap_instr hi
      have hth := after_th_self h hi
      rw [hc] at hpc hth
      refine ⟨p, status, hc, hR.testing p z (h.base_eq hpc rfl), hpc, hu, ?_, hstatus⟩
      rw [hth, pc_next]; rfl
  | timer _ _ _ | device _ _ _ => exact absurd hz hz'

/-- **No child exit is lost or reaped twice.**  In every state the CPUs can reach:

* if `wait_lock` is free, a process asleep in `wait` (on itself) has no `ZOMBIE` child;
* a step after which a `ZOMBIE` is one no longer is a step of its current parent inside `wait`; it
  frees the slot, and the call goes on to return the pid and has stored the exit status, unless it
  was given no address;
* a call of `wait` that is about to return -1 (`none`) has freed nothing, one that is about to
  return a pid has freed exactly one process, and that process has this pid and had the exit status
  that the call has stored. -/
theorem child_exit_kept {g : Slot → Set Freed} (h : Reachable waitSys (s, g)) :
    (s.lock .wait = none → ∀ q z, (s.proc q).state = .sleeping → (s.proc q).chan = .proc q →
      (s.proc z).parent = some q → (s.proc z).state ≠ .zombie) ∧
    (∀ c s' z, Step s c s' → (s.proc z).state = .zombie → (s'.proc z).state ≠ .zombie →
      ∃ p status, s.cur c = .proc p ∧ (s.proc z).parent = some p ∧
        (s.th (.proc p)).pc = .waitTest z ∧ (s'.proc z).state = .unused ∧
        (s'.th (.proc p)).pc = .waitFreed z (s.proc z).pid status ∧
        (status = none ∨ status = some (s.proc z).xstate)) ∧
    ∀ p result status, (s.th (.proc p)).pc = .waitRet result status → (result = none → g p = ∅) ∧
      ∀ pid, result = some pid → ∃ z x, g p = {⟨z, pid, x⟩} ∧ (status = none ∨ status = some x) := by
  obtain ⟨⟨hI, ht, hR⟩, hg⟩ := accounts_reachable h
  refine ⟨fun hw q z hst hch hp hz => ?_, fun c s' z hs => reaped_by_parent hI hR hs,
    fun p result status hpc => ?_⟩
  · obtain ⟨-, p, hT⟩ := hR.zombie z q hz hp (.inr ⟨hst, hch⟩)
    obtain ⟨c, -, hL⟩ := exists_cpu_of_wait hI (wait_of_tellsInit hT)
    rw [(hI.held c _).mpr hL] at hw; cases hw
  · have hp := hg p
    rw [hI.base_eq hpc rfl] at hp
    constructor
    · rintro rfl; exact hp
    · rintro pid rfl; exact hp

/-- CPU 1 has dispatched the child, which has come out of `forkret`. -/
def childRuns : State :=
  [(.tau, .goto (.rrScan 0)), (.acquire (.proc 0), .goto (.rrTest 0)),
    (.release (.proc 0), .goto (.rrScan 1)), (.acquire (.proc 1), .goto (.rrTest 1)),
    (.store (.run 1), .goto (.swtch .rr 1)), (.swtchTo 1, .goto (.swtched .rr 1)),
    (.release (.proc 1), .goto .user)].foldl
    (fun (s : State) (x : Act × Next) => s.after 1 x.1 x.2) childForked

theorem reachable_childRuns : Reachable sys childRuns := by
  have h0 := reachable_childForked
  have h1 := reach h0 1 (.inr SchedInstr.topRr)
  have h2 := reach h1 1 (.inr (SchedInstr.rrScan (q := 0)))
  have h3 := reach h2 1 (.inr (SchedInstr.rrSkip (by decide)))
  have h4 := reach h3 1 (.inr (SchedInstr.rrScan (q := 1)))
  have h5 := reach h4 1 (.inr (SchedInstr.rrPick rfl))
  have h6 := reach h5 1 (.inr SchedInstr.swtch)
  have h7 := reach h6 1 (.inr ProcInstr.forkret); exact h7

/-- The child has called `exit(7)`. -/
def childExits : State := childRuns.after 1 .tau (.goto (.exitWait 7))

theorem reachable_childExits : Reachable sys childExits :=
  reach reachable_childRuns 1 (.inr (ProcInstr.callExit 7))

/-- The child has exited, CPU 1 has gone on to the next slot, and the first process has found the
child in `wait`. -/
def childReaped : State :=
  [(.tau, .goto .waitLock), (.acquire .wait, .goto (.waitScan 0 false)),
    (.tau, .goto (.waitScan 1 false)), (.acquire (.proc 1), .goto (.waitTest 1)),
    (.store (.reap 1), .goto (.waitFreed 1 2 (some 7))),
    (.release (.proc 1), .goto (.waitRet (some 2) (some 7)))].foldl
    (fun (s : State) (x : Act × Next) => s.after 0 x.1 x.2)
    (((exited childExits 1 1 7).after 1 (.store .idle) (.goto (.schedDone .rr 1))).after 1
      (.release (.proc 1)) (.goto (.rrScan 2)))

theorem reachable_childReaped : Reachable sys childReaped := by
  have hexit : Solo 1 childExits (exited childExits 1 1 7) :=
    solo_exit rfl rfl (by decide) rfl (by decide +kernel) (by decide +kernel) (by decide +kernel)
  have h0 := hexit.reachable reachable_childExits
  have h1 := reach h0 1 (.inr SchedInstr.swtched)
  have h2 := reach h1 1 (.inr SchedInstr.doneRr)
  have h3 := reach h2 0 (.inr ProcInstr.callWait)
  have h4 := reach h3 0 (.inr ProcInstr.waitLock)
  have h5 := reach h4 0 (.inr (ProcInstr.waitSkip (q := 0) (by decide)))
  have h6 := reach h5 0 (.inr (ProcInstr.waitChild (q := 1) rfl))
  have h7 := reach h6 0 (.inr (ProcInstr.waitReap rfl))
  have h8 := reach h7 0 (.inr ProcInstr.waitFreed); exact h8

/-- The first process is about to return pid 2 and has freed that child, whose exit status was 7. -/
theorem child_exit_kept_reaped : ∃ g z, Reachable waitSys (childReaped, g) ∧
    (childReaped.th (.proc 0)).pc = .waitRet (some 2) (some 7) ∧ g 0 = {⟨z, 2, 7⟩} := by
  obtain ⟨l, hl⟩ := reachable_childReaped
  obtain ⟨l', g, hr, -⟩ := hl.lift (fun _ => ∅) record
  obtain ⟨-, -, hret⟩ := child_exit_kept ⟨l', hr⟩
  obtain ⟨z, x, hg, hx⟩ := (hret 0 (some 2) (some 7) rfl).2 2 rfl
  obtain rfl : 7 = x := by simpa using hx
  exact ⟨g, z, ⟨l', hr⟩, rfl, hg⟩

end Xv6.Smp.Reaping
