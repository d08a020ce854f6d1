import Xv6.Sched.Life

/-!
# Queue levels and time slices

`queue_level` and `time_slice` are stored by `allocproc` and the two forks, by the refill loop of the MLFQ
branch, and by `usertrap` for a tick of the running process under MLFQ (`exec_sliced`).
-/

namespace Xv6.Sched.Slices

open Lib.Runs Param Sched.Defs Sched.Queues Sched.Ops Sched.Step Sched.Facts Option
open Sched.Running Sched.Life

variable {k k' : Kernel} {c : ℕ} {p q : Slot} {op : Op} {v w : Proc}

def slice (v : Proc) : ℕ × ℕ := (v.queueLevel, v.timeSlice)

/-! ## Stores that leave the pair -/

def KeepsSlice (f : Proc → Proc) : Prop := ∀ v, slice (f v) = slice v

theorem KeepsSlice.backFrom (pc : SchedPc) (t : Word) : KeepsSlice (backFrom pc t) := by
  intro v
  unfold Life.backFrom Proc.afterRun
  split
  · split_ifs <;> rfl
  · rfl

theorem KeepsSlice.resume : KeepsSlice Proc.resume := by
  intro v
  unfold Proc.resume
  split <;> rfl

def SameSlices (k k' : Kernel) : Prop := ∀ q, slice (k'.proc q) = slice (k.proc q)

namespace SameSlices

theorem refl (k : Kernel) : SameSlices k k := fun _ => rfl

theorem trans {k1 k2 k3 : Kernel} (h : SameSlices k1 k2) (h' : SameSlices k2 k3) : SameSlices k1 k3 :=
  fun q => (h' q).trans (h q)

theorem modProc (k : Kernel) (p : Slot) {f : Proc → Proc} (hf : slice (f (k.proc p)) = slice (k.proc p)) :
    SameSlices k (k.modProc p f) := by
  intro q
  rw [modProc_proc]
  split_ifs with hq
  · rw [hq]; exact hf
  · rfl

theorem schedBack (k : Kernel) (c : ℕ) (p : Slot) : SameSlices k (schedBack k c p) := by
  intro q
  rw [schedBack_proc_eq]
  split_ifs with hq
  · rw [hq]; exact KeepsSlice.backFrom _ _ _
  · rfl

theorem reparented (h : Reparented k k') : SameSlices k k' := by
  intro q
  obtain ⟨pa, hq | ⟨-, hq⟩⟩ := h.proc q <;> rw [hq] <;> rfl

theorem clockintr (h : clockintr k c = some k') : SameSlices k k' :=
  fun q => reparented (clockintr_woken h).reparented q

theorem yield (h : yield k c p = some k') : SameSlices k k' := by
  obtain ⟨m, rfl, -⟩ := yield_eq h
  exact (modProc k p (f := Proc.yieldStart k.ticks) rfl).trans (schedBack _ c p)

theorem sleep (k : Kernel) (c : ℕ) (p : Slot) (chan : Chan) : SameSlices k (sleep k c p chan) :=
  (modProc k p (f := Proc.sleepStart chan) rfl).trans (schedBack _ c p)

theorem exit {status : Word} (h : exit k c p status = some k') : SameSlices k k' := by
  obtain ⟨-, k1, h1, rfl⟩ := exit_eq h
  exact (reparented h1).trans ((modProc k1 p (f := Proc.exitStart status) rfl).trans (schedBack _ c p))

theorem dispatch (k : Kernel) (c : ℕ) (b : SchedPolicy) (p : Slot) : SameSlices k (dispatch k c b p) :=
  modProc k p (f := fun v => (v.startRun b k.ticks).resume) (KeepsSlice.resume _)

end SameSlices

theorem refill_slice (h : refill k = some k') :
    ∀ q, slice (k'.proc q) = slice (k.proc q) ∨ slice (k'.proc q) = ((k.proc q).queueLevel, 0) := by
  unfold refill at h
  split_ifs at h
  · refine foldlM_rel (R := fun k k' => ∀ q, slice (k'.proc q) = slice (k.proc q) ∨
      slice (k'.proc q) = ((k.proc q).queueLevel, 0)) (fun _ _ => .inl rfl) ?_ ?_ slots h
    · intro k1 k2 k3 h1 h2 q
      have hlvl : (k2.proc q).queueLevel = (k1.proc q).queueLevel := by
        rcases h1 q with h | h <;> exact congrArg Prod.fst h
      rcases h2 q with h | h
      · exact (h1 q).imp h.trans h.trans
      · exact .inr (h.trans (by rw [hlvl]))
    · intro k1 r k2 h1 q
      unfold refillAt enqueue at h1
      split_ifs at h1
      · obtain ⟨k3, h3, rfl⟩ := map_eq_some_iff.mp h1
        obtain ⟨m, -, rfl⟩ := map_eq_some_iff.mp h3
        by_cases hq : q = r
        · subst hq; exact .inr (congrArg slice (modProc_proc_self _ _ _))
        · exact .inl (congrArg slice (modProc_proc_ne _ hq _))
      · cases h1; exact .inl rfl
  · cases h; exact fun _ => .inl rfl

def afterTick (s : ℕ × ℕ) : ℕ × ℕ :=
  if maxTicks s.1 ≤ s.2 + 1 then (if s.1 < QUEUE_LEVELS - 1 then s.1 + 1 else s.1, 0)
  else (s.1, s.2 + 1)

theorem slice_tickSlice (v : Proc) : slice (tickSlice v) = afterTick (slice v) := by
  unfold tickSlice afterTick slice
  split_ifs <;> rfl

/-- What a step does to level and time slice of the entry of `q`. -/
inductive Sliced (k : Kernel) (op : Op) (k' : Kernel) (q : Slot) : Prop
  | same (h : slice (k'.proc q) = slice (k.proc q))
  | made (hs : (k.proc q).state = .unused) (h : slice (k'.proc q) = (0, 0))
  | refilled (c : ℕ) (hop : op = .schedule c) (h : slice (k'.proc q) = ((k.proc q).queueLevel, 0))
  | tick (c : ℕ) (hop : op = .usertrapTimer c) (hc : k.myproc c = some q)
      (hpol : k.currentPolicy = .mlfq) (h : slice (k'.proc q) = afterTick (slice (k.proc q)))

theorem sliced_forkWith {start : Word → Proc → Proc} {a : Alloc} {r : Word}
    (hst : ∀ t v, slice (start t v) = (0, 0)) (h : forkWith start k p a = some (r, k')) (q : Slot) :
    Sliced k op k' q := by
  rcases forkWith_cases h with ⟨-, rfl⟩ | ⟨np, w, hun, -, hw, rfl⟩ | ⟨np, m, hun, -, rfl, -⟩
  · exact .same rfl
  · by_cases hq : q = np
    · subst hq
      rcases hw with rfl | rfl
      · exact .same (by rw [modProc_proc_self]; rfl)
      · exact .made hun (by rw [modProc_proc_self]; rfl)
    · exact .same (by rw [modProc_proc_ne _ hq])
  · by_cases hq : q = np
    · subst hq
      exact .made hun ((congrArg slice (modProc_proc_self _ _ _)).trans (hst _ _))
    · exact .same (congrArg slice (modProc_proc_ne _ hq _))

theorem sliced_schedule {r : Option Slot} (h : schedule k c = some (r, k')) (q : Slot) :
    Sliced k (.schedule c) k' q := by
  have href : ∀ {k1}, refill k = some k1 → slice (k'.proc q) = slice (k1.proc q) →
      Sliced k (.schedule c) k' q := by
    intro k1 h1 h2
    rcases refill_slice h1 q with h3 | h3
    · exact .same (h2.trans h3)
    · exact .refilled c rfl (h2.trans h3)
  rcases schedule_cases h with ⟨-, k1, rfl | h1, rfl⟩ | ⟨p, b, -, -, -, hr, rfl⟩ |
    ⟨k1, l, i, p, -, h1, -, -, -, hr, rfl⟩
  · exact .same rfl
  · exact href h1 rfl
  · exact .same (SameSlices.dispatch k c b p q)
  · exact href h1 (SameSlices.dispatch { k1 with mlfq := removeAt k1.mlfq l i } c .mlfq p q)

theorem sliced_usertrapTimer (hp : k.myproc c = some p) (h : usertrapTimer k c p = some k') (q : Slot) :
    Sliced k (.usertrapTimer c) k' q := by
  obtain ⟨k1, h1, h⟩ := bind_eq_some_iff.mp h
  have hclock := SameSlices.clockintr h1
  have hpol : k1.currentPolicy = k.currentPolicy := (clockintr_woken h1).policy
  have htot := hclock.trans
    (SameSlices.modProc k1 p (f := fun v => { v with totalTicks := v.totalTicks + 1 }) rfl)
  split_ifs at h with hk
  · exact .same ((hclock.trans (SameSlices.exit h)) q)
  · simp only [modProc_policy] at h
    split at h
    · exact .same ((htot.trans (SameSlices.yield h)) q)
    · next hm =>
      set k2 := k1.modProc p fun v => { v with totalTicks := v.totalTicks + 1 } with hk2
      have h2 : SameSlices (k2.modProc p tickSlice) k' := by
        split_ifs at h with hx
        · exact SameSlices.yield h
        · cases h; exact SameSlices.refl _
      by_cases hq : q = p
      · subst hq
        refine .tick c rfl hp (hpol.symm.trans hm) ?_
        rw [h2 q, modProc_proc_self, slice_tickSlice, htot q]
      · refine .same ?_
        rw [h2 q, modProc_proc_ne _ hq, htot q]
    · cases h; exact .same (htot q)

theorem exec_sliced (h : exec k op = some k') (q : Slot) : Sliced k op k' q := by
  cases exec_ran h with
  | fork hf | forkWithPriority hf => exact sliced_forkWith (fun _ _ => rfl) hf q
  | yield _ h => exact .same (SameSlices.yield h q)
  | @sleep c _ p | @waitSleep c _ p => exact .same (SameSlices.sleep k c p _ q)
  | wakeup h => exact .same (SameSlices.reparented (wakeup_woken h).reparented q)
  | @kill _ _ p | @setkilled _ p | @setPriority _ _ prio p | @forkret _ p => exact .same (SameSlices.modProc k p rfl q)
  | killNone | waitNone | setSched | setSchedNone | setPriorityNone => exact .same rfl
  | exit _ h => exact .same (SameSlices.exit h q)
  | @reap _ _ pp => exact .same (SameSlices.modProc k pp rfl q)
  | usertrapTimer hp h => exact sliced_usertrapTimer hp h q
  | kerneltrapTimer h =>
    obtain ⟨k1, h1, h⟩ := kerneltrapTimer_cases h
    have hclock := SameSlices.clockintr h1
    rcases h with rfl | ⟨p, -, h⟩
    · exact .same (hclock q)
    · exact .same ((hclock.trans (SameSlices.yield h)) q)
  | schedule hs => exact sliced_schedule hs q

def InRange (s : ℕ × ℕ) : Prop := s.1 < QUEUE_LEVELS ∧ s.2 < maxTicks s.1

theorem maxTicks_pos (l : ℕ) : 0 < maxTicks l := by
  unfold maxTicks
  split_ifs <;> omega

theorem InRange.afterTick {s : ℕ × ℕ} (h : InRange s) : InRange (afterTick s) := by
  obtain ⟨hl, hs⟩ := h
  unfold Slices.afterTick
  split_ifs with h1 h2
  · exact ⟨by dsimp only; omega, maxTicks_pos _⟩
  · exact ⟨hl, maxTicks_pos _⟩
  · exact ⟨hl, by dsimp only; omega⟩

theorem InRange.step (hi : InRange (slice (k.proc q))) (h : exec k op = some k') : InRange (slice (k'.proc q)) := by
  rcases exec_sliced h q with he | ⟨-, he⟩ | ⟨c, -, he⟩ | ⟨c, -, -, -, he⟩ <;> rw [he]
  · exact hi
  · exact ⟨by decide, by decide⟩
  · exact ⟨hi.1, maxTicks_pos _⟩
  · exact hi.afterTick

theorem inRange_boot (p : Slot) : InRange (slice (boot.proc p)) := by
  have h : slice (boot.proc p) = (0, 0) := by
    by_cases hp : p = 0
    · subst hp; rfl
    · have hu : boot.proc p = {} := Function.update_of_ne hp _ _; rw [hu]; rfl
  rw [h]; exact ⟨by decide, by decide⟩

theorem inRange_run {h : List (Kernel × Op)} (hr : Run sys h k) (p : Slot) : InRange (slice (k.proc p)) := by
  refine hr.inv (I := fun k => ∀ p, InRange (slice (k.proc p))) ?_ ?_ p
  · intro s hs; rw [sys_init hs]; exact inRange_boot
  · intro s e s' hi hstep p; exact (hi p).step hstep

theorem level_step (hi : InRange (slice (k.proc q))) (h : exec k op = some k') (hq : (k.proc q).state ≠ .unused) :
    (k'.proc q).queueLevel = (k.proc q).queueLevel ∨ (k'.proc q).queueLevel = (k.proc q).queueLevel + 1 ∧
      (∃ c, op = .usertrapTimer c ∧ k.myproc c = some q) ∧ k.currentPolicy = .mlfq ∧
      (k.proc q).timeSlice + 1 = maxTicks (k.proc q).queueLevel := by
  rcases exec_sliced h q with he | ⟨hs, -⟩ | ⟨c, -, he⟩ | ⟨c, hop, hc, hpol, he⟩
  · exact .inl (congrArg Prod.fst he)
  · exact absurd hs hq
  · exact .inl (congrArg Prod.fst he)
  · have hlvl : (k'.proc q).queueLevel = (afterTick (slice (k.proc q))).1 := congrArg Prod.fst he
    have hlt : (k.proc q).timeSlice < maxTicks (k.proc q).queueLevel := hi.2
    unfold afterTick slice at hlvl
    by_cases h1 : maxTicks (k.proc q).queueLevel ≤ (k.proc q).timeSlice + 1
    · rw [if_pos h1] at hlvl
      split_ifs at hlvl
      · exact .inr ⟨hlvl, ⟨c, hop, hc⟩, hpol, by omega⟩
      · exact .inl hlvl
    · rw [if_neg h1] at hlvl; exact .inl hlvl

/-- **Demotion.**  In every reachable state the level and the time slice of each process are in range,
and the next step leaves the level of a living process or, at the tick of its last slice under MLFQ,
raises it by one. -/
theorem demotion {h : List (Kernel × Op)} (hr : Run sys h k) :
    (∀ p, (k.proc p).state ≠ .unused → (k.proc p).queueLevel < QUEUE_LEVELS ∧
      (k.proc p).timeSlice < maxTicks (k.proc p).queueLevel) ∧
    ∀ op k' p, exec k op = some k' → (k.proc p).state ≠ .unused →
      (k'.proc p).queueLevel = (k.proc p).queueLevel ∨ (k'.proc p).queueLevel = (k.proc p).queueLevel + 1 ∧
        (∃ c, op = .usertrapTimer c ∧ k.myproc c = some p) ∧ k.currentPolicy = .mlfq ∧
        (k.proc p).timeSlice + 1 = maxTicks (k.proc p).queueLevel :=
  ⟨fun p _ => inRange_run hr p, fun _ _ p hs hp => level_step (inRange_run hr p) hs hp⟩

/-- `init` alone under MLFQ: after four ticks its slice is at 4, and the fifth demotes it. -/
theorem demotion_fifth_tick : ∃ k k', (k.proc 0).state = .running ∧
    (k.proc 0).timeSlice = 4 ∧ exec k (.usertrapTimer 0) = some k' ∧ (k'.proc 0).queueLevel = 1 ∧
    (k.proc 0).queueLevel < QUEUE_LEVELS ∧ (k.proc 0).timeSlice + 1 = maxTicks (k.proc 0).queueLevel := by
  obtain ⟨k, hr, -, ht⟩ := run_of_ops ([.schedule 0, .forkret 0, .setSched 0 4] ++ List.replicate 4 (.usertrapTimer 0))
    (fun k => (k.proc 0).state = .running ∧ (k.proc 0).timeSlice = 4 ∧ (k.proc 0).queueLevel = 0 ∧
      (exec k (.usertrapTimer 0)).any fun k' => (k'.proc 0).queueLevel = 1) (by decide +kernel)
  obtain ⟨hs, ht, hl, hx⟩ := of_decide_eq_true ht
  have hne : (k.proc 0).state ≠ .unused := by simp [hs]
  obtain ⟨hin, hstep⟩ := demotion hr
  rcases hk' : exec k (.usertrapTimer 0) with _ | k'
  · rw [hk'] at hx; cases hx
  · rw [hk'] at hx
    have hl' : (k'.proc 0).queueLevel = 1 := of_decide_eq_true hx
    rcases hstep _ k' 0 hk' hne with he | ⟨-, -, -, he⟩
    · rw [hl', hl] at he; cases he
    · exact ⟨k, k', hs, ht, hk', hl', (hin 0 hne).1, he⟩

end Xv6.Sched.Slices
