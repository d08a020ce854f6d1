import Xv6.Sched.Facts

/-!
# Processes on CPUs

Between operations a process is on a CPU exactly while it runs there: `Base k` says that a process
some `c->proc` points to is `RUNNING`, and that no other CPU points to it.  Every operation keeps this
(`Base.exec`), so the process an operation of `Op` is run by is `RUNNING` (`Base.running`).
-/

namespace Xv6.Sched.Running

open Lib.Runs Param Sched.Defs Sched.Queues Sched.Ops Sched.Step Sched.Facts Option

variable {k k' : Kernel} {c : ℕ} {p : Slot} {op : Op}

/-- A process on a CPU is running, and on that CPU only. -/
structure Base (k : Kernel) : Prop where
  running : ∀ c p, (k.cpus c).proc = some p → (k.proc p).state = .running
  uniq : ∀ c c' p, (k.cpus c).proc = some p → (k.cpus c').proc = some p → c = c'

/-! ## Specifications of the remaining operations -/

theorem yield_eq (h : yield k c p = some k') :
    ∃ q, k' = schedBack { k.modProc p (Proc.yieldStart k.ticks) with mlfq := q } c p ∧
      (k.currentPolicy = .mlfq → enqueueToMlfq k.mlfq (k.proc p).queueLevel p = some q) ∧
      (k.currentPolicy ≠ .mlfq → q = k.mlfq) := by
  obtain ⟨k1, h1, rfl⟩ := map_eq_some_iff.mp h
  obtain ⟨q, rfl, hq1, hq2⟩ := enqueueIfMlfq_eq h1
  refine ⟨q, rfl, fun hb => ?_, hq2⟩
  simpa [Proc.yieldStart] using hq1 hb

theorem wait_cases (k : Kernel) (c : ℕ) (p : Slot) (copyout : Option Bool) :
    wait k c p copyout = (some (-1), k) ∨ (∃ pp, (k.proc pp).parent = some p ∧ (k.proc pp).state = .zombie ∧
      wait k c p copyout = (some (k.proc pp).pid, k.modProc pp Proc.freeproc)) ∨
    wait k c p copyout = (none, sleep k c p (.proc p)) := by
  unfold wait
  split
  · next pp hpp =>
    have hz := List.find?_some hpp
    simp only [decide_eq_true_eq] at hz
    split_ifs
    · exact .inl rfl
    · exact .inr (.inl ⟨pp, hz.1, hz.2, rfl⟩)
  · simp only
    split_ifs
    · exact .inl rfl
    · exact .inr (.inr rfl)

theorem clockintr_woken (h : clockintr k c = some k') :
    Woken { k with ticks := k.ticks + if c = 0 then 1 else 0 } k' := by
  unfold clockintr at h
  split_ifs at h with hc
  · simpa [hc] using wakeup_woken h
  · cases h; simpa [hc] using Woken.refl k

theorem usertrapTimer_cases (h : usertrapTimer k c p = some k') :
    ∃ k1, clockintr k c = some k1 ∧ (exit k1 c p (-1) = some k' ∨ ∃ f : Proc → Proc, (f = id ∨ f = tickSlice) ∧
        ∃ k2, k2 = k1.modProc p (fun v => f { v with totalTicks := v.totalTicks + 1 }) ∧
          (k' = k2 ∨ yield k2 c p = some k')) := by
  obtain ⟨k1, h1, h⟩ := bind_eq_some_iff.mp h
  refine ⟨k1, h1, ?_⟩
  split_ifs at h with hk
  · exact .inl h
  · right
    simp only [modProc_policy] at h
    split at h
    · exact ⟨id, .inl rfl, _, rfl, .inr h⟩
    · refine ⟨tickSlice, .inr rfl, _, rfl, ?_⟩
      simp only [modProc_modProc] at h
      split_ifs at h with hx
      · exact .inr h
      · cases h; exact .inl rfl
    · cases h; exact ⟨id, .inl rfl, _, rfl, .inl rfl⟩

theorem kerneltrapTimer_cases (h : kerneltrapTimer k c = some k') : ∃ k1, clockintr k c = some k1 ∧
      (k' = k1 ∨ ∃ p, k1.myproc c = some p ∧ yield k1 c p = some k') := by
  obtain ⟨k1, h1, h⟩ := bind_eq_some_iff.mp h
  refine ⟨k1, h1, ?_⟩
  split at h
  · cases h; exact .inl rfl
  · next p hp =>
    split_ifs at h
    · exact .inr ⟨p, hp, h⟩
    · cases h; exact .inl rfl

structure Refilled (k k' : Kernel) : Prop where
  policy : k'.currentPolicy = k.currentPolicy
  ticks : k'.ticks = k.ticks
  cpus : k'.cpus = k.cpus
  initproc : k'.initproc = k.initproc
  nextpid : k'.nextpid = k.nextpid
  proc : ∀ q, ∃ t, k'.proc q = { k.proc q with timeSlice := t }

theorem Refilled.refl (k : Kernel) : Refilled k k :=
  ⟨rfl, rfl, rfl, rfl, rfl, fun q => ⟨(k.proc q).timeSlice, rfl⟩⟩

theorem Refilled.trans {k1 k2 k3 : Kernel} (h : Refilled k1 k2) (h' : Refilled k2 k3) : Refilled k1 k3 := by
  refine ⟨h'.policy.trans h.policy, h'.ticks.trans h.ticks, h'.cpus.trans h.cpus,
    h'.initproc.trans h.initproc, h'.nextpid.trans h.nextpid, fun q => ?_⟩
  obtain ⟨t, ht⟩ := h.proc q
  obtain ⟨t', ht'⟩ := h'.proc q; exact ⟨t', by rw [ht', ht]⟩

theorem refillAt_refilled {q : Slot} (h : refillAt k q = some k') : Refilled k k' := by
  unfold refillAt enqueue at h
  split_ifs at h
  · obtain ⟨k1, h1, rfl⟩ := map_eq_some_iff.mp h
    obtain ⟨m, -, rfl⟩ := map_eq_some_iff.mp h1
    refine ⟨rfl, rfl, rfl, rfl, rfl, fun r => ?_⟩
    by_cases hr : r = q
    · subst hr; exact ⟨0, modProc_proc_self _ _ _⟩
    · exact ⟨(k.proc r).timeSlice, modProc_proc_ne _ hr _⟩
  · cases h; exact Refilled.refl k

theorem refill_refilled (h : refill k = some k') : Refilled k k' := by
  unfold refill at h
  split_ifs at h
  · exact foldlM_rel Refilled.refl Refilled.trans (fun _ _ _ => refillAt_refilled) slots h
  · cases h; exact Refilled.refl k

theorem mem_positions {q : Mlfq} {x : ℕ × ℕ} : x ∈ positions q ↔ x.1 < QUEUE_LEVELS ∧ x.2 < q.qsize x.1 := by
  simp only [positions, List.mem_flatMap, List.mem_range, List.mem_map]
  constructor
  · rintro ⟨l, hl, i, hi, rfl⟩; exact ⟨hl, hi⟩
  · rintro ⟨hl, hi⟩; exact ⟨x.1, hl, x.2, hi, rfl⟩

theorem scanMlfq_cases (k : Kernel) (c : ℕ) : (scanMlfq k c = (none, k.setCpu c ⟨none, .top⟩) ∧
      ∀ l < QUEUE_LEVELS, ∀ p, some p ∈ k.mlfq.level l → (k.proc p).state ≠ .runnable) ∨
    ∃ l i p, l < QUEUE_LEVELS ∧ i < k.mlfq.qsize l ∧ k.mlfq.queue l i = some p ∧ (k.proc p).state = .runnable ∧
      scanMlfq k c = (some p, dispatch { k with mlfq := removeAt k.mlfq l i } c .mlfq p) := by
  unfold scanMlfq
  split
  · next hnone =>
    refine .inl ⟨rfl, fun l hl p hp hr => ?_⟩
    obtain ⟨i, hi, hq⟩ := Xv6.Lib.Arrays.mem_seg.mp hp
    have := List.find?_eq_none.mp hnone (l, i) (mem_positions.mpr ⟨hl, hi⟩)
    simp [runnableAt, hq, hr] at this
  · next x hx =>
    obtain ⟨hl, hi⟩ := mem_positions.mp (List.mem_of_find?_eq_some hx)
    have hr := List.find?_some hx
    unfold runnableAt at hr
    split at hr
    · cases hr
    · next p hq =>
      exact .inr ⟨x.1, x.2, p, hl, hi, hq, by simpa using hr, rfl⟩

/-- **What the scheduler does**: it ends the round, or a branch other than MLFQ dispatches the process
it picked, or the MLFQ branch dispatches an entry and removes it. -/
theorem schedule_cases {r : Option Slot} (h : schedule k c = some (r, k')) :
    (r = none ∧ ∃ k1, (k1 = k ∨ refill k = some k1) ∧ k' = k1.setCpu c ⟨none, .top⟩) ∨
    (∃ p b, r = some p ∧ b ≠ .mlfq ∧ otherPick k c = some p ∧ (k.proc p).state = .runnable ∧
      k' = dispatch k c b p) ∨
    ∃ k1 l i p, r = some p ∧ refill k = some k1 ∧ l < QUEUE_LEVELS ∧ i < k1.mlfq.qsize l ∧
      k1.mlfq.queue l i = some p ∧ (k1.proc p).state = .runnable ∧
      k' = dispatch { k1 with mlfq := removeAt k1.mlfq l i } c .mlfq p := by
  have hrr : ∀ i, schedRr k c i = (r, k') →
      (otherPick k c = slots.find? fun p : Slot => i ≤ (p : ℕ) ∧ (k.proc p).state = .runnable) →
      (r = none ∧ ∃ k1, (k1 = k ∨ refill k = some k1) ∧ k' = k1.setCpu c ⟨none, .top⟩) ∨
      ∃ p b, r = some p ∧ b ≠ .mlfq ∧ otherPick k c = some p ∧ (k.proc p).state = .runnable ∧
        k' = dispatch k c b p := by
    intro i hi hpick
    unfold schedRr at hi
    split at hi
    · next p hp =>
      cases hi
      have hrun := List.find?_some hp
      simp only [decide_eq_true_eq] at hrun
      exact .inr ⟨p, .rr, rfl, by simp, by rw [hpick, hp], hrun.2, rfl⟩
    · cases hi; exact .inl ⟨rfl, k, .inl rfl, rfl⟩
  have hscan : ∀ b, b ≠ .mlfq → schedScan k c b = (r, k') → otherPick k c = scan b k.ticks k.proc →
      (r = none ∧ ∃ k1, (k1 = k ∨ refill k = some k1) ∧ k' = k1.setCpu c ⟨none, .top⟩) ∨
      ∃ p b, r = some p ∧ b ≠ .mlfq ∧ otherPick k c = some p ∧ (k.proc p).state = .runnable ∧
        k' = dispatch k c b p := by
    intro b hb hs hpick
    unfold schedScan at hs
    split at hs
    · next p hp =>
      cases hs
      exact .inr ⟨p, b, rfl, hb, by rw [hpick, hp], scan_runnable hp, rfl⟩
    · cases hs; exact .inl ⟨rfl, k, .inl rfl, rfl⟩
  unfold schedule at h
  split at h
  · cases h
  · next i f hpc =>
    exact (hrr i (Option.some.inj h) (by simp [otherPick, hpc])).imp_right .inl
  · next hpc =>
    split at h
    · next hb => exact (hrr 0 (Option.some.inj h) (by simp [otherPick, hpc, hb])).imp_right .inl
    · next hb =>
      obtain ⟨k1, h1, he⟩ := map_eq_some_iff.mp h
      rcases scanMlfq_cases k1 c with ⟨hs, -⟩ | ⟨l, i, p, hl, hi, hq, hr, hs⟩
      · rw [hs] at he; cases he; exact .inl ⟨rfl, k1, .inr h1, rfl⟩
      · rw [hs] at he
        cases he; exact .inr (.inr ⟨k1, l, i, p, rfl, h1, hl, hi, hq, hr, rfl⟩)
    · next b hb1 hb2 =>
      refine (hscan _ ?_ (Option.some.inj h) ?_).imp_right .inl
      · intro hb; exact hb2 hb
      · simp only [otherPick, hpc]

/-! ## Every operation keeps `Base` -/

section
variable (hb : Base k)
include hb

theorem Base.congr (hc : k'.cpus = k.cpus)
    (hs : ∀ q, (k.proc q).state = .running → (k'.proc q).state = .running) : Base k' := by
  refine ⟨fun c p hp => ?_, fun c c' p hp hp' => ?_⟩
  · rw [hc] at hp; exact hs p (hb.running c p hp)
  · rw [hc] at hp hp'; exact hb.uniq c c' p hp hp'

theorem Base.back (hp : (k.cpus c).proc = some p) (hc : k'.cpus = k.cpus)
    (hs : ∀ q, q ≠ p → (k.proc q).state = .running → (k'.proc q).state = .running) : Base (schedBack k' c p) := by
  have hcpu : ∀ c' q, ((schedBack k' c p).cpus c').proc = some q → c' ≠ c ∧ (k.cpus c').proc = some q := by
    intro c' q hq
    by_cases hcc : c' = c
    · subst hcc; rw [schedBack_cpus_self] at hq; cases hq
    · rw [schedBack_cpus_ne k' p hcc, hc] at hq; exact ⟨hcc, hq⟩
  refine ⟨fun c' q hq => ?_, fun c1 c2 q h1 h2 => ?_⟩
  · obtain ⟨hcc, hq⟩ := hcpu c' q hq
    have hqp : q ≠ p := fun he => hcc (hb.uniq c' c p (he ▸ hq) hp)
    obtain ⟨w, hw⟩ := schedBack_proc k' c p q
    rw [hw]; exact hs q hqp (hb.running c' q hq)
  · exact hb.uniq c1 c2 q (hcpu c1 q h1).2 (hcpu c2 q h2).2

theorem Base.dispatch {b : SchedPolicy} (hr : (k.proc p).state = .runnable) : Base (dispatch k c b p) := by
  have hne : ∀ c', (k.cpus c').proc ≠ some p := by
    intro c' hp
    have := hb.running c' p hp
    rw [hr] at this; cases this
  have hrun : ((Step.dispatch k c b p).proc p).state = .running := by
    simp only [Step.dispatch, setCpu_proc, modProc_proc_self, Proc.resume]
    split <;> rfl
  have hcpu : ∀ c' q, ((Step.dispatch k c b p).cpus c').proc = some q →
      (c' = c ∧ q = p) ∨ (c' ≠ c ∧ (k.cpus c').proc = some q) := by
    intro c' q hq
    simp only [Step.dispatch, setCpu_cpus] at hq
    split_ifs at hq with hcc
    · cases hq; exact .inl ⟨hcc, rfl⟩
    · exact .inr ⟨hcc, hq⟩
  refine ⟨fun c' q hq => ?_, fun c1 c2 q h1 h2 => ?_⟩
  · rcases hcpu c' q hq with ⟨-, rfl⟩ | ⟨-, hq⟩
    · exact hrun
    · have hqp : q ≠ p := fun he => hne c' (he ▸ hq)
      simp only [Step.dispatch, setCpu_proc, modProc_proc_ne _ hqp]
      exact hb.running c' q hq
  · rcases hcpu c1 q h1 with ⟨e1, rfl⟩ | ⟨-, g1⟩
    · rcases hcpu c2 q h2 with ⟨e2, -⟩ | ⟨-, g2⟩
      · rw [e1, e2]
      · exact absurd g2 (hne c2)
    · rcases hcpu c2 q h2 with ⟨-, rfl⟩ | ⟨-, g2⟩
      · exact absurd g1 (hne c1)
      · exact hb.uniq c1 c2 q g1 g2

theorem Base.woken (h : Woken k k') : Base k' :=
  hb.congr h.cpus fun _ => h.reparented.running

theorem Base.clockintr (h : clockintr k c = some k') : Base k' := by
  have hw := clockintr_woken h
  exact hb.congr hw.cpus fun _ hq => hw.reparented.running hq

section
variable (hp : (k.cpus c).proc = some p)
include hp

theorem Base.exit {status : Word} (h : exit k c p status = some k') : Base k' := by
  obtain ⟨-, k1, hr, rfl⟩ := exit_eq h
  refine hb.back hp hr.cpus fun q hq hrun => ?_
  rw [modProc_proc_ne _ hq]; exact hr.running hrun

theorem Base.yield (h : yield k c p = some k') : Base k' := by
  obtain ⟨q, rfl, -⟩ := yield_eq h
  refine hb.back hp rfl fun r hr hrun => ?_
  rw [modProc_proc_ne _ hr]; exact hrun

theorem Base.sleep (chan : Chan) : Base (sleep k c p chan) := by
  refine hb.back hp rfl fun r hr hrun => ?_
  rw [modProc_proc_ne _ hr]; exact hrun

end

theorem Base.modProc {f : Proc → Proc}
    (hf : (k.proc p).state = .running → (f (k.proc p)).state = .running) : Base (k.modProc p f) := by
  refine hb.congr rfl fun q hq => ?_
  rw [modProc_proc]
  split_ifs with hqp
  · subst hqp; exact hf hq
  · exact hq

theorem Base.forkWith {start : Word → Proc → Proc} {a : Alloc} {r : Word}
    (h : forkWith start k p a = some (r, k')) : Base k' := by
  have key : ∀ (np : Slot) (m : Kernel) (v : Proc), (k.proc np).state = .unused →
      m.cpus = k.cpus → m.proc = k.proc → Base (m.modProc np fun _ => v) := by
    intro np m v hun hc hm
    refine Base.modProc (hb.congr hc fun q hq => by rw [hm]; exact hq) fun hrun => ?_
    rw [hm, hun] at hrun; cases hrun
  rcases forkWith_cases h with ⟨-, rfl⟩ | ⟨np, w, hun, -, -, rfl⟩ | ⟨np, q, hun, -, rfl, -⟩
  · exact hb
  · exact key np _ _ hun rfl rfl
  · exact key np _ _ hun rfl rfl

theorem Base.schedule {r : Option Slot} (h : schedule k c = some (r, k')) : Base k' := by
  have hset : ∀ m : Kernel, Base m → Base (m.setCpu c ⟨none, .top⟩) := by
    intro m hm
    have hcpu : ∀ c' q, ((m.setCpu c ⟨none, .top⟩).cpus c').proc = some q → (m.cpus c').proc = some q := by
      intro c' q hq
      rw [setCpu_cpus] at hq
      split_ifs at hq; exact hq
    exact ⟨fun c' q hq => hm.running c' q (hcpu c' q hq),
      fun c1 c2 q h1 h2 => hm.uniq c1 c2 q (hcpu c1 q h1) (hcpu c2 q h2)⟩
  have hfill : ∀ m, refill k = some m → Base m := by
    intro m hm
    have hR := refill_refilled hm
    refine hb.congr hR.cpus fun q hq => ?_
    obtain ⟨t, ht⟩ := hR.proc q
    rw [ht]; exact hq
  rcases schedule_cases h with ⟨-, k1, h1, rfl⟩ | ⟨p, b, -, -, -, hr, rfl⟩ |
    ⟨k1, l, i, p, -, h1, -, -, -, hr, rfl⟩
  · rcases h1 with rfl | h1
    · exact hset _ hb
    · exact hset _ (hfill _ h1)
  · exact hb.dispatch hr
  · have h2 : Base { k1 with mlfq := removeAt k1.mlfq l i } := (hfill _ h1).congr rfl fun _ hq => hq
    exact h2.dispatch hr

end

/-- **What an operation does**, by cases. -/
inductive Ran (k : Kernel) : Op → Kernel → Prop
  | fork {c a p r k1 : _} (h : fork k p a = some (r, k1)) : Ran k (.fork c a) k1
  | forkWithPriority {c n a p r k1 : _} (h : forkWithPriority n k p a = some (r, k1)) :
    Ran k (.forkWithPriority c n a) k1
  | yield {c p k1 : _} (hp : k.myproc c = some p) (h : yield k c p = some k1) : Ran k (.yield c) k1
  | sleep {c chan p : _} (hp : k.myproc c = some p) : Ran k (.sleep c chan) (sleep k c p chan)
  | wakeup {c chan k1 : _} (h : wakeup (k.myproc c) chan k = some k1) : Ran k (.wakeup c chan) k1
  | kill {c pid p : _} (hp : findPid k pid = some p) : Ran k (.kill c pid) (k.modProc p Proc.kill)
  | killNone {c pid : _} : Ran k (.kill c pid) k
  | setkilled {c p : _} (hp : k.myproc c = some p) : Ran k (.setkilled c) (setkilled k p)
  | exit {c status p k1 : _} (hp : k.myproc c = some p) (h : exit k c p status = some k1) : Ran k (.exit c status) k1
  | reap {c copyout pp : _} (hz : (k.proc pp).state = .zombie) : Ran k (.wait c copyout) (k.modProc pp Proc.freeproc)
  | waitSleep {c copyout p : _} (hp : k.myproc c = some p) : Ran k (.wait c copyout) (sleep k c p (.proc p))
  | waitNone {c copyout : _} : Ran k (.wait c copyout) k
  | setSched {c mode b : _} (hm : SchedPolicy.ofMode mode = some b) :
    Ran k (.setSched c mode) { k with currentPolicy := b }
  | setSchedNone {c mode : _} : Ran k (.setSched c mode) k
  | setPriority {c pid prio p : _} :
    Ran k (.setPriority c pid prio) (k.modProc p fun v => { v with priority := prio })
  | setPriorityNone {c pid prio : _} : Ran k (.setPriority c pid prio) k
  | usertrapTimer {c p k1 : _} (hp : k.myproc c = some p) (h : usertrapTimer k c p = some k1) :
    Ran k (.usertrapTimer c) k1
  | kerneltrapTimer {c k1 : _} (h : kerneltrapTimer k c = some k1) : Ran k (.kerneltrapTimer c) k1
  | schedule {c r k1 : _} (h : schedule k c = some (r, k1)) : Ran k (.schedule c) k1
  | forkret {c p : _} (hp : k.myproc c = some p) (hf : (k.proc p).inForkret = true) :
    Ran k (.forkret c) (k.modProc p (Proc.forkret k.ticks))

theorem exec_ran (h : exec k op = some k') : Ran k op k' := by
  have hme : ∀ {c p}, k.caller c = some p → k.myproc c = some p := fun h => (filter_eq_some_iff.mp h).1
  have hstart : ∀ {c p}, k.starter c = some p → k.myproc c = some p ∧ (k.proc p).inForkret = true :=
    fun h => filter_eq_some_iff.mp h
  cases op with
  | fork c a =>
    obtain ⟨p, -, h⟩ := bind_eq_some_iff.mp h
    obtain ⟨⟨r, k1⟩, hf, rfl⟩ := map_eq_some_iff.mp h; exact .fork hf
  | forkWithPriority c n a =>
    obtain ⟨p, -, h⟩ := bind_eq_some_iff.mp h
    obtain ⟨⟨r, k1⟩, hf, rfl⟩ := map_eq_some_iff.mp h
    exact .forkWithPriority hf
  | yield c =>
    obtain ⟨p, hp, h⟩ := bind_eq_some_iff.mp h; exact .yield (hme hp) h
  | sleep c chan =>
    obtain ⟨p, hp, rfl⟩ := map_eq_some_iff.mp h
    rcases or_eq_some_iff.mp hp with hp | ⟨-, hp⟩
    · exact .sleep (hme hp)
    · exact .sleep (hstart (filter_eq_some_iff.mp hp).1).1
  | wakeup c chan => exact .wakeup h
  | kill c pid =>
    obtain ⟨p, -, rfl⟩ := map_eq_some_iff.mp h
    unfold kill
    split
    · next p hp => exact .kill hp
    · exact .killNone
  | setkilled c =>
    obtain ⟨p, hp, rfl⟩ := map_eq_some_iff.mp h; exact .setkilled (hme hp)
  | exit c status =>
    obtain ⟨p, hp, h⟩ := bind_eq_some_iff.mp h; exact .exit (hme hp) h
  | wait c copyout =>
    obtain ⟨p, hp, rfl⟩ := map_eq_some_iff.mp h
    rcases wait_cases k c p copyout with he | ⟨pp, -, hz, he⟩ | he <;> rw [he]
    · exact .waitNone
    · exact .reap hz
    · exact .waitSleep (hme hp)
  | setSched c mode =>
    obtain ⟨p, -, rfl⟩ := map_eq_some_iff.mp h
    unfold setSched
    split
    · next b hm => exact .setSched hm
    · exact .setSchedNone
  | setPriority c pid prio =>
    obtain ⟨p, -, rfl⟩ := map_eq_some_iff.mp h
    unfold setPriority
    split
    · exact .setPriority
    · exact .setPriorityNone
  | usertrapTimer c =>
    obtain ⟨p, hp, h⟩ := bind_eq_some_iff.mp h; exact .usertrapTimer (hme hp) h
  | kerneltrapTimer c => exact .kerneltrapTimer h
  | schedule c =>
    obtain ⟨⟨r, k1⟩, hs, rfl⟩ := map_eq_some_iff.mp h; exact .schedule hs
  | forkret c =>
    obtain ⟨p, hp, rfl⟩ := map_eq_some_iff.mp h
    exact .forkret (hstart hp).1 (hstart hp).2

theorem Base.exec (hb : Base k) (h : exec k op = some k') : Base k' := by
  cases exec_ran h with
  | fork hf | forkWithPriority hf => exact hb.forkWith hf
  | yield hp h => exact hb.yield hp h
  | sleep hp | waitSleep hp => exact hb.sleep hp _
  | wakeup h => exact hb.woken (wakeup_woken h)
  | kill => exact hb.modProc fun hr => by simp [Proc.kill, hr]
  | killNone | waitNone | setSchedNone | setPriorityNone => exact hb
  | setkilled | forkret => exact hb.modProc fun hr => hr
  | exit hp h => exact hb.exit hp h
  | reap hz => exact hb.modProc fun hr => by rw [hz] at hr; cases hr
  | setSched => exact hb.congr rfl fun _ hq => hq
  | setPriority => exact hb.congr rfl fun q hq => by rw [modProc_proc]; split_ifs with he <;> simp_all
  | @usertrapTimer c p _ hp h =>
    obtain ⟨k1, h1, h⟩ := usertrapTimer_cases h
    have hb1 := hb.clockintr h1
    have hp1 : (k1.cpus c).proc = some p := by rw [(clockintr_woken h1).cpus]; exact hp
    rcases h with h | ⟨f, hf, k2, rfl, h⟩
    · exact hb1.exit hp1 h
    · have hb2 : Base (k1.modProc p fun v => f { v with totalTicks := v.totalTicks + 1 }) := by
        refine hb1.modProc fun hr => ?_
        rcases hf with rfl | rfl
        · exact hr
        · unfold tickSlice; split_ifs <;> exact hr
      rcases h with rfl | h
      · exact hb2
      · exact hb2.yield hp1 h
  | kerneltrapTimer h =>
    obtain ⟨k1, h1, h⟩ := kerneltrapTimer_cases h
    rcases h with rfl | ⟨p, hp, h⟩
    · exact hb.clockintr h1
    · exact (hb.clockintr h1).yield hp h
  | schedule hs => exact hb.schedule hs

theorem Base.boot : Base boot := by
  refine ⟨fun c p hp => ?_, fun c c' p hp => ?_⟩
  · cases hp
  · cases hp

end Xv6.Sched.Running
