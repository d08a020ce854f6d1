import Xv6.Sched.Running

/-!
# The life of a table entry

What one step of the kernel does to one entry of the process table (`Effect`, `exec_effect`); what it
does to the state, the `pid`, the `killed` flag and the waiting time of an entry, which is what most
results need (`Change`, `exec_change`); and what it does to the tick counter (`exec_ticks`).
-/

namespace Xv6.Sched.Life

open Param Sched.Defs Sched.Queues Sched.Ops Sched.Step Sched.Facts Option
open Sched.Running

variable {k k' : Kernel} {c : ℕ} {p : Slot}

/-! ## What a step does to an entry, in full -/

def ticked : Op → Word
  | .usertrapTimer c | .kerneltrapTimer c => if c = 0 then 1 else 0
  | _ => 0

/-- The entry `v` with other values in fields that say nothing of its state, identity and times. -/
def Minor (v w : Proc) : Prop :=
  ∃ pa pr l s n, w = { v with
    parent := pa, priority := pr, queueLevel := l, timeSlice := s, totalTicks := n }

theorem Minor.refl (v : Proc) : Minor v v := ⟨_, _, _, _, _, rfl⟩

theorem Minor.trans {u v w : Proc} (h : Minor u v) (h' : Minor v w) : Minor u w := by
  obtain ⟨pa, pr, l, s, n, rfl⟩ := h
  obtain ⟨pa', pr', l', s', n', rfl⟩ := h'; exact ⟨pa', pr', l', s', n', rfl⟩

theorem minor_parent (v : Proc) (pa : Option Slot) : Minor v { v with parent := pa } :=
  ⟨pa, _, _, _, _, rfl⟩

theorem minor_timeSlice (v : Proc) (s : ℕ) : Minor v { v with timeSlice := s } :=
  ⟨_, _, _, s, _, rfl⟩

theorem minor_tick {f : Proc → Proc} (hf : f = id ∨ f = tickSlice) (v : Proc) :
    Minor v (f { v with totalTicks := v.totalTicks + 1 }) := by
  rcases hf with rfl | rfl
  · exact ⟨_, _, _, _, _, rfl⟩
  · unfold tickSlice
    split_ifs <;> exact ⟨_, _, _, _, _, rfl⟩

/-- The stores of a process that gives up its CPU, before `sched`. -/
inductive GivesUp (t : Word) : (Proc → Proc) → Prop
  | yield : GivesUp t (Proc.yieldStart t)
  | sleep (chan : Chan) : GivesUp t (Proc.sleepStart chan)
  | exit (status : Word) : GivesUp t (Proc.exitStart status)

/-- The store of the scheduler thread that goes on at `pc`. -/
def backFrom (pc : SchedPc) (t : Word) (v : Proc) : Proc :=
  match pc with
  | .swtch b => v.afterRun b t
  | _ => v

theorem schedBack_proc_eq (k : Kernel) (c : ℕ) (p q : Slot) : (schedBack k c p).proc q =
      if q = p then backFrom (k.cpus c).pc k.ticks (k.proc p) else k.proc q := by
  unfold schedBack backFrom
  cases (k.cpus c).pc with
  | swtch b => exact modProc_proc k p _ q
  | top | rr i found =>
    split_ifs with hq
    · rw [hq]; rfl
    · rfl

inductive Effect (k : Kernel) (op : Op) (k' : Kernel) (q : Slot) : Prop
  | minor (h : Minor (k.proc q) (k'.proc q))
  | kill (c : ℕ) (hop : op = .kill c (k.proc q).pid) (hv : k'.proc q = (k.proc q).kill)
  | setkilled (c : ℕ) (hop : op = .setkilled c) (hs : (k.proc q).state = .running)
      (hv : k'.proc q = { k.proc q with killed := true })
  | wake (hop : ∀ c n, op ≠ .kill c n) (hs : (k.proc q).state = .sleeping) (w : Proc)
      (hw : Minor (k.proc q) w) (hv : k'.proc q = w.wake (k.ticks + ticked op))
  | leave (c : ℕ) (hc : (k.cpus c).proc = some q) (hs : (k.proc q).state = .running) (w : Proc)
      (hw : Minor (k.proc q) w) (f : Proc → Proc) (hf : GivesUp (k.ticks + ticked op) f)
      (hv : k'.proc q = backFrom (k.cpus c).pc (k.ticks + ticked op) (f w))
  | dispatch (c : ℕ) (b : SchedPolicy) (hop : op = .schedule c) (hs : (k.proc q).state = .runnable)
      (hc : k'.cpus c = ⟨some q, .swtch b⟩) (w : Proc) (hw : Minor (k.proc q) w)
      (hv : k'.proc q = (w.startRun b (k.ticks + ticked op)).resume)
  | free (c : ℕ) (o : Option Bool) (hop : op = .wait c o) (hs : (k.proc q).state = .zombie)
      (hv : k'.proc q = (k.proc q).freeproc)
  | giveBack (hs : (k.proc q).state = .unused) (w : Proc)
      (hw : w = k.proc q ∨ w = (k.proc q).allocInit k.ticks) (hv : k'.proc q = w.freeproc)
  | fork (c : ℕ) (a : Alloc) (p : Slot) (hop : op = .fork c a) (hs : (k.proc q).state = .unused)
      (hv : k'.proc q = child Proc.forkStart k p q)
  | forkWithPriority (c : ℕ) (n : Word) (a : Alloc) (p : Slot) (hop : op = .forkWithPriority c n a)
      (hs : (k.proc q).state = .unused)
      (hv : k'.proc q = child (fun _ => Proc.forkStartPriority n) k p q)
  | forkret (c : ℕ) (hop : op = .forkret c) (hs : (k.proc q).state = .running) (hf : (k.proc q).inForkret = true)
      (hv : k'.proc q = (k.proc q).forkret k.ticks)

variable {op : Op} {start : Word → Proc → Proc} {r : Option Slot} {a : Alloc}

theorem Effect.same {q : Slot} (h : k'.proc q = k.proc q) : Effect k op k' q :=
  .minor (by rw [h]; exact .refl _)

theorem ticks_add_zero (t : Word) : t + 0 = t := BitVec.add_zero t

theorem effect_reparented (hop : ∀ c n, op ≠ .kill c n)
    (h : Reparented { k with ticks := k.ticks + ticked op } k') (q : Slot) : Effect k op k' q := by
  obtain ⟨pa, h1 | ⟨hs, h1⟩⟩ := h.proc q
  · exact .minor (by rw [h1]; exact minor_parent _ pa)
  · exact .wake hop hs _ (minor_parent _ pa) h1

theorem effect_back (hop : ∀ c n, op ≠ .kill c n) {k1 : Kernel} {m f : Proc → Proc}
    (hm : ∀ v, Minor v (m v)) (hf : GivesUp (k.ticks + ticked op) f)
    (h : Reparented { k with ticks := k.ticks + ticked op } k1) (hc : (k.cpus c).proc = some p)
    (hp : (k.proc p).state = .running) (r : Mlfq) (q : Slot) :
    Effect k op (schedBack { k1.modProc p (f ∘ m) with mlfq := r } c p) q := by
  have hback := schedBack_proc_eq { k1.modProc p (f ∘ m) with mlfq := r } c p q
  by_cases hq : q = p
  · subst hq
    obtain ⟨pa, h1 | ⟨hs, -⟩⟩ := h.proc q
    · refine .leave c hc hp (m (k1.proc q)) ?_ f hf ?_
      · rw [h1]; exact (minor_parent _ pa).trans (hm _)
      · have hcpu : k1.cpus c = k.cpus c := congrFun h.cpus c
        have htick : k1.ticks = k.ticks + ticked op := h.ticks
        rw [hback, if_pos rfl, ← hcpu, ← htick]
        rw [modProc_proc_self]; rfl
    · -- a process that runs is not asleep
      have hs' : (k.proc q).state = .sleeping := hs
      rw [hp] at hs'; cases hs'
  · have h1 : (schedBack { k1.modProc p (f ∘ m) with mlfq := r } c p).proc q = k1.proc q := by
      rw [hback, if_neg hq]; exact modProc_proc_ne _ hq _
    obtain ⟨pa, h2 | ⟨hs, h2⟩⟩ := h.proc q
    · exact .minor (by rw [h1, h2]; exact minor_parent _ pa)
    · exact .wake hop hs _ (minor_parent _ pa) (h1.trans h2)

theorem effect_forkWith {r : Word} (h : forkWith start k p a = some (r, k')) (q : Slot)
    (hop : (k.proc q).state = .unused → k'.proc q = child start k p q → Effect k op k' q) : Effect k op k' q := by
  rcases forkWith_cases h with ⟨-, rfl⟩ | ⟨np, w, hun, -, hw, rfl⟩ | ⟨np, m, hun, -, rfl, -⟩
  · exact .same rfl
  · by_cases hq : q = np
    · subst hq; exact .giveBack hun w hw (modProc_proc_self _ _ _)
    · exact .same (modProc_proc_ne _ hq _)
  · by_cases hq : q = np
    · subst hq; exact hop hun (modProc_proc_self _ _ _)
    · exact .same (modProc_proc_ne _ hq _)

theorem effect_schedule (h : schedule k c = some (r, k')) (q : Slot) : Effect k (.schedule c) k' q := by
  have hdisp : ∀ (m : Kernel) (b : SchedPolicy) (p : Slot), m.ticks = k.ticks →
      (∃ s, m.proc q = { k.proc q with timeSlice := s }) → (m.proc p).state = .runnable →
      Effect k (.schedule c) (dispatch m c b p) q := by
    rintro m b p ht ⟨s, hs⟩ hr
    have hproc : (dispatch m c b p).proc q =
        if q = p then ((m.proc p).startRun b m.ticks).resume else m.proc q := by
      unfold dispatch
      rw [setCpu_proc, modProc_proc]
    by_cases hq : q = p
    · subst hq
      rw [hs] at hr
      refine .dispatch c b rfl hr ?_ (m.proc q) (by rw [hs]; exact minor_timeSlice _ s) ?_
      · unfold dispatch
        rw [setCpu_cpus, if_pos rfl]
      · rw [hproc, if_pos rfl, ht]
        show _ = ((m.proc q).startRun b (k.ticks + 0)).resume
        rw [ticks_add_zero]
    · exact .minor (by rw [hproc, if_neg hq, hs]; exact minor_timeSlice _ s)
  rcases schedule_cases h with ⟨-, k1, h1, rfl⟩ | ⟨p, b, -, -, -, hr, rfl⟩ |
    ⟨k1, l, i, p, -, h1, -, -, -, hr, rfl⟩
  · rcases h1 with rfl | h1
    · exact .same rfl
    · obtain ⟨s, hs⟩ := (refill_refilled h1).proc q
      exact .minor (by rw [setCpu_proc, hs]; exact minor_timeSlice _ s)
  · exact hdisp k b p rfl ⟨_, rfl⟩ hr
  · have href := refill_refilled h1
    exact hdisp { k1 with mlfq := removeAt k1.mlfq l i } .mlfq p href.ticks (href.proc q) hr

theorem effect_usertrapTimer (hc : (k.cpus c).proc = some p) (hp : (k.proc p).state = .running)
    (h : usertrapTimer k c p = some k') (q : Slot) : Effect k (.usertrapTimer c) k' q := by
  obtain ⟨k1, h1, h⟩ := usertrapTimer_cases h
  have hw := (clockintr_woken h1).reparented
  have htick : k1.ticks = k.ticks + ticked (.usertrapTimer c) := hw.ticks
  rcases h with h | ⟨f, hf, k2, rfl, h⟩
  · obtain ⟨-, k3, h3, rfl⟩ := exit_eq h
    exact effect_back (by simp) Minor.refl (.exit _) (hw.trans h3) hc hp k3.mlfq q
  · rcases h with rfl | h
    · by_cases hq : q = p
      · subst hq
        obtain ⟨pa, h2 | ⟨hs, -⟩⟩ := hw.proc q
        · refine .minor ?_
          rw [modProc_proc_self, h2]
          exact (minor_parent _ pa).trans (minor_tick hf _)
        · have hs' : (k.proc q).state = .sleeping := hs
          rw [hp] at hs'; cases hs'
      · have hne := modProc_proc_ne k1 hq fun v => f { v with totalTicks := v.totalTicks + 1 }
        obtain ⟨pa, h2 | ⟨hs, h2⟩⟩ := hw.proc q
        · exact .minor (by rw [hne, h2]; exact minor_parent _ pa)
        · exact .wake (by simp) hs _ (minor_parent _ pa) (hne.trans h2)
    · obtain ⟨m, rfl, -⟩ := yield_eq h
      rw [modProc_modProc, modProc_ticks, htick]
      exact effect_back (by simp) (minor_tick hf) .yield hw hc hp m q

theorem effect_kerneltrapTimer (hb : Base k) (h : kerneltrapTimer k c = some k') (q : Slot) :
    Effect k (.kerneltrapTimer c) k' q := by
  obtain ⟨k1, h1, h⟩ := kerneltrapTimer_cases h
  have hw := (clockintr_woken h1).reparented
  have htick : k1.ticks = k.ticks + ticked (.kerneltrapTimer c) := hw.ticks
  rcases h with rfl | ⟨p, hp, h⟩
  · exact effect_reparented (by simp) hw q
  · have hc : (k.cpus c).proc = some p := by rw [Kernel.myproc, hw.cpus] at hp; exact hp
    obtain ⟨m, rfl, -⟩ := yield_eq h
    rw [htick]
    exact effect_back (by simp) Minor.refl .yield hw hc (hb.running c p hc) m q

theorem exec_effect (hb : Base k) (h : exec k op = some k') (q : Slot) : Effect k op k' q := by
  have hrefl : Reparented { k with ticks := k.ticks + 0 } k := by
    rw [ticks_add_zero]; exact (Woken.refl k).reparented
  cases exec_ran h with
  | fork hf => exact effect_forkWith hf q fun hun hv => .fork _ _ _ rfl hun hv
  | forkWithPriority hf => exact effect_forkWith hf q fun hun hv => .forkWithPriority _ _ _ _ rfl hun hv
  | yield hp h =>
    obtain ⟨m, rfl, -⟩ := yield_eq h
    refine effect_back (by simp) Minor.refl (f := Proc.yieldStart k.ticks) ?_ hrefl hp (hb.running _ _ hp) m q
    show GivesUp (k.ticks + 0) _
    rw [ticks_add_zero]; exact .yield
  | sleep hp | waitSleep hp =>
    exact effect_back (by simp) Minor.refl (.sleep _) hrefl hp (hb.running _ _ hp) k.mlfq q
  | wakeup h =>
    refine effect_reparented (by simp) ?_ q
    show Reparented { k with ticks := k.ticks + 0 } k'
    rw [ticks_add_zero]; exact (wakeup_woken h).reparented
  | @kill c pid p hp =>
    have hpid : (k.proc p).pid = pid := by simpa using List.find?_some hp
    by_cases hq : q = p
    · subst hq; exact .kill c (by rw [hpid]) (modProc_proc_self _ _ _)
    · exact .same (modProc_proc_ne _ hq _)
  | killNone | waitNone | setSched | setSchedNone | setPriorityNone => exact .same rfl
  | @setkilled c p hp =>
    by_cases hq : q = p
    · subst hq
      exact .setkilled c rfl (hb.running c q hp) (modProc_proc_self _ _ _)
    · exact .same (modProc_proc_ne _ hq _)
  | exit hp h =>
    obtain ⟨-, k1, h1, rfl⟩ := exit_eq h
    exact effect_back (by simp) Minor.refl (.exit _) (hrefl.trans h1) hp (hb.running _ _ hp) k1.mlfq q
  | @reap c copyout pp hz =>
    by_cases hq : q = pp
    · subst hq; exact .free c copyout rfl hz (modProc_proc_self _ _ _)
    · exact .same (modProc_proc_ne _ hq _)
  | @setPriority c pid prio p =>
    by_cases hq : q = p
    · subst hq
      exact .minor (by rw [modProc_proc_self]; exact ⟨_, prio, _, _, _, rfl⟩)
    · exact .same (modProc_proc_ne k hq fun v => { v with priority := prio })
  | usertrapTimer hp h => exact effect_usertrapTimer hp (hb.running _ _ hp) h q
  | kerneltrapTimer h => exact effect_kerneltrapTimer hb h q
  | schedule hs => exact effect_schedule hs q
  | @forkret c p hp hf =>
    by_cases hq : q = p
    · subst hq
      exact .forkret c rfl (hb.running c q hp) hf (modProc_proc_self _ _ _)
    · exact .same (modProc_proc_ne _ hq _)

structure Keeps (v v' : Proc) : Prop where
  pid : v'.pid = v.pid
  killed : v'.killed = v.killed

/-- A change of the entry `v` into `v'` by the operation `op`; `t` is the tick counter after it and
`pid` the next free `pid` before it. -/
inductive Change (op : Op) (t pid : Word) (v v' : Proc) : Prop
  | stay (hs : v'.state = v.state) (hr : v'.readyTime = v.readyTime) (hk : Keeps v v')
  | kill (c : ℕ) (hop : op = .kill c v.pid) (hv : v' = v.kill)
  | setkilled (c : ℕ) (hop : op = .setkilled c) (hs : v.state = .running)
      (hv : v' = { v with killed := true })
  | wake (hop : ∀ c n, op ≠ .kill c n) (hs : v.state = .sleeping) (hs' : v'.state = .runnable)
      (hr : v'.readyTime = t) (hk : Keeps v v')
  | yield (hs : v.state = .running) (hs' : v'.state = .runnable) (hr : v'.readyTime = v.readyTime)
      (hk : Keeps v v')
  | leave (hs : v.state = .running) (hs' : v'.state = .sleeping ∨ v'.state = .zombie) (hk : Keeps v v')
  | dispatch (c : ℕ) (hop : op = .schedule c) (hs : v.state = .runnable) (hs' : v'.state = .running)
      (hw : v'.waitingTime = t - v.readyTime) (hk : Keeps v v')
  | free (c : ℕ) (o : Option Bool) (hop : op = .wait c o) (hs : v.state = .zombie) (hv : v' = v.freeproc)
  | giveBack (hs : v.state = .unused) (hs' : v'.state = .unused) (hp : v'.pid = 0) (hk : v'.killed = false)
  | fork (c : ℕ) (a : Alloc) (hop : op = .fork c a) (hs : v.state = .unused)
      (hs' : v'.state = .runnable) (hr : v'.readyTime = t) (hp : v'.pid = pid)
      (hk : v'.killed = v.killed)
  | forkWithPriority (c : ℕ) (n : Word) (a : Alloc) (hop : op = .forkWithPriority c n a)
      (hs : v.state = .unused) (hs' : v'.state = .runnable) (hr : v'.readyTime = v.readyTime)
      (hp : v'.pid = pid) (hk : v'.killed = v.killed)

theorem backFrom_eq (pc : SchedPc) (t : Word) (v : Proc) : ∃ w, backFrom pc t v = { v with lastRuntime := w } := by
  unfold backFrom Proc.afterRun
  split
  · split_ifs
    · exact ⟨_, rfl⟩
    · exact ⟨_, rfl⟩
  · exact ⟨_, rfl⟩

theorem exec_change (hb : Base k) (h : exec k op = some k') (q : Slot) :
    Change op (k.ticks + ticked op) k.nextpid (k.proc q) (k'.proc q) := by
  rcases exec_effect hb h q with ⟨hm⟩ | ⟨c, hop, hv⟩ | ⟨c, hop, hs, hv⟩ | ⟨hop, hs, w, hw, hv⟩ |
    ⟨c, -, hs, w, hw, f, hf, hv⟩ | ⟨c, b, hop, hs, -, w, hw, hv⟩ | ⟨c, o, hop, hs, hv⟩ |
    ⟨hs, w, -, hv⟩ | ⟨c, a, p, hop, hs, hv⟩ | ⟨c, n, a, p, hop, hs, hv⟩ | ⟨c, hop, hs, hf, hv⟩
  · obtain ⟨pa, pr, l, s, n, hm⟩ := hm; rw [hm]; exact .stay rfl rfl ⟨rfl, rfl⟩
  · exact .kill c hop hv
  · exact .setkilled c hop hs hv
  · obtain ⟨pa, pr, l, s, n, rfl⟩ := hw
    rw [hv]; exact .wake hop hs rfl rfl ⟨rfl, rfl⟩
  · obtain ⟨r, hr⟩ := backFrom_eq (k.cpus c).pc (k.ticks + ticked op) (f w)
    obtain ⟨pa, pr, l, s, n, rfl⟩ := hw
    rw [hv, hr]
    cases hf with
    | yield => exact .yield hs rfl rfl ⟨rfl, rfl⟩
    | sleep chan => exact .leave hs (.inl rfl) ⟨rfl, rfl⟩
    | exit status => exact .leave hs (.inr rfl) ⟨rfl, rfl⟩
  · obtain ⟨pa, pr, l, s, n, rfl⟩ := hw
    rw [hv]
    refine .dispatch c hop hs ?_ ?_ ⟨?_, ?_⟩
    all_goals
      unfold Proc.resume Proc.startRun
      split <;> rfl
  · exact .free c o hop hs hv
  · rw [hv]; exact .giveBack hs rfl rfl rfl
  · have ht : k.ticks + ticked op = k.ticks := by rw [hop]; exact BitVec.add_zero _
    rw [hv, ht]; exact .fork c a hop hs rfl rfl rfl rfl
  · rw [hv]; exact .forkWithPriority c n a hop hs rfl rfl rfl rfl
  · rw [hv]; exact .stay rfl rfl ⟨rfl, rfl⟩

theorem yield_ticks (h : yield k c p = some k') : k'.ticks = k.ticks := by
  obtain ⟨m, rfl, -⟩ := yield_eq h
  rw [schedBack_ticks]; rfl

theorem exit_ticks {status : Word} (h : exit k c p status = some k') : k'.ticks = k.ticks := by
  obtain ⟨-, k1, h1, rfl⟩ := exit_eq h
  rw [schedBack_ticks]; exact h1.ticks

theorem forkWith_ticks {r : Word} (h : forkWith start k p a = some (r, k')) : k'.ticks = k.ticks := by
  rcases forkWith_cases h with ⟨-, rfl⟩ | ⟨np, w, -, -, -, rfl⟩ | ⟨np, m, -, -, rfl, -⟩ <;> rfl

theorem schedule_ticks (h : schedule k c = some (r, k')) : k'.ticks = k.ticks := by
  rcases schedule_cases h with ⟨-, k1, h1, rfl⟩ | ⟨p, b, -, -, -, -, rfl⟩ |
    ⟨k1, l, i, p, -, h1, -, -, -, -, rfl⟩
  · rcases h1 with rfl | h1
    · rfl
    · exact (refill_refilled h1).ticks
  · rfl
  · exact (refill_refilled h1).ticks

theorem exec_ticks (h : exec k op = some k') : k'.ticks = k.ticks + ticked op := by
  have h0 : k.ticks + 0 = k.ticks := BitVec.add_zero _
  cases exec_ran h with
  | fork hf | forkWithPriority hf => exact (forkWith_ticks hf).trans h0.symm
  | yield _ h => exact (yield_ticks h).trans h0.symm
  | sleep | waitSleep => exact (schedBack_ticks _ _ _).trans h0.symm
  | wakeup h => exact (wakeup_woken h).ticks.trans h0.symm
  | kill | killNone | setkilled | reap | waitNone | setSched | setSchedNone | setPriority | setPriorityNone | forkret =>
    exact h0.symm
  | exit _ h => exact (exit_ticks h).trans h0.symm
  | @usertrapTimer c _ _ _ h =>
    obtain ⟨k1, h1, h⟩ := usertrapTimer_cases h
    have ht : k1.ticks = k.ticks + ticked (.usertrapTimer c) := (clockintr_woken h1).ticks
    rcases h with h | ⟨f, hf, k2, rfl, rfl | h⟩
    · exact (exit_ticks h).trans ht
    · exact ht
    · exact (yield_ticks h).trans ht
  | @kerneltrapTimer c _ h =>
    obtain ⟨k1, h1, h⟩ := kerneltrapTimer_cases h
    have ht : k1.ticks = k.ticks + ticked (.kerneltrapTimer c) := (clockintr_woken h1).ticks
    rcases h with rfl | ⟨p, hp, h⟩
    · exact ht
    · exact (yield_ticks h).trans ht
  | schedule hs => exact (schedule_ticks hs).trans h0.symm

end Xv6.Sched.Life
