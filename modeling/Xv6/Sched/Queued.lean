import Xv6.Sched.Moves

/-!
# What the run queues hold

Three properties of the MLFQ queues, each with the condition on the steps of a run under which it holds: no
runnable process is missing from the queue of its level (`noLoss_iff`), no entry is stale or misplaced
(`entries_runnable`), and an iteration of the MLFQ branch finds a process to run whenever there is one
(`schedule_dispatches`).  `kill`, `sys_set_sched` and the other branches make none of the checks.
-/

namespace Xv6.Sched.Queued

open Lib.Runs Param Sched.Defs Sched.Queues Sched.Ops Sched.Step Sched.Facts Option Function
open Sched.Running Sched.Moves

variable {k k' : Kernel} {p : Slot}

/-! ## No runnable process is missing -/

def InQueue (k : Kernel) (p : Slot) : Prop := some p ∈ k.mlfq.level (k.proc p).queueLevel

instance (k : Kernel) (p : Slot) : Decidable (InQueue k p) :=
  inferInstanceAs (Decidable (some p ∈ k.mlfq.level (k.proc p).queueLevel))

def NoLoss (k : Kernel) : Prop :=
  k.currentPolicy = .mlfq → ∀ p, (k.proc p).state = .runnable → InQueue k p

/-- The steps that lose no process: those of `kill` and `set_sched` that leave no runnable process
without an entry, and all others. -/
def LosesNone (k : Kernel) : Op → Prop
  | .kill _ pid => k.currentPolicy = .mlfq → ∀ p ∈ findPid k pid, (k.proc p).state = .sleeping → InQueue k p
  | .setSched _ mode => mode = 4 → ∀ p, (k.proc p).state = .runnable → InQueue k p
  | _ => True

instance (k : Kernel) : DecidablePred (LosesNone k)
  | .kill _ pid => inferInstanceAs (Decidable (k.currentPolicy = .mlfq →
      ∀ p ∈ findPid k pid, (k.proc p).state = .sleeping → InQueue k p))
  | .setSched _ mode =>
    inferInstanceAs (Decidable (mode = 4 → ∀ p, (k.proc p).state = .runnable → InQueue k p))
  | .fork _ _ | .forkWithPriority _ _ _ | .yield _ | .sleep _ _ | .wakeup _ _ | .setkilled _
  | .exit _ _ | .wait _ _ | .setPriority _ _ _ | .usertrapTimer _ | .kerneltrapTimer _
  | .schedule _ | .forkret _ => .isTrue trivial

def NoLossView (v : View) : Prop :=
  v.policy = .mlfq → ∀ p, v.state p = .runnable → some p ∈ v.mlfq.level (v.lvl p)

theorem Move.noLoss {v v' : View} (h : Move v v') (hq : v.mlfq.Ok) (hn : NoLossView v) : NoLossView v' := by
  intro hb r hr
  rcases h with ⟨hp, hs, hl⟩ | ⟨hp, hl, he, he'⟩ | ⟨hp, he⟩ | ⟨hp, hl, hi, he⟩
  · rename_i p s l
    have hrp : r ≠ p := by rintro rfl; exact hs (by simpa using hr)
    simp only [ne_eq, hrp, not_false_eq_true, update_of_ne] at hr ⊢
    exact hn hb r hr
  · rename_i p l q
    have hmem := @mem_level_enqueueToMlfq v.mlfq q l p (he hb)
    by_cases hrp : r = p
    · subst hrp; simp only [update_self]; exact hmem.mpr (.inr ⟨rfl, rfl⟩)
    · simp only [ne_eq, hrp, not_false_eq_true, update_of_ne] at hr ⊢
      exact hmem.mpr (.inl (hn hb r hr))
  · exact (mem_level_enqueueToMlfq he).mpr (.inl (hn hb r hr))
  · rename_i p l i
    have hrp : r ≠ p := by rintro rfl; simp at hr
    simp only [ne_eq, hrp, not_false_eq_true, update_of_ne] at hr
    refine (mem_level_removeAt hq hi he).mpr ⟨hn hb r hr, ?_⟩
    rintro ⟨-, h⟩; exact hrp (Option.some.inj h)

theorem losesNone_of_noLoss {op : Op} (h : exec k op = some k') (hn : NoLoss k') : LosesNone k op := by
  cases op with
  | kill c pid =>
    obtain ⟨me, -, rfl⟩ := map_eq_some_iff.mp h
    intro hb p hp hsl
    have hp' : findPid k pid = some p := hp
    simp only [kill, hp'] at hn
    have hin := hn hb p (by simp [Proc.kill, hsl])
    simpa [InQueue, Proc.kill] using hin
  | setSched c mode =>
    obtain ⟨me, -, rfl⟩ := map_eq_some_iff.mp h
    intro h4 p hp
    subst h4; exact hn rfl p hp
  | _ => trivial

theorem ofMode_mlfq {mode : Word} (h : SchedPolicy.ofMode mode = some .mlfq) : mode = 4 := by
  by_contra h4
  unfold SchedPolicy.ofMode at h
  split_ifs at h <;> simp at h

theorem NoLoss.exec (hs : Sound k) (hn : NoLoss k) {op : Op} (h : exec k op = some k')
    (hok : LosesNone k op) : NoLoss k' := by
  have hv : NoLossView (view k') := by
    rcases exec_cases hs.base h with hm | ⟨c, pid, p, rfl, hp, hsl, hv⟩ | ⟨c, mode, b, rfl, hm, hv⟩ |
      ⟨c, p, rfl, -, -, hv⟩
    · have key := hm.inv (P := fun v => v.mlfq.Ok ∧ NoLossView v)
        (fun _ _ h1 hi => ⟨h1.ok hi.1, Move.noLoss h1 hi.1 hi.2⟩) ⟨hs.ok, hn⟩
      exact key.2
    · -- `kill`: the woken process has an entry by the condition
      rw [hv]
      intro hb r hr
      by_cases hrp : r = p
      · subst hrp; exact hok hb r hp hsl
      · simp only [ne_eq, hrp, not_false_eq_true, update_of_ne] at hr
        exact hn hb r hr
    · rw [hv]
      intro hb r hr
      have hbm : b = .mlfq := hb
      subst hbm; exact hok (ofMode_mlfq hm) r hr
    · rw [hv]
      intro hb r hr
      have hrp : r ≠ p := by rintro rfl; simp at hr
      simp only [ne_eq, hrp, not_false_eq_true, update_of_ne] at hr
      exact hn hb r hr
  exact hv

/-- **When MLFQ loses no runnable process**: in every state of a run every runnable process is in the
queue of its level while MLFQ is the policy, exactly if each `kill` and each switch to MLFQ in the run
leaves no runnable process without an entry. -/
theorem noLoss_iff {h : List (Kernel × Op)} (hr : Run sys h k) :
    (NoLoss k ∧ ∀ x ∈ h, NoLoss x.1) ↔ ∀ x ∈ h, LosesNone x.1 x.2 := by
  refine hr.forall_iff_ok (fun s h0 => sys_init h0 ▸ Sound.boot)
    (fun _ _ _ hs he => hs.exec he) (fun s h0 => ?_) fun s e s' hs hn he =>
      ⟨losesNone_of_noLoss he, hn.exec hs he⟩
  rw [sys_init h0]
  intro hb; cases hb

def allocOk : Alloc := ⟨true, true, true⟩

/-- Under MLFQ a child is forked and killed while it waits in its queue: it is not lost. -/
theorem noLoss_iff_kill_queued : ∃ k, (k.currentPolicy = .mlfq ∧ (k.proc 1).killed ∧
    (k.proc 1).state = .runnable) ∧ NoLoss k := by
  obtain ⟨k, hr, -, ht⟩ := run_of_ops [.schedule 0, .forkret 0, .setSched 0 4, .fork 0 allocOk, .kill 0 2]
    (fun k => k.currentPolicy = .mlfq ∧ (k.proc 1).killed ∧ (k.proc 1).state = .runnable)
    (by decide +kernel)
  exact ⟨k, of_decide_eq_true ht, ((noLoss_iff hr).mpr (by decide +kernel)).1⟩

/-- Under MLFQ, process 2 sleeps and process 1 kills it: it is runnable and in no queue. -/
theorem kill_loses_sleeper : ∃ h k, Run sys h k ∧ h.map Prod.snd =
      [.schedule 0, .forkret 0, .setSched 0 4, .fork 0 allocOk, .schedule 1, .forkret 1, .sleep 1 (.obj 0), .kill 0 2] ∧
    ¬ NoLoss k := by
  obtain ⟨k, hr, hops, ht⟩ := run_of_ops
    [.schedule 0, .forkret 0, .setSched 0 4, .fork 0 allocOk, .schedule 1, .forkret 1, .sleep 1 (.obj 0), .kill 0 2]
    (fun k => k.currentPolicy = .mlfq ∧ (k.proc 1).state = .runnable ∧
      some 1 ∉ k.mlfq.level (k.proc 1).queueLevel)
    (by decide +kernel)
  have ht' := of_decide_eq_true ht
  exact ⟨_, k, hr, hops, fun hn => ht'.2.2 (hn ht'.1 1 ht'.2.1)⟩

/-! ## No entry is stale -/

def Clean (v : View) : Prop :=
  ∀ l < QUEUE_LEVELS, ∀ x ∈ v.mlfq.level l, ∃ p, x = some p ∧ v.state p = .runnable ∧ v.lvl p = l

/-- The steps that leave no stale entry: a branch other than the MLFQ one dispatches only processes
that have no entry. -/
def DispatchesUnqueued (k : Kernel) : Op → Prop
  | .schedule c => ∀ p ∈ otherPick k c, ¬ k.mlfq.Has p
  | _ => True

instance (q : Mlfq) (p : Slot) : Decidable (q.Has p) :=
  inferInstanceAs (Decidable (∃ l < QUEUE_LEVELS, some p ∈ q.level l))

instance (k : Kernel) : DecidablePred (DispatchesUnqueued k)
  | .schedule c => inferInstanceAs (Decidable (∀ p ∈ otherPick k c, ¬ k.mlfq.Has p))
  | .fork _ _ | .forkWithPriority _ _ _ | .yield _ | .sleep _ _ | .wakeup _ _ | .kill _ _
  | .setkilled _ | .exit _ _ | .wait _ _ | .setSched _ _ | .setPriority _ _ _ | .usertrapTimer _
  | .kerneltrapTimer _ | .forkret _ => .isTrue trivial

theorem Move.clean {v v' : View} (h : Move v v') (hq : v.mlfq.Ok) (hc : Clean v) : Clean v' := by
  intro l' hl' x hx
  rcases h with ⟨hp, hs, hl⟩ | ⟨hp, hl, he, he'⟩ | ⟨hp, he⟩ | ⟨hp, hl, hi, he⟩
  · rename_i p s l
    obtain ⟨r, hxr, hr, hlr⟩ := hc l' hl' x hx
    have hrp : r ≠ p := fun e => hp (e ▸ hr)
    exact ⟨r, hxr, (update_of_ne hrp _ _).trans hr, (update_of_ne hrp _ _).trans hlr⟩
  · rename_i p l q
    by_cases hnew : l' = l ∧ x = some p
    · exact ⟨p, hnew.2, update_self .., (update_self ..).trans hnew.1.symm⟩
    · have hold : x ∈ v.mlfq.level l' := by
        by_cases hb : v.policy = .mlfq
        · exact ((mem_level_enqueueToMlfq (he hb)).mp hx).resolve_right hnew
        · exact he' hb ▸ hx
      obtain ⟨r, hxr, hr, hlr⟩ := hc l' hl' x hold
      have hrp : r ≠ p := fun e => hp (e ▸ hr)
      exact ⟨r, hxr, (update_of_ne hrp _ _).trans hr, (update_of_ne hrp _ _).trans hlr⟩
  · rcases (mem_level_enqueueToMlfq he).mp hx with hold | ⟨hll, hxp⟩
    · exact hc l' hl' x hold
    · exact ⟨_, hxp, hp, hll.symm⟩
  · rename_i p l i
    obtain ⟨hold, hne⟩ := (mem_level_removeAt hq hi he).mp hx
    obtain ⟨r, hxr, hr, hlr⟩ := hc l' hl' x hold
    have hrp : r ≠ p := by
      -- the entry taken is at the level of `p`, which is the only level `p` is in
      rintro rfl
      obtain ⟨r', hr', -, hlr'⟩ := hc l hl _ (Xv6.Lib.Arrays.mem_seg.mpr ⟨i, hi, he⟩)
      rw [← Option.some.inj hr'] at hlr'; exact hne ⟨hlr.symm.trans hlr', hxr⟩
    exact ⟨r, hxr, (update_of_ne hrp _ _).trans hr, hlr⟩

theorem schedule_otherPick {c : ℕ} (h : otherPick k c = some p) :
    ∃ b, schedule k c = some (some p, dispatch k c b p) := by
  unfold otherPick at h
  unfold schedule
  split at h
  · cases h
  · exact ⟨.rr, by simp only [schedRr, h]⟩
  · split at h
    · exact ⟨.rr, by simp only [schedRr, h]⟩
    · cases h
    · exact ⟨k.currentPolicy, by simp only [schedScan, h]⟩

theorem dispatchesUnqueued_of_clean {op : Op} (h : exec k op = some k') (hc : Clean (view k')) :
    DispatchesUnqueued k op := by
  cases op with
  | schedule c =>
    rintro p hp ⟨l, hl, hmem⟩
    obtain ⟨b, hs⟩ := schedule_otherPick hp
    have hk : dispatch k c b p = k' := by simpa only [exec, hs, map_some, Option.some.injEq] using h
    rw [← hk, view_dispatch] at hc
    obtain ⟨r, hr, hrun, -⟩ := hc l hl _ hmem
    rw [← Option.some.inj hr] at hrun
    have habs := (update_self p ProcState.running (view k).state).symm.trans hrun
    cases habs
  | _ => trivial

theorem clean_exec (hs : Sound k) (hc : Clean (view k)) {op : Op} (h : exec k op = some k')
    (hok : DispatchesUnqueued k op) : Clean (view k') := by
  rcases exec_cases hs.base h with hm | ⟨c, pid, p, rfl, hp, hsl, hv⟩ | ⟨c, mode, b, rfl, hm, hv⟩ |
    ⟨c, p, rfl, hpick, hrun, hv⟩
  · have key := hm.inv (P := fun v => v.mlfq.Ok ∧ Clean v)
      (fun _ _ h1 hi => ⟨h1.ok hi.1, Move.clean h1 hi.1 hi.2⟩) ⟨hs.ok, hc⟩
    exact key.2
  · rw [hv]
    intro l hl x hx
    obtain ⟨r, hxr, hr, hlr⟩ := hc l hl x hx
    have hrp : r ≠ p := by
      rintro rfl
      rw [show (view k).state r = (k.proc r).state from rfl, hsl] at hr
      cases hr
    exact ⟨r, hxr, (update_of_ne hrp _ _).trans hr, hlr⟩
  · rw [hv]; exact hc
  · rw [hv]
    intro l hl x hx
    obtain ⟨r, hxr, hr, hlr⟩ := hc l hl x hx
    have hrp : r ≠ p := by rintro rfl; exact hok r hpick ⟨l, hl, hxr ▸ hx⟩
    exact ⟨r, hxr, (update_of_ne hrp _ _).trans hr, hlr⟩

theorem clean_boot : Clean (view boot) := by
  intro l _ x hx; simp [view, boot, procinit, Mlfq.level, Mlfq.init] at hx

theorem clean_iff {h : List (Kernel × Op)} (hr : Run sys h k) :
    (Clean (view k) ∧ ∀ x ∈ h, Clean (view x.1)) ↔ ∀ x ∈ h, DispatchesUnqueued x.1 x.2 :=
  hr.forall_iff_ok (J := Sound) (P := fun k => Clean (view k))
    (fun _ h0 => sys_init h0 ▸ Sound.boot) (fun _ _ _ hs he => hs.exec he)
    (fun _ h0 => sys_init h0 ▸ clean_boot)
    fun _ _ _ hs hc he => ⟨dispatchesUnqueued_of_clean he, clean_exec hs hc he⟩

/-- **No stale or duplicated entry**: in a run in which no branch other than the MLFQ one dispatches a
process that has an entry, every entry is a runnable process at its own level, no process is in two
levels, and none is twice in one. -/
theorem entries_runnable {h : List (Kernel × Op)} (hr : Run sys h k)
    (hok : ∀ x ∈ h, DispatchesUnqueued x.1 x.2) :
    (∀ l < QUEUE_LEVELS, ∀ i < k.mlfq.qsize l, ∃ p, k.mlfq.queue l i = some p ∧
      (k.proc p).state = .runnable ∧ (k.proc p).queueLevel = l) ∧
    (∀ p, ∀ l < QUEUE_LEVELS, ∀ l' < QUEUE_LEVELS, some p ∈ k.mlfq.level l →
      some p ∈ k.mlfq.level l' → l = l') ∧ ∀ l < QUEUE_LEVELS, (k.mlfq.level l).Nodup := by
  have hc : Clean (view k) := ((clean_iff hr).mpr hok).1
  refine ⟨fun l hl i hi => ?_, fun p l hl l' hl' hp hp' => ?_, fun l _ => (Sound.run hr).ok.nodup l⟩
  · exact hc l hl _ (Xv6.Lib.Arrays.mem_seg.mpr ⟨i, hi, rfl⟩)
  · obtain ⟨r, hr, -, hlr⟩ := hc l hl _ hp
    obtain ⟨r', hr', -, hlr'⟩ := hc l' hl' _ hp'
    have hrr : r = r' := Option.some.inj (hr.symm.trans hr')
    subst hrr; exact hlr.symm.trans hlr'

/-- A child is forked and dispatched under MLFQ, and the policy is switched to FCFS and back. -/
theorem entries_runnable_switch : ∃ k : Kernel, k.mlfq.qsize 0 = 1 ∧ ∀ l < QUEUE_LEVELS,
    ∀ i < k.mlfq.qsize l, ∃ p, k.mlfq.queue l i = some p ∧ (k.proc p).state = .runnable ∧
      (k.proc p).queueLevel = l := by
  obtain ⟨k, hr, -, ht⟩ := run_of_ops
    [.schedule 0, .forkret 0, .setSched 0 4, .fork 0 allocOk, .setSched 0 1, .setSched 0 4]
    (fun k => k.mlfq.qsize 0 = 1) (by decide +kernel)
  exact ⟨k, of_decide_eq_true ht, (entries_runnable hr (by decide +kernel)).1⟩

/-- The child is queued under MLFQ, then dispatched by the round-robin branch: when MLFQ is the policy
again, its entry is that of a running process. -/
theorem rr_leaves_stale_entry : ∃ h k, Run sys h k ∧ h.map Prod.snd =
      [.schedule 0, .forkret 0, .setSched 0 4, .fork 0 allocOk, .setSched 0 0, .yield 0, .schedule 0,
      .forkret 0, .setSched 0 4] ∧
    k.currentPolicy = .mlfq ∧ some 1 ∈ k.mlfq.level 0 ∧ (k.proc 1).state = .running := by
  obtain ⟨k, hr, hops, ht⟩ := run_of_ops
    [.schedule 0, .forkret 0, .setSched 0 4, .fork 0 allocOk, .setSched 0 0, .yield 0, .schedule 0,
      .forkret 0, .setSched 0 4]
    (fun k => k.currentPolicy = .mlfq ∧ some 1 ∈ k.mlfq.level 0 ∧ (k.proc 1).state = .running)
    (by decide +kernel)
  exact ⟨_, k, hr, hops, of_decide_eq_true ht⟩

theorem refill_isSome (hq : k.mlfq.Ok) : ∃ k', refill k = some k' := by
  have hround : ∀ (s : Kernel) (q : Slot), s.mlfq.Ok → ∃ s', refillAt s q = some s' ∧ s'.mlfq.Ok := by
    intro s q hs
    unfold refillAt enqueue
    split_ifs
    · obtain ⟨q', hq'⟩ := isSome_iff_exists.mp (enqueueToMlfq_isSome hs (s.proc q).queueLevel q)
      rw [hq']; exact ⟨_, rfl, hs.enqueueToMlfq hq'⟩
    · exact ⟨s, rfl, hs⟩
  unfold refill
  split_ifs
  · obtain ⟨k', h, -⟩ := foldlM_isSome hround slots hq; exact ⟨k', h⟩
  · exact ⟨k, rfl⟩

theorem refillAt_spec {q : Slot} (h : refillAt k q = some k') : ((k'.proc q).state = .runnable → InQueue k' q) ∧
    ∀ r, ((k.proc r).state = .runnable → InQueue k r) → (k'.proc r).state = .runnable → InQueue k' r := by
  unfold refillAt enqueue at h
  split_ifs at h with hr
  · obtain ⟨k1, h1, rfl⟩ := map_eq_some_iff.mp h
    obtain ⟨q', hq', rfl⟩ := map_eq_some_iff.mp h1
    have hmem := @mem_level_enqueueToMlfq k.mlfq q' (k.proc q).queueLevel q hq'
    have hproc : ∀ r, ((Kernel.modProc { k with mlfq := q' } q
        fun v => { v with timeSlice := 0 }).proc r).queueLevel = (k.proc r).queueLevel ∧
        ((Kernel.modProc { k with mlfq := q' } q
        fun v => { v with timeSlice := 0 }).proc r).state = (k.proc r).state := by
      intro r
      rw [modProc_proc]
      split_ifs with hrq
      · subst hrq; exact ⟨rfl, rfl⟩
      · exact ⟨rfl, rfl⟩
    refine ⟨fun _ => ?_, fun r hin hrun => ?_⟩
    · unfold InQueue; rw [(hproc q).1]; exact hmem.mpr (.inr ⟨rfl, rfl⟩)
    · unfold InQueue
      rw [(hproc r).1]
      rw [(hproc r).2] at hrun; exact hmem.mpr (.inl (hin hrun))
  · have hk : k = k' := Option.some.inj h
    subst hk; exact ⟨fun hr' => absurd hr' hr, fun r hin => hin⟩

theorem refill_nonempty (hl : ∀ p, (k.proc p).queueLevel < QUEUE_LEVELS)
    (hp : (k.proc p).state = .runnable) (h : refill k = some k') :
    ∃ l < QUEUE_LEVELS, ∃ x, x ∈ k'.mlfq.level l := by
  have href := refill_refilled h
  unfold refill at h
  split_ifs at h with ht
  · have hin := foldlM_forall (Q := fun q k => (k.proc q).state = .runnable → InQueue k q)
      (fun _ _ _ hq => (refillAt_spec hq).1) (fun _ _ _ r hq => (refillAt_spec hq).2 r) slots h
      p (mem_slots p)
    obtain ⟨t, hpt⟩ := href.proc p
    refine ⟨(k'.proc p).queueLevel, ?_, some p, hin (by rw [hpt]; exact hp)⟩
    rw [hpt]; exact hl p
  · have hk : k = k' := Option.some.inj h
    subst hk
    by_contra hempty
    have hzero : ∀ l < QUEUE_LEVELS, k.mlfq.qsize l = 0 := by
      intro l hl
      by_contra hpos
      exact hempty ⟨l, hl, k.mlfq.queue l 0, Xv6.Lib.Arrays.mem_seg.mpr ⟨0, Nat.pos_of_ne_zero hpos, rfl⟩⟩
    have h0 := hzero 0 (by decide)
    have h1 := hzero 1 (by decide)
    have h2 := hzero 2 (by decide)
    exact ht (by simp [totalQsize, QUEUE_LEVELS, List.range_succ, h0, h1, h2])

theorem schedMlfq_dispatches (hs : Sound k) (hc : Clean (view k)) (hp : (k.proc p).state = .runnable) (c : ℕ) :
    ∃ q k', schedMlfq k c = some (some q, k') ∧ (k.proc q).state = .runnable ∧
      (k'.proc q).state = .running ∧ k'.myproc c = some q := by
  obtain ⟨k1, h1⟩ := refill_isSome hs.ok
  have hinv := (moves_refill h1).inv (P := fun v => v.mlfq.Ok ∧ Clean v)
    (fun _ _ h1 hi => ⟨h1.ok hi.1, Move.clean h1 hi.1 hi.2⟩) ⟨hs.ok, hc⟩
  obtain ⟨l, hl, x, hx⟩ := refill_nonempty hs.lvl hp h1
  obtain ⟨r, rfl, hrun, -⟩ := hinv.2 l hl x hx
  rcases scanMlfq_cases k1 c with ⟨-, hnone⟩ | ⟨l', i, q, hl', hi, hq, hqr, hscan⟩
  · exact absurd hrun (hnone l hl r hx)
  · refine ⟨q, _, by rw [schedMlfq, h1, map_some, hscan], ?_, ?_, ?_⟩
    · obtain ⟨t, ht⟩ := (refill_refilled h1).proc q; rw [ht] at hqr; exact hqr
    · have hst := congrFun (congrArg View.state
        (view_dispatch { k1 with mlfq := removeAt k1.mlfq l' i } c .mlfq q)) q
      exact hst.trans (update_self ..)
    · simp [dispatch, Kernel.myproc, Kernel.setCpu]

/-- **MLFQ is work conserving** in a run in which no branch other than the MLFQ one dispatches a
process that has an entry: with MLFQ as the policy and a runnable process, the next iteration of the
scheduler of any CPU dispatches a runnable process. -/
theorem schedule_dispatches {h : List (Kernel × Op)} (hr : Run sys h k)
    (hok : ∀ x ∈ h, DispatchesUnqueued x.1 x.2) (hb : k.currentPolicy = .mlfq)
    (hp : (k.proc p).state = .runnable) {c : ℕ} (hc : (k.cpus c).pc = .top) :
    ∃ q k', schedule k c = some (some q, k') ∧ (k.proc q).state = .runnable ∧
      (k'.proc q).state = .running ∧ k'.myproc c = some q := by
  have hs : schedule k c = schedMlfq k c := by unfold schedule; rw [hc, hb]
  rw [hs]
  exact schedMlfq_dispatches (Sound.run hr) ((clean_iff hr).mpr hok).1 hp c

/-- The child forked under MLFQ is dispatched by the other CPU. -/
theorem schedule_dispatches_child : ∃ k q k', schedule k 1 = some (some q, k') ∧
    (k'.proc q).state = .running := by
  obtain ⟨k, hr, -, ht⟩ := run_of_ops [.schedule 0, .forkret 0, .setSched 0 4, .fork 0 allocOk]
    (fun k => k.currentPolicy = .mlfq ∧ (k.proc 1).state = .runnable ∧
      (k.cpus 1).pc = .top) (by decide +kernel)
  have ht' := of_decide_eq_true ht
  obtain ⟨q, k', h1, -, h2, -⟩ :=
    schedule_dispatches hr (by decide +kernel) ht'.1 ht'.2.1 ht'.2.2
  exact ⟨k, q, k', h1, h2⟩

/-- The stale entry is that of a sleeper: no queue is empty enough for a refill, the scan finds nothing
to run, and `init`, which is runnable, waits. -/
theorem stale_entry_idles : ∃ h k, Run sys h k ∧ h.map Prod.snd =
      [.schedule 0, .forkret 0, .setSched 0 4, .fork 0 allocOk, .setSched 0 0, .yield 0, .schedule 0,
        .forkret 0, .setSched 0 4, .sleep 0 (.obj 0)] ∧
    k.currentPolicy = .mlfq ∧ (k.proc 0).state = .runnable ∧ (k.cpus 1).pc = .top ∧
    ∃ k', schedule k 1 = some (none, k') := by
  obtain ⟨k, hr, hops, ht⟩ := run_of_ops
    [.schedule 0, .forkret 0, .setSched 0 4, .fork 0 allocOk, .setSched 0 0, .yield 0, .schedule 0,
        .forkret 0, .setSched 0 4, .sleep 0 (.obj 0)]
    (fun k => k.currentPolicy = .mlfq ∧ (k.proc 0).state = .runnable ∧
      (k.cpus 1).pc = .top ∧ (schedule k 1).map Prod.fst = some none)
    (by decide +kernel)
  obtain ⟨h1, h2, h3, h4⟩ := of_decide_eq_true ht
  obtain ⟨⟨r, k'⟩, hs, rfl⟩ := map_eq_some_iff.mp h4
  exact ⟨_, k, hr, hops, h1, h2, h3, k', hs⟩

end Xv6.Sched.Queued
