import Xv6.Sched.Waiting

/-!
# The length of the last burst

A history variable (`Times`) records, for each process, the ticks of its last dispatch and of the moment it last
gave up the CPU by `yield` or `sleep`, and how both were done.  `last_runtime` is computed from
`runtime_start_ticks`, which only the HRRN branch stores at a dispatch, and `forkret` after the first one, when
ticks may have passed and the process may have given up the CPU; `yield` computes it under every policy, `sleep`
only when the HRRN branch had made the dispatch.
-/

namespace Xv6.Sched.Bursts

open Lib.Runs Param Sched.Defs Sched.Queues Sched.Ops Sched.Step Sched.Facts Option BitVec
open Sched.Running Sched.Life

variable {k k' : Kernel} {c : ℕ} {p : Slot} {op : Op} {v w : Proc}

/-! ## The record -/

/-- What is recorded of a run: the ticks since boot; the ticks of the last dispatch of each process and
of the moment it last gave up the CPU; whether it has run at all, whether the HRRN branch made the last
dispatch, whether `runtime_start_ticks` was stored since then, the last time in the same tick, and whether the
burst ended with a `yield`. -/
structure Times where
  now : ℕ
  start : Slot → ℕ
  stop : Slot → ℕ
  ran : Slot → Bool
  byHrrn : Slot → Bool
  timed : Slot → Bool
  yielded : Slot → Bool

def Times.boot : Times :=
  ⟨0, fun _ => 0, fun _ => 0, fun _ => false, fun _ => false, fun _ => false, fun _ => false⟩

def Dispatched (k k' : Kernel) (p : Slot) : Prop :=
  (k.proc p).state = .runnable ∧ (k'.proc p).state = .running

instance (k k' : Kernel) (p : Slot) : Decidable (Dispatched k k' p) :=
  inferInstanceAs (Decidable (_ ∧ _))

/-- Process `p` gives up the CPU by `yield` or `sleep`. -/
def GaveUp (k k' : Kernel) (p : Slot) : Prop :=
  (k.proc p).state = .running ∧ ((k'.proc p).state = .runnable ∨ (k'.proc p).state = .sleeping)

instance (k k' : Kernel) (p : Slot) : Decidable (GaveUp k k' p) :=
  inferInstanceAs (Decidable (_ ∧ _))

/-- Process `p` makes the store at the end of `forkret`. -/
def LeftForkret (k k' : Kernel) (p : Slot) : Prop := (k.proc p).inForkret = true ∧ (k'.proc p).inForkret = false

instance (k k' : Kernel) (p : Slot) : Decidable (LeftForkret k k' p) :=
  inferInstanceAs (Decidable (_ ∧ _))

def hrrnRound (k' : Kernel) : Op → Bool
  | .schedule c => (k'.cpus c).pc = .swtch .hrrn
  | _ => false

def measure (k : Kernel) (op : Op) (k' : Kernel) (g : Times) : Times where
  now := g.now + (ticked op).toNat
  start p := if Dispatched k k' p then g.now + (ticked op).toNat else g.start p
  stop p := if GaveUp k k' p then g.now + (ticked op).toNat else g.stop p
  ran p := if (k'.proc p).state = .unused then false else if Dispatched k k' p then true else g.ran p
  byHrrn p := if Dispatched k k' p then hrrnRound k' op else g.byHrrn p
  timed p :=
    if Dispatched k k' p then hrrnRound k' op
    else if LeftForkret k k' p then g.now = g.start p else g.timed p
  yielded p := if GaveUp k k' p then (k'.proc p).state = .runnable else g.yielded p

def burstSys : Sys (Kernel × Times) Op := sys.hist Times.boot measure

theorem exec_cpus (h : exec k op = some k') (c : ℕ) : k'.cpus c = k.cpus c ∨ (k'.cpus c).proc = none ∨
    ∃ p b, op = .schedule c ∧ k'.cpus c = ⟨some p, .swtch b⟩ ∧ (k.proc p).state = .runnable := by
  have hback : ∀ (m : Kernel) (c' : ℕ) (p : Slot), m.cpus = k.cpus →
      (schedBack m c' p).cpus c = k.cpus c ∨ ((schedBack m c' p).cpus c).proc = none := by
    intro m c' p hm
    by_cases hc : c = c'
    · subst hc; exact .inr (schedBack_cpus_self m c p)
    · left
      rw [schedBack_cpus_ne m p hc, hm]
  have hyield : ∀ {m : Kernel} {c' : ℕ} {p : Slot}, yield m c' p = some k' → m.cpus = k.cpus →
      k'.cpus c = k.cpus c ∨ (k'.cpus c).proc = none := by
    intro m c' p hy hm
    obtain ⟨q, rfl, -⟩ := yield_eq hy; exact hback _ c' p hm
  have hexit : ∀ (m : Kernel) (c' : ℕ) (p : Slot) (status : Word), m.cpus = k.cpus →
      exit m c' p status = some k' → k'.cpus c = k.cpus c ∨ (k'.cpus c).proc = none := by
    intro m c' p status hm he
    obtain ⟨-, k1, h1, rfl⟩ := exit_eq he; exact hback _ c' p (h1.cpus.trans hm)
  cases exec_ran h with
  | fork hf | forkWithPriority hf =>
    left
    rcases forkWith_cases hf with ⟨-, rfl⟩ | ⟨np, w, -, -, -, rfl⟩ | ⟨np, m, -, -, rfl, -⟩ <;> rfl
  | yield _ h => exact (hyield h rfl).imp_right .inl
  | @sleep c' chan p => exact (hback (k.modProc p (Proc.sleepStart chan)) c' p rfl).imp_right .inl
  | @waitSleep c' _ p => exact (hback (k.modProc p (Proc.sleepStart (.proc p))) c' p rfl).imp_right .inl
  | wakeup h => exact .inl (congrFun (wakeup_woken h).cpus c)
  | kill | killNone | setkilled | reap | waitNone | setSched | setSchedNone | setPriority | setPriorityNone
  | forkret =>
    exact .inl rfl
  | @exit c' status p _ _ h => exact (hexit k c' p status rfl h).imp_right .inl
  | @usertrapTimer c' p _ _ h =>
    obtain ⟨k1, h1, h⟩ := usertrapTimer_cases h
    have hc : k1.cpus = k.cpus := (clockintr_woken h1).cpus
    rcases h with h | ⟨f, -, k2, rfl, rfl | h⟩
    · exact (hexit k1 c' p _ hc h).imp_right .inl
    · exact .inl (congrFun hc c)
    · exact (hyield h hc).imp_right .inl
  | kerneltrapTimer h =>
    obtain ⟨k1, h1, h⟩ := kerneltrapTimer_cases h
    have hc : k1.cpus = k.cpus := (clockintr_woken h1).cpus
    rcases h with rfl | ⟨p, -, h⟩
    · exact .inl (congrFun hc c)
    · exact (hyield h hc).imp_right .inl
  | @schedule c' _ _ hs =>
    have hset : ∀ (m : Kernel) (x : Cpu), m.cpus = k.cpus → c ≠ c' → (m.setCpu c' x).cpus c = k.cpus c := by
      intro m x hm hc
      rw [setCpu_cpus, if_neg hc, hm]
    by_cases hc : c = c'
    · subst hc
      rcases schedule_cases hs with ⟨-, k1, -, rfl⟩ | ⟨p, b, -, -, -, hr, rfl⟩ |
        ⟨k1, l, i, p, -, h1, -, -, -, hr, rfl⟩
      · exact .inr (.inl (by rw [setCpu_cpus, if_pos rfl]))
      · exact .inr (.inr ⟨p, b, rfl, by rw [dispatch, setCpu_cpus, if_pos rfl], hr⟩)
      · obtain ⟨t, ht⟩ := (refill_refilled h1).proc p
        rw [ht] at hr
        exact .inr (.inr ⟨p, .mlfq, rfl, by rw [dispatch, setCpu_cpus, if_pos rfl], hr⟩)
    · left
      rcases schedule_cases hs with ⟨-, k1, h1, rfl⟩ | ⟨p, b, -, -, -, -, rfl⟩ |
        ⟨k1, l, i, p, -, h1, -, -, -, -, rfl⟩
      · rcases h1 with rfl | h1
        · exact hset _ _ rfl hc
        · exact hset _ _ (refill_refilled h1).cpus hc
      · exact hset _ _ rfl hc
      · exact hset _ _ (refill_refilled h1).cpus hc

structure Quiet (v v' : Proc) : Prop where
  state : v'.state = v.state ∨ (v.state = .sleeping ∧ v'.state = .runnable)
  inForkret : v'.inForkret = v.inForkret
  start : v'.runtimeStartTicks = v.runtimeStartTicks
  last : v'.lastRuntime = v.lastRuntime

/-- A process gives up the CPU, at tick `t`, to the scheduler thread that goes on at `pc`. -/
structure Leaves (pc : SchedPc) (t : Word) (v v' : Proc) : Prop where
  running : v.state = .running
  last : v'.lastRuntime = if pc = .swtch .hrrn ∨ v'.state = .runnable then v.burst t else v.lastRuntime
  state : v'.state = .runnable ∨ v'.state = .sleeping ∨ v'.state = .zombie
  inForkret : v'.inForkret = v.inForkret

theorem leaves_of_givesUp {t : Word} {f : Proc → Proc} (hw : Minor v w)
    (hf : GivesUp t f) (hs : v.state = .running) (pc : SchedPc) : Leaves pc t v (backFrom pc t (f w)) := by
  obtain ⟨pa, pr, l, s, n, rfl⟩ := hw
  have hst : ∀ u : Proc, (backFrom pc t u).state = u.state ∧ (backFrom pc t u).inForkret = u.inForkret := by
    intro u
    obtain ⟨r, hr⟩ := backFrom_eq pc t u
    rw [hr]; exact ⟨rfl, rfl⟩
  have hlast : ∀ u : Proc, (backFrom pc t u).lastRuntime =
      if pc = .swtch .hrrn then u.burst t else u.lastRuntime := by
    intro u
    cases pc with
    | swtch b => cases b <;> rfl
    | top | rr i found => rfl
  cases hf with
  | yield =>
    refine ⟨hs, ?_, .inl (hst _).1, (hst _).2⟩
    simp [hlast, (hst _).1, Proc.yieldStart, Proc.burst]
  | sleep chan =>
    refine ⟨hs, ?_, .inr (.inl (hst _).1), (hst _).2⟩
    simp [hlast, (hst _).1, Proc.sleepStart, Proc.burst]
  | exit status =>
    refine ⟨hs, ?_, .inr (.inr (hst _).1), (hst _).2⟩
    simp [hlast, (hst _).1, Proc.exitStart, Proc.burst]

theorem exec_burst (hb : Base k) (h : exec k op = some k') (q : Slot) : Quiet (k.proc q) (k'.proc q) ∨
    (∃ c, (k.cpus c).proc = some q ∧ Leaves (k.cpus c).pc (k.ticks + ticked op) (k.proc q) (k'.proc q)) ∨
    (∃ c b, op = .schedule c ∧ k'.cpus c = ⟨some q, .swtch b⟩ ∧ (k.proc q).state = .runnable ∧
      (k'.proc q).state = .running ∧ (b = .hrrn → (k'.proc q).runtimeStartTicks = k.ticks + ticked op) ∧
      (k'.proc q).lastRuntime = (k.proc q).lastRuntime) ∨ (k'.proc q).state = .unused ∨
    ((k.proc q).state = .unused ∧ (k'.proc q).state = .runnable ∧ (k'.proc q).lastRuntime = 1) ∨
    ((k.proc q).state = .running ∧ LeftForkret k k' q ∧ k'.proc q = (k.proc q).forkret k.ticks) := by
  rcases exec_effect hb h q with ⟨pa, pr, l, s, n, hm⟩ | ⟨c, hop, hv⟩ | ⟨c, hop, hs, hv⟩ |
    ⟨hop, hs, w, hw, hv⟩ | ⟨c, hc, hs, w, hw, f, hf, hv⟩ | ⟨c, b, hop, hs, hc, w, hw, hv⟩ |
    ⟨c, o, hop, hs, hv⟩ | ⟨hs, w, hw, hv⟩ | ⟨c, a, p, hop, hs, hv⟩ | ⟨c, n, a, p, hop, hs, hv⟩ | ⟨c, hop, hs, hf, hv⟩
  · left; rw [hm]; exact ⟨.inl rfl, rfl, rfl, rfl⟩
  · left
    rw [hv]
    refine ⟨?_, rfl, rfl, rfl⟩
    by_cases hsl : (k.proc q).state = .sleeping
    · exact .inr ⟨hsl, by simp [Proc.kill, hsl]⟩
    · exact .inl (by simp [Proc.kill, hsl])
  · left; rw [hv]; exact ⟨.inl rfl, rfl, rfl, rfl⟩
  · left
    obtain ⟨pa, pr, l, s, n, rfl⟩ := hw
    rw [hv]; exact ⟨.inr ⟨hs, rfl⟩, rfl, rfl, rfl⟩
  · right; left; rw [hv]; exact ⟨c, hc, leaves_of_givesUp hw hf hs _⟩
  · right; right; left
    obtain ⟨pa, pr, l, s, n, rfl⟩ := hw
    refine ⟨c, b, hop, hc, hs, ?_⟩
    rw [hv]
    unfold Proc.resume Proc.startRun
    split <;> exact ⟨rfl, fun hb => if_pos hb, rfl⟩
  · right; right; right; left; rw [hv]; rfl
  · right; right; right; left; rw [hv]; rfl
  · right; right; right; right; left; rw [hv]; exact ⟨hs, rfl, rfl⟩
  · right; right; right; right; left; rw [hv]; exact ⟨hs, rfl, rfl⟩
  · right; right; right; right; right; exact ⟨hs, ⟨hf, by rw [hv]; rfl⟩, hv⟩

structure Fits (g : Times) (p : Slot) (v : Proc) : Prop where
  start_le : g.start p ≤ g.now
  fresh : v.state = .unused → g.ran p = false
  ran : v.state = .running → g.ran p = true
  running : v.state = .running → g.timed p = true → v.runtimeStartTicks = BitVec.ofNat 32 (g.start p)
  stop : v.state = .runnable ∨ v.state = .sleeping → g.ran p = true → g.start p ≤ g.stop p
  last : v.state = .runnable ∨ v.state = .sleeping → g.ran p = true → g.timed p = true →
    (g.byHrrn p = true ∨ g.yielded p = true) →
    g.stop p - g.start p < 2 ^ 31 → v.lastRuntime.toInt = max 1 ((g.stop p : ℤ) - g.start p)

structure Measured (x : Kernel × Times) : Prop where
  ticks : x.1.ticks = BitVec.ofNat 32 x.2.now
  cpu : ∀ c p, (x.1.cpus c).proc = some p →
    ∃ b, (x.1.cpus c).pc = .swtch b ∧ (x.2.byHrrn p = true → b = .hrrn)
  fits : ∀ p, Fits x.2 p (x.1.proc p)

theorem burst_toInt {m n : ℕ} (hmn : m ≤ n) (hlt : n - m < 2 ^ 31)
    (hv : v.runtimeStartTicks = BitVec.ofNat 32 m) : (v.burst (BitVec.ofNat 32 n)).toInt = max 1 ((n : ℤ) - m) := by
  have hd : (BitVec.ofNat 32 n - BitVec.ofNat 32 m).toInt = (n : ℤ) - m :=
    (Waiting.toInt_sub_eq_iff hmn _).mpr ⟨rfl, hlt⟩
  unfold Proc.burst
  rw [hv]
  by_cases hpos : (0 : Word).slt (BitVec.ofNat 32 n - BitVec.ofNat 32 m) = true
  · rw [if_pos hpos]
    rw [slt_iff_toInt_lt] at hpos
    have h0 : (0 : Word).toInt = 0 := rfl; omega
  · rw [if_neg hpos]
    rw [slt_iff_toInt_lt] at hpos
    have h0 : (0 : Word).toInt = 0 := rfl
    have h1 : (1 : Word).toInt = 1 := rfl; omega

section
variable {g : Times}

theorem not_leftForkret (h : (k'.proc p).inForkret = (k.proc p).inForkret) : ¬ LeftForkret k k' p := by
  rintro ⟨h1, h2⟩
  rw [h1, h2] at h; cases h

theorem measure_quiet (op : Op) (g : Times) (hd : ¬ Dispatched k k' p) (hg : ¬ GaveUp k k' p)
    (hl : ¬ LeftForkret k k' p) (hu : (k'.proc p).state ≠ .unused) :
    (measure k op k' g).start p = g.start p ∧ (measure k op k' g).stop p = g.stop p ∧
    (measure k op k' g).ran p = g.ran p ∧ (measure k op k' g).byHrrn p = g.byHrrn p ∧
    (measure k op k' g).timed p = g.timed p ∧ (measure k op k' g).yielded p = g.yielded p := by
  exact ⟨if_neg hd, if_neg hg, (if_neg hu).trans (if_neg hd), if_neg hd,
    (if_neg hd).trans (if_neg hl), if_neg hg⟩

theorem Fits.dispatched {b : SchedPolicy}
    (hb : hrrnRound k' op = true → b = .hrrn) (hs : (k.proc p).state = .runnable)
    (hs' : (k'.proc p).state = .running)
    (hrst : b = .hrrn → (k'.proc p).runtimeStartTicks = BitVec.ofNat 32 (g.now + (ticked op).toNat)) :
    Fits (measure k op k' g) p (k'.proc p) := by
  have hd : Dispatched k k' p := ⟨hs, hs'⟩
  have hu : (k'.proc p).state ≠ .unused := by simp [hs']
  have hstart : (measure k op k' g).start p = g.now + (ticked op).toNat := if_pos hd
  have hran : (measure k op k' g).ran p = true := (if_neg hu).trans (if_pos hd)
  have htimed : (measure k op k' g).timed p = hrrnRound k' op := if_pos hd
  refine ⟨by rw [hstart]; exact le_rfl, fun h => absurd h hu, fun _ => hran, fun _ ht => ?_, fun h => ?_,
    fun h => ?_⟩
  · rw [hstart]; rw [htimed] at ht; exact hrst (hb ht)
  · simp [hs'] at h
  · simp [hs'] at h

section
variable (hf : Fits g p (k.proc p))
include hf

theorem Fits.quiet (hq : Quiet (k.proc p) (k'.proc p))
    (hu : (k'.proc p).state ≠ .unused) : Fits (measure k op k' g) p (k'.proc p) := by
  have hd : ¬ Dispatched k k' p := by
    rintro ⟨h1, h2⟩
    rcases hq.state with h | ⟨h, -⟩
    · rw [h1, h2] at h; cases h
    · rw [h1] at h; cases h
  have hg : ¬ GaveUp k k' p := by
    rintro ⟨h1, h2⟩
    rcases hq.state with h | ⟨h, -⟩
    · rw [h, h1] at h2; simp at h2
    · rw [h1] at h; cases h
  obtain ⟨e1, e2, e3, e4, e5, e6⟩ := measure_quiet op g hd hg (not_leftForkret hq.inForkret) hu
  have hidle : (k'.proc p).state = .runnable ∨ (k'.proc p).state = .sleeping →
      (k.proc p).state = .runnable ∨ (k.proc p).state = .sleeping := by
    rcases hq.state with h | ⟨h, -⟩
    · rw [h]; exact id
    · exact fun _ => .inr h
  have hrun : (k'.proc p).state = .running → (k.proc p).state = .running := by
    intro h1
    rcases hq.state with h | ⟨-, h⟩
    · rw [← h]; exact h1
    · rw [h1] at h; cases h
  refine ⟨?_, fun h => absurd h hu, ?_, ?_, ?_, ?_⟩
  · rw [e1]; exact hf.start_le.trans (Nat.le_add_right _ _)
  · rw [e3]; exact fun h => hf.ran (hrun h)
  · rw [e1, e5, hq.start]; exact fun h => hf.running (hrun h)
  · rw [e1, e2, e3]; exact fun h => hf.stop (hidle h)
  · rw [e1, e2, e3, e4, e5, e6, hq.last]; exact fun h => hf.last (hidle h)

theorem Fits.unused (hu : (k'.proc p).state = .unused) : Fits (measure k op k' g) p (k'.proc p) := by
  have hran : (measure k op k' g).ran p = false := if_pos hu
  have hd : ¬ Dispatched k k' p := by rintro ⟨-, h2⟩; rw [hu] at h2; cases h2
  refine ⟨?_, fun _ => hran, fun h => ?_, fun h => ?_, fun h => ?_, fun h => ?_⟩
  · simp only [measure, if_neg hd]
    exact hf.start_le.trans (Nat.le_add_right _ _)
  all_goals simp [hu] at h

theorem Fits.created (hu : (k.proc p).state = .unused)
    (hr : (k'.proc p).state = .runnable) : Fits (measure k op k' g) p (k'.proc p) := by
  have hd : ¬ Dispatched k k' p := by rintro ⟨h1, -⟩; rw [hu] at h1; cases h1
  have hran : (measure k op k' g).ran p = false :=
    ((if_neg (by simp [hr])).trans (if_neg hd)).trans (hf.fresh hu)
  refine ⟨?_, fun _ => hran, fun h => ?_, fun h => ?_, fun _ h => ?_, fun _ h => ?_⟩
  · rw [show (measure k op k' g).start p = g.start p from if_neg hd]
    exact hf.start_le.trans (Nat.le_add_right _ _)
  · simp [hr] at h
  · simp [hr] at h
  · simp [hran] at h
  · simp [hran] at h

theorem Fits.leaves {pc : SchedPc}
    (hl : Leaves pc (BitVec.ofNat 32 (g.now + (ticked op).toNat)) (k.proc p) (k'.proc p))
    (hpc : g.byHrrn p = true → pc = .swtch .hrrn) : Fits (measure k op k' g) p (k'.proc p) := by
  have hu : (k'.proc p).state ≠ .unused := by
    rcases hl.state with h | h | h <;> simp [h]
  have hnr : (k'.proc p).state ≠ .running := by
    rcases hl.state with h | h | h <;> simp [h]
  have hd : ¬ Dispatched k k' p := by rintro ⟨h1, -⟩; rw [hl.running] at h1; cases h1
  have hstart : (measure k op k' g).start p = g.start p := if_neg hd
  have hran : (measure k op k' g).ran p = true :=
    ((if_neg hu).trans (if_neg hd)).trans (hf.ran hl.running)
  have hby : (measure k op k' g).byHrrn p = g.byHrrn p := if_neg hd
  have htimed : (measure k op k' g).timed p = g.timed p :=
    (if_neg hd).trans (if_neg (not_leftForkret hl.inForkret))
  have hle : g.start p ≤ g.now + (ticked op).toNat := hf.start_le.trans (Nat.le_add_right _ _)
  refine ⟨by rw [hstart]; exact hle, fun h => absurd h hu, fun h => absurd h hnr,
    fun h => absurd h hnr, fun hs _ => ?_, fun hs _ ht hor hlt => ?_⟩
  · have hg : GaveUp k k' p := ⟨hl.running, hs⟩
    rw [hstart, show (measure k op k' g).stop p = _ from if_pos hg]; exact hle
  · have hg : GaveUp k k' p := ⟨hl.running, hs⟩
    have hstop : (measure k op k' g).stop p = g.now + (ticked op).toNat := if_pos hg
    have hy : (measure k op k' g).yielded p = decide ((k'.proc p).state = .runnable) := if_pos hg
    rw [hby, hy] at hor
    rw [htimed] at ht
    rw [hstart, hstop] at hlt ⊢
    have hrst := hf.running hl.running ht
    -- `yield` computes the length, and after `sleep` the HRRN branch does
    have hlast : (k'.proc p).lastRuntime =
        (k.proc p).burst (BitVec.ofNat 32 (g.now + (ticked op).toNat)) := by
      rw [hl.last, if_pos]; exact hor.imp hpc of_decide_eq_true
    rw [hlast]; exact burst_toInt hle hlt hrst

theorem Fits.leftForkret (hs : (k.proc p).state = .running) (hl : LeftForkret k k' p)
    (hv : k'.proc p = (k.proc p).forkret (BitVec.ofNat 32 g.now)) : Fits (measure k op k' g) p (k'.proc p) := by
  have hs' : (k'.proc p).state = .running := by rw [hv]; exact hs
  have hd : ¬ Dispatched k k' p := by rintro ⟨h1, -⟩; rw [hs] at h1; cases h1
  have hstart : (measure k op k' g).start p = g.start p := if_neg hd
  have hran : (measure k op k' g).ran p = true :=
    ((if_neg (by simp [hs'])).trans (if_neg hd)).trans (hf.ran hs)
  have htimed : (measure k op k' g).timed p = decide (g.now = g.start p) := (if_neg hd).trans (if_pos hl)
  refine ⟨?_, fun h => by simp [hs'] at h, fun _ => hran, fun _ ht => ?_, fun h => ?_, fun h => ?_⟩
  · rw [hstart]; exact hf.start_le.trans (Nat.le_add_right _ _)
  · rw [htimed, decide_eq_true_eq] at ht
    rw [hstart, ← ht, hv]; rfl
  · simp [hs'] at h
  · simp [hs'] at h

end

end

theorem Measured.step (hb : Base k) {g : Times} (hm : Measured (k, g)) (h : exec k op = some k') :
    Measured (k', measure k op k' g) := by
  have htick : k.ticks + ticked op = BitVec.ofNat 32 (g.now + (ticked op).toNat) := by
    rw [hm.ticks, ofNat_add, ofNat_toNat, setWidth_eq]
  refine ⟨(exec_ticks h).trans htick, fun c p hp => ?_, fun p => ?_⟩
  · have hrun : (k'.proc p).state = .running := (hb.exec h).running c p hp
    rcases exec_cpus h c with he | he | ⟨p', b, hop, he, hs⟩
    · have hp0 : (k.cpus c).proc = some p := by rw [← he]; exact hp
      have hd : ¬ Dispatched k k' p := by rintro ⟨h1, -⟩; rw [hb.running c p hp0] at h1; cases h1
      obtain ⟨b, hpc, hby⟩ := hm.cpu c p hp0
      refine ⟨b, by rw [he]; exact hpc, ?_⟩
      rw [show (measure k op k' g).byHrrn p = _ from if_neg hd]
      exact hby
    · rw [hp] at he; cases he
    · rw [show k'.cpus c = _ from he] at hp
      cases hp
      refine ⟨b, by rw [he], fun hby => ?_⟩
      rw [show (measure k op k' g).byHrrn p = hrrnRound k' op from if_pos ⟨hs, hrun⟩, hop] at hby
      simp only [hrrnRound, he, decide_eq_true_eq, SchedPc.swtch.injEq] at hby
      exact hby
  · have hfit := hm.fits p
    rcases exec_burst hb h p with hq | ⟨c, hc, hl⟩ | ⟨c, b, hop, hc, hs, hs', hrst, -⟩ | hu | ⟨hu, hr, -⟩ |
      ⟨hs, hl, hv⟩
    · by_cases hu : (k'.proc p).state = .unused
      · exact hfit.unused hu
      · exact hfit.quiet hq hu
    · obtain ⟨b, hpc, hby⟩ := hm.cpu c p hc
      rw [htick] at hl; exact hfit.leaves hl fun h => by rw [hpc, hby h]
    · rw [htick] at hrst
      refine .dispatched (fun h => ?_) hs hs' hrst
      rw [hop] at h
      simp only [hrrnRound, hc, decide_eq_true_eq, SchedPc.swtch.injEq] at h
      exact h
    · exact hfit.unused hu
    · exact hfit.created hu hr
    · exact hfit.leftForkret hs hl (by rw [hv, hm.ticks])

theorem Measured.run {x : Kernel × Times} {h : List ((Kernel × Times) × Op)}
    (hr : Run burstSys h x) : Measured x := by
  have key : Base x.1 ∧ Measured x := by
    refine hr.inv (I := fun x => Base x.1 ∧ Measured x) (fun x h0 => ?_) fun x op y hx hs => ?_
    · obtain ⟨k, g⟩ := x
      obtain ⟨h1, rfl⟩ := h0
      rw [show k = boot from sys_init h1]
      have hst : ∀ p, (boot.proc p).state ≠ .running := by
        intro p
        by_cases hp : p = 0
        · subst hp; simp [boot, Proc.wake]
        · rw [show boot.proc p = {} from Function.update_of_ne hp _ _]; simp
      refine ⟨Base.boot, rfl, (fun c p hp => by cases hp), fun p => ?_⟩
      exact ⟨le_rfl, fun _ => rfl, fun h => absurd h (hst p),
        fun h => absurd h (hst p), (fun _ h => by cases h), fun _ h => by cases h⟩
    · obtain ⟨k, g⟩ := x
      obtain ⟨k', g'⟩ := y
      obtain ⟨h1, h2⟩ := hs
      have hg : g' = measure k op k' g := h2
      subst hg; exact ⟨hx.1.exec h1, hx.2.step hx.1 h1⟩
  exact key.2

end Xv6.Sched.Bursts
