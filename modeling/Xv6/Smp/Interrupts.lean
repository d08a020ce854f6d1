import Mathlib.Algebra.BigOperators.Group.List.Basic
import Mathlib.Algebra.Order.Ring.Nat
import Mathlib.Data.Fintype.Sum
import Mathlib.Tactic.Common
import Xv6.Lib.Runs

/-!
# The interrupt state of a CPU

`push_off` and `pop_off` of `spinlock.c`, under the threads that run them.  A CPU runs its scheduler or a process;
`sched` and `scheduler` change from the one to the other with `swtch`, and the next CPU of a process may be
another one.  An interrupt that comes while they are enabled puts a handler on top of the thread.

A lock is not more here than its `push_off` and `pop_off`: to wait for it only delays a thread.  `myproc` and
`uartputc_sync` call the two directly.  That a process is on one CPU at a time is the work of `p->lock`, and a
condition of `swtch` here.
-/

namespace Xv6.Smp.Interrupts

open Function Lib.Runs Sum

/-! ## spinlock.c -/

/-- `intr` is the SIE bit, the others are fields of `struct cpu`.  `noff` is an `int`, but a CPU holds a lock only
once, and there are not 2³¹ of them. -/
structure Cpu where
  intr : Bool
  noff : ℕ
  intena : Bool

/-- The panics of `pop_off`. -/
inductive Panic
  | interruptible
  | popOff

/-- `push_off` after `old = intr_get()`.  From `intr_off()` on no interrupt can come between its steps. -/
def pushOff (old : Bool) (k : Cpu) : Cpu :=
  { intr := false, noff := k.noff + 1, intena := if k.noff = 0 then old else k.intena }

def popOff (k : Cpu) : Except Panic Cpu :=
  if k.intr then .error .interruptible
  else if k.noff < 1 then .error .popOff
  else .ok { k with noff := k.noff - 1, intr := k.noff - 1 = 0 && k.intena }

/-! ## The threads -/

/-- Where a piece of code is: in `acquire` before `intr_get()`, in `push_off` after it, in `sched` after `swtch`
with `intena` on its stack, or elsewhere. -/
inductive Pc
  | run
  | acquire
  | push (old : Bool)
  | sched (intena : Bool)
deriving DecidableEq

/-- A system call or a handler.  `depth` counts its calls of `push_off` without their `pop_off`, and `was` is the
interrupt flag before its outermost `acquire`. -/
structure Frame where
  pc : Pc
  depth : ℕ
  was : Option Bool
deriving DecidableEq

/-- `below` has the code that was interrupted, the latest first. -/
structure Thread where
  top : Frame
  below : List Frame

def Thread.depth (t : Thread) : ℕ := ((t.top :: t.below).map Frame.depth).sum

/-- What a thread does without leaving its CPU. -/
inductive Instr
  | acquire
  | intrGet
  | pushOff
  | release
  | intrSet (b : Bool)
  | trap
  | sret
  | intena

/-- `intr_on`, `intr_off` and the way to user code and back are `intrSet`: there no lock is held.  A handler
starts with interrupts off, and `sret` enables them as they were.  `release` is not done if `pop_off` panics. -/
def exec : Instr → Cpu → Thread → Option (Cpu × Thread)
  | .acquire, k, ⟨⟨.run, d, was⟩, fs⟩ => some (k, ⟨⟨.acquire, d, if d = 0 then some k.intr else was⟩, fs⟩)
  | .intrGet, k, ⟨⟨.acquire, d, was⟩, fs⟩ => some (k, ⟨⟨.push k.intr, d, was⟩, fs⟩)
  | .pushOff, k, ⟨⟨.push old, d, was⟩, fs⟩ => some (pushOff old k, ⟨⟨.run, d + 1, was⟩, fs⟩)
  | .release, k, ⟨⟨.run, d + 1, was⟩, fs⟩ => (popOff k).toOption.map fun k => (k, ⟨⟨.run, d, was⟩, fs⟩)
  | .intrSet b, k, ⟨⟨.run, 0, was⟩, fs⟩ => some ({ k with intr := b }, ⟨⟨.run, 0, was⟩, fs⟩)
  | .trap, k, ⟨f, fs⟩ => if k.intr then some ({ k with intr := false }, ⟨⟨.run, 0, none⟩, f :: fs⟩) else none
  | .sret, k, ⟨⟨.run, 0, _⟩, f :: fs⟩ => some ({ k with intr := true }, ⟨f, fs⟩)
  | .intena, k, ⟨⟨.sched i, d, was⟩, fs⟩ => some ({ k with intena := i }, ⟨⟨.run, d, was⟩, fs⟩)
  | _, _, _ => none

variable {C P : Type} [Fintype C] [DecidableEq C] [DecidableEq P]

/-- `cur c` is the thread that CPU `c` runs, its own scheduler or a process. -/
structure St (C P : Type) where
  cpu : C → Cpu
  cur : C → C ⊕ P
  thread : C ⊕ P → Thread

inductive Act (P : Type)
  | instr (i : Instr)
  | sched
  | swtch (p : P)
  | allocproc (p : P)

/-- A new process starts in `forkret`, with the `p->lock` that the scheduler took. -/
def forkret : Thread := ⟨⟨.run, 1, none⟩, []⟩

def St.idle (s : St C P) (p : P) : Bool := ∀ c, s.cur c ≠ inr p

/-- `sched` goes to the scheduler of its CPU if it does not panic; `swtch p` is the scheduler's, which holds only
`p->lock` there, under each of the policies. -/
def step (s : St C P) : C × Act P → Option (St C P)
  | (c, .instr i) => (exec i (s.cpu c) (s.thread (s.cur c))).map fun x =>
    { s with cpu := update s.cpu c x.1, thread := update s.thread (s.cur c) x.2 }
  | (c, .sched) =>
    if (s.cur c).isRight ∧ (s.thread (s.cur c)).top.pc = .run ∧ (s.cpu c).noff = 1 ∧ (s.cpu c).intr = false then
      some { s with
        cur := update s.cur c (inl c)
        thread := update s.thread (s.cur c)
          { s.thread (s.cur c) with top := { (s.thread (s.cur c)).top with pc := .sched (s.cpu c).intena } } }
    else none
  | (c, .swtch p) =>
    if (s.cur c).isLeft ∧ (s.thread (s.cur c)).top.pc = .run ∧ (s.thread (s.cur c)).depth = 1 ∧ s.idle p then
      some { s with cur := update s.cur c (inr p) }
    else none
  | (_, .allocproc p) => if s.idle p then some { s with thread := update s.thread (inr p) forkret } else none

/-- Every CPU is in `main` or at the start of `scheduler`. -/
def sys : Sys (St C P) (C × Act P) where
  init s := (∀ c, s.cur c = inl c ∧ (s.cpu c).noff = 0 ∧ s.thread (inl c) = ⟨⟨.run, 0, none⟩, []⟩) ∧
    ∀ p, s.thread (inr p) = forkret
  step s a s' := step s a = some s'

/-! ## The invariant -/

/-- The flag before an outermost `acquire` that has not called `intr_off()` is still the CPU's. -/
def Frame.Ready (intr : Bool) (f : Frame) : Prop :=
  match f.pc with
  | .acquire => f.was = some intr
  | .push old => old = intr ∧ f.was = some intr
  | _ => True

/-- `intena` of the CPU as the code finds it when it goes on. -/
def Pc.intena (k : Cpu) : Pc → Bool
  | .sched i => i
  | _ => k.intena

/-- What is interrupted has called no `push_off`. -/
def Thread.Below (t : Thread) : Prop := ∀ f ∈ t.below, f.depth = 0 ∧ f.Ready true

/-- A thread and the CPU it runs on.  Only a process, `own`, finds its `intena` again. -/
structure Fits (own : Prop) (k : Cpu) (t : Thread) : Prop where
  noff : k.noff = t.top.depth
  off : 0 < k.noff → k.intr = false
  ready : t.top.depth = 0 → t.top.Ready k.intr
  kept : own → 0 < t.top.depth → ∀ b, t.top.was = some b → t.top.pc.intena k = b
  below : t.Below

/-- A thread that does not run. -/
structure Parked (own : Prop) (t : Thread) : Prop where
  depth : t.top.depth = 1
  kept : own → ∀ b, t.top.was = some b → t.top.pc = .sched b
  below : t.Below

theorem Thread.Below.depth {t : Thread} (h : t.Below) : t.depth = t.top.depth := by
  have h0 : (t.below.map Frame.depth).sum = 0 := by
    refine List.sum_eq_zero fun d hd => ?_
    obtain ⟨f, hf, rfl⟩ := List.mem_map.mp hd; exact (h f hf).1
  rw [Thread.depth, List.map_cons, List.sum_cons, h0, Nat.add_zero]

variable {own : Prop} {k k' : Cpu} {t t' : Thread} {s : St C P}

theorem popOff_of_fits (h : Fits own k t) (hd : 0 < t.top.depth) :
    popOff k = .ok { k with noff := k.noff - 1, intr := k.noff - 1 = 0 && k.intena } := by
  have hn : 0 < k.noff := h.noff ▸ hd
  rw [popOff, h.off hn, if_neg (by simp), if_neg (by omega)]

/-- **A step of a thread on its CPU.** -/
theorem Fits.exec {i : Instr} (h : Fits own k t) : ∀ x ∈ exec i k t, Fits own x.1 x.2 := by
  obtain ⟨hn, hoff, hready, hkept, hb⟩ := id h
  fun_cases Interrupts.exec i k t with
  | case1 k d was fs =>
    rintro _ ⟨⟩
    refine ⟨hn, hoff, fun hd => ?_, fun ho hd b hw => ?_, hb⟩
    · exact if_pos hd
    · exact hkept ho hd b ((if_neg hd.ne').symm.trans hw)
  | case2 k d was fs =>
    rintro _ ⟨⟩; exact ⟨hn, hoff, fun hd => ⟨rfl, hready hd⟩, hkept, hb⟩
  | case3 k old d was fs =>
    rintro _ ⟨⟩
    refine ⟨congrArg (· + 1) hn, fun _ => rfl, fun hd => absurd hd d.succ_ne_zero, fun ho _ b hw => ?_, hb⟩
    change (if k.noff = 0 then old else k.intena) = b
    split_ifs with h0
    · obtain ⟨ho, hwas⟩ := hready (hn.symm.trans h0)
      rw [ho]; exact Option.some.inj (hwas.symm.trans hw)
    · exact hkept ho (hn ▸ Nat.pos_of_ne_zero h0) b hw
  | case4 k d was fs =>
    rw [popOff_of_fits h d.succ_pos]
    rintro _ ⟨⟩
    refine ⟨congrArg (· - 1) hn, fun h0 => ?_, fun _ => trivial, fun ho hd b hw => ?_, hb⟩
    · simp [h0.ne']
    · exact hkept ho d.succ_pos b hw
  | case5 k b was fs =>
    rintro _ ⟨⟩
    exact ⟨hn, fun h0 => absurd hn h0.ne', fun _ => trivial, fun _ hd => absurd hd (Nat.lt_irrefl 0), hb⟩
  | case6 k f fs hi =>
    rintro _ ⟨⟩
    have h0 : f.depth = 0 := by
      by_contra h0
      exact Bool.noConfusion (hi.symm.trans (hoff (hn ▸ Nat.pos_of_ne_zero h0)))
    refine ⟨hn.trans h0, fun _ => rfl, fun _ => trivial, fun _ hd => absurd hd (Nat.lt_irrefl 0), ?_⟩
    exact List.forall_mem_cons.mpr ⟨⟨h0, hi ▸ hready h0⟩, hb⟩
  | case8 k was f fs =>
    rintro _ ⟨⟩
    obtain ⟨⟨h0, hr⟩, hb⟩ := List.forall_mem_cons.mp hb
    exact ⟨hn.trans h0.symm, fun h => absurd hn h.ne', fun _ => hr, fun _ hd => absurd h0 hd.ne', hb⟩
  | case9 k i d was fs =>
    rintro _ ⟨⟩; exact ⟨hn, hoff, fun _ => trivial, hkept, hb⟩
  | _ => exact nofun

/-- **The invariant**: a CPU runs its own scheduler or a process that runs nowhere else. -/
structure Inv (s : St C P) : Prop where
  inj : Injective s.cur
  home : ∀ c c', s.cur c = inl c' → c = c'
  fits : ∀ c, Fits (s.cur c).isRight (s.cpu c) (s.thread (s.cur c))
  parked : ∀ x ∉ Set.range s.cur, Parked x.isRight (s.thread x)

theorem parked_forkret : Parked own forkret := ⟨rfl, nofun, nofun⟩

theorem inv_init (h : sys.init s) : Inv s := by
  obtain ⟨hc, hp⟩ := h
  have hcur : s.cur = inl := funext fun c => (hc c).1
  refine ⟨hcur ▸ inl_injective, fun c c' h => inl_injective (hcur ▸ h), fun c => ?_, ?_⟩
  · obtain ⟨h1, h2, h3⟩ := hc c
    rw [h1, h3]
    exact ⟨h2, fun h0 => absurd h2 h0.ne', fun _ => trivial, nofun, nofun⟩
  · rintro (c | p) hx
    · exact absurd ⟨c, (hc c).1⟩ hx
    · exact hp p ▸ parked_forkret

theorem Parked.fits (h : Parked own t) (hn : k.noff = 1) (hi : k.intr = false) : Fits own k t := by
  refine ⟨hn.trans h.depth.symm, fun _ => hi, fun h0 => ?_, fun ho _ b hw => ?_, h.below⟩
  · exact absurd (h0.symm.trans h.depth) Nat.zero_ne_one
  · rw [h.kept ho b hw]; rfl

variable {s' : St C P} {c : C}

omit [Fintype C] in
/-- CPU `c` leaves its thread as `t` and goes to `x`, which does not run. -/
theorem Inv.swtch (h : Inv s) {x : C ⊕ P} (hx : x ∉ Set.range s.cur) (hc : ∀ c', x = inl c' → c = c')
    (ht : Parked (s.cur c).isRight t) (hn : (s.cpu c).noff = 1) (hi : (s.cpu c).intr = false) :
    Inv { s with cur := update s.cur c x, thread := update s.thread (s.cur c) t } := by
  have hne : ∀ c', s.cur c' ≠ x := fun c' he => hx ⟨c', he⟩
  refine ⟨fun a b hab => ?_, fun a b hab => ?_, fun a => ?_, fun y hy => ?_⟩
  · by_cases ha : a = c <;> by_cases hb : b = c
    · rw [ha, hb]
    · simp [ha, hb, (hne b).symm] at hab
    · simp [ha, hb, hne a] at hab
    · exact h.inj (by simpa [ha, hb] using hab)
  · by_cases ha : a = c
    · subst ha; exact hc b (by simpa using hab)
    · exact h.home a b (by simpa [ha] using hab)
  · by_cases ha : a = c
    · subst ha
      simp only [update_self, update_of_ne (hne a).symm]
      exact (h.parked x hx).fits hn hi
    · simp only [update_of_ne ha, update_of_ne (h.inj.ne ha)]; exact h.fits a
  · by_cases hyc : y = s.cur c
    · simpa [hyc] using ht
    · simp only [update_of_ne hyc]
      refine h.parked y fun ⟨a, ha⟩ => hy ⟨a, ?_⟩
      have hac : a ≠ c := fun hac => hyc (hac ▸ ha.symm)
      simpa [hac] using ha

theorem not_running {p : P} (h : s.idle p) : inr p ∉ Set.range s.cur := by
  rintro ⟨c, hc⟩; exact (of_decide_eq_true h) c hc

/-- **Every step keeps the invariant.** -/
theorem inv_step {a : C × Act P} (h : Inv s) (hs : step s a = some s') : Inv s' := by
  rcases a with ⟨c, i | _ | p | p⟩
  · obtain ⟨x, hx, rfl⟩ := Option.map_eq_some_iff.mp hs
    refine ⟨h.inj, h.home, fun a => ?_, fun y hy => ?_⟩
    · by_cases ha : a = c
      · subst ha; simpa using (h.fits a).exec x hx
      · simpa [ha, h.inj.ne ha] using h.fits a
    · have hyc : y ≠ s.cur c := fun hyc => hy ⟨c, hyc.symm⟩
      simpa [hyc] using h.parked y hy
  · obtain ⟨⟨hp, hpc, hn, hi⟩, ⟨⟩⟩ := Option.ite_none_right_eq_some.mp hs
    have hf := h.fits c
    refine h.swtch ?_ (fun c' hc' => inl_injective hc') ⟨hf.noff.symm.trans hn, fun ho b hw => ?_, hf.below⟩ hn hi
    · rintro ⟨c', hc'⟩; obtain rfl := h.home c' c hc'; simp [hc'] at hp
    · have hk := hf.kept ho (by rw [← hf.noff, hn]; exact Nat.one_pos) b hw
      rw [hpc] at hk; exact congrArg Pc.sched hk
  · obtain ⟨⟨hl, hpc, hd, hp⟩, ⟨⟩⟩ := Option.ite_none_right_eq_some.mp hs
    have hf := h.fits c
    rw [hf.below.depth] at hd
    have hn := hf.noff.trans hd
    have hr : ¬(s.cur c).isRight := by simp [hl]
    have := h.swtch (not_running hp) nofun ⟨hd, fun ho => absurd ho hr, hf.below⟩ hn (hf.off (hn ▸ Nat.one_pos))
    rwa [update_eq_self] at this
  · obtain ⟨hp, ⟨⟩⟩ := Option.ite_none_right_eq_some.mp hs
    refine ⟨h.inj, h.home, fun a => ?_, fun y hy => ?_⟩
    · have ha : s.cur a ≠ inr p := fun ha => not_running hp ⟨a, ha⟩
      simpa [ha] using h.fits a
    · by_cases hyp : y = inr p
      · subst hyp; simpa using parked_forkret
      · simpa [hyp] using h.parked y hy

theorem inv_of_reachable (hr : Reachable sys s) : Inv s :=
  hr.inv (fun _ => inv_init) fun _ _ _ => inv_step

/-- **Interrupts through locks and context switches**: they are off while a `push_off` is not undone, `noff`
counts these, `pop_off` does not panic, and the outermost one of a process enables them if they were enabled. -/
theorem interrupts_restored (hr : Reachable sys s) (c : C) :
    (0 < (s.cpu c).noff → (s.cpu c).intr = false) ∧
    (s.cpu c).noff = (s.thread (s.cur c)).depth ∧
    (0 < (s.thread (s.cur c)).depth → ∃ k, popOff (s.cpu c) = .ok k ∧
      ((s.cur c).isRight → (s.thread (s.cur c)).top.pc = .run → (s.thread (s.cur c)).depth = 1 →
        ∀ b, (s.thread (s.cur c)).top.was = some b → k.intr = b)) := by
  have hf := (inv_of_reachable hr).fits c
  rw [hf.below.depth]
  refine ⟨hf.off, hf.noff, fun hd => ⟨_, popOff_of_fits hf hd, fun hp hpc h1 b hw => ?_⟩⟩
  have hk := hf.kept hp hd b hw
  rw [hpc] at hk; simpa [hf.noff, h1, Pc.intena] using hk

/-- Two CPUs, of which the second has interrupts off, and one process. -/
def boot : St Bool Unit :=
  ⟨fun c => ⟨!c, 0, false⟩, inl, Sum.elim (fun _ => ⟨⟨.run, 0, none⟩, []⟩) fun _ => forkret⟩

def code (c : Bool) (l : List Instr) : List (Bool × Act Unit) := l.map fun i => (c, .instr i)

/-- The process is interrupted in `push_off`, and goes on with it on the other CPU. -/
def migration : List (Bool × Act Unit) :=
  code false [.acquire, .intrGet, .pushOff] ++ (false, .swtch ()) ::
    code false [.release, .acquire, .intrGet, .trap, .acquire, .intrGet, .pushOff] ++ (false, .sched) ::
    code true [.acquire, .intrGet, .pushOff] ++ (true, .swtch ()) ::
    code true [.intena, .release, .sret, .pushOff]

theorem interrupts_restored_migration : ∃ s : St Bool Unit, Reachable sys s ∧ s.cur true = inr () ∧
    (s.thread (s.cur true)).depth = 1 ∧ (s.thread (s.cur true)).top.was = some true ∧
    ∃ k, popOff (s.cpu true) = .ok k ∧ k.intr = true := by
  have h0 : sys.init boot := ⟨fun _ => ⟨rfl, rfl, rfl⟩, fun _ => rfl⟩
  obtain ⟨s, hrun, -, hs⟩ := exists_run (fun _ _ _ h => h) h0 migration (fun s => s.cur true = inr () ∧
    (s.thread (s.cur true)).depth = 1 ∧ (s.thread (s.cur true)).top = ⟨.run, 1, some true⟩) (by decide)
  obtain ⟨hc, hd, ht⟩ := of_decide_eq_true hs
  obtain ⟨-, -, h⟩ := interrupts_restored ⟨_, hrun⟩ true
  obtain ⟨k, hk, hi⟩ := h (by omega)
  refine ⟨s, ⟨_, hrun⟩, hc, hd, by rw [ht], k, hk, hi ?_ (by rw [ht]) hd true (by rw [ht])⟩
  rw [hc]; rfl

end Xv6.Smp.Interrupts
