import Mathlib.Logic.Relation
import Xv6.Sched.Step

/-!
# What the operations do

One specification for each operation, from which the invariants of the later modules are derived.

* `wakeup` and `reparent` change an entry only by waking it, `reparent` also by a new parent
  (`Woken`, `Reparented`).
* `allocproc`, `fork` and `exit` change the entries they name (`allocproc_cases`, `forkWith_cases`,
  `exit_eq`).
-/

namespace Xv6.Sched.Facts

open Lib.Runs Param Sched.Defs Sched.Queues Sched.Ops Sched.Step Option Function

variable {k k' : Kernel} {c : ℕ} {p : Slot}

/-! ## Fields -/

theorem modProc_proc (k : Kernel) (p : Slot) (f : Proc → Proc) (q : Slot) :
    (k.modProc p f).proc q = if q = p then f (k.proc p) else k.proc q := by
  unfold Kernel.modProc; simp only [update_apply]

@[simp] theorem modProc_proc_self (k : Kernel) (p : Slot) (f : Proc → Proc) :
    (k.modProc p f).proc p = f (k.proc p) := by
  rw [modProc_proc, if_pos rfl]

theorem modProc_proc_ne (k : Kernel) {p q : Slot} (h : q ≠ p) (f : Proc → Proc) :
    (k.modProc p f).proc q = k.proc q := by
  rw [modProc_proc, if_neg h]

@[simp] theorem modProc_mlfq (k : Kernel) (p : Slot) (f : Proc → Proc) : (k.modProc p f).mlfq = k.mlfq := rfl
@[simp] theorem modProc_policy (k : Kernel) (p : Slot) (f : Proc → Proc) :
    (k.modProc p f).currentPolicy = k.currentPolicy := rfl
@[simp] theorem modProc_ticks (k : Kernel) (p : Slot) (f : Proc → Proc) : (k.modProc p f).ticks = k.ticks := rfl

@[simp] theorem setCpu_proc (k : Kernel) (c : ℕ) (v : Cpu) : (k.setCpu c v).proc = k.proc := rfl

theorem setCpu_cpus (k : Kernel) (c : ℕ) (v : Cpu) (c' : ℕ) :
    (k.setCpu c v).cpus c' = if c' = c then v else k.cpus c' := by
  unfold Kernel.setCpu; simp only [update_apply]

theorem enqueueIfMlfq_eq (h : enqueueIfMlfq k p = some k') : ∃ q, k' = { k with mlfq := q } ∧
      (k.currentPolicy = .mlfq → enqueueToMlfq k.mlfq (k.proc p).queueLevel p = some q) ∧
      (k.currentPolicy ≠ .mlfq → q = k.mlfq) := by
  unfold enqueueIfMlfq enqueue at h
  split_ifs at h with hb
  · obtain ⟨q, hq, rfl⟩ := map_eq_some_iff.mp h
    exact ⟨q, rfl, fun _ => hq, fun hn => absurd hb hn⟩
  · cases h; exact ⟨k.mlfq, rfl, fun he => absurd he hb, fun _ => rfl⟩

theorem schedBack_proc (k : Kernel) (c : ℕ) (p q : Slot) :
    ∃ w, (schedBack k c p).proc q = { k.proc q with lastRuntime := w } := by
  unfold schedBack
  split
  · rw [setCpu_proc, modProc_proc]
    split_ifs with hq
    · subst hq
      unfold Proc.afterRun
      split_ifs
      · exact ⟨_, rfl⟩
      · exact ⟨_, rfl⟩
    · exact ⟨_, rfl⟩
  · exact ⟨_, rfl⟩

@[simp] theorem schedBack_mlfq (k : Kernel) (c : ℕ) (p : Slot) : (schedBack k c p).mlfq = k.mlfq := by
  unfold schedBack; split <;> rfl
@[simp] theorem schedBack_policy (k : Kernel) (c : ℕ) (p : Slot) :
    (schedBack k c p).currentPolicy = k.currentPolicy := by
  unfold schedBack; split <;> rfl
@[simp] theorem schedBack_ticks (k : Kernel) (c : ℕ) (p : Slot) : (schedBack k c p).ticks = k.ticks := by
  unfold schedBack; split <;> rfl

@[simp] theorem schedBack_cpus_self (k : Kernel) (c : ℕ) (p : Slot) : ((schedBack k c p).cpus c).proc = none := by
  unfold schedBack
  split
  · rw [setCpu_cpus, if_pos rfl]
  · rw [setCpu_cpus, if_pos rfl]

theorem schedBack_cpus_ne (k : Kernel) {c c' : ℕ} (p : Slot) (h : c' ≠ c) :
    (schedBack k c p).cpus c' = k.cpus c' := by
  unfold schedBack
  split
  · rw [setCpu_cpus, if_neg h]; rfl
  · rw [setCpu_cpus, if_neg h]

/-! ## Waking -/

structure Woken (k k' : Kernel) : Prop where
  policy : k'.currentPolicy = k.currentPolicy
  ticks : k'.ticks = k.ticks
  cpus : k'.cpus = k.cpus
  initproc : k'.initproc = k.initproc
  nextpid : k'.nextpid = k.nextpid
  proc : ∀ p, k'.proc p = k.proc p ∨ (k.proc p).state = .sleeping ∧ k'.proc p = (k.proc p).wake k.ticks

theorem Woken.refl (k : Kernel) : Woken k k := ⟨rfl, rfl, rfl, rfl, rfl, fun _ => .inl rfl⟩

theorem Woken.trans {k1 k2 k3 : Kernel} (h : Woken k1 k2) (h' : Woken k2 k3) : Woken k1 k3 := by
  refine ⟨h'.policy.trans h.policy, h'.ticks.trans h.ticks, h'.cpus.trans h.cpus,
    h'.initproc.trans h.initproc, h'.nextpid.trans h.nextpid, fun p => ?_⟩
  rcases h.proc p with h1 | ⟨hs, h1⟩
  · rcases h'.proc p with h2 | ⟨hs', h2⟩
    · exact .inl (h2.trans h1)
    · rw [h1] at hs'; rw [h1, h.ticks] at h2; exact .inr ⟨hs', h2⟩
  · rcases h'.proc p with h2 | ⟨hs', -⟩
    · exact .inr ⟨hs, h2.trans h1⟩
    · -- a process that was woken is not asleep
      rw [h1] at hs'; cases hs'

theorem wakeupAt_woken {me : Option Slot} {chan : Chan} (h : wakeupAt me chan k p = some k') : Woken k k' := by
  unfold wakeupAt at h
  split_ifs at h with hme hs
  · obtain ⟨q, rfl, -⟩ := enqueueIfMlfq_eq h
    refine ⟨rfl, rfl, rfl, rfl, rfl, fun r => ?_⟩
    by_cases hr : r = p
    · subst hr; exact .inr ⟨hs.1, modProc_proc_self _ _ _⟩
    · exact .inl (modProc_proc_ne _ hr _)
  · cases h; exact Woken.refl k
  · cases h; exact Woken.refl k

theorem wakeup_woken {me : Option Slot} {chan : Chan} (h : wakeup me chan k = some k') : Woken k k' :=
  foldlM_rel Woken.refl Woken.trans (fun _ _ _ => wakeupAt_woken) slots h

structure Reparented (k k' : Kernel) : Prop where
  policy : k'.currentPolicy = k.currentPolicy
  ticks : k'.ticks = k.ticks
  cpus : k'.cpus = k.cpus
  initproc : k'.initproc = k.initproc
  nextpid : k'.nextpid = k.nextpid
  proc : ∀ p, ∃ pa, k'.proc p = { k.proc p with parent := pa } ∨
    (k.proc p).state = .sleeping ∧ k'.proc p = { (k.proc p).wake k.ticks with parent := pa }

theorem Reparented.trans {k1 k2 k3 : Kernel} (h : Reparented k1 k2) (h' : Reparented k2 k3) : Reparented k1 k3 := by
  refine ⟨h'.policy.trans h.policy, h'.ticks.trans h.ticks, h'.cpus.trans h.cpus,
    h'.initproc.trans h.initproc, h'.nextpid.trans h.nextpid, fun p => ?_⟩
  obtain ⟨pa, h1 | ⟨hs, h1⟩⟩ := h.proc p
  · obtain ⟨pa', h2 | ⟨hs', h2⟩⟩ := h'.proc p
    · exact ⟨pa', .inl (by rw [h2, h1])⟩
    · rw [h1] at hs'; exact ⟨pa', .inr ⟨hs', by rw [h2, h1, h.ticks]; rfl⟩⟩
  · obtain ⟨pa', h2 | ⟨hs', -⟩⟩ := h'.proc p
    · exact ⟨pa', .inr ⟨hs, by rw [h2, h1]⟩⟩
    · rw [h1] at hs'; cases hs'

theorem Woken.reparented (h : Woken k k') : Reparented k k' := by
  refine ⟨h.policy, h.ticks, h.cpus, h.initproc, h.nextpid, fun p => ⟨(k.proc p).parent, ?_⟩⟩
  rcases h.proc p with h1 | ⟨hs, h1⟩
  · exact .inl h1
  · exact .inr ⟨hs, h1⟩

theorem Reparented.running (h : Reparented k k') {q : Slot} (hq : (k.proc q).state = .running) :
    (k'.proc q).state = .running := by
  obtain ⟨pa, h1 | ⟨hs, -⟩⟩ := h.proc q
  · rw [h1]; exact hq
  · rw [hq] at hs; cases hs

theorem reparentAt_reparented {q : Slot} (h : reparentAt p k q = some k') : Reparented k k' := by
  unfold reparentAt at h
  split_ifs at h with hp
  · have hset : Reparented k (k.modProc q fun v => { v with parent := k.initproc }) := by
      refine ⟨rfl, rfl, rfl, rfl, rfl, fun r => ?_⟩
      by_cases hr : r = q
      · subst hr; exact ⟨k.initproc, .inl (modProc_proc_self _ _ _)⟩
      · exact ⟨(k.proc r).parent, .inl (modProc_proc_ne _ hr _)⟩
    exact hset.trans (wakeup_woken h).reparented
  · cases h; exact (Woken.refl k).reparented

theorem reparent_reparented (h : reparent p k = some k') : Reparented k k' :=
  foldlM_rel (fun k => (Woken.refl k).reparented) Reparented.trans
    (fun _ _ _ => reparentAt_reparented) slots h

theorem exit_eq {status : Word} (h : exit k c p status = some k') : k.initproc ≠ some p ∧ ∃ k1, Reparented k k1 ∧
      k' = schedBack (k1.modProc p (Proc.exitStart status)) c p := by
  unfold exit at h
  split_ifs at h with hi
  obtain ⟨k1, h1, h⟩ := bind_eq_some_iff.mp h
  obtain ⟨k2, h2, h⟩ := bind_eq_some_iff.mp h
  cases h
  exact ⟨hi, k2, (reparent_reparented h1).trans (wakeup_woken h2).reparented, rfl⟩

theorem modProc_modProc (k : Kernel) (p : Slot) (f g : Proc → Proc) :
    (k.modProc p f).modProc p g = k.modProc p (g ∘ f) := by
  unfold Kernel.modProc; simp

def child (start : Word → Proc → Proc) (k : Kernel) (p np : Slot) : Proc :=
  start k.ticks { ((k.proc np).allocFound k.nextpid).allocInit k.ticks with parent := some p }

theorem allocproc_cases {a : Alloc} {r : Option Slot} (h : allocproc k a = (r, k')) : (r = none ∧ k' = k) ∨
    (∃ np w, (k.proc np).state = .unused ∧ r = none ∧ (w = k.proc np ∨ w = (k.proc np).allocInit k.ticks) ∧
      k' = { k with nextpid := k.nextpid + 1 }.modProc np fun _ => w.freeproc) ∨
    ∃ np, (k.proc np).state = .unused ∧ r = some np ∧
      k' = { k with nextpid := k.nextpid + 1 }.modProc np fun v =>
        (v.allocFound k.nextpid).allocInit k.ticks := by
  unfold allocproc at h
  split at h
  · cases h; exact .inl ⟨rfl, rfl⟩
  · next np hnp =>
    have hun : (k.proc np).state = .unused := by simpa using List.find?_some hnp
    simp only [modProc_modProc] at h
    split_ifs at h
    · cases h; exact .inr (.inl ⟨np, k.proc np, hun, rfl, .inl rfl, rfl⟩)
    · cases h; exact .inr (.inl ⟨np, k.proc np, hun, rfl, .inl rfl, rfl⟩)
    · cases h; exact .inr (.inr ⟨np, hun, rfl, rfl⟩)

/-- **What a fork does**: nothing, or it gives the slot it took back, or it makes a child in an unused
slot and enqueues it under MLFQ. -/
theorem forkWith_cases {start : Word → Proc → Proc} {a : Alloc} {r : Word}
    (h : forkWith start k p a = some (r, k')) : (r = -1 ∧ k' = k) ∨
    (∃ np w, (k.proc np).state = .unused ∧ r = -1 ∧ (w = k.proc np ∨ w = (k.proc np).allocInit k.ticks) ∧
      k' = { k with nextpid := k.nextpid + 1 }.modProc np fun _ => w.freeproc) ∨
    ∃ np q, (k.proc np).state = .unused ∧ r = k.nextpid ∧
      k' = { k with nextpid := k.nextpid + 1, mlfq := q }.modProc np (fun _ => child start k p np) ∧
      (k.currentPolicy = .mlfq → enqueueToMlfq k.mlfq (child start k p np).queueLevel np = some q) ∧
      (k.currentPolicy ≠ .mlfq → q = k.mlfq) := by
  unfold forkWith at h
  split at h
  · next k1 hk1 =>
    cases h
    rcases allocproc_cases hk1 with ⟨-, rfl⟩ | ⟨np, w, hun, -, hw, rfl⟩ | ⟨np, -, hr, -⟩
    · exact .inl ⟨rfl, rfl⟩
    · exact .inr (.inl ⟨np, w, hun, rfl, hw, rfl⟩)
    · cases hr
  · next np k1 hk1 =>
    rcases allocproc_cases hk1 with ⟨hr, -⟩ | ⟨_, _, _, hr, -⟩ | ⟨np', hun, hr, rfl⟩
    · cases hr
    · cases hr
    · cases hr
      split_ifs at h
      · cases h
        refine .inr (.inl ⟨np, _, hun, rfl, .inr rfl, ?_⟩)
        rw [modProc_modProc]; rfl
      · obtain ⟨k2, h2, he⟩ := map_eq_some_iff.mp h
        cases he
        obtain ⟨q, rfl, hq1, hq2⟩ := enqueueIfMlfq_eq h2
        refine .inr (.inr ⟨np, q, hun, ?_, ?_, ?_, ?_⟩)
        · simp [Proc.allocFound, Proc.allocInit]
        · simp only [modProc_modProc]; rfl
        · intro hb; simpa [child] using hq1 hb
        · intro hb; exact hq2 hb

theorem forkWith_eq (start : Word → Proc → Proc) (k : Kernel) (p : Slot) (a : Alloc) : forkWith start k p a =
      match slots.find? fun q => (k.proc q).state = .unused with
      | none => some (-1, k)
      | some np =>
        if a.trapframe && a.pagetable then
          if a.uvmcopy then
            (enqueueIfMlfq ({ k with nextpid := k.nextpid + 1 }.modProc np fun v => start k.ticks
              { (v.allocFound k.nextpid).allocInit k.ticks with parent := some p }) np).map
                fun k' => (k.nextpid, k')
          else some (-1, { k with nextpid := k.nextpid + 1 }.modProc np fun v =>
            ((v.allocFound k.nextpid).allocInit k.ticks).freeproc)
        else some (-1, { k with nextpid := k.nextpid + 1 }.modProc np fun v =>
          (v.allocFound k.nextpid).freeproc) := by
  unfold forkWith allocproc
  cases slots.find? fun q => (k.proc q).state = .unused with
  | none => rfl
  | some np =>
    obtain ⟨tf, pt, um⟩ := a
    cases tf <;> cases pt <;> cases um <;> simp [modProc_modProc, comp_def, Proc.allocFound, Proc.allocInit]

end Xv6.Sched.Facts
