import Xv6.Smp.Control

/-!
# The invariant of the kernel on several CPUs

Its core is the hand-over of `p->lock`: a CPU holds exactly the locks that the point of the thread
it runs says, a process that no CPU runs is inside `swtch`, and a CPU has `c->proc = p` without
`p->state = RUNNING` only while it holds `p->lock`.
-/

namespace Xv6.Smp.Invariant

open Param Sched.Defs Lib.Runs Smp.Defs Smp.Control List Function

/-- The locks that the point of the thread of CPU `c` says are held. -/
def heldBy (s : State) (c : ℕ) : List Lock := holds (s.cur c) (s.th (s.cur c)).pc

structure Inv (s : State) : Prop where
  cproc : ∀ c, s.cproc c = loaded (s.th (.cpu c)).base
  cur : ∀ c, s.cur c = .cpu c ∨ ∃ p b, s.cur c = .proc p ∧ s.th (.cpu c) = ⟨.swtched b p, none⟩
  uniq : ∀ c c' p, s.cproc c = some p → s.cproc c' = some p → c = c'
  base : ∀ t, isIntr (s.th t).base = false
  intr : ∀ t pc, (s.th t).intr = some pc → isIntr pc = true ∧ holds t (s.th t).base = []
  held : ∀ c L, s.lock L = some c ↔ L ∈ heldBy s c
  nodup : ∀ c, (heldBy s c).Nodup
  running : ∀ p, (s.proc p).state = .running → ∃ c, s.cproc c = some p
  active : ∀ c p, s.cur c = .proc p → (s.proc p).state = want (s.th (.proc p)).pc
  swtch : ∀ c b p, (s.th (.cpu c)).base = .swtch b p → (s.proc p).state = .running
  swtched : ∀ c b p, s.cur c = .cpu c → (s.th (.cpu c)).base = .swtched b p → (s.proc p).state ≠ .running
  chosen : ∀ c p, chosen (s.th (.cpu c)).base = some p → (s.proc p).state = .runnable
  parked : ∀ p, (∀ c, s.cur c ≠ .proc p) → parks (s.th (.proc p)).pc = true
  dead : ∀ p, (s.th (.proc p)).pc = .exitDead → (s.proc p).state = .zombie ∨ (s.proc p).state = .unused
  fork : ∀ t np, child (s.th t).base = some np →
    (s.proc np).state = .used ∧ s.th (.proc np) = ⟨.forkret, none⟩
  forkUniq : ∀ t t' np, child (s.th t).base = some np → child (s.th t').base = some np → t = t'

variable {s s' : State} {c c' : ℕ} {t : Tid} {p q : Slot} {a : Act} {n : Next} {L : Lock}

theorem inv_boot : Inv boot where
  cproc _ := rfl
  cur _ := .inl rfl
  uniq _ _ _ h _ := by cases h
  base t := by cases t <;> rfl
  intr t _ h := by cases t <;> cases h
  held c L := by simp [boot, heldBy, holds, Thread.pc]
  nodup c := by simp [boot, heldBy, holds, Thread.pc]
  running p h := by
    by_cases hp : p = initproc
    · subst hp; simp [boot] at h
    · simp [boot, hp] at h
  active _ _ h := by cases h
  swtch _ _ _ h := by cases h
  swtched _ _ _ _ h := by cases h
  chosen _ _ h := by cases h
  parked _ _ := rfl
  dead _ h := by cases h
  fork t _ h := by cases t <;> cases h
  forkUniq t _ _ h _ := by cases t <;> cases h

namespace Inv

theorem mutex (h : Inv s) (hc : L ∈ heldBy s c) (hc' : L ∈ heldBy s c') : c = c' := by
  rw [← h.held] at hc hc'; exact Option.some.inj (hc.symm.trans hc')

theorem cproc_of_cur (h : Inv s) (hc : s.cur c = .proc p) : s.cproc c = some p := by
  rcases h.cur c with hc' | ⟨p', b, hc', hb⟩
  · rw [hc'] at hc; cases hc
  · rw [hc'] at hc; cases hc; rw [h.cproc, hb]; rfl

theorem cur_inj (h : Inv s) (hcc : s.cur c = s.cur c') : c = c' := by
  rcases h.cur c with hc | ⟨p, b, hc, -⟩
  · rcases h.cur c' with hc' | ⟨p', b', hc', -⟩
    · rw [hc, hc'] at hcc; cases hcc; rfl
    · rw [hc, hc'] at hcc; cases hcc
  · exact h.uniq c c' p (h.cproc_of_cur hc) (h.cproc_of_cur (hcc ▸ hc))

theorem intr_none (h : Inv s) (hb : holds t (s.th t).base ≠ []) : (s.th t).intr = none := by
  cases hi : (s.th t).intr with
  | none => rfl
  | some pc => exact absurd (h.intr t pc hi).2 hb

theorem pc_of_none (hi : (s.th t).intr = none) : (s.th t).pc = (s.th t).base := by
  simp [Thread.pc, hi]

section
variable (h : Inv s)
include h

theorem base_of_not_isIntr (hp : isIntr (s.th t).pc = false) : (s.th t).intr = none := by
  cases hi : (s.th t).intr with
  | none => rfl
  | some pc =>
    rw [Thread.pc, hi, Option.getD_some, (h.intr t pc hi).1] at hp; cases hp

theorem base_eq {pc : Pc} (hpc : (s.th t).pc = pc) (hp : isIntr pc = false) : (s.th t).base = pc := by
  rw [← hpc, pc_of_none (h.base_of_not_isIntr (by rw [hpc]; exact hp))]

theorem holds_under (t : Tid) : holds t (under (s.th t)) = [] := by
  cases hi : (s.th t).intr with
  | none => simp [under, hi, holds]
  | some pc =>
    have hb := (h.intr t pc hi).2; simpa only [under, hi] using hb

theorem held_of_loaded (hc : s.cur c = .cpu c) (hq : s.cproc c = some q) : .proc q ∈ heldBy s c := by
  rw [h.cproc] at hq
  have hb := holds_loaded (t := .cpu c) hq
  have hi := h.intr_none (by rw [hb]; exact cons_ne_nil _ _)
  rw [heldBy, hc, pc_of_none hi, hb]; exact mem_singleton_self _

/-- **The hand-over of `p->lock`.**  A CPU that has a process which is not `RUNNING` holds the lock
of the process. -/
theorem held_of_not_running (hq : s.cproc c = some q)
    (hst : (s.proc q).state ≠ .running) : .proc q ∈ heldBy s c := by
  rcases h.cur c with hc | ⟨p, b, hc, -⟩
  · exact h.held_of_loaded hc hq
  · have hp := h.cproc_of_cur hc
    rw [hq] at hp
    cases hp
    rw [h.active c q hc] at hst
    rw [heldBy, hc]; exact holds_leaving hst

/-- If CPU `c` holds the lock of a process that is not `RUNNING`,
no other CPU has the process. -/
theorem alone (hL : .proc q ∈ heldBy s c) (hst : (s.proc q).state ≠ .running) (hq : s.cproc c' = some q) : c' = c :=
  h.mutex (h.held_of_not_running hq hst) hL

theorem held_of_chosen (hq : Control.chosen (s.th (.cpu c)).base = some q) : .proc q ∈ heldBy s c := by
  have hm := holds_chosen (t := .cpu c) hq
  have hi := h.intr_none (ne_nil_of_mem hm)
  rcases h.cur c with hc | ⟨p, b, -, hb⟩
  · rw [heldBy, hc, pc_of_none hi]; exact hm
  · rw [hb] at hq; cases hq

theorem state_of_cur (hc : s.cur c = .proc p) : (s.proc p).state ≠ .unused ∧ (s.proc p).state ≠ .used := by
  rw [h.active c p hc]
  cases (s.th (.proc p)).pc <;> simp [want]

theorem cur_cpu_eq (hc : s.cur c = .cpu c') : c' = c := by
  rcases h.cur c with hc' | ⟨p, b, hc', -⟩
  · rw [hc'] at hc; cases hc; rfl
  · rw [hc'] at hc; cases hc

theorem not_cur_of_swtch {b : SchedPolicy} (hb : (s.th (.cpu c)).base = .swtch b p) : ∀ c', s.cur c' ≠ .proc p := by
  intro c' hc'
  have hp : s.cproc c = some p := by rw [h.cproc, hb]; rfl
  have hcc := h.uniq c c' p hp (h.cproc_of_cur hc')
  subst hcc
  rcases h.cur c with hc | ⟨p', b', -, hb'⟩
  · rw [hc] at hc'; cases hc'
  · rw [hb'] at hb; cases hb

theorem swtchTo_facts (hi : Exec s c (.swtchTo p) n) : ∃ b, s.cur c = .cpu c ∧
    s.th (.cpu c) = ⟨.swtch b p, none⟩ ∧ n = .goto (.swtched b p) := by
  obtain ⟨c0, b, hc, hpc, hn⟩ := swtchTo_instr hi
  obtain rfl := h.cur_cpu_eq hc
  rw [hc] at hpc
  have hint : (s.th (.cpu c0)).intr = none := h.base_of_not_isIntr (by rw [hpc]; rfl)
  refine ⟨b, hc, ?_, hn⟩
  rw [← h.base_eq hpc rfl, ← hint]

end

end Inv

/-! ## What one instruction changes -/

inductive Shift (t : Tid) : Act → Slot → ProcState → ProcState → Prop
  | alloc {np : Slot} : Shift t (.store (.alloc np)) np .unused .used
  | free {np : Slot} : Shift t (.store (.free np)) np .used .unused
  | start {np : Slot} : Shift t (.store (.start np)) np .used .runnable
  | yield {p : Slot} : t = .proc p → Shift t (.store (.yield p)) p .running .runnable
  | sleep {p : Slot} {chan : Chan} : t = .proc p → Shift t (.store (.sleep p chan)) p .running .sleeping
  | zombie {p : Slot} {status : Word} : t = .proc p → Shift t (.store (.zombie p status)) p .running .zombie
  | wake {q : Slot} : Shift t (.store (.wake q)) q .sleeping .runnable
  | kill {q : Slot} : Shift t (.store (.kill q)) q .sleeping .runnable
  | reap {q : Slot} : Shift t (.store (.reap q)) q .zombie .unused
  | run {p : Slot} : Shift t (.store (.run p)) p .runnable .running

namespace Shift

variable {v v' : ProcState}

section
variable (h : Shift t a q v v')
include h

theorem of_running (hv : v = .running) : t = .proc q ∧ v' = wantAfter v a := by
  cases h <;> first | exact ⟨by assumption, rfl⟩ | cases hv

theorem to_running (hv : v' = .running) : a = .store (.run q) ∧ v = .runnable := by
  cases h <;> first | exact ⟨rfl, rfl⟩ | cases hv

theorem of_runnable (hv : v = .runnable) : a = .store (.run q) := by
  cases h <;> first | rfl | cases hv

theorem of_used (hv : v = .used) : a = .store (.free q) ∨ a = .store (.start q) := by
  cases h <;> first | exact .inl rfl | exact .inr rfl | cases hv

theorem to_zombie (hv : v' = .zombie) : ∃ status, a = .store (.zombie q status) := by
  cases h <;> first | exact ⟨_, rfl⟩ | cases hv

theorem to_unused (hv : v' = .unused) : a = .store (.free q) ∨ a = .store (.reap q) := by
  cases h <;> first | exact .inl rfl | exact .inr rfl | cases hv

theorem of_zombie (hv : v = .zombie) : a = .store (.reap q) ∧ v' = .unused := by
  cases h <;> first | exact ⟨rfl, rfl⟩ | cases hv

theorem of_dead (hv : v = .zombie ∨ v = .unused) : v' = .zombie ∨ v' = .unused ∨ a = .store (.alloc q) := by
  cases h <;> simp_all

end

end Shift

section Instruction

theorem base_setThread {th : Thread} (hb : th.base = (s.th t).base) (t' : Tid) :
    ((s.setThread t th).th t').base = (s.th t').base := by
  by_cases ht : t' = t
  · subst ht; rw [← hb]; exact congrArg Thread.base (update_self _ _ _)
  · exact congrArg Thread.base (update_of_ne ht _ _)

theorem after_th_of_ne (ht : t ≠ s.cur c) : (s.after c a n).th t = s.th t ∨
    ∃ np, a = .store (.alloc np) ∧ t = .proc np ∧ (s.after c a n).th t = ⟨.forkret, none⟩ := by
  have hs : (s.setThread (s.cur c) ((s.th (s.cur c)).next n)).th t = s.th t :=
    update_of_ne ht _ _
  cases a with
  | store e =>
    cases e with
    | alloc np =>
      by_cases htp : t = .proc np
      · subst htp; exact .inr ⟨np, rfl, rfl, update_self _ _ _⟩
      · exact .inl ((update_of_ne htp _ _).trans hs)
    | _ => exact .inl hs
  | _ => exact .inl hs

theorem after_th_self (h : Inv s) (hi : Exec s c a n) : (s.after c a n).th (s.cur c) = (s.th (s.cur c)).next n := by
  have hs : (s.setThread (s.cur c) ((s.th (s.cur c)).next n)).th (s.cur c) =
      (s.th (s.cur c)).next n := update_self _ _ _
  cases a with
  | store e =>
    cases e with
    | alloc np =>
      have hne : s.cur c ≠ .proc np := by intro hc; exact (h.state_of_cur hc).1 (guard_instr hi).2
      exact (update_of_ne hne _ _).trans hs
    | _ => exact hs
  | _ => exact hs

theorem after_th_cur_of_ne (h : Inv s) (hi : Exec s c a n) (hc : c' ≠ c) :
    (s.after c a n).th (s.cur c') = s.th (s.cur c') := by
  rcases after_th_of_ne (a := a) (n := n) (fun e => hc (h.cur_inj e)) with
    ht | ⟨np, rfl, hnp, -⟩
  · exact ht
  · exact absurd (guard_instr hi).2 (h.state_of_cur hnp).1

theorem after_th_cpu (hc : s.cur c ≠ .cpu c') : (s.after c a n).th (.cpu c') = s.th (.cpu c') := by
  rcases after_th_of_ne (Ne.symm hc) with ht | ⟨np, -, hnp, -⟩
  · exact ht
  · cases hnp

/-- Where the code below handlers is after an instruction: where it was, where the instruction
leads, or at the start of a new process. -/
theorem after_base (h : Inv s) (hi : Exec s c a n) (t : Tid) : ((s.after c a n).th t).base = (s.th t).base ∨
      (t = s.cur c ∧ (s.th t).intr = none ∧ ((s.after c a n).th t).base = n.pc .user) ∨
      ∃ np, a = .store (.alloc np) ∧ t = .proc np ∧ ((s.after c a n).th t).base = .forkret := by
  by_cases ht : t = s.cur c
  · subst ht
    rw [after_th_self h hi]
    cases hint : (s.th (s.cur c)).intr with
    | none => exact .inr (.inl ⟨rfl, rfl, base_next_of_none n hint⟩)
    | some pc => exact .inl (base_next_of_some n hint)
  · rcases after_th_of_ne ht with hth | ⟨np, ha, htp, hth⟩
    · exact .inl (by rw [hth])
    · exact .inr (.inr ⟨np, ha, htp, by rw [hth]⟩)

/-- A value that the start of a new process does not have was that of the point before, or the
instruction has led to it. -/
theorem value_after {β : Type*} {f : Pc → Option β} {x : β} (h : Inv s) (hi : Exec s c a n)
    (hf : f .forkret = none) (hx : f ((s.after c a n).th t).base = some x) :
    f (s.th t).base = some x ∨ t = s.cur c ∧ Instr t s (s.th t).base a n ∧ f (n.pc .user) = some x := by
  rcases after_base h hi t with hb | ⟨rfl, hint, hb⟩ | ⟨np, -, -, hb⟩
  · rw [hb] at hx; exact .inl hx
  · rw [hb] at hx
    rw [Exec, Inv.pc_of_none hint] at hi; exact .inr ⟨rfl, hi, hx⟩
  · rw [hb, hf] at hx; cases hx

theorem after_cur_of_ne (hc : c' ≠ c) : (s.after c a n).cur c' = s.cur c' := by
  cases a with
  | swtchTo p | swtchBack => exact update_of_ne hc _ _
  | _ => rfl

theorem after_cproc_of_ne (hc : c' ≠ c) : (s.after c a n).cproc c' = s.cproc c' := by
  cases a with
  | store e =>
    cases e with
    | run p | idle => exact update_of_ne hc _ _
    | _ => rfl
  | _ => rfl

theorem after_cproc_self : (s.after c a n).cproc c = loadedAfter (s.cproc c) a := by
  cases a with
  | store e =>
    cases e with
    | run p | idle => exact update_self _ _ _
    | _ => rfl
  | _ => rfl

theorem after_proc_of_quiet (ha : ∀ e, a ≠ .store e) : (s.after c a n).proc = s.proc := by
  cases a with
  | store e => exact absurd rfl (ha e)
  | _ => rfl

variable {e : Store} {v : Entry}

theorem after_proc_of_none (he : e.entry s = none) : (s.after c (.store e) n).proc = s.proc := by
  cases e <;> first | rfl | cases he

theorem after_proc (he : e.entry s = some (p, v)) : (s.after c (.store e) n).proc = update s.proc p v := by
  cases e <;> cases he <;> rfl

theorem running_of_store (h : Inv s) (hc : s.cur c = .proc p)
    (hi : Exec s c (.store e) n) : (s.proc p).state = .running := by
  rw [Exec, hc] at hi
  rw [h.active c p hc]
  rcases hi with hi | hi
  · cases hpc : (s.th (.proc p)).pc <;> rw [hpc] at hi <;> first | rfl | cases hi
  · cases hpc : (s.th (.proc p)).pc <;> rw [hpc] at hi <;> first | rfl | cases hi

theorem run_facts (h : Inv s) (hi : Exec s c (.store (.run p)) n) :
    .proc p ∈ heldBy s c ∧ (s.proc p).state = .runnable := by
  obtain ⟨⟨c', hc⟩, hL, hint, -, hst⟩ := guard_instr hi
  refine ⟨hL, ?_⟩
  rcases hst with hst | hst
  · refine h.chosen c' p ?_
    rw [hc] at hst hint; rwa [← Inv.pc_of_none (h.base_of_not_isIntr hint)]
  · exact hst

theorem shift_store (h : Inv s) (hi : Exec s c (.store e) n) (he : e.entry s = some (q, v)) :
    v.state = (s.proc q).state ∨ .proc q ∈ heldBy s c ∧ Shift (s.cur c) (.store e) q (s.proc q).state v.state := by
  have hg := guard_instr hi
  cases e with
  | alloc np =>
    cases he
    obtain ⟨hpc, hst⟩ := hg
    right
    rw [heldBy, hpc, hst]; exact ⟨mem_singleton_self _, .alloc⟩
  | free np =>
    cases he
    have hpc : (s.th (s.cur c)).pc = .forkMade q := hg
    right
    rw [heldBy, hpc, (h.fork _ q (by rw [h.base_eq hpc rfl]; rfl)).1]
    exact ⟨mem_singleton_self _, .free⟩
  | start np =>
    cases he
    have hpc : (s.th (s.cur c)).pc = .forkStart q := hg
    right
    rw [heldBy, hpc, (h.fork _ q (by rw [h.base_eq hpc rfl]; rfl)).1]
    exact ⟨mem_singleton_self _, .start⟩
  | yield p =>
    cases he
    obtain ⟨hc, hpc⟩ := hg
    right
    rw [running_of_store h hc hi, heldBy, hpc, hc]
    exact ⟨mem_singleton_self _, .yield rfl⟩
  | sleep p chan =>
    cases he
    obtain ⟨hc, lk, hpc⟩ := hg
    right
    rw [running_of_store h hc hi, heldBy, hpc, hc]
    exact ⟨mem_singleton_self _, .sleep rfl⟩
  | zombie p status =>
    cases he
    obtain ⟨hc, hpc⟩ := hg
    right
    rw [running_of_store h hc hi, heldBy, hpc, hc]
    exact ⟨mem_cons_self, .zombie rfl⟩
  | wake q =>
    cases he
    obtain ⟨k, hpc, hst⟩ := hg
    right
    rw [heldBy, hpc, hst]; exact ⟨mem_cons_self, .wake⟩
  | kill q =>
    cases he
    obtain ⟨pid, hpc⟩ := hg
    by_cases hst : (s.proc q).state = .sleeping
    · right
      rw [heldBy, hpc, hst]
      refine ⟨mem_singleton_self _, ?_⟩
      rw [show (s.proc q).kill.state = .runnable by simp [Entry.kill, hst]]
      exact .kill
    · left; simp [Entry.kill, hst]
  | reap q =>
    cases he
    obtain ⟨p, hc, hpc, hst⟩ := hg
    right
    rw [heldBy, hpc, hst]; exact ⟨mem_cons_self, .reap⟩
  | run p =>
    cases he
    obtain ⟨hL, hst⟩ := run_facts h hi
    right
    rw [hst]; exact ⟨hL, .run⟩
  | parent np p | tidy p | reparent q => cases he; exact .inl rfl
  | idle => cases he

/-- **State changes are made under the lock.**  An instruction changes `q->state` only on a CPU that
holds `q->lock`, and only in the ways of `Shift`. -/
theorem shift (h : Inv s) (hi : Exec s c a n) (q : Slot) :
    ((s.after c a n).proc q).state = (s.proc q).state ∨ .proc q ∈ heldBy s c ∧
      Shift (s.cur c) a q (s.proc q).state ((s.after c a n).proc q).state := by
  cases a with
  | store e =>
    cases he : e.entry s with
    | none => rw [after_proc_of_none he]; exact .inl rfl
    | some x =>
      rw [after_proc he]
      by_cases hq : q = x.1
      · subst hq; rw [update_self]; exact shift_store h hi he
      · rw [update_of_ne hq]; exact .inl rfl
  | _ => exact .inl rfl

end Instruction

end Xv6.Smp.Invariant
