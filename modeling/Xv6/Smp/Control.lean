import Xv6.Smp.Defs

/-!
# Program points

What a program point says about the rest of the kernel, and how each instruction changes it: the
locks held (`holds`), the state of the process that is run there (`want`), the child a fork is
making (`child`), the process a scheduler has stored in `c->proc` (`loaded`) and the candidate of
its scan (`chosen`).
-/

namespace Xv6.Smp.Control

open Param Sched.Defs Smp.Defs

def isIntr : Pc → Bool
  | .yieldLock | .yieldSet | .yieldEnqueue | .yieldEnqueued | .yieldSched | .yieldBack
  | .devLock _ | .devHeld _ => true
  | .wakeScan k _ _ | .wakeTest k _ _ | .wakeEnqueue k _ _ | .wakeEnqueued k _ _
  | .wakeDone k _ _ =>
    match k with
    | .dev _ => true
    | _ => false
  | _ => false

/-- The state of a process that a CPU runs at a point: the one it has stored to give the CPU up,
`RUNNING` before that. -/
def want : Pc → ProcState
  | .yieldEnqueue | .yieldEnqueued | .yieldSched => .runnable
  | .sleepSched _ => .sleeping
  | .exitUnwait | .exitSched => .zombie
  | _ => .running

def child : Pc → Option Slot
  | .forkMade np | .forkWait np | .forkParent np | .forkUnwait np | .forkLock np
  | .forkStart np => some np
  | _ => none

/-- The process that a scheduler has stored in `c->proc`. -/
def loaded : Pc → Option Slot
  | .swtch _ p | .swtched _ p => some p
  | _ => none

def chosen : Pc → Option Slot
  | .scan _ ch _ | .scanTest _ ch _ => ch
  | _ => none

def parks : Pc → Bool
  | .forkret | .yieldBack | .sleepBack _ | .exitDead => true
  | _ => false

section Points
variable {t : Tid} {p q : Slot} {pc : Pc}

@[simp] theorem holds_wakeBack (k : WakeCaller) : holds t k.back = k.holds := by
  cases k <;> rfl

@[simp] theorem holds_condBack (lk : CondLock) : holds t lk.back = [lk.lock] := by
  cases lk <;> rfl

theorem holds_parks (h : parks pc = true) : holds (.proc p) pc = [.proc p] := by
  cases pc <;> simp_all [parks, holds, own]

theorem holds_leaving (h : want pc ≠ .running) : .proc p ∈ holds (.proc p) pc := by
  cases pc <;> simp_all [want, holds, own]

theorem want_of_free (h : holds (.proc p) pc = []) : want pc = .running := by
  by_contra hw
  have hp := holds_leaving (p := p) hw
  rw [h] at hp; exact absurd hp (List.not_mem_nil)

theorem want_parks (h : parks pc = true) : want pc = .running := by
  cases pc <;> simp_all [parks, want]

theorem holds_loaded (h : loaded pc = some p) : holds t pc = [.proc p] := by
  cases pc <;> simp_all [loaded, holds]

theorem holds_chosen (h : chosen pc = some p) : .proc p ∈ holds t pc := by
  cases pc <;> simp_all [chosen, holds]

theorem loaded_of_chosen (h : chosen pc = some p) : loaded pc = none := by
  cases pc <;> simp_all [chosen, loaded]

end Points

/-! ## What instructions do to the point -/

def locksAfter (l : List Lock) : Act → List Lock
  | .acquire L => L :: l
  | .release L => l.erase L
  | _ => l

def wantAfter (v : ProcState) : Act → ProcState
  | .store (.yield _) => .runnable
  | .store (.sleep _ _) => .sleeping
  | .store (.zombie _ _) => .zombie
  | .swtchBack => .running
  | _ => v

def childAfter (v : Option Slot) : Act → Option Slot
  | .store (.alloc np) => some np
  | .store (.free _) | .store (.start _) => none
  | _ => v

def loadedAfter (v : Option Slot) : Act → Option Slot
  | .store (.run p) => some p
  | .store .idle => none
  | _ => v

def under (th : Thread) : Pc :=
  match th.intr with
  | none => .user
  | some _ => th.base

theorem pc_next (th : Thread) (n : Next) : (th.next n).pc = n.pc (under th) := by
  rcases th with ⟨b, _ | i⟩ <;> cases n <;> rfl

theorem base_next_of_none {th : Thread} (n : Next) (h : th.intr = none) : (th.next n).base = n.pc .user := by
  rcases th with ⟨b, _ | i⟩
  · rfl
  · cases h

theorem base_next_of_some {th : Thread} {pc : Pc} (n : Next) (h : th.intr = some pc) :
    (th.next n).base = th.base := by
  rcases th with ⟨b, _ | i⟩
  · cases h
  · cases n <;> rfl

section Instructions
variable {t : Tid} {s : State} {p q : Slot} {pc under : Pc} {a : Act} {n : Next}

private theorem erase_second (a b : Lock) : [a, b].erase b = [a] := by
  by_cases h : a = b <;> simp [h]

private theorem holds_instr_user (h : Instr t s pc a n) : holds t (n.pc .user) = locksAfter (holds t pc) a := by
  rcases h with h | h
  · cases h
    case scanEnd => exact holds_wakeBack _
    all_goals simp [Next.pc, holds, locksAfter, WakeCaller.holds]
  · cases t with
    | proc p =>
      cases h
      case sleepRelock => exact holds_condBack _
      all_goals simp [Next.pc, holds, locksAfter, own, WakeCaller.holds, erase_second]
    | cpu c => cases h <;> simp [Next.pc, holds, locksAfter, erase_second]

/-- **Lock balance.**  The locks held at the next point are those held before, changed by the
action. -/
theorem holds_instr (h : Instr t s pc a n) (hu : holds t under = []) :
    holds t (n.pc under) = locksAfter (holds t pc) a := by
  rw [← holds_instr_user h]
  cases n with
  | goto pc' => rfl
  | ret => exact hu

theorem isIntr_instr (h : Instr t s pc a n) : (isIntr pc = false → isIntr (n.pc .user) = false) ∧
      (isIntr pc = true → ∀ pc', n = .goto pc' → isIntr pc' = true) := by
  rcases h with h | h
  · cases h <;> simp_all [Next.pc, isIntr]
    all_goals rename_i k _ _ _; cases k <;> simp [WakeCaller.back]
  · cases t with
    | proc p =>
      cases h <;> simp_all [Next.pc, isIntr]
      rename_i lk; cases lk <;> rfl
    | cpu c => cases h <;> simp_all [Next.pc, isIntr]

private theorem want_instr_user (h : Instr (.proc p) s pc a n) : want (n.pc .user) = wantAfter (want pc) a := by
  rcases h with h | h
  · cases h
    case scanEnd k _ _ _ => cases k <;> rfl
    all_goals rfl
  · cases h
    case sleepRelock lk => cases lk <;> rfl
    all_goals rfl

theorem want_instr (h : Instr (.proc p) s pc a n) (hu : holds (.proc p) under = []) :
    want (n.pc under) = wantAfter (want pc) a := by
  rw [← want_instr_user h]
  cases n with
  | goto pc' => rfl
  | ret => exact want_of_free hu

theorem handed_instr (h : Instr t s pc a n) : child (n.pc .user) = childAfter (child pc) a ∧
    loaded (n.pc .user) = loadedAfter (loaded pc) a := by
  rcases h with h | h
  · cases h
    case scanEnd k _ _ _ => cases k <;> exact ⟨rfl, rfl⟩
    all_goals exact ⟨rfl, rfl⟩
  · cases t with
    | proc p =>
      cases h
      case sleepRelock lk => cases lk <;> exact ⟨rfl, rfl⟩
      all_goals exact ⟨rfl, rfl⟩
    | cpu c => cases h <;> exact ⟨rfl, rfl⟩

theorem chosen_instr (h : Instr t s pc a n) (hq : chosen (n.pc .user) = some q) :
    (∀ e, a ≠ .store e) ∧ (chosen pc = some q ∨ (s.proc q).state = .runnable) := by
  rcases h with h | h
  · cases h
    case scanEnd k _ _ _ => cases k <;> simp [Next.pc, WakeCaller.back, chosen] at hq
    all_goals simp [Next.pc, chosen] at hq
  · cases t with
    | proc p =>
      cases h
      case sleepRelock lk => cases lk <;> simp [Next.pc, CondLock.back, chosen] at hq
      all_goals simp [Next.pc, chosen] at hq
    | cpu c => cases h <;> simp_all [Next.pc, chosen]

def Guard (t : Tid) (s : State) (pc : Pc) : Store → Prop
  | .alloc np => pc = .forkTest np ∧ (s.proc np).state = .unused
  | .free np => pc = .forkMade np
  | .parent np p => t = .proc p ∧ pc = .forkParent np
  | .start np => pc = .forkStart np
  | .yield p => t = .proc p ∧ pc = .yieldSet
  | .sleep p chan => t = .proc p ∧ ∃ lk, pc = .sleepSet chan lk
  | .tidy p => t = .proc p ∧ ∃ lk, pc = .sleepBack lk
  | .wake q => ∃ k, pc = .wakeTest k (s.proc q).chan q ∧ (s.proc q).state = .sleeping
  | .kill q => ∃ pid, pc = .killTest q pid
  | .reparent q => ∃ p status, t = .proc p ∧ pc = .exitReparent q status ∧ (s.proc q).parent = some p
  | .zombie p status => t = .proc p ∧ pc = .exitSet status
  | .reap q => ∃ p, t = .proc p ∧ pc = .waitTest q ∧ (s.proc q).state = .zombie
  | .run p => (∃ c, t = .cpu c) ∧ .proc p ∈ holds t pc ∧ isIntr pc = false ∧ loaded pc = none ∧
      (chosen pc = some p ∨ (s.proc p).state = .runnable)
  | .idle => (∃ c, t = .cpu c) ∧ ∃ b p, pc = .swtched b p

theorem guard_instr {e : Store} (h : Instr t s pc (.store e) n) : Guard t s pc e := by
  rcases h with h | h
  · cases h <;> simp_all [Guard]
  · cases t with
    | proc p => cases h <;> simp_all [Guard]
    | cpu c => cases h <;> simp_all [Guard, holds, chosen, loaded, isIntr]

theorem swtchTo_instr (h : Instr t s pc (.swtchTo p) n) :
    ∃ c b, t = .cpu c ∧ pc = .swtch b p ∧ n = .goto (.swtched b p) := by
  rcases h with h | h
  · cases h
  · cases t with
    | proc p => cases h
    | cpu c => cases h; exact ⟨_, _, rfl, rfl, rfl⟩

theorem swtchBack_instr (h : Instr t s pc .swtchBack n) :
    ∃ p pc', t = .proc p ∧ holds t pc = [.proc p] ∧ want pc ≠ .running ∧ n = .goto pc' ∧
      parks pc' = true ∧ (pc' = .exitDead → want pc = .zombie) := by
  rcases h with h | h
  · cases h
  · cases t with
    | proc p => cases h <;> exact ⟨_, _, rfl, rfl, by simp [want], rfl, rfl, by simp [want]⟩
    | cpu c => cases h

def Arrives (t : Tid) (s : State) (pc : Pc) (a : Act) : Pc → Prop
  | .swtch _ p => a = .store (.run p)
  | .swtched _ p => a = .swtchTo p
  | .sleepSet chan lk => pc = .sleepUnlock chan lk ∧ a = .release lk.lock
  | .waitTest q => a = .acquire (.proc q) ∧ ∃ p, t = .proc p ∧ (s.proc q).parent = some p
  | .exitLock status => ∃ chan i, pc = .wakeScan (.exit status) chan i ∧ NPROC ≤ i
  | .exitSet status => pc = .exitLock status
  | .exitDead => a = .swtchBack
  | _ => True

theorem arrives_instr {pc' : Pc} (h : Instr t s pc a n) (hn : n.pc .user = pc') : Arrives t s pc a pc' := by
  subst hn
  rcases h with h | h
  · cases h
    case scanEnd k chan i hi =>
      cases k with
      | exit status => exact ⟨chan, i, rfl, hi⟩
      | _ => trivial
    all_goals trivial
  · cases t with
    | proc p =>
      cases h
      case sleepRelock lk => cases lk <;> trivial
      case sleepUnlock => exact ⟨rfl, rfl⟩
      case waitChild hq => exact ⟨rfl, p, rfl, hq⟩
      case exitLock => rfl
      case exitSched => rfl
      all_goals trivial
    | cpu c => cases h <;> first | rfl | trivial

end Instructions

end Xv6.Smp.Control
