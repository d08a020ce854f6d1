import Xv6.Lib.Forest
import Xv6.Smp.Running

/-!
# The process tree

`p->parent` is stored under `wait_lock`, by `fork`, by `reparent` and by the `freeproc` of `wait`.
A process marks itself `ZOMBIE` only after a sweep of the whole table under `wait_lock` has given
its children to `initproc`, so a process that is somebody's parent is always alive, and a slot is
freed only when nobody points at it.
-/

namespace Xv6.Smp.ProcTree

open Param Sched.Defs Lib.Runs Lib.Forest Function Option
open Smp.Defs Smp.Control Smp.Invariant Smp.Running

def Alive (v : ProcState) : Prop := v = .sleeping ∨ v = .runnable ∨ v = .running

def InTree (v : ProcState) : Prop := Alive v ∨ v = .zombie

def parentOf (s : State) (p : Slot) : Option Slot := (s.proc p).parent

def parented : Pc → Option Slot
  | .forkUnwait np | .forkLock np | .forkStart np => some np
  | _ => none

/-- How many slots the `reparent` of an exit has gone through. -/
def swept : Pc → Option ℕ
  | .exitReparent i _ => some i
  | .exitLock _ | .exitSet _ => some NPROC
  | .wakeScan k _ _ | .wakeTest k _ _ | .wakeEnqueue k _ _ | .wakeEnqueued k _ _
  | .wakeDone k _ _ =>
    match k with
    | .reparent i _ => some i
    | .exit _ => some NPROC
    | _ => none
  | _ => none

structure Tree (s : State) : Prop where
  alive : ∀ r q, parentOf s r = some q → Alive (s.proc q).state
  init : Alive (s.proc initproc).state
  reaches : ∀ p, InTree (s.proc p).state → Reaches (parentOf s) initproc p
  free : ∀ p, (s.proc p).state = .unused → parentOf s p = none
  fresh : ∀ t np, child (s.th t).base = some np → parented (s.th t).base = none → parentOf s np = none
  forked : ∀ t np, parented (s.th t).base = some np → ∃ p, t = .proc p ∧ parentOf s np = some p
  exiting : ∀ p i, swept (s.th (.proc p)).base = some i →
    p ≠ initproc ∧ ∀ j : Slot, (j : ℕ) < i → parentOf s j ≠ some p

variable {s s' : State} {c : ℕ} {t : Tid} {p q r : Slot} {pc : Pc} {a : Act} {n : Next} {i : ℕ}
variable {f : Slot → Option Slot} {v v' : ProcState}

theorem tree_boot : Tree boot where
  alive r q h := by
    by_cases hr : r = initproc
    · subst hr; simp [parentOf, boot] at h
    · simp [parentOf, boot, hr] at h
  init := by simp [boot, Alive]
  reaches p h := by
    by_cases hp : p = initproc
    · subst hp; exact .root
    · simp [boot, hp, InTree, Alive] at h
  free p _ := by
    by_cases hp : p = initproc
    · subst hp; simp [parentOf, boot]
    · simp [parentOf, boot, hp]
  fresh t _ h _ := by cases t <;> cases h
  forked t _ h := by cases t <;> cases h
  exiting p i h := by cases h

/-! ## What one instruction changes -/

theorem child_of_parented (h : parented pc = some p) : child pc = some p := by
  cases pc <;> simp_all [parented, child]

def parentAfter (f : Slot → Option Slot) : Act → Slot → Option Slot
  | .store (.parent np p) => update f np (some p)
  | .store (.reparent q) => update f q (some initproc)
  | .store (.free np) => update f np none
  | .store (.reap q) => update f q none
  | _ => f

theorem parentOf_after : parentOf (s.after c a n) = parentAfter (parentOf s) a := by
  have hupd : ∀ (e : Store) (q : Slot) (v : Entry), e.entry s = some (q, v) →
      parentOf (s.after c (.store e) n) = update (parentOf s) q v.parent := by
    intro e q v he
    funext r
    rw [parentOf, after_proc he]
    by_cases hr : r = q
    · subst hr; rw [update_self, update_self]
    · rw [update_of_ne hr, update_of_ne hr, parentOf]
  cases a with
  | store e =>
    cases e with
    | parent np p | reparent q | free np | reap q => rw [hupd _ _ _ rfl]; rfl
    | idle => rfl
    | _ => rw [hupd _ _ _ rfl]; exact update_eq_self _ _
  | _ => rfl

theorem parentAfter_of_ne (hparent : ∀ p, a ≠ .store (.parent r p))
    (hreparent : a ≠ .store (.reparent r)) (hfree : a ≠ .store (.free r))
    (hreap : a ≠ .store (.reap r)) : parentAfter f a r = f r := by
  cases a with
  | store e =>
    cases e with
    | parent np p => exact update_of_ne (by rintro rfl; exact hparent p rfl) _ _
    | reparent q => exact update_of_ne (by rintro rfl; exact hreparent rfl) _ _
    | free np => exact update_of_ne (by rintro rfl; exact hfree rfl) _ _
    | reap q => exact update_of_ne (by rintro rfl; exact hreap rfl) _ _
    | _ => rfl
  | _ => rfl

theorem parentAfter_some (h : parentAfter f a r = some q) :
    f r = some q ∨ a = .store (.parent r q) ∨ a = .store (.reparent r) ∧ q = initproc := by
  by_cases hparent : ∃ p, a = .store (.parent r p)
  · obtain ⟨p, rfl⟩ := hparent
    rw [parentAfter, update_self] at h
    cases h; exact .inr (.inl rfl)
  by_cases hreparent : a = .store (.reparent r)
  · subst hreparent
    rw [parentAfter, update_self] at h
    exact .inr (.inr ⟨rfl, (Option.some.inj h).symm⟩)
  left
  rw [← h]
  refine (parentAfter_of_ne (fun p e => hparent ⟨p, e⟩) hreparent ?_ ?_).symm
  · rintro rfl; rw [parentAfter, update_self] at h; cases h
  · rintro rfl; rw [parentAfter, update_self] at h; cases h

theorem parented_instr (h : Instr t s pc a n) : parented (n.pc .user) = some q →
    parented pc = some q ∨ ∃ p, t = .proc p ∧ a = .store (.parent q p) := by
  intro hq
  rcases h with h | h
  · cases h
    case scanEnd k _ _ _ => cases k <;> cases hq
    all_goals cases hq
  · cases t with
    | proc p =>
      cases h
      case sleepRelock lk => cases lk <;> cases hq
      case forkParent => cases hq; exact .inr ⟨p, rfl, rfl⟩
      all_goals first | exact .inl hq | cases hq
    | cpu c => cases h <;> cases hq

theorem parented_keep (h : Instr t s pc a n) (hc : child (n.pc .user) = some q)
    (hp : parented pc ≠ none) : parented (n.pc .user) ≠ none := by
  rcases h with h | h
  · cases h
    case scanEnd k _ _ _ => cases k <;> cases hc
    all_goals cases hc
  · cases t with
    | proc p =>
      cases h
      case sleepRelock lk => cases lk <;> cases hc
      all_goals first | exact absurd rfl hp | exact some_ne_none _ | cases hc
    | cpu c => cases h <;> cases hc

theorem parented_of_store (h : Instr t s pc (.store (.parent q p)) n) : parented (n.pc .user) = some q := by
  rcases h with h | h
  · cases h
  · cases t with
    | proc p => cases h; rfl
    | cpu c => cases h

theorem swept_instr (h : Instr (.proc p) s pc a n) (hn : swept (n.pc .user) = some i) :
    swept pc = some i ∨ p ≠ initproc ∧ i = 0 ∨ (∃ q : Slot, swept pc = some (q : ℕ) ∧ i = q + 1 ∧
        (parentOf s q ≠ some p ∨ a = .store (.reparent q))) ∨ ∃ j, swept pc = some j ∧ NPROC ≤ j := by
  rcases h with h | h
  · cases h
    case scanEnd k _ _ _ => cases k <;> exact .inl hn
    all_goals exact .inl hn
  · cases h
    case sleepRelock lk => cases lk <;> cases hn
    case exitWait hp => cases hn; exact .inr (.inl ⟨hp, rfl⟩)
    case exitReparent q _ _ =>
      cases hn; exact .inr (.inr (.inl ⟨q, rfl, rfl, .inr rfl⟩))
    case exitSkip q _ hq =>
      cases hn; exact .inr (.inr (.inl ⟨q, rfl, rfl, .inl hq⟩))
    case exitWake j _ hj => exact .inr (.inr (.inr ⟨j, rfl, hj⟩))
    all_goals first | exact .inl hn | cases hn

theorem Shift.alive (h : Shift t a q v v') (hv : Alive v) : Alive v' ∨ ∃ status, a = .store (.zombie q status) := by
  cases h <;> simp_all [Alive]

theorem Shift.inTree (h : Shift t a q v v') (hv : InTree v') : InTree v ∨ a = .store (.start q) := by
  cases h <;> simp_all [InTree, Alive]

/-! ## One instruction keeps the tree -/

section Step
variable (h : Inv s) (ht : Tree s) (hi : Exec s c a n)
include h ht hi

omit ht in
theorem alive_after (hq : Alive (s.proc q).state) (hz : ∀ status, a ≠ .store (.zombie q status)) :
    Alive ((s.after c a n).proc q).state := by
  rcases shift h hi q with hst | ⟨-, hst⟩
  · rw [hst]; exact hq
  · rcases Shift.alive hst hq with hal | ⟨status, ha⟩
    · exact hal
    · exact absurd ha (hz status)

theorem childless_of_zombie {status : Word} (ha : a = .store (.zombie q status)) :
    q ≠ initproc ∧ ∀ r, parentOf s r ≠ some q := by
  subst ha
  obtain ⟨hc, hpc⟩ := guard_instr hi
  rw [hc] at hpc
  obtain ⟨hne, hall⟩ := ht.exiting q NPROC (by rw [h.base_eq hpc rfl]; rfl)
  exact ⟨hne, fun r => hall r r.isLt⟩

theorem init_after : Alive ((s.after c a n).proc initproc).state :=
  alive_after h hi ht.init fun _ ha => (childless_of_zombie h ht hi ha).1 rfl

theorem parent_alive_after (r q : Slot) (hr : parentOf (s.after c a n) r = some q) :
    Alive ((s.after c a n).proc q).state := by
  rw [parentOf_after] at hr
  rcases parentAfter_some hr with hr | rfl | ⟨rfl, rfl⟩
  · exact alive_after h hi (ht.alive r q hr) fun _ ha =>
      (childless_of_zombie h ht hi ha).2 r hr
  · obtain ⟨hc, -⟩ := guard_instr hi
    refine alive_after h hi ?_ (fun _ ha => by cases ha)
    exact .inr (.inr (running_of_store h hc hi))
  · exact init_after h ht hi

omit h hi in
theorem leaf_of_not_alive (hq : ¬ Alive (s.proc q).state) : ∀ r, parentOf s r ≠ some q :=
  fun r hr => hq (ht.alive r q hr)

theorem reaches_after (p : Slot) (hp : InTree ((s.after c a n).proc p).state) :
    Reaches (parentOf (s.after c a n)) initproc p := by
  -- the slot was in the tree before, unless this instruction starts it
  have hold : ((s.after c a n).proc p).state = (s.proc p).state → InTree (s.proc p).state :=
    fun e => e ▸ hp
  have hkeep : InTree (s.proc p).state ∨ a = .store (.start p) := by
    rcases shift h hi p with hst | ⟨-, hst⟩
    · exact .inl (hold hst)
    · exact Shift.inTree hst hp
  rw [parentOf_after]
  rcases hkeep with hin | rfl
  · have hr := ht.reaches p hin
    cases a with
    | store e =>
      have hg := guard_instr hi
      cases e with
      | parent np p' =>
        obtain ⟨hc, hpc⟩ := hg
        obtain ⟨hst, -⟩ := h.fork _ np (by rw [h.base_eq hpc rfl]; rfl)
        refine hr.update_leaf (leaf_of_not_alive ht (by simp [hst, Alive])) ?_ _
        rintro rfl; simp [hst, InTree, Alive] at hin
      | reparent q => exact hr.update_root q
      | free np =>
        obtain ⟨hst, -⟩ := h.fork _ np (child_of_store h hi (.inl rfl)).2
        refine hr.update_leaf (leaf_of_not_alive ht (by simp [hst, Alive])) ?_ _
        rintro rfl; simp [hst, InTree, Alive] at hin
      | reap q =>
        obtain ⟨p', -, -, hst⟩ := hg
        refine hr.update_leaf (leaf_of_not_alive ht (by simp [hst, Alive])) ?_ _
        rintro rfl
        rw [after_proc rfl] at hp; simp [Entry.freeproc, InTree, Alive] at hp
      | _ => exact hr
    | _ => exact hr
  · have hpc : (s.th (s.cur c)).pc = .forkStart p := guard_instr hi
    obtain ⟨p', hc, hp'⟩ := ht.forked _ p (by rw [h.base_eq hpc rfl]; rfl)
    refine .of_parent hp' (ht.reaches p' ?_)
    exact .inl (ht.alive p p' hp')

theorem free_after (p : Slot) (hp : ((s.after c a n).proc p).state = .unused) :
    parentOf (s.after c a n) p = none := by
  rw [parentOf_after]
  by_contra hsome
  obtain ⟨q, hq⟩ := ne_none_iff_exists'.mp hsome
  rcases shift h hi p with hst | ⟨-, hst⟩
  · rw [hst] at hp
    have hnone := ht.free p hp
    rcases parentAfter_some hq with hq | rfl | ⟨rfl, -⟩
    · rw [hnone] at hq; cases hq
    · have hu := (h.fork _ p (by rw [h.base_eq (guard_instr hi).2 rfl]; rfl)).1
      rw [hp] at hu; cases hu
    · obtain ⟨p', -, -, -, hp'⟩ := guard_instr hi
      rw [parentOf, hp'] at hnone; cases hnone
  · rcases hst.to_unused hp with rfl | rfl
    · rw [parentAfter, update_self] at hq; cases hq
    · rw [parentAfter, update_self] at hq; cases hq

theorem fresh_after (t : Tid) (np : Slot) (hnp : child ((s.after c a n).th t).base = some np)
    (hno : parented ((s.after c a n).th t).base = none) : parentOf (s.after c a n) np = none := by
  rw [parentOf_after]
  by_contra hsome
  obtain ⟨q, hq⟩ := ne_none_iff_exists'.mp hsome
  rcases child_after h hi t np hnp with ⟨hch, -⟩ | ⟨-, rfl⟩
  · -- the child was being made before, without a parent
    have hold : parented (s.th t).base = none := by
      rcases after_base h hi t with hb | ⟨rfl, hint, hb⟩ | ⟨np', -, -, hb⟩
      · rw [hb] at hno; exact hno
      · rw [hb] at hno hnp
        by_contra hp
        rw [← Inv.pc_of_none hint] at hp; exact parented_keep hi hnp hp hno
      · rw [hb] at hnp; cases hnp
    have hnone := ht.fresh t np hch hold
    rcases parentAfter_some hq with hq | rfl | ⟨rfl, -⟩
    · rw [hnone] at hq; cases hq
    · have hpc := (guard_instr hi).2
      obtain rfl := h.forkUniq t _ np hch (by rw [h.base_eq hpc rfl]; rfl)
      rw [after_th_self h hi, base_next_of_none n (h.base_of_not_isIntr (by rw [hpc]; rfl)),
        parented_of_store hi] at hno
      cases hno
    · obtain ⟨p', -, -, -, hp'⟩ := guard_instr hi
      rw [parentOf, hp'] at hnone; cases hnone
  · have hnone := ht.free np (guard_instr hi).2; exact hsome hnone

theorem parentOf_after_of_parented {np : Slot} (hnp : parented (s.th t).base = some np) :
    parentOf (s.after c a n) np = parentOf s np := by
  have hch := child_of_parented hnp
  obtain ⟨hst, -⟩ := h.fork t np hch
  -- whoever stores in the child's entry is its maker, at a point where the parent is not yet set
  have hmaker : ∀ pc, (s.th (s.cur c)).pc = pc → isIntr pc = false → child pc = some np →
      parented pc = none → False := by
    intro pc hpc hint hc hnone
    have hb := h.base_eq hpc hint
    have htc := h.forkUniq t (s.cur c) np hch (by rw [hb]; exact hc)
    rw [htc, hb, hnone] at hnp; cases hnp
  rw [parentOf_after]
  refine parentAfter_of_ne ?_ ?_ ?_ ?_
  · rintro p' rfl; exact hmaker _ (guard_instr hi).2 rfl rfl rfl
  · rintro rfl
    obtain ⟨p, status, hc, hpc, hp⟩ := guard_instr hi
    obtain ⟨p', rfl, hp'⟩ := ht.forked t np hnp
    rw [parentOf, hp] at hp'
    cases hp'
    rw [hc] at hpc
    rw [h.base_eq hpc rfl] at hnp; cases hnp
  · rintro rfl; exact hmaker _ (guard_instr hi) rfl rfl rfl
  · rintro rfl; obtain ⟨-, -, -, hz⟩ := guard_instr hi; rw [hst] at hz; cases hz

theorem forked_after (t : Tid) (np : Slot) (hnp : parented ((s.after c a n).th t).base = some np) :
    ∃ p, t = .proc p ∧ parentOf (s.after c a n) np = some p := by
  rcases value_after h hi rfl hnp with hold | ⟨-, hi', hnew⟩
  · rw [parentOf_after_of_parented h ht hi hold]; exact ht.forked t np hold
  · rcases parented_instr hi' hnew with hold | ⟨p, hc, rfl⟩
    · rw [parentOf_after_of_parented h ht hi hold]; exact ht.forked t np hold
    · refine ⟨p, hc, ?_⟩
      rw [parentOf_after]; exact update_self _ _ _

theorem exiting_after (p : Slot) (i : ℕ) (hp : swept ((s.after c a n).th (.proc p)).base = some i) :
    p ≠ initproc ∧ ∀ j : Slot, (j : ℕ) < i → parentOf (s.after c a n) j ≠ some p := by
  -- nobody becomes a child of a process that is exiting
  have hkeep : ∀ i0 (j : Slot), swept (s.th (.proc p)).base = some i0 → parentOf s j ≠ some p →
      parentOf (s.after c a n) j ≠ some p := by
    intro i0 j hsw hj hj'
    rw [parentOf_after] at hj'
    rcases parentAfter_some hj' with hj' | rfl | ⟨rfl, rfl⟩
    · exact hj hj'
    · obtain ⟨hc, hpc⟩ := guard_instr hi
      rw [hc] at hpc
      rw [h.base_eq hpc rfl] at hsw; cases hsw
    · exact (ht.exiting _ i0 hsw).1 rfl
  -- what was swept stays swept
  have hall : ∀ i0, swept (s.th (.proc p)).base = some i0 → p ≠ initproc ∧
      ∀ j : Slot, (j : ℕ) < i0 → parentOf (s.after c a n) j ≠ some p := by
    intro i0 hsw
    obtain ⟨hne, hall⟩ := ht.exiting p i0 hsw
    exact ⟨hne, fun j hj => hkeep i0 j hsw (hall j hj)⟩
  rcases value_after h hi rfl hp with hsw | ⟨-, hi', hnew⟩
  · exact hall i hsw
  rcases swept_instr hi' hnew with hsw | ⟨hne, rfl⟩ | ⟨q, hsw, rfl, hq⟩ | ⟨j0, hsw, hj0⟩
  · exact hall i hsw
  · exact ⟨hne, fun j hj => absurd hj (Nat.not_lt_zero _)⟩
  · obtain ⟨hne, hlt⟩ := hall q hsw
    refine ⟨hne, fun j hj => ?_⟩
    rcases Nat.lt_succ_iff_lt_or_eq.mp hj with hj | hj
    · exact hlt j hj
    · obtain rfl : j = q := Fin.ext hj
      rcases hq with hq | rfl
      · exact hkeep _ j hsw hq
      · rw [parentOf_after, parentAfter, update_self]
        exact fun e => hne (Option.some.inj e).symm
  · obtain ⟨hne, hlt⟩ := hall j0 hsw
    exact ⟨hne, fun j _ => hlt j (lt_of_lt_of_le j.isLt hj0)⟩

theorem tree_after : Tree (s.after c a n) where
  alive := parent_alive_after h ht hi
  init := init_after h ht hi
  reaches := reaches_after h ht hi
  free := free_after h ht hi
  fresh := fresh_after h ht hi
  forked := forked_after h ht hi
  exiting := exiting_after h ht hi

end Step

theorem tree_setThread {th : Thread} (ht : Tree s) (hb : th.base = (s.th t).base) : Tree (s.setThread t th) := by
  have hbase := base_setThread hb
  refine ⟨ht.alive, ht.init, ht.reaches, ht.free, fun t' np hnp hno => ?_, fun t' np hnp => ?_,
    fun p i hp => ?_⟩
  · rw [hbase] at hnp hno; exact ht.fresh t' np hnp hno
  · rw [hbase] at hnp; exact ht.forked t' np hnp
  · rw [hbase] at hp; exact ht.exiting p i hp

theorem tree_step (h : Inv s) (ht : Tree s) (hs : Step s c s') : Tree s' := by
  cases hs with
  | instr hi _ => exact tree_after h ht hi
  | timer _ hth _ | device _ hth _ => exact tree_setThread ht (by rw [hth])

theorem tree_reachable (h : Reachable sys s) : Inv s ∧ Tree s := by
  refine h.inv (I := fun s => Inv s ∧ Tree s) (fun s hs => ?_)
    fun _ _ _ hI hs => ⟨inv_step hI.1 hs, tree_step hI.1 hI.2 hs⟩
  obtain rfl : s = boot := hs; exact ⟨inv_boot, tree_boot⟩

/-- **The process tree.**  In every state the CPUs can reach, whether `wait_lock` is free or not,
every process other than `initproc` that is `SLEEPING`, `RUNNABLE`, `RUNNING` or `ZOMBIE` has a
parent that is `SLEEPING`, `RUNNABLE` or `RUNNING`, following the parent pointers from it leads to
`initproc`, and no `UNUSED` or `ZOMBIE` slot is anyone's parent. -/
theorem tree_of_reachable (h : Reachable sys s) : (∀ p, p ≠ initproc → InTree (s.proc p).state →
      (∃ q, (s.proc p).parent = some q ∧ Alive (s.proc q).state) ∧ Reaches (parentOf s) initproc p) ∧
      ∀ r q, (s.proc r).parent = some q → (s.proc q).state ≠ .unused ∧ (s.proc q).state ≠ .zombie := by
  obtain ⟨-, ht⟩ := tree_reachable h
  refine ⟨fun p hp hin => ⟨?_, ht.reaches p hin⟩, fun r q hr => ?_⟩
  · obtain ⟨q, hq⟩ := (ht.reaches p hin).exists_parent hp
    exact ⟨q, hq, ht.alive p q hq⟩
  · rcases ht.alive r q hr with hq | hq | hq <;> simp [hq]

def childForked : State :=
  [(.tau, .goto (.forkScan 0)), (.acquire (.proc 0), .goto (.forkTest 0)),
    (.release (.proc 0), .goto (.forkScan 1)), (.acquire (.proc 1), .goto (.forkTest 1)),
    (.store (.alloc 1), .goto (.forkMade 1)), (.release (.proc 1), .goto (.forkWait 1)),
    (.acquire .wait, .goto (.forkParent 1)), (.store (.parent 1 0), .goto (.forkUnwait 1)),
    (.release .wait, .goto (.forkLock 1)), (.acquire (.proc 1), .goto (.forkStart 1)),
    (.store (.start 1), .goto (.forkDone 1)), (.release (.proc 1), .ret)].foldl
    (fun (s : State) (x : Act × Next) => s.after 0 x.1 x.2) initRuns

theorem reachable_childForked : Reachable sys childForked := by
  have h0 := reachable_initRuns
  have h1 := reach h0 0 (.inr ProcInstr.callFork)
  have h2 := reach h1 0 (.inr (ProcInstr.forkScan (q := 0)))
  have h3 := reach h2 0 (.inr (ProcInstr.forkBusy (by decide)))
  have h4 := reach h3 0 (.inr (ProcInstr.forkScan (q := 1)))
  have h5 := reach h4 0 (.inr (ProcInstr.forkFound rfl))
  have h6 := reach h5 0 (.inr ProcInstr.forkMade)
  have h7 := reach h6 0 (.inr ProcInstr.forkWait)
  have h8 := reach h7 0 (.inr ProcInstr.forkParent)
  have h9 := reach h8 0 (.inr ProcInstr.forkUnwait)
  have h10 := reach h9 0 (.inr ProcInstr.forkLock)
  have h11 := reach h10 0 (.inr ProcInstr.forkStart)
  have h12 := reach h11 0 (.inr ProcInstr.forkDone); exact h12

theorem tree_of_reachable_fork : Reachable sys childForked ∧ (childForked.proc 1).state = .runnable ∧
    (∃ q, (childForked.proc 1).parent = some q ∧ Alive (childForked.proc q).state) ∧
      Reaches (parentOf childForked) initproc 1 :=
  ⟨reachable_childForked, rfl, (tree_of_reachable reachable_childForked).1 1 (by decide)
    (.inl (.inr (.inl rfl)))⟩

/-! ## Who writes what -/

theorem store_held {e : Store} {v : Entry} (h : Inv s) (ht : Tree s) (hi : Exec s c (.store e) n)
    (he : e.entry s = some (q, v)) : (.proc q ∈ heldBy s c ∨ v = { s.proc q with parent := v.parent }) ∧
      (.wait ∈ heldBy s c ∨ v.parent = (s.proc q).parent) := by
  have hg := guard_instr hi
  cases e with
  | free np =>
    cases he
    -- `fork` gives a slot back before it has stored the parent
    have hnone : parentOf s q = none := by
      refine ht.fresh (s.cur c) q ?_ ?_ <;> rw [h.base_eq hg rfl] <;> rfl
    exact ⟨.inl (by simp [heldBy, show _ = _ from hg, holds]), .inr hnone.symm⟩
  | run p =>
    cases he; exact ⟨.inl (run_facts h hi).1, .inr rfl⟩
  | idle => cases he
  | _ => cases he; grind [Guard, heldBy, holds, own, Entry.kill]

/-- **The rules of `proc.h`**: `state`, `chan`, `killed`, `xstate` and `pid` of a process are changed by the CPU
that has its lock, and `parent` by the one that has `wait_lock`.  A state changes along an edge of `Shift`, so only
the process itself leaves `RUNNING`. -/
theorem fields_locked (h : Reachable sys s) (hs : Step s c s') (q : Slot) :
    (s.lock (.proc q) = some c ∨ s'.proc q = { s.proc q with parent := (s'.proc q).parent }) ∧
    (s.lock .wait = some c ∨ (s'.proc q).parent = (s.proc q).parent) ∧
    ((s'.proc q).state = (s.proc q).state ∨ ∃ a, Shift (s.cur c) a q (s.proc q).state (s'.proc q).state) := by
  obtain ⟨hI, ht⟩ := tree_reachable h
  cases hs with
  | timer | device => exact ⟨.inr rfl, .inr rfl, .inl rfl⟩
  | @instr a n hi _ =>
    refine and_assoc.mp ⟨?_, (shift hI hi q).imp_right fun hq => ⟨a, hq.2⟩⟩
    simp only [hI.held]
    cases a with
    | store e =>
      cases he : e.entry s with
      | none => exact after_proc_of_none he ▸ ⟨.inr rfl, .inr rfl⟩
      | some x =>
        rw [after_proc he]
        by_cases hq : q = x.1
        · subst hq; rw [update_self]; exact store_held hI ht hi he
        · rw [update_of_ne hq]; exact ⟨.inr rfl, .inr rfl⟩
    | _ => exact ⟨.inr rfl, .inr rfl⟩

/-- CPU 0 has found `init` in its scan, and makes it `RUNNING`. -/
theorem fields_locked_init : ∃ s s', Reachable sys s ∧ Step s 0 s' ∧ (s'.proc 0).state = .running ∧
    s.lock (.proc 0) = some 0 := by
  have h1 := reach (.start rfl) 0 (.inr SchedInstr.topRr)
  have h2 := reach h1 0 (.inr (SchedInstr.rrScan (q := 0)))
  refine ⟨_, _, h2, .instr (.inr (SchedInstr.rrPick rfl)) (by trivial), rfl, ?_⟩
  refine (fields_locked h2 (.instr (.inr (SchedInstr.rrPick rfl)) (by trivial)) 0).1.resolve_right ?_
  exact fun e => nomatch congrArg Entry.state e

/-- **A half-made child is its maker's**: from `allocproc` to `RUNNABLE` a child of `fork` is `USED`, does not
run, and no other thread makes it or changes its state, whoever has its lock. -/
theorem fork_owns_child (h : Reachable sys s) (hq : child (s.th t).base = some q) :
    (s.proc q).state = .used ∧ (∀ c, s.cur c ≠ .proc q) ∧ (∀ t', child (s.th t').base = some q → t' = t) ∧
    ∀ c s', Step s c s' → s.cur c ≠ t → (s'.proc q).state = .used := by
  have hI := inv_reachable h
  obtain ⟨hst, -⟩ := hI.fork t q hq
  have huniq : ∀ t', child (s.th t').base = some q → t' = t := fun t' ht' => hI.forkUniq t' t q ht' hq
  refine ⟨hst, fun c hcur => (hI.state_of_cur hcur).2 hst, huniq, fun c s' hs hne => ?_⟩
  cases hs with
  | timer | device => exact hst
  | instr hi _ =>
    rcases shift hI hi q with hsame | ⟨-, hsh⟩
    · rw [hsame, hst]
    · -- only the end of `fork` takes a process out of `USED`
      refine absurd (huniq _ ?_) hne
      rcases hsh.of_used hst with rfl | rfl <;> rw [hI.base_eq (guard_instr hi) rfl] <;> rfl

/-- `init` is in `fork`, which has made the child in slot 1 and given up its lock. -/
theorem fork_owns_child_init : ∃ s, Reachable sys s ∧ child (s.th (.proc 0)).base = some 1 ∧
    s.lock (.proc 1) = none ∧ (s.proc 1).state = .used := by
  have h1 := reach reachable_initRuns 0 (.inr ProcInstr.callFork)
  have h2 := reach h1 0 (.inr (ProcInstr.forkScan (q := 0)))
  have h3 := reach h2 0 (.inr (ProcInstr.forkBusy (by decide)))
  have h4 := reach h3 0 (.inr (ProcInstr.forkScan (q := 1)))
  have h5 := reach h4 0 (.inr (ProcInstr.forkFound rfl))
  have h6 := reach h5 0 (.inr ProcInstr.forkMade)
  exact ⟨_, h6, rfl, rfl, (fork_owns_child (t := .proc 0) (q := 1) h6 rfl).1⟩

end Xv6.Smp.ProcTree
