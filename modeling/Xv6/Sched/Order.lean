import Mathlib.Algebra.Order.BigOperators.Group.List
import Xv6.Sched.Queued
import Xv6.Sched.Scans

/-!
# The order of dispatch under MLFQ

One iteration of the MLFQ branch of `scheduler`: a refill, if the queues are all empty, puts every runnable
process in the queue of its level, in table order (`refill_spec`); then the first runnable entry in the order of
level and position is dispatched and removed (`scanMlfq_first`).
-/

namespace Xv6.Sched.Order

open Lib.Runs Lib.Arrays Param Sched.Defs Sched.Queues Sched.Ops Sched.Step List Option
open Sched.Facts Sched.Running Sched.Moves Sched.Queued Sched.Scans

variable {k k' : Kernel} {c : ℕ} {p q : Slot}

def RunnableEntry (k : Kernel) (l i : ℕ) (p : Slot) : Prop :=
  l < QUEUE_LEVELS ∧ i < k.mlfq.qsize l ∧ k.mlfq.queue l i = some p ∧ (k.proc p).state = .runnable

def Before (x y : ℕ × ℕ) : Prop := x.1 < y.1 ∨ x.1 = y.1 ∧ x.2 < y.2

theorem positions_pairwise (q : Mlfq) : (positions q).Pairwise Before := by
  unfold positions
  rw [pairwise_flatMap]
  refine ⟨fun l _ => ?_, ?_⟩
  · rw [pairwise_map]; exact pairwise_lt_range.imp fun h => .inr ⟨rfl, h⟩
  · refine pairwise_lt_range.imp fun {a b} hab x hx y hy => ?_
    obtain ⟨i, -, rfl⟩ := mem_map.mp hx
    obtain ⟨j, -, rfl⟩ := mem_map.mp hy; exact .inl hab

variable {l i : ℕ}

theorem runnableEntry_iff : RunnableEntry k l i p ↔
    (l, i) ∈ positions k.mlfq ∧ runnableAt k (l, i) = true ∧ k.mlfq.queue l i = some p := by
  rw [mem_positions, runnableAt, RunnableEntry]
  rcases hq : k.mlfq.queue l i with _ | r
  · simp
  · simp only [Option.some.injEq, decide_eq_true_eq]
    constructor
    · rintro ⟨hl, hi, rfl, hr⟩; exact ⟨⟨hl, hi⟩, hr, rfl⟩
    · rintro ⟨⟨hl, hi⟩, hr, rfl⟩; exact ⟨hl, hi, rfl, hr⟩

theorem scanMlfq_first (k : Kernel) (c : ℕ) :
    (scanMlfq k c = (none, k.setCpu c ⟨none, .top⟩) ∧ ∀ l i p, ¬ RunnableEntry k l i p) ∨
    ∃ l i p, RunnableEntry k l i p ∧ (∀ l' i' p', RunnableEntry k l' i' p' → l < l' ∨ l = l' ∧ i ≤ i') ∧
      scanMlfq k c = (some p, dispatch { k with mlfq := removeAt k.mlfq l i } c .mlfq p) := by
  rcases hf : (positions k.mlfq).find? (runnableAt k) with _ | ⟨l, i⟩
  · refine .inl ⟨by rw [scanMlfq, hf], fun l i p he => ?_⟩
    obtain ⟨hmem, hr, -⟩ := runnableEntry_iff.mp he
    exact List.find?_eq_none.mp hf (l, i) hmem hr
  · obtain ⟨hr, as, bs, hpos, hnone⟩ := List.find?_eq_some_iff_append.mp hf
    have hmem : (l, i) ∈ positions k.mlfq := mem_of_find?_eq_some hf
    rcases hq : k.mlfq.queue l i with _ | p
    · simp [runnableAt, hq] at hr
    refine .inr ⟨l, i, p, runnableEntry_iff.mpr ⟨hmem, hr, hq⟩, fun l' i' p' he => ?_, ?_⟩
    · obtain ⟨hmem', hr', -⟩ := runnableEntry_iff.mp he
      have hpw := hpos ▸ positions_pairwise k.mlfq
      rw [hpos, mem_append, mem_cons] at hmem'
      rcases hmem' with ha | he' | hb
      · have := hnone _ ha; rw [hr'] at this; cases this
      · cases he'; exact .inr ⟨rfl, le_rfl⟩
      · have hlt := (pairwise_cons.mp (pairwise_append.mp hpw).2.1).1 _ hb
        exact hlt.imp_right fun h => ⟨h.1, h.2.le⟩
    · unfold scanMlfq; rw [hf]; simp only [hq]

/-! ## The refill -/

/-- The table after a refill: the runnable processes of `done` have a new time slice. -/
def refreshed (k : Kernel) (done : List Slot) (p : Slot) : Proc :=
  if p ∈ done ∧ (k.proc p).state = .runnable then { k.proc p with timeSlice := 0 } else k.proc p

theorem refreshed_state (k : Kernel) (done : List Slot) (p : Slot) :
    (refreshed k done p).state = (k.proc p).state := by
  unfold refreshed
  split_ifs <;> rfl

/-- The runnable processes of `done` at level `l`, in order. -/
def queued (k : Kernel) (done : List Slot) (l : ℕ) : List Slot :=
  done.filter fun p => (k.proc p).state = .runnable ∧ (k.proc p).queueLevel = l

/-- The queues hold the runnable processes of `done`. -/
structure Holds (k : Kernel) (done : List Slot) (m : Mlfq) : Prop where
  ok : m.Ok
  level : ∀ l < QUEUE_LEVELS, m.level l = (queued k done l).map some

def refilledWith (k : Kernel) (done : List Slot) (m : Mlfq) : Kernel :=
  { k with mlfq := m, proc := refreshed k done }

theorem refreshed_append (k : Kernel) (done : List Slot) (p : Slot) :
    refreshed k (done ++ [p]) = if (k.proc p).state = .runnable then
      Function.update (refreshed k done) p { k.proc p with timeSlice := 0 } else refreshed k done := by
  funext q
  by_cases hq : q = p
  · subst hq
    by_cases hr : (k.proc q).state = .runnable <;> simp [refreshed, hr]
  · by_cases hr : (k.proc p).state = .runnable <;> simp [refreshed, hr, hq]

theorem queued_append (k : Kernel) (done : List Slot) (p : Slot) (l : ℕ) :
    queued k (done ++ [p]) l = if (k.proc p).state = .runnable ∧ (k.proc p).queueLevel = l then
      queued k done l ++ [p] else queued k done l := by
  unfold queued
  rw [filter_append]
  split_ifs with h
  · simp [h]
  · simp [h]

variable {m : Mlfq}

theorem refillAt_round {done : List Slot} (h : Holds k done m) (hp : p ∉ done) :
    ∃ m', refillAt (refilledWith k done m) p = some (refilledWith k (done ++ [p]) m') ∧
      Holds k (done ++ [p]) m' := by
  have hproc : (refilledWith k done m).proc p = k.proc p := by simp [refilledWith, refreshed, hp]
  unfold refillAt
  by_cases hr : (k.proc p).state = .runnable
  · rw [hproc, if_pos hr]
    obtain ⟨m', hm⟩ := isSome_iff_exists.mp (enqueueToMlfq_isSome h.ok (k.proc p).queueLevel p)
    refine ⟨m', ?_, h.ok.enqueueToMlfq hm, fun l hl => ?_⟩
    · have hm' : enqueueToMlfq (refilledWith k done m).mlfq (k.proc p).queueLevel p = some m' := hm
      unfold enqueue
      rw [hproc, hm']
      show some (Kernel.mk (Function.update (refreshed k done) p
        { (refilledWith k done m).proc p with timeSlice := 0 }) _ _ _ _ _ _) = _
      rw [hproc]
      unfold refilledWith
      rw [refreshed_append, if_pos hr]
    · rw [level_enqueueToMlfq hm, queued_append]
      by_cases he : l = (k.proc p).queueLevel
      · subst he
        have hnot : some p ∉ m.level (k.proc p).queueLevel := by
          rw [h.level _ hl]; simp [queued, hp]
        rw [if_pos rfl, if_pos ⟨hr, rfl⟩, erase_of_not_mem hnot, h.level _ hl, map_append]
        rfl
      · rw [if_neg he, if_neg fun h => he h.2.symm, h.level l hl]
  · rw [hproc, if_neg hr]
    refine ⟨m, ?_, h.ok, fun l hl => ?_⟩
    · unfold refilledWith
      rw [refreshed_append, if_neg hr]
    · rw [queued_append, if_neg fun h => hr h.1, h.level l hl]

theorem refill_rounds {rest done : List Slot} (hnd : (done ++ rest).Nodup) (h : Holds k done m) :
    ∃ m', rest.foldlM refillAt (refilledWith k done m) = some (refilledWith k (done ++ rest) m') ∧
      Holds k (done ++ rest) m' := by
  induction rest generalizing done m with
  | nil => rw [append_nil]; exact ⟨m, rfl, h⟩
  | cons p rest ih =>
    have hp : p ∉ done := fun hp => (nodup_append.mp hnd).2.2 p hp p (by simp) rfl
    obtain ⟨m1, hm1, h1⟩ := refillAt_round h hp
    rw [append_cons] at hnd ⊢
    obtain ⟨m', hm', h'⟩ := ih hnd h1
    refine ⟨m', ?_, h'⟩
    rw [foldlM_cons, hm1]; exact hm'

theorem totalQsize_eq_zero : totalQsize m = 0 ↔ ∀ l < QUEUE_LEVELS, m.level l = [] := by
  unfold totalQsize
  rw [sum_eq_zero_iff]
  constructor
  · intro h l hl
    have := h (m.qsize l) (mem_map.mpr ⟨l, mem_range.mpr hl, rfl⟩)
    rw [← length_eq_zero_iff, Mlfq.level, length_seg, this]
  · intro h x hx
    obtain ⟨l, hl, rfl⟩ := mem_map.mp hx
    have := congrArg List.length (h l (mem_range.mp hl))
    rwa [Mlfq.level, length_seg] at this

theorem refill_spec (hq : k.mlfq.Ok) (he : ∀ l < QUEUE_LEVELS, k.mlfq.level l = []) :
    ∃ m, refill k = some (refilledWith k slots m) ∧ Holds k slots m := by
  have h0 : Holds k [] k.mlfq := ⟨hq, fun l hl => by rw [he l hl]; rfl⟩
  have hproc : refreshed k [] = k.proc := by funext p; simp [refreshed]
  have hk : refilledWith k [] k.mlfq = k := by unfold refilledWith; rw [hproc]
  have hnd : ([] ++ slots).Nodup := by rw [nil_append]; exact slots_nodup
  obtain ⟨m, hm, hh⟩ := refill_rounds hnd h0
  -- left to unification, the kernel would compute the list of slots
  rw [hk, nil_append] at hm
  rw [nil_append] at hh
  refine ⟨m, ?_, hh⟩
  unfold refill
  rw [if_pos (totalQsize_eq_zero.mpr he)]; exact hm

theorem refill_of_nonempty (hl : l < QUEUE_LEVELS) (hne : k.mlfq.level l ≠ []) : refill k = some k := by
  unfold refill
  rw [if_neg fun h => hne (totalQsize_eq_zero.mp h l hl)]

theorem mem_queued : p ∈ queued k slots l ↔ (k.proc p).state = .runnable ∧ (k.proc p).queueLevel = l := by
  simp [queued]

theorem queued_pairwise (k : Kernel) (l : ℕ) : (queued k slots l).Pairwise (· < ·) :=
  slots_pairwise.sublist filter_sublist

theorem Holds.entry_iff (h : Holds k slots m) (hl : l < QUEUE_LEVELS) :
    i < m.qsize l ∧ m.queue l i = some p ↔ (queued k slots l)[i]? = some p := by
  have hseg : (m.level l)[i]? = some (some p) ↔ i < m.qsize l ∧ m.queue l i = some p := by
    rw [List.getElem?_eq_some_iff]; simp [Mlfq.level]
  rw [← hseg, h.level l hl]; simp

theorem Holds.first (h : Holds k slots m)
    (hl : ∀ p, (k.proc p).state = .runnable → (k.proc p).queueLevel < QUEUE_LEVELS)
    (he : RunnableEntry (refilledWith k slots m) l i p)
    (hfirst : ∀ l' i' p', RunnableEntry (refilledWith k slots m) l' i' p' → l < l' ∨ l = l' ∧ i ≤ i')
    (hq : (k.proc q).state = .runnable) : (k.proc p).queueLevel < (k.proc q).queueLevel ∨
      (k.proc p).queueLevel = (k.proc q).queueLevel ∧ p ≤ q := by
  obtain ⟨hll, hi, hp, -⟩ := he
  have hpi := (h.entry_iff hll).mp ⟨hi, hp⟩
  have hpl : (k.proc p).queueLevel = l := (mem_queued.mp (mem_of_getElem? hpi)).2
  obtain ⟨j, hj⟩ := mem_iff_getElem?.mp (mem_queued.mpr ⟨hq, rfl⟩)
  obtain ⟨hjlt, hjq⟩ := (h.entry_iff (hl q hq)).mpr hj
  have hent : RunnableEntry (refilledWith k slots m) (k.proc q).queueLevel j q :=
    ⟨hl q hq, hjlt, hjq, (refreshed_state k slots q).trans hq⟩
  rw [hpl]
  refine (hfirst _ _ _ hent).imp_right fun ⟨hlq, hij⟩ => ⟨hlq, ?_⟩
  rw [← hlq] at hj
  obtain ⟨hi', hpi⟩ := List.getElem?_eq_some_iff.mp hpi
  obtain ⟨hj', hqj⟩ := List.getElem?_eq_some_iff.mp hj
  rcases hij.eq_or_lt with rfl | hlt
  · exact (hpi.symm.trans hqj).le
  · have := pairwise_iff_getElem.mp (queued_pairwise k l) i j hi' hj' hlt
    rw [hpi, hqj] at this; exact this.le

/-- **One iteration of the MLFQ branch.**  `k₁` is the state after the refill, which happens only if the
queues are all empty.  Then nothing is runnable in the queues, or the first runnable entry is dispatched
and only that entry is removed; after a refill it is the runnable process of least level and slot. -/
theorem mlfq_iteration (hq : k.mlfq.Ok)
    (hl : ∀ p, (k.proc p).state = .runnable → (k.proc p).queueLevel < QUEUE_LEVELS) (c : ℕ) :
    ∃ k₁, ((∃ l < QUEUE_LEVELS, k.mlfq.level l ≠ []) → k₁ = k) ∧
    ((∀ l < QUEUE_LEVELS, k.mlfq.level l = []) → k₁ = refilledWith k slots k₁.mlfq ∧
      ∀ l < QUEUE_LEVELS, k₁.mlfq.level l = (queued k slots l).map some) ∧
    ((schedMlfq k c = some (none, k₁.setCpu c ⟨none, .top⟩) ∧ (∀ l i p, ¬ RunnableEntry k₁ l i p) ∧
      ((∀ l < QUEUE_LEVELS, k.mlfq.level l = []) → ∀ q, (k.proc q).state ≠ .runnable)) ∨
    ∃ l i p m, RunnableEntry k₁ l i p ∧ (∀ l' i' p', RunnableEntry k₁ l' i' p' → l < l' ∨ l = l' ∧ i ≤ i') ∧
      schedMlfq k c = some (some p, dispatch { k₁ with mlfq := m } c .mlfq p) ∧
      (∀ l', m.level l' = if l' = l then (k₁.mlfq.level l).eraseIdx i else k₁.mlfq.level l') ∧
      ((∀ l < QUEUE_LEVELS, k.mlfq.level l = []) → ∀ q, (k.proc q).state = .runnable →
        (k.proc p).queueLevel < (k.proc q).queueLevel ∨
          (k.proc p).queueLevel = (k.proc q).queueLevel ∧ p ≤ q)) := by
  by_cases he : ∀ l < QUEUE_LEVELS, k.mlfq.level l = []
  · obtain ⟨m, hm, hh⟩ := refill_spec hq he
    refine ⟨refilledWith k slots m, fun ⟨l, hll, hne⟩ => absurd (he l hll) hne, fun _ => ⟨rfl, hh.level⟩, ?_⟩
    rcases scanMlfq_first (refilledWith k slots m) c with ⟨hs, hnone⟩ | ⟨l, i, p, hent, hfirst, hs⟩
    · refine .inl ⟨by rw [schedMlfq, hm, map_some, hs], hnone, fun _ q hqr => ?_⟩
      obtain ⟨j, hj⟩ := mem_iff_getElem?.mp (mem_queued.mpr ⟨hqr, rfl⟩)
      obtain ⟨hjlt, hjq⟩ := (hh.entry_iff (hl q hqr)).mpr hj
      exact hnone _ _ _ ⟨hl q hqr, hjlt, hjq, (refreshed_state k slots q).trans hqr⟩
    · exact .inr ⟨l, i, p, removeAt m l i, hent, hfirst,
        by rw [schedMlfq, hm, map_some, hs]; rfl, level_removeAt hh.ok hent.2.1,
        fun _ q => hh.first hl hent hfirst⟩
  · have hne : ∃ l < QUEUE_LEVELS, k.mlfq.level l ≠ [] := by
      by_contra hcon
      exact he fun l hll => by_contra fun hn => hcon ⟨l, hll, hn⟩
    obtain ⟨l0, hl0, hne⟩ := hne
    have hm := refill_of_nonempty hl0 hne
    refine ⟨k, fun _ => rfl, fun h => absurd h he, ?_⟩
    rcases scanMlfq_first k c with ⟨hs, hnone⟩ | ⟨l, i, p, hent, hfirst, hs⟩
    · exact .inl ⟨by rw [schedMlfq, hm, map_some, hs], hnone, fun h => absurd h he⟩
    · exact .inr ⟨l, i, p, _, hent, hfirst, by rw [schedMlfq, hm, map_some, hs],
        level_removeAt hq hent.2.1, fun h => absurd h he⟩

/-- A child is forked under round robin and the policy set to MLFQ: the queues are empty, and the other
CPU refills them and dispatches. -/
theorem mlfq_iteration_refills : ∃ k : Kernel, k.mlfq.Ok ∧ (∀ l < QUEUE_LEVELS, k.mlfq.level l = []) ∧
    (k.proc 1).state = .runnable ∧ ∃ q k', schedMlfq k 1 = some (some q, k') := by
  obtain ⟨k, hr, -, ht⟩ := run_of_ops [.schedule 0, .forkret 0, .fork 0 ⟨true, true, true⟩, .setSched 0 4]
    (fun k => (k.proc 1).state = .runnable ∧ ∀ l < QUEUE_LEVELS, k.mlfq.level l = [])
    (by decide +kernel)
  obtain ⟨hrun, hempty⟩ := of_decide_eq_true ht
  have hs := Sound.run hr
  obtain ⟨k1, -, -, ⟨-, -, hnone⟩ | ⟨l, i, p, m, -, -, hd, -⟩⟩ :=
    mlfq_iteration hs.ok (fun p _ => hs.lvl p) 1
  · exact absurd hrun (hnone hempty 1)
  · exact ⟨k, hs.ok, hempty, hrun, p, _, hd⟩

end Xv6.Sched.Order
