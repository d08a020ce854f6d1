import Mathlib.Data.List.Perm.Subperm
import Xv6.Lib.Arrays
import Xv6.Sched.Defs

/-!
# The multi-level feedback queues

`struct mlfq_t` with `enqueue_to_mlfq`, `compact_queue` and the removal the scheduler does.  `Mlfq.level q l` is
the list in use at level `l`: enqueueing moves the process to the end of its level, a removal drops one entry.
`Mlfq.Ok` is kept by both, and under it the panic `MLFQ: queue full` is not reached (`enqueueToMlfq_isSome`).

`Lists` are the queues without the arrays, which refine them (`queues_refine_lists`).
-/

namespace Xv6.Sched.Queues

open Lib.Arrays Param Sched.Defs List Function Option

/-- `struct mlfq_t` without its lock. -/
structure Mlfq where
  queue : ℕ → ℕ → Option Slot
  qsize : ℕ → ℕ

namespace Mlfq

def init : Mlfq := ⟨fun _ _ => none, fun _ => 0⟩

def level (q : Mlfq) (l : ℕ) : List (Option Slot) := seg (q.queue l) (q.qsize l)

def setLevel (q : Mlfq) (l : ℕ) (r : (ℕ → Option Slot) × ℕ) : Mlfq :=
  ⟨update q.queue l r.1, update q.qsize l r.2⟩

theorem level_setLevel (q : Mlfq) (l : ℕ) (r : (ℕ → Option Slot) × ℕ) (l' : ℕ) :
    (q.setLevel l r).level l' = if l' = l then seg r.1 r.2 else q.level l' := by
  unfold level setLevel
  by_cases h : l' = l
  · subst h; simp
  · simp [h]

def Has (q : Mlfq) (p : Slot) : Prop := ∃ l < QUEUE_LEVELS, some p ∈ q.level l

structure Ok (q : Mlfq) : Prop where
  nodup : ∀ l, (q.level l).Nodup
  noNull : ∀ l, none ∉ q.level l

theorem ok_init : init.Ok := ⟨fun l => by simp [level, init], fun l => by simp [level, init]⟩

theorem length_le_of_nodup {L : List (Option Slot)} (hL : L.Nodup) (hn : none ∉ L) : L.length ≤ NPROC := by
  have hsub : L ⊆ slots.map some := by
    intro x hx
    rcases x with _ | p
    · exact absurd hx hn
    · simp
  simpa using (subperm_of_subset hL hsub).length_le

theorem Ok.length_le {q : Mlfq} (h : q.Ok) (l : ℕ) : (q.level l).length ≤ NPROC := by
  refine length_le_of_nodup (h.nodup l) fun hn => h.noNull l hn

end Mlfq

/-- `enqueue_to_mlfq(p)` with `level = p->queue_level`: drop `p` from the level if it is there, then
append it.  `none` is the panic `MLFQ: queue full`. -/
def enqueueToMlfq (q : Mlfq) (level : ℕ) (p : Slot) : Option Mlfq :=
  let r := dropFirst (q.queue level) (q.qsize level) (some p)
  if r.2 < NPROC then some (q.setLevel level (update r.1 r.2 (some p), r.2 + 1)) else none

def compactQueue (q : Mlfq) (level : ℕ) : Mlfq :=
  q.setLevel level (squeeze Option.isSome (q.queue level) 0 0 (q.qsize level))

/-- The removal in the MLFQ branch of `scheduler`: `mlfq.queue[level][i] = 0` and
`compact_queue(level)`. -/
def removeAt (q : Mlfq) (level i : ℕ) : Mlfq :=
  compactQueue ⟨update q.queue level (update (q.queue level) i none), q.qsize⟩ level

theorem level_enqueueToMlfq {q q' : Mlfq} {l : ℕ} {p : Slot} (h : enqueueToMlfq q l p = some q') (l' : ℕ) :
    q'.level l' = if l' = l then (q.level l).erase (some p) ++ [some p] else q.level l' := by
  unfold enqueueToMlfq at h
  simp only at h
  split_ifs at h
  cases h
  rw [Mlfq.level_setLevel, seg_push, seg_dropFirst]; rfl

theorem mem_level_enqueueToMlfq {q q' : Mlfq} {l : ℕ} {p : Slot}
    (h : enqueueToMlfq q l p = some q') {l' : ℕ} {x : Option Slot} :
    x ∈ q'.level l' ↔ x ∈ q.level l' ∨ (l' = l ∧ x = some p) := by
  rw [level_enqueueToMlfq h]
  by_cases hl : l' = l
  · subst hl
    by_cases hx : x = some p
    · simp [hx]
    · simp [hx]
  · simp [hl]

theorem Mlfq.Ok.enqueueToMlfq {q q' : Mlfq} (hq : q.Ok) {l : ℕ} {p : Slot}
    (h : enqueueToMlfq q l p = some q') : q'.Ok := by
  refine ⟨fun l' => ?_, fun l' hn => ?_⟩
  · rw [level_enqueueToMlfq h]
    split_ifs
    · refine nodup_append.mpr ⟨(hq.nodup l).erase _, by simp, ?_⟩
      intro x hx y hy hxy
      rw [mem_singleton] at hy
      subst hxy hy; exact (hq.nodup l).not_mem_erase hx
    · exact hq.nodup l'
  · rcases (mem_level_enqueueToMlfq h).mp hn with hn | ⟨-, hn⟩
    · exact hq.noNull l' hn
    · cases hn

/-- **The panic is not reached**: with the process dropped, a level without nulls and repetitions
has room. -/
theorem enqueueToMlfq_isSome {q : Mlfq} (hq : q.Ok) (l : ℕ) (p : Slot) : (enqueueToMlfq q l p).isSome := by
  have hlt : ((q.level l).erase (some p)).length < NPROC := by
    by_cases hp : some p ∈ q.level l
    · have h1 := length_erase_of_mem hp
      have h2 := hq.length_le l
      have h3 := length_pos_of_mem hp; omega
    · rw [erase_of_not_mem hp]
      have hle := Mlfq.length_le_of_nodup (nodup_cons.mpr ⟨hp, hq.nodup l⟩) (by
        rw [mem_cons, not_or]
        exact ⟨by simp, hq.noNull l⟩)
      rw [length_cons] at hle; omega
  unfold enqueueToMlfq
  have hr : (dropFirst (q.queue l) (q.qsize l) (some p)).2 < NPROC := by
    rw [dropFirst_snd]; exact hlt
  simp [hr]

theorem level_removeAt {q : Mlfq} (hq : q.Ok) {l i : ℕ} (hi : i < q.qsize l) (l' : ℕ) :
    (removeAt q l i).level l' = if l' = l then (q.level l).eraseIdx i else q.level l' := by
  unfold removeAt compactQueue
  rw [Mlfq.level_setLevel]
  by_cases hl : l' = l
  · subst hl
    simp only [update_self]
    refine seg_squeeze_update Option.isSome (q.queue l') hi rfl fun k hk => ?_
    have hmem : q.queue l' k ∈ q.level l' := mem_seg.mpr ⟨k, hk, rfl⟩
    cases hx : q.queue l' k with
    | none => exact absurd (hx ▸ hmem) (hq.noNull l')
    | some r => rfl
  · simp [Mlfq.level, hl]

theorem mem_level_removeAt {q : Mlfq} (hq : q.Ok) {l i : ℕ} {p : Slot} (hi : i < q.qsize l)
    (hp : q.queue l i = some p) {l' : ℕ} {x : Option Slot} :
    x ∈ (removeAt q l i).level l' ↔ x ∈ q.level l' ∧ ¬ (l' = l ∧ x = some p) := by
  rw [level_removeAt hq hi]
  by_cases hl : l' = l
  · subst hl
    have hidx : (q.level l').idxOf (some p) = i := by
      have hlen : i < (q.level l').length := by simpa [Mlfq.level] using hi
      have hget : (q.level l')[i] = some p := by simp [Mlfq.level, hp]
      rw [← hget]; exact (hq.nodup l').idxOf_getElem i hlen
    rw [if_pos rfl, ← erase_eq_eraseIdx_of_idxOf hidx, (hq.nodup l').mem_erase_iff]
    tauto
  · simp [hl]

theorem Mlfq.Ok.removeAt {q : Mlfq} (hq : q.Ok) {l i : ℕ} (hi : i < q.qsize l) : (removeAt q l i).Ok := by
  refine ⟨fun l' => ?_, fun l' hn => ?_⟩
  · rw [level_removeAt hq hi]
    split_ifs
    · exact (hq.nodup l).sublist (eraseIdx_sublist _ _)
    · exact hq.nodup l'
  · rw [level_removeAt hq hi] at hn
    split_ifs at hn with hl
    · exact hq.noNull l (mem_of_mem_eraseIdx hn)
    · exact hq.noNull l' hn

/-! ## The queues as lists -/

/-- What is done with the queues: `enqueue_to_mlfq` for a process of a level, and the removal of the entry
`i` of a level when it is dispatched. -/
inductive QueueOp
  | enqueue (level : ℕ) (p : Slot)
  | dispatch (level i : ℕ)

/-- An operation on the arrays; `none` is the panic. -/
def Mlfq.step (q : Mlfq) : QueueOp → Option Mlfq
  | .enqueue l p => enqueueToMlfq q l p
  | .dispatch l i => some (removeAt q l i)

abbrev Lists := ℕ → List Slot

/-- The operation on the lists, for a level below `QUEUE_LEVELS` and an entry in use. -/
def Lists.step (L : Lists) : QueueOp → Option Lists
  | .enqueue l p =>
    if l < QUEUE_LEVELS then some (update L l ((L l).filter (· ≠ p) ++ [p])) else none
  | .dispatch l i =>
    if l < QUEUE_LEVELS ∧ i < (L l).length then some (update L l ((L l).eraseIdx i)) else none

structure Refines (q : Mlfq) (L : Lists) : Prop where
  level : ∀ l, q.level l = (L l).map some
  nodup : ∀ l, (L l).Nodup

variable {q : Mlfq} {L L' : Lists}

theorem refines_init : Refines Mlfq.init fun _ => [] := ⟨fun _ => rfl, fun _ => nodup_nil⟩

section
variable (h : Refines q L)
include h

theorem Refines.ok : q.Ok := by
  refine ⟨fun l => ?_, fun l hn => ?_⟩
  · rw [h.level]; exact (h.nodup l).map (some_injective _)
  · rw [h.level] at hn; obtain ⟨p, -, hp⟩ := mem_map.mp hn; cases hp

theorem Refines.length (l : ℕ) : (L l).length = q.qsize l := by
  have hlen : (q.level l).length = q.qsize l := length_seg _ _
  rw [← hlen, h.level, length_map]

theorem Refines.enqueue (l : ℕ) (p : Slot) : ∃ q', enqueueToMlfq q l p = some q' ∧
    Refines q' (update L l ((L l).filter (· ≠ p) ++ [p])) := by
  obtain ⟨q', hq'⟩ := isSome_iff_exists.mp (enqueueToMlfq_isSome h.ok l p)
  have herase : (L l).erase p = (L l).filter (· ≠ p) := by
    rw [(h.nodup l).erase_eq_filter p]
    exact filter_congr fun x _ => Bool.eq_iff_iff.mpr (by simp)
  refine ⟨q', hq', fun l' => ?_, fun l' => ?_⟩
  · rw [level_enqueueToMlfq hq']
    by_cases hl : l' = l
    · subst hl
      rw [if_pos rfl, update_self, h.level, map_append, ← herase, map_erase (some_injective _)]
      rfl
    · rw [if_neg hl, update_of_ne hl]; exact h.level l'
  · by_cases hl : l' = l
    · subst hl
      rw [update_self, ← herase]
      refine nodup_append.mpr ⟨(h.nodup l').erase p, nodup_singleton p, fun x hx y hy hxy => ?_⟩
      rw [mem_singleton] at hy
      subst hxy hy; exact (h.nodup l').not_mem_erase hx
    · rw [update_of_ne hl]; exact h.nodup l'

theorem Refines.dispatch {l i : ℕ} (hi : i < (L l).length) :
    Refines (removeAt q l i) (update L l ((L l).eraseIdx i)) := by
  rw [h.length] at hi
  refine ⟨fun l' => ?_, fun l' => ?_⟩
  · rw [level_removeAt h.ok hi]
    by_cases hl : l' = l
    · subst hl
      rw [if_pos rfl, update_self, h.level, eraseIdx_map]
    · rw [if_neg hl, update_of_ne hl]; exact h.level l'
  · exact (forall_update_iff L fun _ l => l.Nodup).mpr
      ⟨(h.nodup l).sublist (eraseIdx_sublist _ _), fun l' _ => h.nodup l'⟩ l'

theorem Refines.step {op : QueueOp} (hop : L.step op = some L') : ∃ q', q.step op = some q' ∧ Refines q' L' := by
  cases op with
  | enqueue l p =>
    obtain ⟨-, hL⟩ := ite_none_right_eq_some.mp hop
    cases hL; exact h.enqueue l p
  | dispatch l i =>
    obtain ⟨⟨-, hi⟩, hL⟩ := ite_none_right_eq_some.mp hop
    cases hL; exact ⟨_, rfl, h.dispatch hi⟩

theorem Refines.steps {ops : List QueueOp} (hops : ops.foldlM Lists.step L = some L') :
    ∃ q', ops.foldlM Mlfq.step q = some q' ∧ Refines q' L' := by
  induction ops generalizing q L with
  | nil =>
    cases hops; exact ⟨q, rfl, h⟩
  | cons op ops ih =>
    obtain ⟨L1, hL1, hrest⟩ := bind_eq_some_iff.mp hops
    obtain ⟨q1, hq1, h1⟩ := h.step hL1
    obtain ⟨q', hq', h'⟩ := ih h1 hrest
    exact ⟨q', by rw [foldlM_cons, hq1]; exact hq', h'⟩

end

/-- **The arrays refine lists.**  From `mlfq_init`, after any operations on levels below `QUEUE_LEVELS` and
entries in use, no operation has panicked, the entries in use of each level are the list that the operations
give, and this list has no process twice and at most `NPROC` entries. -/
theorem queues_refine_lists {ops : List QueueOp} (h : ops.foldlM Lists.step (fun _ => []) = some L) :
    ∃ q, ops.foldlM Mlfq.step Mlfq.init = some q ∧
      ∀ l, q.level l = (L l).map some ∧ (L l).Nodup ∧ q.qsize l ≤ NPROC := by
  obtain ⟨q, hq, href⟩ := refines_init.steps h
  refine ⟨q, hq, fun l => ⟨href.level l, href.nodup l, ?_⟩⟩
  have hle := href.ok.length_le l; rwa [Mlfq.level, length_seg] at hle

/-- Two processes of one level, the first enqueued again, and the other dispatched. -/
theorem queues_refine_lists_moved : ∃ q, [QueueOp.enqueue 1 3, .enqueue 1 5, .enqueue 1 3, .dispatch 1 0].foldlM
    Mlfq.step Mlfq.init = some q ∧ q.level 1 = [some 3] := by
  have hL : [QueueOp.enqueue 1 3, .enqueue 1 5, .enqueue 1 3, .dispatch 1 0].foldlM Lists.step (fun _ => []) =
      some (update (update (update (update (fun _ => []) 1 [3]) 1 [3, 5]) 1 [5, 3]) 1 [3]) := rfl
  obtain ⟨q, hq, hlevel⟩ := queues_refine_lists hL; exact ⟨q, hq, (hlevel 1).1⟩

end Xv6.Sched.Queues
