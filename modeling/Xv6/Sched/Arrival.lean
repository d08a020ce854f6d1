import Xv6.Sched.Life
import Xv6.Sched.Scans

/-!
# First come, first served

The FCFS branch of `scheduler` picks a runnable process of least `arrival_time`, and among those of one tick the
one in the lowest slot (`scan_fcfs`).  A history variable (`Births`) numbers the processes in the order of
`allocpid`.  Slots are reused from the bottom of the table, so within one tick a later process may get a lower
slot than an earlier one.
-/

namespace Xv6.Sched.Arrival

open Lib.Runs Param Sched.Defs Sched.Queues Sched.Ops Sched.Step Sched.Facts Option BitVec Nat
open Sched.Running Sched.Life Sched.Scans

variable {k k' : Kernel} {c : ℕ} {p : Slot} {op : Op} {q : Slot}

theorem scan_fcfs {t : Word} {table : Slot → Proc} (h : scan .fcfs t table = some p) (q : Slot)
    (hq : (table q).state = .runnable) : (table p).arrivalTime.toNat ≤ (table q).arrivalTime.toNat ∧
    ((table q).arrivalTime = (table p).arrivalTime → p ≤ q) := by
  have hf := scan_fcfs_eq_some.mp h
  have hr := (first_eligible_iff (hf.mem.2.2 rfl)).mp hf
  obtain ⟨-, hmin⟩ := first_slots_iff.mp hr
  exact ⟨(hmin q hq).1, fun he => (hmin q hq).2 (by rw [he])⟩

/-! ## The order of creation -/

/-- What is recorded of a run: the ticks since boot, the number of the next process, and the numbers
of the processes in the table.  The numbers are those of `allocpid`, without wrapping. -/
structure Births where
  now : ℕ
  next : ℕ
  born : Slot → ℕ

def Births.start : Births := ⟨0, 2, fun _ => 1⟩

def Created (k k' : Kernel) (p : Slot) : Prop :=
  (k.proc p).state = .unused ∧ (k'.proc p).state ≠ .unused

instance (k k' : Kernel) (p : Slot) : Decidable (Created k k' p) :=
  inferInstanceAs (Decidable (_ ∧ _))

def note (k : Kernel) (op : Op) (k' : Kernel) (g : Births) : Births where
  now := g.now + (ticked op).toNat
  next := if k'.nextpid = k.nextpid then g.next else g.next + 1
  born p := if Created k k' p then g.next else g.born p

def bornSys : Sys (Kernel × Births) Op := sys.hist Births.start note

def Alive (v : Proc) : Prop := v.state ≠ .unused ∧ v.state ≠ .zombie

instance : DecidablePred Alive := fun _ => inferInstanceAs (Decidable (_ ∧ _))

/-- The slot `np` is above those of the processes made in this tick. -/
def Above (k : Kernel) (np : Slot) : Prop :=
  ∀ q, Alive (k.proc q) → (k.proc q).arrivalTime = k.ticks → q < np

instance (k : Kernel) : DecidablePred (Above k) := fun _ => inferInstanceAs (Decidable (∀ _, _))

def TakesAbove (k : Kernel) : Op → Prop
  | .fork _ a | .forkWithPriority _ _ a =>
    (a.trapframe && a.pagetable && a.uvmcopy) = true →
      ((slots.find? fun q => (k.proc q).state = .unused).all fun np => Above k np) = true
  | _ => True

instance (k : Kernel) : DecidablePred (TakesAbove k)
  | .fork _ _ | .forkWithPriority _ _ _ => inferInstanceAs (Decidable (_ → _))
  | .yield _ | .sleep _ _ | .wakeup _ _ | .kill _ _ | .setkilled _ | .exit _ _ | .wait _ _
  | .setSched _ _ | .setPriority _ _ _ | .usertrapTimer _ | .kerneltrapTimer _ | .schedule _ | .forkret _ =>
    .isTrue trivial

theorem forkWith_created {start : Word → Proc → Proc} {a : Alloc} {r : Word}
    (hstart : ∀ v, (start k.ticks v).arrivalTime = v.arrivalTime)
    (h : forkWith start k p a = some (r, k')) (hq : Created k k' q) :
    (a.trapframe && a.pagetable && a.uvmcopy) = true ∧ (slots.find? fun x => (k.proc x).state = .unused) = some q ∧
    (k'.proc q).arrivalTime = k.ticks ∧ k'.nextpid ≠ k.nextpid := by
  have hnp : k.nextpid + 1 ≠ k.nextpid := by bv_omega
  rw [forkWith_eq] at h
  cases hf : slots.find? fun x => (k.proc x).state = .unused with
  | none =>
    rw [hf] at h
    cases h; exact absurd hq.1 hq.2
  | some np =>
    rw [hf] at h
    -- a slot given back is unused again, and the other slots are not touched
    have hback : ∀ f : Proc → Proc,
        ¬ Created k ({ k with nextpid := k.nextpid + 1 }.modProc np fun v => (f v).freeproc) q := by
      rintro f ⟨hu, hn⟩
      rw [modProc_proc] at hn
      split_ifs at hn
      · exact hn rfl
      · exact hn hu
    split_ifs at h with h1 h2
    · obtain ⟨k1, hk1, he⟩ := map_eq_some_iff.mp h
      obtain ⟨m, hm, -⟩ := enqueueIfMlfq_eq hk1
      cases he
      have hproc : ∀ x, k'.proc x = if x = np then start k.ticks
          { ((k.proc np).allocFound k.nextpid).allocInit k.ticks with parent := some p }
          else k.proc x := by
        intro x
        rw [hm]
        rw [modProc_proc]
      by_cases hqn : q = np
      · subst hqn
        refine ⟨by rw [h1, h2]; rfl, rfl, ?_, by rw [hm]; exact hnp⟩
        rw [hproc, if_pos rfl, hstart]; rfl
      · have hn := hq.2; rw [hproc, if_neg hqn] at hn; exact absurd hq.1 hn
    · cases h; exact absurd hq (hback _)
    · cases h; exact absurd hq (hback _)

theorem exec_created (hb : Base k) (h : exec k op = some k') (hq : Created k k' q) :
    (TakesAbove k op → Above k q) ∧ ticked op = 0 ∧ (k'.proc q).arrivalTime = k.ticks ∧ k'.nextpid ≠ k.nextpid ∧
    (slots.find? fun x => (k.proc x).state = .unused) = some q := by
  rcases exec_effect hb h q with ⟨pa, pr, l, s, n, hm⟩ | ⟨c, hop, hv⟩ | ⟨c, hop, hs, hv⟩ |
    ⟨hop, hs, w, hw, hv⟩ | ⟨c, -, hs, w, hw, f, hf, hv⟩ | ⟨c, b, hop, hs, -, w, hw, hv⟩ |
    ⟨c, o, hop, hs, hv⟩ | ⟨hs, w, hw, hv⟩ | ⟨c, a, p, rfl, hs, hv⟩ | ⟨c, n, a, p, rfl, hs, hv⟩ | ⟨c, hop, hs, -, hv⟩
  · have hn := hq.2; rw [hm] at hn; exact absurd hq.1 hn
  · have hn := hq.2; rw [hv] at hn; simp [Proc.kill, hq.1] at hn
  · simp [hq.1] at hs
  · simp [hq.1] at hs
  · simp [hq.1] at hs
  · simp [hq.1] at hs
  · simp [hq.1] at hs
  · have hn := hq.2; rw [hv] at hn; exact absurd rfl hn
  · obtain ⟨p, -, h⟩ := bind_eq_some_iff.mp h
    obtain ⟨⟨r, k1⟩, hf, rfl⟩ := map_eq_some_iff.mp h
    obtain ⟨ha, hfind, harr, hnp⟩ := forkWith_created (fun _ => rfl) hf hq
    exact ⟨fun hta => by simpa [hfind] using hta ha, rfl, harr, hnp, hfind⟩
  · obtain ⟨p, -, h⟩ := bind_eq_some_iff.mp h
    obtain ⟨⟨r, k1⟩, hf, rfl⟩ := map_eq_some_iff.mp h
    obtain ⟨ha, hfind, harr, hnp⟩ := forkWith_created (fun _ => rfl) hf hq
    exact ⟨fun hta => by simpa [hfind] using hta ha, rfl, harr, hnp, hfind⟩
  · simp [hq.1] at hs

/-- The record and the table agree.  Of two processes that will be scheduled again, the one created
later arrived later, or in the same tick in a higher slot. -/
structure Ordered (x : Kernel × Births) : Prop where
  ticks : x.1.ticks = BitVec.ofNat 32 x.2.now
  born : ∀ p, (x.1.proc p).state ≠ .unused → x.2.born p < x.2.next
  arrived : x.2.now < 2 ^ 32 → ∀ p, (x.1.proc p).state ≠ .unused → (x.1.proc p).arrivalTime.toNat ≤ x.2.now
  distinct : ∀ p q, (x.1.proc p).state ≠ .unused → (x.1.proc q).state ≠ .unused →
    x.2.born p = x.2.born q → p = q
  order : x.2.now < 2 ^ 32 → ∀ p q, Alive (x.1.proc p) → Alive (x.1.proc q) → x.2.born p < x.2.born q →
      (x.1.proc p).arrivalTime.toNat ≤ (x.1.proc q).arrivalTime.toNat ∧
      ((x.1.proc p).arrivalTime = (x.1.proc q).arrivalTime → p < q)

theorem exec_arrival (hb : Base k) (h : exec k op = some k') (q : Slot)
    (hs : (k'.proc q).state ≠ .unused) (hn : ¬ Created k k' q) :
    (k.proc q).state ≠ .unused ∧ (k'.proc q).arrivalTime = (k.proc q).arrivalTime ∧
    (Alive (k'.proc q) → Alive (k.proc q)) := by
  have hu : (k.proc q).state ≠ .unused := fun hu => hn ⟨hu, hs⟩
  refine ⟨hu, ?_⟩
  rcases exec_effect hb h q with ⟨pa, pr, l, s, n, hm⟩ | ⟨c, hop, hv⟩ | ⟨c, hop, hs, hv⟩ |
    ⟨hop, hs, w, hw, hv⟩ | ⟨c, -, hs, w, hw, f, hf, hv⟩ | ⟨c, b, hop, hs, -, w, hw, hv⟩ |
    ⟨c, o, hop, hs, hv⟩ | ⟨hs, w, hw, hv⟩ | ⟨c, a, p, rfl, hs, hv⟩ | ⟨c, n, a, p, rfl, hs, hv⟩ | ⟨c, hop, hs, -, hv⟩
  · rw [hm]; exact ⟨rfl, id⟩
  · rw [hv]
    refine ⟨rfl, fun ha => ⟨hu, fun hz => ?_⟩⟩
    simp [Alive, Proc.kill, hz] at ha
  · rw [hv]; exact ⟨rfl, id⟩
  · obtain ⟨pa, pr, l, s, n, rfl⟩ := hw
    rw [hv]; exact ⟨rfl, fun _ => ⟨hu, by simp [hs]⟩⟩
  · obtain ⟨r, hr⟩ := backFrom_eq (k.cpus c).pc (k.ticks + ticked op) (f w)
    obtain ⟨pa, pr, l, s, n, rfl⟩ := hw
    refine ⟨?_, fun _ => ⟨hu, by simp [hs]⟩⟩
    rw [hv, hr]
    cases hf <;> rfl
  · obtain ⟨pa, pr, l, s, n, rfl⟩ := hw
    refine ⟨?_, fun _ => ⟨hu, by simp [hs]⟩⟩
    rw [hv]
    unfold Proc.resume Proc.startRun
    split <;> rfl
  · rename_i hs'; rw [hv] at hs'; exact absurd rfl hs'
  · exact absurd hs hu
  · exact absurd hs hu
  · exact absurd hs hu
  · rw [hv]; exact ⟨rfl, id⟩

theorem le_note_next (k k' : Kernel) (op : Op) (g : Births) : g.next ≤ (note k op k' g).next := by
  simp only [note]
  split_ifs
  · exact le_rfl
  · exact le_succ _

theorem Ordered.step (hb : Base k) {g : Births} (ho : Ordered (k, g)) (hop : TakesAbove k op)
    (h : exec k op = some k') : Ordered (k', note k op k' g) := by
  have htick : k.ticks + ticked op = BitVec.ofNat 32 (g.now + (ticked op).toNat) := by
    rw [ho.ticks, ofNat_add, ofNat_toNat, setWidth_eq]
  have hmono := le_note_next k k' op g
  have hnew : ∀ p, Created k k' p → (note k op k' g).born p = g.next := fun p hp => if_pos hp
  have hold : ∀ p, ¬ Created k k' p → (note k op k' g).born p = g.born p := fun p hp => if_neg hp
  have hlt : ∀ p, Created k k' p → g.next < (note k op k' g).next := by
    intro p hp
    obtain ⟨-, -, -, hnp, -⟩ := exec_created hb h hp
    simp only [note, if_neg hnp]; exact lt_succ_self _
  have huniq : ∀ p q, Created k k' p → Created k k' q → p = q := by
    intro p q hp hq
    obtain ⟨-, -, -, -, h1⟩ := exec_created hb h hp
    obtain ⟨-, -, -, -, h2⟩ := exec_created hb h hq
    rw [h1] at h2; exact Option.some.inj h2
  have hnow : ∀ {x : ℕ}, g.now + x < 2 ^ 32 → g.now < 2 ^ 32 := fun h => by omega
  have harr : ∀ p, Created k k' p → g.now < 2 ^ 32 → (k'.proc p).arrivalTime.toNat = g.now := by
    intro p hp hw
    rw [(exec_created hb h hp).2.2.1, ho.ticks, toNat_ofNat, mod_eq_of_lt hw]
  refine ⟨(exec_ticks h).trans htick, fun p hs => ?_, fun hw p hs => ?_, fun p q hp hq he => ?_,
    fun hw p q hp hq hpq => ?_⟩
  · by_cases hc : Created k k' p
    · rw [hnew p hc]; exact hlt p hc
    · rw [hold p hc]
      exact (ho.born p (exec_arrival hb h p hs hc).1).trans_le hmono
  · by_cases hc : Created k k' p
    · rw [harr p hc (hnow hw)]; exact le_add_right _ _
    · obtain ⟨hu, ha, -⟩ := exec_arrival hb h p hs hc
      rw [ha]; exact (ho.arrived (hnow hw) p hu).trans (le_add_right _ _)
  · by_cases hcp : Created k k' p
    · by_cases hcq : Created k k' q
      · exact huniq p q hcp hcq
      · have hbq := ho.born q (exec_arrival hb h q hq hcq).1
        rw [hnew p hcp, hold q hcq] at he
        exact absurd hbq (by rw [he]; exact lt_irrefl _)
    · have hup := (exec_arrival hb h p hp hcp).1
      by_cases hcq : Created k k' q
      · have hbp := ho.born p hup
        rw [hold p hcp, hnew q hcq] at he
        exact absurd hbp (by rw [he]; exact lt_irrefl _)
      · rw [hold p hcp, hold q hcq] at he
        exact ho.distinct p q hup (exec_arrival hb h q hq hcq).1 he
  · by_cases hcq : Created k k' q
    · by_cases hcp : Created k k' p
      · rw [huniq p q hcp hcq] at hpq; exact absurd hpq (lt_irrefl _)
      · -- `q` is new: `p` is as old as the tick counter, or in a lower slot
        obtain ⟨hup, hap, hal⟩ := exec_arrival hb h p hp.1 hcp
        obtain ⟨habove, -, haq, -, -⟩ := exec_created hb h hcq
        rw [hap, harr q hcq (hnow hw)]
        refine ⟨ho.arrived (hnow hw) p hup, fun he => ?_⟩
        exact habove hop p (hal hp) (he.trans haq)
    · obtain ⟨huq, haq, halq⟩ := exec_arrival hb h q hq.1 hcq
      by_cases hcp : Created k k' p
      · have hbq := ho.born q huq
        rw [hnew p hcp, hold q hcq] at hpq
        exact absurd (hpq.trans hbq) (lt_irrefl _)
      · obtain ⟨hup, hap, halp⟩ := exec_arrival hb h p hp.1 hcp
        rw [hold p hcp, hold q hcq] at hpq
        rw [hap, haq]; exact ho.order (hnow hw) p q (halp hp) (halq hq) hpq

theorem Ordered.run {x : Kernel × Births} {h : List ((Kernel × Births) × Op)}
    (hr : Run bornSys h x) (hok : ∀ y ∈ h, TakesAbove y.1.1 y.2) : Base x.1 ∧ Ordered x := by
  refine hr.inv_of_ok (I := fun x => Base x.1 ∧ Ordered x) (C := fun x op => TakesAbove x.1 op)
    (fun x h0 => ?_) (fun x op y hx hop hs => ?_) hok
  · obtain ⟨k, g⟩ := x
    obtain ⟨h1, rfl⟩ := h0
    rw [show k = boot from sys_init h1]
    have huse : ∀ p, (boot.proc p).state ≠ .unused → p = 0 := by
      intro p hp
      by_contra h0
      rw [show boot.proc p = {} from Function.update_of_ne h0 _ _] at hp
      exact hp rfl
    refine ⟨Base.boot, rfl, fun p hp => by simp [Births.start], fun _ p hp => ?_,
      fun p q hp hq _ => (huse p hp).trans (huse q hq).symm, fun _ p q hp hq hpq => ?_⟩
    · rw [huse p hp]; exact le_rfl
    · exact absurd hpq (lt_irrefl _)
  · obtain ⟨k, g⟩ := x
    obtain ⟨k', g'⟩ := y
    obtain ⟨h1, h2⟩ := hs
    have hg : g' = note k op k' g := h2
    subst hg; exact ⟨hx.1.exec h1, hx.2.step hx.1 hop h1⟩

theorem schedule_fcfs (hb : k.currentPolicy = .fcfs) (hc : (k.cpus c).pc = .top)
    (h : schedule k c = some (some p, k')) : scan .fcfs k.ticks k.proc = some p := by
  unfold schedule schedScan at h
  rw [hc, hb] at h
  dsimp only at h
  cases hs : scan .fcfs k.ticks k.proc with
  | none => rw [hs] at h; cases h
  | some q =>
    rw [hs] at h
    cases h; rfl

/-- **First come, first served**: in every run whose forks take slots above those of the processes made
in the same tick, each process the FCFS branch dispatches was created before every other runnable
one. -/
theorem fcfs_in_order {h : List ((Kernel × Births) × Op)} {g : Births}
    (hr : Run bornSys h (k, g)) (hok : ∀ y ∈ h, TakesAbove y.1.1 y.2) (hw : g.now < 2 ^ 32)
    (hb : k.currentPolicy = .fcfs) (hc : (k.cpus c).pc = .top)
    (hd : schedule k c = some (some p, k')) (q : Slot) (hq : q ≠ p)
    (hs : (k.proc q).state = .runnable) : g.born p < g.born q := by
  obtain ⟨-, ho⟩ := Ordered.run hr hok
  have hscan := schedule_fcfs hb hc hd
  have hp : (k.proc p).state = .runnable := scan_runnable hscan
  obtain ⟨hle, hslot⟩ := scan_fcfs hscan q hs
  have hne : g.born p ≠ g.born q := fun he =>
    hq (ho.distinct p q (by simp [hp]) (by simp [hs]) he).symm
  by_contra hnot
  have hlt : g.born q < g.born p := by omega
  -- a runnable process created earlier arrived no later, so in the same tick and in a higher slot
  obtain ⟨hle', hslot'⟩ := ho.order hw q p ⟨by simp [hs], by simp [hs]⟩ ⟨by simp [hp], by simp [hp]⟩ hlt
  have he : (k.proc q).arrivalTime = (k.proc p).arrivalTime := eq_of_toNat_eq (le_antisymm hle' hle)
  exact absurd (hslot' he) (not_lt.mpr (hslot he))

/-- Under FCFS on one CPU, with the scheduler thread at the head of its loop, `init` forks two children
and waits. -/
def twoChildren : List Op :=
  [.schedule 0, .forkret 0, .setSched 0 1, .sleep 0 .ticks, .schedule 0, .wakeup 0 .ticks, .schedule 0,
    .fork 0 ⟨true, true, true⟩, .fork 0 ⟨true, true, true⟩, .wait 0 none]

/-- The children are dispatched in the order of their creation. -/
theorem fcfs_in_order_children : ∃ k g k', schedule k 0 = some (some 1, k') ∧
    (k.proc 2).state = .runnable ∧ Births.born g 1 < Births.born g 2 := by
  obtain ⟨⟨k, g⟩, hr, -, ht⟩ := hist_of_ops Births.start note twoChildren (fun x =>
    (∀ y ∈ stepsOf (histStep exec note) (boot, Births.start) twoChildren, TakesAbove y.1.1 y.2) ∧
    x.2.now = 0 ∧ x.1.currentPolicy = .fcfs ∧ (x.1.cpus 0).pc = .top ∧
    (schedule x.1 0).map Prod.fst = some (some 1) ∧ (x.1.proc 2).state = .runnable)
    (by decide +kernel)
  obtain ⟨h1, h2, h3, h4, h5, h6⟩ := of_decide_eq_true ht
  obtain ⟨⟨r, k'⟩, hs, rfl⟩ := map_eq_some_iff.mp h5
  have hw : g.now < 2 ^ 32 := by rw [show g.now = 0 from h2]; decide
  exact ⟨k, g, k', hs, h6, fcfs_in_order hr h1 hw h3 h4 hs 2 (by decide) h6⟩

/-- The first child exits and is reaped, and `init` forks a third one in the same tick. -/
def thirdChild : List Op :=
  [.schedule 0, .forkret 0, .exit 0 0, .schedule 0, .wait 0 none, .fork 0 ⟨true, true, true⟩, .wait 0 none]

/-- The third child, in the slot of the first one, is dispatched before the second one. -/
theorem later_child_first : ∃ h k g k', Run bornSys h (k, g) ∧
    h.map Prod.snd = twoChildren ++ thirdChild ∧ k.currentPolicy = .fcfs ∧ (k.cpus 0).pc = .top ∧
    schedule k 0 = some (some 1, k') ∧ (k.proc 2).state = .runnable ∧
    (k.proc 2).pid = 3 ∧ (k.proc 1).pid = 4 ∧ Births.born g 2 < g.born 1 := by
  obtain ⟨⟨k, g⟩, hr, hops, ht⟩ := hist_of_ops .start note (twoChildren ++ thirdChild) (fun x =>
    x.1.currentPolicy = .fcfs ∧ (x.1.cpus 0).pc = .top ∧
    (schedule x.1 0).map Prod.fst = some (some 1) ∧ (x.1.proc 2).state = .runnable ∧
    (x.1.proc 2).pid = 3 ∧ (x.1.proc 1).pid = 4 ∧ x.2.born 2 < x.2.born 1)
    (by decide +kernel)
  obtain ⟨h1, h2, h3, h4, h5, h6, h7⟩ := of_decide_eq_true ht
  obtain ⟨⟨r, k'⟩, hs, rfl⟩ := map_eq_some_iff.mp h3
  exact ⟨_, k, g, k', hr, hops, h1, h2, hs, h4, h5, h6, h7⟩

end Xv6.Sched.Arrival
