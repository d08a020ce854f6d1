import Mathlib.Algebra.Order.Field.Rat
import Mathlib.Tactic.NormNum
import Xv6.Lib.Select
import Xv6.Sched.Defs

/-!
# The selection scans of the scheduler

The FCFS, priority and HRRN branches of `scheduler` go once over the process table and keep a candidate
(`scan_eq_select`).  What each should find is the runnable process of least key, in the lowest slot among those
with that key (`Least`).

**Main results**: `priority_least`, `fcfs_least_iff`, `hrrn_least_iff`, `hrrn_of_small`.
-/

namespace Xv6.Sched.Scans

open Lib.Select Param Sched.Defs List Option Function

variable {κ : Type*} [LinearOrder κ] {ticks : Word} {table : Slot → Proc} {p q : Slot}

theorem slots_pairwise : slots.Pairwise (· < ·) := by
  unfold slots; exact pairwise_lt_finRange NPROC

theorem slots_nodup : slots.Nodup := slots_pairwise.imp fun h => h.ne

def Runnable (table : Slot → Proc) (p : Slot) : Prop := (table p).state = .runnable

instance : DecidablePred (Runnable table) := fun p => inferInstanceAs (Decidable ((table p).state = .runnable))

/-- A process is chosen exactly if one is runnable; it is runnable, its key is least among those of the
runnable processes, and its slot is lowest among those with that key. -/
structure Least (table : Slot → Proc) (key : Slot → κ) (chosen : Option Slot) : Prop where
  isSome_iff : chosen.isSome = true ↔ ∃ q, Runnable table q
  least : ∀ p, chosen = some p → Runnable table p ∧
    ∀ q, Runnable table q → key p ≤ key q ∧ (key q = key p → p ≤ q)

variable {key : Slot → κ}

theorem first_slots_iff {ok : Slot → Prop} :
    First ok key slots p ↔ ok p ∧ ∀ q, ok q → key p ≤ key q ∧ (key q = key p → p ≤ q) := by
  constructor
  · intro h
    refine ⟨h.mem.2, fun q hq => ⟨h.le (mem_slots q) hq, fun he => ?_⟩⟩
    obtain ⟨l1, l2, hl, hp, hlt, -⟩ := h
    have hs := hl ▸ slots_pairwise
    have hmem := hl ▸ mem_slots q
    rcases mem_append.mp hmem with hq1 | hq2
    · exact absurd he (hlt q hq1 hq).ne'
    · rcases mem_cons.mp hq2 with rfl | hq2
      · exact le_rfl
      · exact ((pairwise_cons.mp (pairwise_append.mp hs).2.1).1 q hq2).le
  · rintro ⟨hp, hq⟩
    obtain ⟨l1, l2, hl⟩ := append_of_mem (mem_slots p)
    have hs := hl ▸ slots_pairwise
    refine ⟨l1, l2, hl, hp, fun x hx hok => ?_, fun x _ hok => (hq x hok).1⟩
    have hxp : x < p := (pairwise_append.mp hs).2.2 x hx p (by simp)
    refine (hq x hok).1.lt_of_ne fun he => ?_
    exact absurd ((hq x hok).2 he.symm) (not_le.mpr hxp)

theorem least_some : Least table key (some p) ↔ First (Runnable table) key slots p := by
  rw [first_slots_iff]
  constructor
  · exact fun h => h.least p rfl
  · intro h
    refine ⟨⟨fun _ => ⟨p, h.1⟩, fun _ => rfl⟩, fun q hq => ?_⟩
    cases hq; exact h

theorem least_none : Least table key none ↔ ∀ q, ¬ Runnable table q := by
  constructor
  · intro h q hq; exact absurd (h.isSome_iff.mpr ⟨q, hq⟩) (by simp)
  · intro h
    refine ⟨⟨fun hn => absurd hn (by simp), fun ⟨q, hq⟩ => absurd hq (h q)⟩, fun p hp => by cases hp⟩

/-! ## The scans as selection passes -/

/-- The processes that may become the candidate of branch `b`: the FCFS branch takes the first one only
if it arrived before the initial value of `min_arrival`. -/
def Eligible (b : SchedPolicy) (table : Slot → Proc) (p : Slot) : Prop :=
  Runnable table p ∧ (b = .fcfs → (table p).arrivalTime ≠ -1)

instance {b : SchedPolicy} : DecidablePred (Eligible b table) := fun _ => inferInstanceAs (Decidable (_ ∧ _))

/-- The test of branch `b` by which `p` replaces the candidate `q`. -/
def beats (b : SchedPolicy) (ticks : Word) (table : Slot → Proc) (p q : Slot) : Bool :=
  (Scan.take ticks table q).better b ticks table p

def locals (ticks : Word) (table : Slot → Proc) : Option Slot → Scan
  | none => Scan.start
  | some q => Scan.take ticks table q

theorem ult_neg_one {a : Word} : a.ult (-1) = true ↔ a ≠ -1 := by
  rw [BitVec.ult_iff_lt, BitVec.lt_def, Ne, ← BitVec.toNat_inj]
  have hm : (-1 : Word).toNat = 2 ^ 32 - 1 := rfl; omega

theorem ne_neg_one_of_ult {a b : Word} (h : a.ult b = true) : a ≠ -1 := by
  rintro rfl
  rw [BitVec.ult_iff_lt, BitVec.lt_def] at h
  have hm : (-1 : Word).toNat = 2 ^ 32 - 1 := rfl; omega

theorem better_locals (b : SchedPolicy) (c : Option Slot) : (locals ticks table c).better b ticks table p = true ↔
      (b = .fcfs → (table p).arrivalTime ≠ -1) ∧ c.all (beats b ticks table p) = true := by
  rcases c with _ | q
  · rcases b <;> simp [locals, Scan.better, Scan.start]
    exact ult_neg_one
  · rcases b <;> simp [locals, beats]
    exact ne_neg_one_of_ult

theorem step_locals (b : SchedPolicy) (c : Option Slot) : Scan.step b ticks table (locals ticks table c) p =
      locals ticks table (step (Eligible b table) (beats b ticks table) c p) := by
  have htest : ((table p).state = .runnable ∧ (locals ticks table c).better b ticks table p = true) ↔
      (Eligible b table p ∧ c.all (beats b ticks table p) = true) := by
    rw [better_locals, Eligible, Runnable, and_assoc]
  unfold Scan.step step
  by_cases h : Eligible b table p ∧ c.all (beats b ticks table p) = true
  · rw [if_pos (htest.mpr h), if_pos h]; rfl
  · rw [if_neg (htest.not.mpr h), if_neg h]

theorem scan_eq_select (b : SchedPolicy) :
    scan b ticks table = select (Eligible b table) (beats b ticks table) slots := by
  have h : slots.foldl (Scan.step b ticks table) (locals ticks table none) =
      locals ticks table (slots.foldl (step (Eligible b table) (beats b ticks table)) none) :=
    foldl_hom _ fun c p => step_locals b c
  unfold scan select
  rw [show Scan.start = locals ticks table none from rfl, h]
  rcases slots.foldl (step (Eligible b table) (beats b ticks table)) none with _ | q <;> rfl

variable {b : SchedPolicy}

theorem eligible_iff (hb : b ≠ .fcfs) : Eligible b table p ↔ Runnable table p := by
  simp [Eligible, hb]

theorem eligible_eq (hb : b ≠ .fcfs) : Eligible b table = Runnable table := by
  funext p; exact propext (eligible_iff hb)

theorem beats_fcfs : beats .fcfs ticks table p q = true ↔
    (table p).arrivalTime.toNat < (table q).arrivalTime.toNat := by
  exact decide_eq_true_iff

theorem scan_fcfs_eq_some : scan .fcfs ticks table = some p ↔
    First (Eligible .fcfs table) (fun p => (table p).arrivalTime.toNat) slots p := by
  rw [scan_eq_select]; exact select_eq_some_iff_first fun x c _ _ => beats_fcfs

theorem first_eligible_iff (hp : (table p).arrivalTime ≠ -1) :
    First (Eligible .fcfs table) (fun p => (table p).arrivalTime.toNat) slots p ↔
      First (Runnable table) (fun p => (table p).arrivalTime.toNat) slots p := by
  rw [first_slots_iff, first_slots_iff]
  have hlt := (ult_neg_one.mpr hp)
  rw [BitVec.ult_iff_lt] at hlt
  constructor
  · rintro ⟨⟨hrun, -⟩, hmin⟩
    refine ⟨hrun, fun q hq => ?_⟩
    by_cases hmax : (table q).arrivalTime = -1
    · exact ⟨hmax ▸ hlt.le, fun he => absurd he (hmax ▸ hlt.ne')⟩
    · exact hmin q ⟨hq, fun _ => hmax⟩
  · rintro ⟨hrun, hmin⟩; exact ⟨⟨hrun, fun _ => hp⟩, fun q hq => hmin q hq.1⟩

/-- **The FCFS scan** finds the first of the runnable processes that arrived earliest exactly if, when
there are runnable processes, one of them has an arrival time other than the initial value of
`min_arrival`. -/
theorem fcfs_least_iff (ticks : Word) (table : Slot → Proc) :
    Least table (fun p => (table p).arrivalTime.toNat) (scan .fcfs ticks table) ↔
      ((∃ p, Runnable table p) → ∃ p, Runnable table p ∧ (table p).arrivalTime ≠ -1) := by
  constructor
  · intro h hrun
    obtain ⟨p, hp⟩ := isSome_iff_exists.mp (h.isSome_iff.mpr hrun)
    obtain ⟨hrun', hne⟩ := (scan_fcfs_eq_some.mp hp).mem.2
    exact ⟨p, hrun', hne rfl⟩
  · intro h
    rcases hs : scan .fcfs ticks table with _ | p
    · rw [least_none]
      intro q hq
      obtain ⟨p, hp, hne⟩ := h ⟨q, hq⟩
      rw [scan_eq_select] at hs
      exact select_eq_none.mp hs p (mem_slots p) ⟨hp, fun _ => hne⟩
    · have hf := scan_fcfs_eq_some.mp hs
      rw [least_some]; exact (first_eligible_iff (hf.mem.2.2 rfl)).mp hf

def latest (p : Slot) : Proc := { state := if p = 0 then .runnable else .unused, arrivalTime := -1 }

/-- The FCFS scan does not find it. -/
theorem fcfs_latest_not_found : Runnable latest 0 ∧ scan .fcfs 0 latest = none ∧
    ¬ Least latest (fun p => (latest p).arrivalTime.toNat) (scan .fcfs 0 latest) := by
  have hrun : Runnable latest 0 := rfl
  have hnone : scan .fcfs 0 latest = none := by decide +kernel
  refine ⟨hrun, hnone, fun h => ?_⟩
  rw [hnone] at h; exact least_none.mp h 0 hrun

theorem beats_priority : beats .priority ticks table p q = true ↔
    (table p).priority.toInt < (table q).priority.toInt := by
  simp [beats, Scan.better, Scan.take, BitVec.slt]

theorem scan_priority_eq_some : scan .priority ticks table = some p ↔
    First (Runnable table) (fun p => (table p).priority.toInt) slots p := by
  rw [scan_eq_select, select_eq_some_iff_first fun x c _ _ => beats_priority, eligible_eq (by decide)]

theorem scan_eq_none (hb : b ≠ .fcfs) : scan b ticks table = none ↔ ∀ q, ¬ Runnable table q := by
  rw [scan_eq_select, select_eq_none]; simp [eligible_iff hb]

/-- **The priority scan** finds the first of the runnable processes of least priority, and goes on
finding it when any other entry is changed to one that is not runnable or has a greater priority. -/
theorem priority_least (ticks : Word) (table : Slot → Proc) :
    Least table (fun p => (table p).priority.toInt) (scan .priority ticks table) ∧
      ∀ p q v, scan .priority ticks table = some p → q ≠ p →
        (v.state = .runnable → (table p).priority.toInt < v.priority.toInt) →
        scan .priority ticks (Function.update table q v) = some p := by
  constructor
  · rcases hs : scan .priority ticks table with _ | p
    · exact least_none.mpr ((scan_eq_none (by decide)).mp hs)
    · exact least_some.mpr (scan_priority_eq_some.mp hs)
  · intro p q v hs hne hv
    rw [scan_priority_eq_some, first_slots_iff] at hs ⊢
    obtain ⟨hrun, hmin⟩ := hs
    simp only [Runnable, update_of_ne hne.symm]
    refine ⟨hrun, fun x hx => ?_⟩
    by_cases hxq : x = q
    · subst hxq
      rw [update_self] at hx ⊢
      have hlt := hv hx; exact ⟨hlt.le, fun he => absurd he hlt.ne'⟩
    · rw [update_of_ne hxq] at hx ⊢; exact hmin x hx

/-! ## Highest response ratio next -/

def serviceTime (v : Proc) : ℕ := max 1 v.lastRuntime.toInt.toNat

def waitTime (ticks : Word) (v : Proc) : ℕ := ticks.toNat - v.arrivalTime.toNat

/-- The response ratio `(wait + service) / service`, exactly. -/
def responseRatio (ticks : Word) (v : Proc) : ℚ :=
  ((waitTime ticks v + serviceTime v : ℕ) : ℚ) / (serviceTime v : ℕ)

theorem serviceTime_pos (v : Proc) : 0 < serviceTime v := by
  unfold serviceTime; omega

theorem toNat_service (v : Proc) : (service v).toNat = serviceTime v := by
  unfold service serviceTime
  have h := BitVec.toInt_eq_toNat_cond v.lastRuntime
  split_ifs with hs
  · rw [BitVec.slt_iff_toInt_lt] at hs
    simp at hs
    split_ifs at h <;> omega
  · rw [BitVec.slt_iff_toInt_lt] at hs
    simp at hs
    have h1 : (1 : Word).toNat = 1 := rfl; omega

variable {v : Proc} {w : Proc}

theorem ratio_lt_iff : responseRatio ticks v < responseRatio ticks w ↔
    (waitTime ticks v + serviceTime v) * serviceTime w < (waitTime ticks w + serviceTime w) * serviceTime v := by
  have hv : (0 : ℚ) < (serviceTime v : ℕ) := by exact_mod_cast serviceTime_pos v
  have hw : (0 : ℚ) < (serviceTime w : ℕ) := by exact_mod_cast serviceTime_pos w
  unfold responseRatio
  rw [div_lt_div_iff₀ hv hw]
  exact_mod_cast Iff.rfl

theorem toNat_ratioNum (ha : v.arrivalTime.toNat ≤ ticks.toNat) (hlt : waitTime ticks v + serviceTime v < 2 ^ 32) :
    (ratioNum ticks v).toNat = waitTime ticks v + serviceTime v := by
  unfold ratioNum
  have hsub : (ticks - v.arrivalTime).toNat = waitTime ticks v :=
    BitVec.toNat_sub_of_le (BitVec.le_def.mpr ha)
  rw [BitVec.toNat_add, hsub, toNat_service, Nat.mod_eq_of_lt hlt]

theorem toInt_ratioNum_mul (ha : v.arrivalTime.toNat ≤ ticks.toNat)
    (hlt : (waitTime ticks v + serviceTime v) * serviceTime w < 2 ^ 31) :
    (ratioNum ticks v * service w).toInt = ((waitTime ticks v + serviceTime v) * serviceTime w : ℕ) := by
  have hle : waitTime ticks v + serviceTime v ≤ (waitTime ticks v + serviceTime v) * serviceTime w :=
    Nat.le_mul_of_pos_right _ (serviceTime_pos w)
  have hnat : (ratioNum ticks v * service w).toNat = (waitTime ticks v + serviceTime v) * serviceTime w := by
    rw [BitVec.toNat_mul, toNat_ratioNum ha (by omega), toNat_service, Nat.mod_eq_of_lt (by omega)]
  rw [BitVec.toInt_eq_toNat_of_lt (by omega), hnat]

theorem beats_hrrn_iff (hp : (table p).arrivalTime.toNat ≤ ticks.toNat)
    (hq : (table q).arrivalTime.toNat ≤ ticks.toNat)
    (hpq : (waitTime ticks (table p) + serviceTime (table p)) * serviceTime (table q) < 2 ^ 31)
    (hqp : (waitTime ticks (table q) + serviceTime (table q)) * serviceTime (table p) < 2 ^ 31) :
    beats .hrrn ticks table p q = true ↔ responseRatio ticks (table q) < responseRatio ticks (table p) := by
  have hb : beats .hrrn ticks table p q = (ratioNum ticks (table q) * service (table p)).slt
      (ratioNum ticks (table p) * service (table q)) := rfl
  rw [hb, BitVec.slt_iff_toInt_lt, toInt_ratioNum_mul hq hqp, toInt_ratioNum_mul hp hpq, ratio_lt_iff]
  exact Int.ofNat_lt

/-- `p` is the first of the runnable processes with the highest response ratio. -/
def Highest (ticks : Word) (table : Slot → Proc) (p : Slot) : Prop :=
  First (Runnable table) (fun p => -responseRatio ticks (table p)) slots p

/-- The HRRN scan comes to the runnable process `p` with `q` as its candidate. -/
def HrrnCompared (ticks : Word) (table : Slot → Proc) (p q : Slot) : Prop :=
  Compared (Runnable table) (beats .hrrn ticks table) slots p q

theorem scan_hrrn : scan .hrrn ticks table = select (Runnable table) (beats .hrrn ticks table) slots := by
  rw [scan_eq_select]
  congr 1; exact eligible_eq (by decide)

theorem least_hrrn_iff {w : Slot} (h : Highest ticks table w) :
    Least table (fun p => -responseRatio ticks (table p)) (scan .hrrn ticks table) ↔
      scan .hrrn ticks table = some w := by
  constructor
  · intro hl
    obtain ⟨p, hp⟩ := isSome_iff_exists.mp (hl.isSome_iff.mpr ⟨w, h.mem.2⟩)
    rw [hp] at hl ⊢
    rw [(least_some.mp hl).unique h]
  · intro hs; rw [hs]; exact least_some.mpr h

theorem hrrn_iff_compared : Least table (fun p => -responseRatio ticks (table p)) (scan .hrrn ticks table) ↔
      ∀ p q, HrrnCompared ticks table p q → Highest ticks table p ∨ Highest ticks table q →
        (beats .hrrn ticks table p q = true ↔ responseRatio ticks (table q) < responseRatio ticks (table p)) := by
  by_cases hrun : ∃ p, Runnable table p
  · obtain ⟨x, hx⟩ := hrun
    obtain ⟨w, hw⟩ : ∃ w, Highest ticks table w := exists_first ⟨x, mem_slots x, hx⟩
    rw [least_hrrn_iff hw, scan_hrrn, select_first_iff slots_nodup hw]
    simp only [neg_lt_neg_iff]
    refine forall_congr' fun p => forall_congr' fun q => imp_congr Iff.rfl (imp_congr ?_ Iff.rfl)
    exact or_congr ⟨fun h => h ▸ hw, fun h => h.unique hw⟩ ⟨fun h => h ▸ hw, fun h => h.unique hw⟩
  · have hq := not_exists.mp hrun
    refine iff_of_true ?_ fun p q ⟨_, _, _, hp, _⟩ => absurd hp (hq p)
    rw [(scan_eq_none (by decide)).mpr hq]; exact least_none.mpr hq

/-- The products fit in an `int` if no runnable process has waited and run for more than 46340 ticks; with
46341 they need not (`hrrn_bursts_overflow`). -/
theorem hrrn_of_small (harr : ∀ p, Runnable table p → (table p).arrivalTime.toNat ≤ ticks.toNat)
    (hsmall : ∀ p, Runnable table p → waitTime ticks (table p) + serviceTime (table p) ≤ 46340) :
    Least table (fun p => -responseRatio ticks (table p)) (scan .hrrn ticks table) := by
  have hfit : ∀ p q, Runnable table p → Runnable table q →
      (waitTime ticks (table p) + serviceTime (table p)) * serviceTime (table q) < 2 ^ 31 := by
    intro p q hp hq
    have hserv : serviceTime (table q) ≤ 46340 := (Nat.le_add_left _ _).trans (hsmall q hq)
    calc _ ≤ 46340 * 46340 := Nat.mul_le_mul (hsmall p hp) hserv
      _ < 2 ^ 31 := by norm_num
  rw [hrrn_iff_compared]
  rintro p q ⟨_, _, _, hp, hc⟩ -
  have hq := (mem_of_select hc).2
  exact beats_hrrn_iff (harr p hp) (harr q hq) (hfit p q hp hq) (hfit q p hq hp)

theorem isSome_scan (hb : b ≠ .fcfs) : (scan b ticks table).isSome = true ↔ ∃ p, Runnable table p := by
  rw [← not_iff_not, Bool.not_eq_true, isSome_eq_false_iff, isNone_iff_eq_none, scan_eq_none hb]
  exact not_exists.symm

/-- **The HRRN scan** finds some process whenever one is runnable.  It finds the first of those with the
highest response ratio exactly if each comparison made with that process comes out as that of the
exact ratios; a comparison does if its two products fit in an `int`. -/
theorem hrrn_least_iff (ticks : Word) (table : Slot → Proc)
    (harr : ∀ p, Runnable table p → (table p).arrivalTime.toNat ≤ ticks.toNat) :
    ((scan .hrrn ticks table).isSome = true ↔ ∃ p, Runnable table p) ∧
    (Least table (fun p => -responseRatio ticks (table p)) (scan .hrrn ticks table) ↔
      ∀ p q, HrrnCompared ticks table p q → Highest ticks table p ∨ Highest ticks table q →
        (beats .hrrn ticks table p q = true ↔
          responseRatio ticks (table q) < responseRatio ticks (table p))) ∧
    ∀ p q, Runnable table p → Runnable table q →
      (waitTime ticks (table p) + serviceTime (table p)) * serviceTime (table q) < 2 ^ 31 →
      (waitTime ticks (table q) + serviceTime (table q)) * serviceTime (table p) < 2 ^ 31 →
      (beats .hrrn ticks table p q = true ↔ responseRatio ticks (table q) < responseRatio ticks (table p)) :=
  ⟨isSome_scan (by decide), hrrn_iff_compared, fun p q hp hq => beats_hrrn_iff (harr p hp) (harr q hq)⟩

/-- At tick `n`: the process in slot 0 has run for `n + 1` ticks and not waited, that in slot 1 has run
for one tick and waited for `n`. -/
def bursts (n : Word) (p : Slot) : Proc :=
  { state := if p = 0 ∨ p = 1 then .runnable else .unused, arrivalTime := if p = 0 then n else 0
    lastRuntime := if p = 0 then n + 1 else 1 }

theorem hrrn_bursts_ten :
    (∀ p, Runnable (bursts 10) p → (bursts 10 p).arrivalTime.toNat ≤ (10 : Word).toNat) ∧
    (scan .hrrn 10 (bursts 10)).isSome = true ∧ (beats .hrrn 10 (bursts 10) 1 0 = true ↔
      responseRatio 10 (bursts 10 0) < responseRatio 10 (bursts 10 1)) := by
  have harr : ∀ p, Runnable (bursts 10) p → (bursts 10 p).arrivalTime.toNat ≤ (10 : Word).toNat := by
    decide +kernel
  obtain ⟨hsome, -, hfit⟩ := hrrn_least_iff 10 (bursts 10) harr
  exact ⟨harr, hsome.mpr ⟨0, rfl⟩, hfit 1 0 rfl rfl (by decide +kernel) (by decide +kernel)⟩

/-- One tick more is too much: the scan keeps slot 0, whose ratio is 1, because the product for slot 1,
whose ratio is 46341, overflows. -/
theorem hrrn_bursts_overflow :
    (∀ p, Runnable (bursts 46340) p → (bursts 46340 p).arrivalTime.toNat ≤ (46340 : Word).toNat) ∧
    scan .hrrn 46340 (bursts 46340) = some 0 ∧ Runnable (bursts 46340) 1 ∧
    responseRatio 46340 (bursts 46340 0) < responseRatio 46340 (bursts 46340 1) ∧
    ¬ Least (bursts 46340) (fun p => -responseRatio 46340 (bursts 46340 p))
      (scan .hrrn 46340 (bursts 46340)) := by
  have hs : scan .hrrn 46340 (bursts 46340) = some 0 := by decide +kernel
  have hrun : Runnable (bursts 46340) 1 := rfl
  have hlt : responseRatio 46340 (bursts 46340 0) < responseRatio 46340 (bursts 46340 1) := by
    rw [ratio_lt_iff]; decide +kernel
  refine ⟨by decide +kernel, hs, hrun, hlt, fun h => ?_⟩
  have hle := ((h.least 0 hs).2 1 hrun).1
  exact absurd hlt (not_lt.mpr (neg_le_neg_iff.mp hle))

end Xv6.Sched.Scans
