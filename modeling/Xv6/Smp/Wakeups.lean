import Xv6.Smp.Reaping

/-!
# Sleep and wakeup

`sleep(chan, lk)` takes `p->lock` before it lets go of `lk`, and keeps it until the switch; `wakeup`
looks at each process under its lock, and its caller holds `lk`.  So when `wakeup` comes to a process
that has released `lk` in `sleep`, it finds it `SLEEPING`, and while it goes on nobody else can get to
that point, since that takes `lk`.  A process that has been woken cannot leave `sleep` either, because
`sleep` ends with `lk`.
-/

namespace Xv6.Smp.Wakeups

open Relation Function
open Param Sched.Defs Lib.Runs
open Smp.Defs Smp.Control Smp.Invariant Smp.Running Smp.ProcTree
open Smp.Exiting Smp.Reaping

/-- `q` is in `sleep(chan, lk)`, past the release of `lk`, and not woken since. -/
def Asleep (s : State) (q : Slot) (chan : Chan) (lk : CondLock) : Prop :=
  (s.th (.proc q)).base = .sleepSet chan lk ∨ (s.proc q).state = .sleeping ∧ (s.proc q).chan = chan ∧
      ((s.th (.proc q)).base = .sleepSched lk ∨ (s.th (.proc q)).base = .sleepBack lk)

def released : Pc → Option CondLock
  | .sleepSet _ lk | .sleepSched lk | .sleepBack lk | .sleepTidied lk | .sleepRelock lk => some lk
  | _ => none

def Going (v : ProcState) : Prop := v = .sleeping ∨ v = .runnable ∨ v = .running

structure Heard (s : State) : Prop where
  going : ∀ q lk, released (s.th (.proc q)).base = some lk → Going (s.proc q).state
  place : ∀ q, (s.proc q).state = .sleeping →
    ∃ lk, (s.th (.proc q)).base = .sleepSched lk ∨ (s.th (.proc q)).base = .sleepBack lk
  passed : ∀ t k chan i, waking (s.th t).pc = some (k, chan, i) → ∀ q : Slot, (q : ℕ) < i →
    ∀ lk : CondLock, lk.lock ∈ k.holds → ¬ Asleep s q chan lk

variable {s s' : State} {c : ℕ} {t : Tid} {p q : Slot} {pc : Pc} {a : Act} {n : Next} {i : ℕ}
  {k : WakeCaller} {chan : Chan} {lk : CondLock}

theorem heard_boot : Heard boot where
  going q lk h := by cases h
  place q h := by
    by_cases hq : q = initproc
    · subst hq; simp [boot] at h
    · simp [boot, hq] at h
  passed t k chan i h := by cases t <;> cases h

/-! ## What one instruction changes -/

theorem sleepSet_instr (h : Instr (.proc p) s (.sleepSet chan lk) a n) :
    a = .store (.sleep p chan) ∧ n = .goto (.sleepSched lk) := by
  rcases h with h | h
  · cases h
  · cases h; exact ⟨rfl, rfl⟩

theorem sleepSched_instr (h : Instr (.proc p) s (.sleepSched lk) a n) : n = .goto (.sleepBack lk) := by
  rcases h with h | h
  · cases h
  · cases h; rfl

theorem released_instr (h : Instr (.proc p) s pc a n) (hpc : released pc = some lk) :
    released (n.pc .user) = some lk ∨ a = .acquire lk.lock := by
  rcases h with h | h
  · cases h <;> cases hpc
  · cases h
    case sleepRelock => cases hpc; exact .inr rfl
    all_goals first | cases hpc; exact .inl rfl | cases hpc

theorem released_start (h : Instr (.proc p) s pc a n) (hn : released (n.pc .user) = some lk) :
    released pc = some lk ∨ a = .release lk.lock ∧ ∃ chan, pc = .sleepUnlock chan lk := by
  rcases h with h | h
  · cases h
    case scanEnd k _ _ _ => cases k <;> cases hn
    all_goals cases hn
  · cases h
    case sleepUnlock => cases hn; exact .inr ⟨rfl, _, rfl⟩
    case sleepRelock lk => cases lk <;> cases hn
    all_goals exact .inl hn

theorem waking_start (h : Instr t s pc a n) (hn : waking (n.pc .user) = some (k, chan, i)) :
    (∃ j, waking pc = some (k, chan, j)) ∨ i = 0 := by
  rcases h with h | h
  · cases h
    case scanEnd k _ _ _ => cases k <;> cases hn
    case devWake => cases hn; exact .inr rfl
    all_goals first | cases hn; exact .inl ⟨_, rfl⟩ | cases hn
  · cases t with
    | proc p =>
      cases h
      case sleepRelock lk => cases lk <;> cases hn
      all_goals first | cases hn; exact .inr rfl | cases hn
    | cpu c => cases h <;> cases hn

section
variable (h : waking pc = some (k, chan, i))
include h

theorem holds_waking {L : Lock} (hL : L ∈ k.holds) : L ∈ holds t pc := by
  cases pc <;> first | cases h; simp [holds, hL] | cases h

theorem not_parks_waking : parks pc = false := by
  cases pc <;> first | rfl | cases h

theorem waking_ne_nil : holds t pc ≠ [] := by
  have hk : ∃ L, L ∈ k.holds := by cases k <;> exact ⟨_, List.mem_singleton_self _⟩
  obtain ⟨L, hL⟩ := hk; exact List.ne_nil_of_mem (holds_waking h hL)

end

theorem cur_of_waking (h : Inv s) (hw : waking (s.th t).pc = some (k, chan, i)) :
    ∃ c, s.cur c = t ∧ ∀ L ∈ k.holds, L ∈ heldBy s c := by
  have hcur : ∃ c, s.cur c = t := by
    cases t with
    | cpu c =>
      rcases h.cur c with hc | ⟨p, b, -, hth⟩
      · exact ⟨c, hc⟩
      · rw [hth] at hw; cases hw
    | proc p =>
      by_contra hno
      have hp := h.parked p fun c hc => hno ⟨c, hc⟩
      rw [not_parks_waking hw] at hp; cases hp
  obtain ⟨c, hc⟩ := hcur
  refine ⟨c, hc, fun L hL => ?_⟩
  rw [heldBy, hc]; exact holds_waking hw hL

section Step
variable (h : Inv s) (hH : Heard s) (hi : Exec s c a n)
include h hi

theorem sleeping_after (hq : ((s.after c a n).proc q).state = .sleeping) :
    (s.proc q).state = .sleeping ∧ ((s.after c a n).proc q).chan = (s.proc q).chan ∨
      ∃ chan, a = .store (.sleep q chan) := by
  cases a with
  | store e =>
    cases he : e.entry s with
    | none => rw [after_proc_of_none he] at hq ⊢; exact .inl ⟨hq, rfl⟩
    | some x =>
      rw [after_proc he] at hq ⊢
      by_cases hx : q = x.1
      · subst hx
        rw [update_self] at hq ⊢
        have hg := guard_instr hi
        cases e with
        | sleep p chan => cases he; exact .inr ⟨chan, rfl⟩
        | kill p =>
          cases he
          by_cases hs : (s.proc p).state = .sleeping <;> simp [Entry.kill, hs] at hq
        | parent np p | reparent p => cases he; exact .inl ⟨hq, rfl⟩
        | tidy p =>
          -- the process runs again
          cases he
          obtain ⟨hc, lk, hpc⟩ := hg
          have hst := h.active c p hc
          rw [← hc, hpc] at hst
          rw [hst] at hq; cases hq
        | idle => cases he
        | _ => cases he; cases hq
      · rw [update_of_ne hx] at hq ⊢; exact .inl ⟨hq, rfl⟩
  | _ => exact .inl ⟨hq, rfl⟩

theorem sleep_store (ha : a = .store (.sleep q chan)) : ∃ lk, (s.th (.proc q)).base = .sleepSet chan lk ∧
    ((s.after c a n).th (.proc q)).base = .sleepSched lk := by
  obtain ⟨hc, lk, hpc⟩ : s.cur c = .proc q ∧ ∃ lk, (s.th (s.cur c)).pc = .sleepSet chan lk := by
    rw [ha] at hi; exact guard_instr hi
  have hself := after_th_self h hi
  have hi' := hi
  rw [hc] at hpc hself
  rw [Exec, hc, hpc] at hi'
  obtain ⟨-, rfl⟩ := sleepSet_instr hi'
  have hb := h.base_eq hpc rfl
  have hint := h.base_of_not_isIntr (by rw [hpc]; rfl)
  exact ⟨lk, hb, by rw [hself, base_next_of_none _ hint]; rfl⟩

include hH

theorem sleeper_moves (hst : (s.proc q).state = .sleeping) (hc : .proc q = s.cur c)
    (hint : (s.th (.proc q)).intr = none) :
    ∃ lk, (s.th (.proc q)).base = .sleepSched lk ∧ n = .goto (.sleepBack lk) := by
  obtain ⟨lk, hlk | hlk⟩ := hH.place q hst
  · rw [Exec, ← hc, Inv.pc_of_none hint, hlk] at hi
    exact ⟨lk, hlk, sleepSched_instr hi⟩
  · have hact := h.active c q hc.symm
    rw [Inv.pc_of_none hint, hst, hlk] at hact; cases hact

theorem place_after (q : Slot) (hq : ((s.after c a n).proc q).state = .sleeping) :
    ∃ lk, ((s.after c a n).th (.proc q)).base = .sleepSched lk ∨
      ((s.after c a n).th (.proc q)).base = .sleepBack lk := by
  rcases sleeping_after h hi hq with ⟨hst, -⟩ | ⟨chan, ha⟩
  · obtain ⟨lk, hlk⟩ := hH.place q hst
    rcases after_base h hi (.proc q) with hb | ⟨hc, hint, hb⟩ | ⟨np, rfl, hnp, -⟩
    · rw [hb]; exact ⟨lk, hlk⟩
    · obtain ⟨lk, -, rfl⟩ := sleeper_moves h hH hi hst hc hint
      exact ⟨lk, .inr hb⟩
    · cases hnp; rw [(guard_instr hi).2] at hst; cases hst
  · obtain ⟨lk, -, hb⟩ := sleep_store h hi ha; exact ⟨lk, .inl hb⟩

theorem asleep_of_after (hq : Asleep (s.after c a n) q chan lk) : Asleep s q chan lk ∨
    s.cur c = .proc q ∧ (s.th (.proc q)).pc = .sleepUnlock chan lk ∧ a = .release lk.lock := by
  rcases hq with hb' | ⟨hst, hch, hb'⟩
  · rcases after_base h hi (.proc q) with hb | ⟨hc, hint, hb⟩ | ⟨np, -, -, hb⟩
    · rw [hb] at hb'; exact .inl (.inl hb')
    · rw [hb] at hb'
      rw [Exec, ← hc] at hi
      obtain ⟨hpc, ha⟩ := arrives_instr hi hb'; exact .inr ⟨hc.symm, hpc, ha⟩
    · rw [hb] at hb'; cases hb'
  · left
    rcases sleeping_after h hi hst with ⟨hst', hch'⟩ | ⟨chan', ha⟩
    · rw [hch'] at hch
      refine .inr ⟨hst', hch, ?_⟩
      rcases after_base h hi (.proc q) with hb | ⟨hc, hint, hb⟩ | ⟨np, -, -, hb⟩
      · rw [hb] at hb'; exact hb'
      · obtain ⟨lk', hset, rfl⟩ := sleeper_moves h hH hi hst' hc hint
        rw [hb] at hb'
        rcases hb' with hb' | hb' <;> cases hb'
        exact .inl hset
      · rw [hb] at hb'
        rcases hb' with hb' | hb' <;> cases hb'
    · obtain ⟨lk', hset, hb⟩ := sleep_store h hi ha
      have hc' : ((s.after c a n).proc q).chan = chan' := by rw [ha, after_proc rfl, update_self]
      rw [hb] at hb'
      rcases hb' with hb' | hb' <;> cases hb'
      rw [hc'] at hch
      subst hch; exact .inl hset

theorem not_asleep_after (hw : waking (s.th t).pc = some (k, chan, i)) (hlk : lk.lock ∈ k.holds)
    (hq : ¬ Asleep s q chan lk) : ¬ Asleep (s.after c a n) q chan lk := by
  intro hq'
  rcases asleep_of_after h hH hi hq' with hold | ⟨hc, hpc, -⟩
  · exact hq hold
  · obtain ⟨c', hc', hL'⟩ := cur_of_waking h hw
    have hL : lk.lock ∈ heldBy s c := by rw [heldBy, hc, hpc]; simp [holds]
    obtain rfl := h.mutex hL (hL' _ hlk)
    rw [hc] at hc'
    subst hc'
    rw [hpc] at hw; cases hw

omit hH hi in
theorem not_asleep_of_cur (hc : s.cur c = .proc q) (hw : waking (s.th (.proc q)).pc = some (k, chan, i))
    {chan' : Chan} : ¬ Asleep s q chan' lk := by
  rintro (hb | ⟨hs, -, -⟩)
  · have hint := h.intr_none (by rw [hb]; simp [holds, own])
    rw [Inv.pc_of_none hint, hb] at hw; cases hw
  · have hrun : want (s.th (.proc q)).pc = .running := by
      revert hw
      cases (s.th (.proc q)).pc <;> intro hw <;> first | rfl | cases hw
    rw [h.active c q hc, hrun] at hs; cases hs

theorem not_asleep_of_passes (hp : Passes (s.cur c) s (s.th (s.cur c)).pc a chan q)
    (hw : waking (s.th (s.cur c)).pc = some (k, chan, i)) : ¬ Asleep (s.after c a n) q chan lk := by
  intro hq'
  rcases asleep_of_after h hH hi hq' with hq | ⟨hc, hpc, -⟩
  swap
  · rw [hc, hpc] at hw; cases hw
  by_cases hself : s.cur c = .proc q
  · rw [hself] at hw; exact not_asleep_of_cur h hself hw hq
  obtain ⟨hL, hp⟩ := hp.resolve_left hself
  rcases hq with hb | ⟨hs, hch, -⟩
  · exact not_sleepSet h hL hself hb
  rcases hp with rfl | hp
  · rcases hq' with hb' | ⟨hs', -, -⟩
    · rcases after_base h hi (.proc q) with hb | ⟨hc, -⟩ | ⟨np, ha, -⟩
      · rw [hb] at hb'; exact not_sleepSet h hL hself hb'
      · exact hself hc.symm
      · cases ha
    · rw [after_proc rfl, update_self] at hs'; cases hs'
  · exact hp ⟨hs, hch⟩

theorem passed_after (t : Tid) (k : WakeCaller) (chan : Chan) (i : ℕ)
    (hw : waking ((s.after c a n).th t).pc = some (k, chan, i)) (q : Slot) (hqi : (q : ℕ) < i)
    (lk : CondLock) (hlk : lk.lock ∈ k.holds) : ¬ Asleep (s.after c a n) q chan lk := by
  have hkeep : ∀ j, waking (s.th t).pc = some (k, chan, j) → (q : ℕ) < j →
      ¬ Asleep (s.after c a n) q chan lk := fun j hj hqj =>
    not_asleep_after h hH hi hj hlk (hH.passed t k chan j hj q hqj lk hlk)
  by_cases ht : t = s.cur c
  · subst ht
    rw [after_th_self h hi, pc_next] at hw
    have hn : waking (n.pc .user) = some (k, chan, i) := by
      cases n with
      | goto pc => exact hw
      | ret => exact absurd (h.holds_under (s.cur c)) (waking_ne_nil hw)
    rcases waking_start hi hn with ⟨j, hj⟩ | rfl
    · rcases waking_instr hi hj with hsame | ⟨r, rfl, hnext, hpass⟩ | hend
      · rw [hn] at hsame; cases hsame; exact hkeep _ hj hqi
      · rw [hn] at hnext
        cases hnext
        by_cases hqr : q = r
        · subst hqr; exact not_asleep_of_passes h hH hi hpass hj
        · have hne : (q : ℕ) ≠ r := fun he => hqr (Fin.ext he)
          exact hkeep _ hj (by omega)
      · exact hkeep _ hj (lt_of_lt_of_le q.isLt hend)
    · exact absurd hqi (Nat.not_lt_zero _)
  · rcases after_th_of_ne ht with hth | ⟨np, -, -, hth⟩
    · rw [hth] at hw; exact hkeep _ hw hqi
    · rw [hth] at hw; cases hw

theorem going_after (q : Slot) (lk : CondLock) (hq : released ((s.after c a n).th (.proc q)).base = some lk) :
    Going ((s.after c a n).proc q).state := by
  have hkeep : released (s.th (.proc q)).base = some lk → Going ((s.after c a n).proc q).state := by
    intro hold
    have hg := hH.going q lk hold
    rcases shift h hi q with hst | ⟨-, hsh⟩
    · rw [hst]; exact hg
    generalize ((s.after c a n).proc q).state = v' at hsh
    rcases hg with hv | hv | hv
    · rw [hv] at hsh
      cases hsh <;> exact .inr (.inl rfl)
    · rw [hv] at hsh; cases hsh; exact .inr (.inr rfl)
    · rw [hv] at hsh
      cases hsh with
      | yield hc => exact .inr (.inl rfl)
      | sleep hc => exact .inl rfl
      | zombie hc =>
        -- `exit` is outside of `sleep`
        have hpc := (guard_instr hi).2
        rw [hc] at hpc
        rw [h.base_eq hpc rfl] at hold; cases hold
  rcases value_after h hi rfl hq with hold | ⟨hc, hi', hnew⟩
  · exact hkeep hold
  · rcases released_start hi' hnew with hold | ⟨rfl, chan, hb⟩
    · exact hkeep hold
    · have hint := h.intr_none (by rw [hb]; simp [holds])
      have hst := h.active c q hc.symm
      rw [Inv.pc_of_none hint, hb] at hst; exact .inr (.inr hst)

theorem heard_after : Heard (s.after c a n) where
  going := going_after h hH hi
  place := place_after h hH hi
  passed := passed_after h hH hi

end Step

theorem heard_enter (h : Heard s) {th : Thread} (hb : th.base = (s.th t).base)
    (hpc : th.pc = pc) (hw : waking pc = none) : Heard (s.setThread t th) := by
  have hbase := base_setThread hb
  have hsleep : ∀ q chan lk, Asleep (s.setThread t th) q chan lk → Asleep s q chan lk := by
    rintro q chan lk (hq | ⟨hst, hch, hq⟩)
    · rw [hbase] at hq; exact .inl hq
    · rw [hbase] at hq; exact .inr ⟨hst, hch, hq⟩
  refine ⟨fun q lk hq => ?_, fun q hq => ?_, fun t' k chan i hw' q hqi lk hlk hq => ?_⟩
  · rw [hbase] at hq; exact h.going q lk hq
  · rw [hbase]; exact h.place q hq
  · by_cases ht : t' = t
    · have hself : (s.setThread t th).th t' = th := by rw [ht]; exact update_self _ _ _
      rw [hself, hpc, hw] at hw'; cases hw'
    · have hother : (s.setThread t th).th t' = s.th t' := update_of_ne ht _ _
      rw [hother] at hw'
      exact h.passed t' k chan i hw' q hqi lk hlk (hsleep q chan lk hq)

theorem heard_step (h : Inv s) (hH : Heard s) (hs : Step s c s') : Heard s' := by
  cases hs with
  | instr hi he => exact heard_after h hH hi
  | timer _ hth _ | device _ hth _ => exact heard_enter hH (by rw [hth]) rfl rfl

theorem heard_reachable (h : Reachable sys s) : Inv s ∧ Heard s := by
  refine h.inv (I := fun s => Inv s ∧ Heard s) (fun s hs => ?_) fun _ _ _ hI hs =>
    ⟨inv_step hI.1 hs, heard_step hI.1 hI.2 hs⟩
  obtain rfl : s = boot := hs; exact ⟨inv_boot, heard_boot⟩

/-- The steps of all CPUs while thread `t` is in one call of `wakeup(chan)`. -/
def During (t : Tid) (k : WakeCaller) (chan : Chan) : State → State → Prop :=
  ReflTransGen fun s s' => (∃ c, Step s c s') ∧ ∃ i, waking (s'.th t).pc = some (k, chan, i)

theorem released_step (h : Inv s) (hH : Heard s) (hs : Step s c s') (hw : waking (s.th t).pc = some (k, chan, i))
    (hlk : lk.lock ∈ k.holds) (hp : released (s.th (.proc p)).base = some lk) :
    released (s'.th (.proc p)).base = some lk := by
  cases hs with
  | timer _ hth _ | device _ hth _ => rw [base_setThread (by rw [hth])]; exact hp
  | instr hi he =>
    rcases after_base h hi (.proc p) with hb | ⟨hc, hint, hb⟩ | ⟨np, rfl, hnp, -⟩
    · rw [hb]; exact hp
    · rw [hb]
      rw [Exec, ← hc, Inv.pc_of_none hint] at hi
      rcases released_instr hi hp with hn | rfl
      · exact hn
      · obtain ⟨c', -, hL⟩ := cur_of_waking h hw
        have hfree : s.lock lk.lock = none := he
        rw [(h.held c' _).mpr (hL _ hlk)] at hfree; cases hfree
    · cases hnp
      have hst := (guard_instr hi).2
      have hg := hH.going p lk hp
      rw [hst] at hg
      rcases hg with hg | hg | hg <;> cases hg

/-- **No wakeup is lost.**  If `p` has released `lk` in `sleep(chan, lk)` and has not been woken when a
call of `wakeup(chan)` by a thread that holds `lk` begins, then it is not `SLEEPING` on `chan` when the
call returns. -/
theorem wakeup_not_lost (h : Reachable sys s) (hbegin : (s.th t).pc = .wakeScan k chan 0)
    (hlk : lk.lock ∈ k.holds) (hp : Asleep s p chan lk) (hd : During t k chan s s')
    (hend : (s'.th t).pc = .wakeScan k chan i) (hi : NPROC ≤ i) :
    ¬ ((s'.proc p).state = .sleeping ∧ (s'.proc p).chan = chan) := by
  have hrel : released (s.th (.proc p)).base = some lk := by
    rcases hp with hb | ⟨-, -, hb | hb⟩ <;> rw [hb] <;> rfl
  -- until the wakeup is over, the process is in this call of sleep
  have hall : Reachable sys s' ∧ (∃ j, waking (s'.th t).pc = some (k, chan, j)) ∧
      released (s'.th (.proc p)).base = some lk := by
    clear hend
    induction hd with
    | refl => exact ⟨h, ⟨0, by rw [hbegin]; rfl⟩, hrel⟩
    | tail _ hs ih =>
      obtain ⟨hr, ⟨j, hj⟩, hb⟩ := ih
      obtain ⟨⟨c, hs⟩, hw⟩ := hs
      obtain ⟨hI, hH⟩ := heard_reachable hr
      exact ⟨hr.next hs, hw, released_step hI hH hs hj hlk hb⟩
  obtain ⟨hr, -, hb⟩ := hall
  obtain ⟨hI, hH⟩ := heard_reachable hr
  rintro ⟨hst, hch⟩
  have hw : waking (s'.th t).pc = some (k, chan, i) := by rw [hend]; rfl
  refine hH.passed t k chan i hw p (lt_of_lt_of_le p.isLt hi) lk hlk (.inr ⟨hst, hch, ?_⟩)
  obtain ⟨lk', hpl⟩ := hH.place p hst
  obtain rfl : lk' = lk := by
    rcases hpl with hpl | hpl <;> rw [hpl] at hb <;> exact Option.some.inj hb
  exact hpl

theorem during_step {pc' : Pc} (hc : s.cur c = t) (hi : Instr t (atPoint s t pc) pc a (.goto pc'))
    (he : a.Enabled c s) (ha : ∀ np, a ≠ .store (.alloc np)) (hw : ∃ i, waking pc' = some (k, chan, i)) :
    (∃ c', Step (atPoint s t pc) c' (atPoint (a.apply c s) t pc')) ∧
      ∃ i, waking ((atPoint (a.apply c s) t pc').th t).pc = some (k, chan, i) := by
  obtain ⟨i, hw⟩ := hw
  refine ⟨⟨c, step_instr hc hi he ha⟩, i, ?_⟩
  have hth : (atPoint (a.apply c s) t pc').th t = ⟨pc', none⟩ := update_self _ _ _
  rw [hth]; exact hw

def sleeperWaits : State :=
  [(0, .tau, .goto (.objLock 5)), (0, .acquire (.obj 5), .goto (.objHeld 5)),
    (0, .tau, .goto (.sleepLock (.obj 7) (.obj 5))),
    (0, .acquire (.proc 0), .goto (.sleepUnlock (.obj 7) (.obj 5))),
    (0, .release (.obj 5), .goto (.sleepSet (.obj 7) (.obj 5))),
    (0, .store (.sleep 0 (.obj 7)), .goto (.sleepSched (.obj 5))),
    (0, .swtchBack, .goto (.sleepBack (.obj 5))), (0, .store .idle, .goto (.schedDone .rr 0)),
    (0, .release (.proc 0), .goto (.rrScan 1)),
    (1, .tau, .goto (.objLock 5)), (1, .acquire (.obj 5), .goto (.objHeld 5))].foldl
    (fun (s : State) (x : ℕ × Act × Next) => s.after x.1 x.2.1 x.2.2) childRuns

theorem reachable_sleeperWaits : Reachable sys sleeperWaits := by
  have h7 := reachable_childRuns
  have h8 := reach h7 0 (.inr (ProcInstr.callObj 5))
  have h9 := reach h8 0 (.inr ProcInstr.objLock)
  have hchan : ∀ q, Chan.obj 7 ≠ .proc q := fun _ => Chan.noConfusion
  have h10 := reach h9 0 (.inr (ProcInstr.objSleep hchan))
  have h11 := reach h10 0 (.inr ProcInstr.sleepLock)
  have h12 := reach h11 0 (.inr ProcInstr.sleepUnlock)
  have h13 := reach h12 0 (.inr ProcInstr.sleepSet)
  have h14 := reach h13 0 (.inr ProcInstr.sleepSched)
  have h15 := reach h14 0 (.inr SchedInstr.swtched)
  have h16 := reach h15 0 (.inr SchedInstr.doneRr)
  have h17 := reach h16 1 (.inr (ProcInstr.callObj 5))
  have h18 := reach h17 1 (.inr ProcInstr.objLock); exact h18

def sleeperWoken : State :=
  (Act.release (.proc 0)).apply 1 ((Act.store (.wake 0)).apply 1
    ((Act.acquire (.proc 0)).apply 1 sleeperWaits))

/-- The child wakes process 0. -/
theorem wakeup_not_lost_once : ∃ s s' t, Reachable sys s ∧ Asleep s 0 (.obj 7) (.obj 5) ∧
    During t (.obj 5) (.obj 7) s s' ∧ (s'.th t).pc = .wakeScan (.obj 5) (.obj 7) NPROC ∧
    ¬ ((s'.proc 0).state = .sleeping ∧ (s'.proc 0).chan = .obj 7) := by
  have hr := reach reachable_sleeperWaits 1 (.inr (ProcInstr.objWake (n := 5) (.obj 7)))
  have hsleep : Asleep (atPoint sleeperWaits (.proc 1) (.wakeScan (.obj 5) (.obj 7) 0)) 0 (.obj 7)
      (.obj 5) := .inr ⟨rfl, rfl, .inr rfl⟩
  have hne : Tid.proc 1 ≠ .proc 0 := by decide
  have h1 : During (.proc 1) (.obj 5) (.obj 7)
      (atPoint sleeperWaits (.proc 1) (.wakeScan (.obj 5) (.obj 7) 0))
      (atPoint ((Act.acquire (.proc 0)).apply 1 sleeperWaits) (.proc 1) (.wakeTest (.obj 5) (.obj 7) 0)) :=
    .single (during_step rfl (.inl (.scan hne)) rfl (by simp) ⟨0, rfl⟩)
  have h2 := ReflTransGen.tail h1 (during_step (c := 1) rfl (.inl (.hit rfl rfl)) trivial (by simp) ⟨_, rfl⟩)
  have h3 := ReflTransGen.tail h2 (during_step (c := 1) rfl (.inl .done) rfl (by simp) ⟨1, rfl⟩)
  have hfree : ∀ q, sleeperWoken.lock (.proc q) = none := by decide +kernel
  have hmiss : ∀ q, ¬ ((sleeperWoken.proc q).state = .sleeping ∧ (sleeperWoken.proc q).chan = .obj 7) := by
    decide +kernel
  have h4 : During (.proc 1) (.obj 5) (.obj 7)
      (atPoint sleeperWoken (.proc 1) (.wakeScan (.obj 5) (.obj 7) 1))
      (atPoint sleeperWoken (.proc 1) (.wakeScan (.obj 5) (.obj 7) (1 + 1999))) :=
    wakeup_loop (c := 1) during_step (fun j => ⟨j, rfl⟩) (fun q => ⟨q, rfl⟩) rfl hfree hmiss 1 (by decide)
  have hd := ReflTransGen.trans h3 h4
  have hend : ((atPoint sleeperWoken (.proc 1) (.wakeScan (.obj 5) (.obj 7) (1 + 1999))).th
      (.proc 1)).pc = .wakeScan (.obj 5) (.obj 7) NPROC := rfl
  exact ⟨_, _, .proc 1, hr, hsleep, hd, hend,
    wakeup_not_lost hr rfl (List.mem_singleton_self _) hsleep hd hend le_rfl⟩

end Xv6.Smp.Wakeups
