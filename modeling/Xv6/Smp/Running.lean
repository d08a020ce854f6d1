import Xv6.Smp.Invariant

/-!
# Who runs what

Every step keeps the invariant, so it holds in every state that the CPUs can reach, and with it:

* `running_iff_one_cpu`: while `p->lock` is free, `p->state = RUNNING` exactly when exactly one CPU
  has `c->proc = p`.
-/

namespace Xv6.Smp.Running

open Param Sched.Defs Lib.Runs Smp.Defs Smp.Control Smp.Invariant Function

variable {s s' : State} {c c' : ℕ} {t : Tid} {p q : Slot} {a : Act} {n : Next} {L : Lock}

/-! ## One instruction keeps the invariant -/

section Step
variable (h : Inv s) (hi : Exec s c a n)
include h hi

theorem heldBy_after (c' : ℕ) : heldBy (s.after c a n) c' =
    if c' = c then locksAfter (heldBy s c) a else heldBy s c' := by
  split_ifs with hc
  · subst hc
    have hquiet : (s.after c' a n).cur c' = s.cur c' →
        heldBy (s.after c' a n) c' = locksAfter (heldBy s c') a := by
      intro hcur
      rw [heldBy, hcur, after_th_self h hi, pc_next]
      exact holds_instr hi (h.holds_under _)
    cases a with
    | swtchTo p =>
      obtain ⟨b, hc, hth, -⟩ := h.swtchTo_facts hi
      have hcur : (s.after c' (.swtchTo p) n).cur c' = .proc p := update_self _ _ _
      have hp : (s.after c' (.swtchTo p) n).th (.proc p) = s.th (.proc p) :=
        update_of_ne (by rw [hc]; exact Tid.noConfusion) _ _
      have hnot := h.not_cur_of_swtch (by rw [hth])
      rw [heldBy, hcur, hp, holds_parks (h.parked p hnot), heldBy, hc, hth]; rfl
    | swtchBack =>
      obtain ⟨p, pc', hc, hl, -⟩ := swtchBack_instr hi
      have hcur : (s.after c' .swtchBack n).cur c' = .cpu c' := update_self _ _ _
      rcases h.cur c' with hc' | ⟨p', b, hc', hb⟩
      · rw [hc'] at hc; cases hc
      · rw [hc'] at hc; cases hc
        rw [heldBy, hcur, after_th_cpu (by rw [hc']; exact Tid.noConfusion), hb]
        exact hl.symm
    | _ => exact hquiet rfl
  · rw [heldBy, after_cur_of_ne hc, after_th_cur_of_ne h hi hc, heldBy]

theorem held_after (he : a.Enabled c s) (c' : ℕ) (L : Lock) :
    (s.after c a n).lock L = some c' ↔ L ∈ heldBy (s.after c a n) c' := by
  rw [heldBy_after h hi c']
  have hold := h.held c' L
  cases a with
  | acquire L' =>
    have hfree : s.lock L' = none := he
    by_cases hL : L = L'
    · subst hL
      have hlock : (s.after c (.acquire L) n).lock L = some c := update_self _ _ _
      rw [hlock]
      split_ifs with hc
      · simp [hc, locksAfter]
      · rw [← hold, hfree]; simp [Ne.symm hc]
    · have hlock : (s.after c (.acquire L') n).lock L = s.lock L := update_of_ne hL _ _
      rw [hlock, hold]
      split_ifs with hc
      · simp [hc, locksAfter, hL]
      · rfl
  | release L' =>
    have hown : s.lock L' = some c := he
    by_cases hL : L = L'
    · subst hL
      have hlock : (s.after c (.release L) n).lock L = none := update_self _ _ _
      rw [hlock]
      split_ifs with hc
      · simp [locksAfter, (h.nodup c).mem_erase_iff]
      · rw [← hold, hown]; simp [Ne.symm hc]
    · have hlock : (s.after c (.release L') n).lock L = s.lock L := update_of_ne hL _ _
      rw [hlock, hold]
      split_ifs with hc
      · simp [hc, locksAfter, hL]
      · rfl
  | _ =>
    change s.lock L = some c' ↔ _
    rw [hold]
    split_ifs with hc
    · rw [hc]; rfl
    · rfl

theorem nodup_after (he : a.Enabled c s) (c' : ℕ) : (heldBy (s.after c a n) c').Nodup := by
  rw [heldBy_after h hi c']
  split_ifs with hc
  · have hn := h.nodup c
    cases a with
    | acquire L =>
      have hfree : s.lock L = none := he
      refine List.nodup_cons.mpr ⟨fun hm => ?_, hn⟩
      rw [(h.held c L).mpr hm] at hfree; cases hfree
    | release L => exact hn.erase L
    | _ => exact hn
  · exact h.nodup c'

omit h hi in
theorem cproc_or_run (hp : (s.after c a n).cproc c = some p) : s.cproc c = some p ∨ a = .store (.run p) := by
  rw [after_cproc_self] at hp
  cases a with
  | store e =>
    cases e with
    | run p' => right; cases hp; rfl
    | idle => cases hp
    | _ => exact .inl hp
  | _ => exact .inl hp

theorem cproc_after (c' : ℕ) : (s.after c a n).cproc c' = loaded ((s.after c a n).th (.cpu c')).base := by
  by_cases hcc : s.cur c = .cpu c'
  · obtain rfl := h.cur_cpu_eq hcc
    have hth := after_th_self h hi
    rw [Exec, hcc] at hi
    rw [hcc] at hth
    rw [after_cproc_self, h.cproc, hth]
    cases hint : (s.th (.cpu c')).intr with
    | none => rw [base_next_of_none n hint, (handed_instr hi).2, Inv.pc_of_none hint]
    | some pc =>
      have hp : isIntr (s.th (.cpu c')).pc = true := by
        rw [Thread.pc, hint]; exact (h.intr _ pc hint).1
      rw [base_next_of_some n hint]
      cases a with
      | store e =>
        have hg := guard_instr hi
        cases e with
        | run p => rw [hg.2.2.1] at hp; cases hp
        | idle => obtain ⟨-, b, p, hpc⟩ := hg; rw [hpc] at hp; cases hp
        | _ => rfl
      | _ => rfl
  · rw [after_th_cpu hcc, ← h.cproc]
    by_cases hc : c' = c
    · subst hc
      cases a with
      | store e =>
        have hg := guard_instr hi
        rcases h.cur c' with hc | ⟨p, b, hc, -⟩
        · exact absurd hc hcc
        · cases e with
          | run p | idle => obtain ⟨⟨c0, hc0⟩, -⟩ := hg; rw [hc0] at hc; cases hc
          | _ => rfl
      | _ => rfl
    · exact after_cproc_of_ne hc

theorem cur_after (c' : ℕ) : (s.after c a n).cur c' = .cpu c' ∨ ∃ p b, (s.after c a n).cur c' = .proc p ∧
      (s.after c a n).th (.cpu c') = ⟨.swtched b p, none⟩ := by
  by_cases hc : c' = c
  · subst hc
    have hquiet : (s.after c' a n).cur c' = s.cur c' → (s.after c' a n).cur c' = .cpu c' ∨
        ∃ p b, (s.after c' a n).cur c' = .proc p ∧ (s.after c' a n).th (.cpu c') = ⟨.swtched b p, none⟩ := by
      intro hcur
      rw [hcur]
      rcases h.cur c' with hc | ⟨p, b, hc, hb⟩
      · exact .inl hc
      · rw [after_th_cpu (by rw [hc]; exact Tid.noConfusion)]
        exact .inr ⟨p, b, hc, hb⟩
    cases a with
    | swtchTo p =>
      obtain ⟨b, hc, hth, rfl⟩ := h.swtchTo_facts hi
      have hth' := after_th_self h hi
      rw [hc, hth] at hth'; exact .inr ⟨p, b, update_self _ _ _, hth'⟩
    | swtchBack => exact .inl (update_self _ _ _)
    | _ => exact hquiet rfl
  · rw [after_cur_of_ne hc]
    rcases h.cur c' with hc' | ⟨p, b, hc', hb⟩
    · exact .inl hc'
    · right
      refine ⟨p, b, hc', ?_⟩
      rw [after_th_cpu (fun e => hc (h.cur_cpu_eq e)), hb]

theorem uniq_after (c1 c2 : ℕ) (p : Slot) (h1 : (s.after c a n).cproc c1 = some p)
    (h2 : (s.after c a n).cproc c2 = some p) : c1 = c2 := by
  -- only `run` gives a CPU a process, and then no other CPU has it
  have key : ∀ c', c' ≠ c → (s.after c a n).cproc c = some p → (s.after c a n).cproc c' = some p → False := by
    intro c' hne hp hp'
    rw [after_cproc_of_ne hne] at hp'
    rcases cproc_or_run hp with hp | rfl
    · exact hne (h.uniq c' c p hp' hp)
    · obtain ⟨hL, hst⟩ := run_facts h hi
      exact hne (h.alone hL (by rw [hst]; exact ProcState.noConfusion) hp')
  by_cases hc1 : c1 = c
  · by_cases hc2 : c2 = c
    · rw [hc1, hc2]
    · subst hc1; exact (key c2 hc2 h1 h2).elim
  · by_cases hc2 : c2 = c
    · subst hc2; exact (key c1 hc1 h2 h1).elim
    · rw [after_cproc_of_ne hc1] at h1
      rw [after_cproc_of_ne hc2] at h2; exact h.uniq c1 c2 p h1 h2

theorem base_after (t : Tid) : isIntr ((s.after c a n).th t).base = false := by
  rcases after_base h hi t with hb | ⟨rfl, hint, hb⟩ | ⟨np, -, -, hb⟩
  · rw [hb]; exact h.base t
  · rw [hb]
    refine (isIntr_instr hi).1 ?_
    rw [Inv.pc_of_none hint]; exact h.base _
  · rw [hb]; rfl

theorem intr_after (t : Tid) (pc : Pc) (hpc : ((s.after c a n).th t).intr = some pc) :
    isIntr pc = true ∧ holds t ((s.after c a n).th t).base = [] := by
  by_cases ht : t = s.cur c
  · subst ht
    rw [after_th_self h hi] at hpc ⊢
    cases hint : (s.th (s.cur c)).intr with
    | none => simp [Thread.next, hint] at hpc
    | some pc0 =>
      obtain ⟨hp, hb⟩ := h.intr _ pc0 hint
      rw [base_next_of_some n hint]
      refine ⟨?_, hb⟩
      cases n with
      | goto pc' =>
        simp only [Thread.next, hint, Option.some.injEq] at hpc
        subst hpc
        refine (isIntr_instr hi).2 ?_ pc' rfl
        rw [Thread.pc, hint]; exact hp
      | ret => simp [Thread.next, hint] at hpc
  · rcases after_th_of_ne ht with hth | ⟨np, -, -, hth⟩
    · rw [hth] at hpc ⊢; exact h.intr t pc hpc
    · rw [hth] at hpc; cases hpc

theorem running_after (p : Slot) (hp : ((s.after c a n).proc p).state = .running) :
    ∃ c', (s.after c a n).cproc c' = some p := by
  rcases shift h hi p with hst | ⟨-, hst⟩
  · rw [hst] at hp
    obtain ⟨c', hc'⟩ := h.running p hp
    refine ⟨c', ?_⟩
    by_cases hc : c' = c
    · subst hc
      -- a scheduler that stores in `c->proc` has no process or one that is not `RUNNING`
      cases a with
      | store e =>
        cases e with
        | run p' =>
          obtain ⟨⟨c0, hc0⟩, -, hint, hl, -⟩ := guard_instr hi
          obtain rfl := h.cur_cpu_eq hc0
          rw [hc0] at hint hl
          rw [h.cproc, ← Inv.pc_of_none (h.base_of_not_isIntr hint), hl] at hc'
          cases hc'
        | idle =>
          obtain ⟨⟨c0, hc0⟩, b, p', hpc⟩ := guard_instr hi
          obtain rfl := h.cur_cpu_eq hc0
          rw [hc0] at hpc
          have hb := h.base_eq hpc rfl
          rw [h.cproc, hb] at hc'
          cases hc'; exact absurd hp (h.swtched c0 b p hc0 hb)
        | _ => exact hc'
      | _ => exact hc'
    · rw [after_cproc_of_ne hc]; exact hc'
  · obtain ⟨rfl, -⟩ := hst.to_running hp
    exact ⟨c, by rw [after_cproc_self]; rfl⟩

theorem state_after_of_ne (hne : c' ≠ c) (hc' : s.cproc c' = some p) :
    ((s.after c a n).proc p).state = (s.proc p).state := by
  rcases shift h hi p with hst | ⟨hL, hst⟩
  · exact hst
  · by_cases hrun : (s.proc p).state = .running
    · have hc := h.cproc_of_cur (hst.of_running hrun).1
      exact absurd (h.uniq c' c p hc' hc) hne
    · exact absurd (h.alone hL hrun hc') hne

omit hi in
theorem active_store {e : Store} (hc : s.cur c = .proc p) (hi : Exec s c (.store e) n) :
    ((s.after c (.store e) n).proc p).state = wantAfter .running (.store e) := by
  have hrun := running_of_store h hc hi
  have hg := guard_instr hi
  have hother : wantAfter .running (.store e) = .running →
      ((s.after c (.store e) n).proc p).state = wantAfter .running (.store e) := by
    intro hw
    rcases shift h hi p with hst | ⟨-, hst⟩
    · rw [hst, hrun, hw]
    · rw [(hst.of_running hrun).2, hrun]
  cases e with
  | yield p' | sleep p' chan | zombie p' status =>
    obtain rfl : p = p' := by rw [hc] at hg; cases hg.1; rfl
    rw [after_proc rfl, update_self]; rfl
  | _ => exact hother rfl

theorem active_after (c' : ℕ) (p : Slot) (hc' : (s.after c a n).cur c' = .proc p) :
    ((s.after c a n).proc p).state = want ((s.after c a n).th (.proc p)).pc := by
  by_cases hc : c' = c
  · subst hc
    have hquiet : s.cur c' = .proc p → ((s.after c' a n).proc p).state = wantAfter (s.proc p).state a →
        ((s.after c' a n).proc p).state = want ((s.after c' a n).th (.proc p)).pc := by
      intro hcp hst
      have hth := after_th_self h hi
      rw [Exec, hcp] at hi
      rw [hcp] at hth
      rw [hst, hth, pc_next, want_instr hi (h.holds_under _), h.active c' p hcp]
    cases a with
    | swtchTo p' =>
      obtain rfl : p = p' := by
        have hcur : (s.after c' (.swtchTo p') n).cur c' = .proc p' := update_self _ _ _
        rw [hcur] at hc'
        cases hc'; rfl
      obtain ⟨b, hc, hth, -⟩ := h.swtchTo_facts hi
      have hb : (s.th (.cpu c')).base = .swtch b p := by rw [hth]
      have hp : (s.after c' (.swtchTo p) n).th (.proc p) = s.th (.proc p) :=
        update_of_ne (by rw [hc]; exact Tid.noConfusion) _ _
      rw [hp, want_parks (h.parked p (h.not_cur_of_swtch hb))]
      exact h.swtch c' b p hb
    | swtchBack =>
      have hcur : (s.after c' .swtchBack n).cur c' = .cpu c' := update_self _ _ _
      rw [hcur] at hc'; cases hc'
    | store e =>
      refine hquiet hc' ?_
      rw [running_of_store h hc' hi]; exact active_store h hc' hi
    | _ => exact hquiet hc' rfl
  · rw [after_cur_of_ne hc] at hc'
    have hth := after_th_cur_of_ne h hi hc
    rw [hc'] at hth
    rw [state_after_of_ne h hi hc (h.cproc_of_cur hc'), hth]
    exact h.active c' p hc'

theorem base_cpu_after (c' : ℕ) : ((s.after c a n).th (.cpu c')).base = (s.th (.cpu c')).base ∨
      c' = c ∧ s.cur c = .cpu c ∧ (s.th (.cpu c)).intr = none ∧
        ((s.after c a n).th (.cpu c')).base = n.pc .user := by
  rcases after_base h hi (.cpu c') with hb | ⟨hc, hint, hb⟩ | ⟨np, -, ht, -⟩
  · exact .inl hb
  · obtain rfl := h.cur_cpu_eq hc.symm; exact .inr ⟨rfl, hc.symm, hint, hb⟩
  · cases ht

theorem swtch_after (c' : ℕ) (b : SchedPolicy) (p : Slot)
    (hb : ((s.after c a n).th (.cpu c')).base = .swtch b p) : ((s.after c a n).proc p).state = .running := by
  rcases base_cpu_after h hi c' with hold | ⟨rfl, hc, hint, hnew⟩
  · rw [hold] at hb
    have hst := h.swtch c' b p hb
    rcases shift h hi p with hsame | ⟨-, hsh⟩
    · rw [hsame, hst]
    · exact absurd (hsh.of_running hst).1 (h.not_cur_of_swtch hb c)
  · rw [hnew] at hb
    obtain rfl : a = .store (.run p) := arrives_instr hi hb
    rw [after_proc rfl, update_self]

theorem swtched_after (c' : ℕ) (b : SchedPolicy) (p : Slot) (hc' : (s.after c a n).cur c' = .cpu c')
    (hb : ((s.after c a n).th (.cpu c')).base = .swtched b p) : ((s.after c a n).proc p).state ≠ .running := by
  intro hp
  rcases base_cpu_after h hi c' with hold | ⟨rfl, hc, hint, hnew⟩
  · rw [hold] at hb
    have hcp : s.cproc c' = some p := by rw [h.cproc, hb]; rfl
    by_cases hcc : c' = c
    · subst hcc
      rcases shift h hi p with hsame | ⟨-, hsh⟩
      · rw [hsame] at hp
        rcases h.cur c' with hc | ⟨p', b', hc, hb'⟩
        · exact h.swtched c' b p hc hb hp
        · rw [hb'] at hb
          cases hb
          -- the process has just called `sched`
          cases a with
          | swtchBack =>
            obtain ⟨p0, -, hc0, -, hw, -⟩ := swtchBack_instr hi
            rw [hc] at hw
            rw [h.active c' p hc] at hp; exact hw hp
          | swtchTo p0 =>
            obtain ⟨b0, hc0, -⟩ := h.swtchTo_facts hi
            rw [hc0] at hc; cases hc
          | _ =>
            have hcur : s.cur c' = .cpu c' := hc'
            rw [hcur] at hc; cases hc
      · obtain ⟨rfl, -⟩ := hsh.to_running hp
        obtain ⟨-, -, hint, hl, -⟩ := guard_instr hi
        have hcur : s.cur c' = .cpu c' := hc'
        rw [hcur] at hint hl
        rw [Inv.pc_of_none (h.base_of_not_isIntr hint), hb] at hl; cases hl
    · rw [after_cur_of_ne hcc] at hc'
      rw [state_after_of_ne h hi hcc hcp] at hp
      exact h.swtched c' b p hc' hb hp
  · rw [hnew] at hb
    obtain rfl : a = .swtchTo p := arrives_instr hi hb
    have hcur : (s.after c' (.swtchTo p) n).cur c' = .proc p := update_self _ _ _
    rw [hcur] at hc'; cases hc'

theorem chosen_after (c' : ℕ) (p : Slot) (hp : Control.chosen ((s.after c a n).th (.cpu c')).base = some p) :
    ((s.after c a n).proc p).state = .runnable := by
  rcases base_cpu_after h hi c' with hold | ⟨rfl, hc, hint, hnew⟩
  · rw [hold] at hp
    have hst := h.chosen c' p hp
    rcases shift h hi p with hsame | ⟨hL, hsh⟩
    · rw [hsame, hst]
    · obtain rfl := h.mutex hL (h.held_of_chosen hp)
      obtain rfl := hsh.of_runnable hst
      have hcp := cproc_after h hi c
      rw [hold, loaded_of_chosen hp, after_cproc_self] at hcp; cases hcp
  · rw [hnew] at hp
    obtain ⟨hns, hst⟩ := chosen_instr hi hp
    rw [after_proc_of_quiet hns]
    rcases hst with hst | hst
    · rw [hc, Inv.pc_of_none hint] at hst; exact h.chosen c' p hst
    · exact hst

theorem parked_after (p : Slot) (hp : ∀ c', (s.after c a n).cur c' ≠ .proc p) :
    parks ((s.after c a n).th (.proc p)).pc = true := by
  by_cases ht : .proc p = s.cur c
  · -- only `sched` stops a process
    have hth := after_th_self h hi
    have hpc := hp c
    cases a with
    | swtchBack =>
      obtain ⟨p', pc', hc, -, -, rfl, hpk, -⟩ := swtchBack_instr hi
      rw [ht, hth, pc_next]; exact hpk
    | swtchTo p' =>
      obtain ⟨b, hc, -⟩ := h.swtchTo_facts hi
      rw [hc] at ht; cases ht
    | _ => exact absurd ht.symm hpc
  · rcases after_th_of_ne ht with hth | ⟨np, -, -, hth⟩
    · rw [hth]
      refine h.parked p fun c' hc' => ?_
      have hcc : c' ≠ c := by rintro rfl; exact ht hc'.symm
      exact hp c' ((after_cur_of_ne hcc).trans hc')
    · rw [hth]; rfl

theorem dead_after (p : Slot) (hp : ((s.after c a n).th (.proc p)).pc = .exitDead) :
    ((s.after c a n).proc p).state = .zombie ∨ ((s.after c a n).proc p).state = .unused := by
  by_cases ht : .proc p = s.cur c
  · have hth := after_th_self h hi
    rw [ht, hth, pc_next] at hp
    have hpc : n.pc .user = .exitDead := by
      cases n with
      | goto pc => exact hp
      | ret =>
        -- what a return uncovers holds no lock
        have hu := h.holds_under (s.cur c)
        have hd : under (s.th (s.cur c)) = .exitDead := hp
        rw [hd, ← ht] at hu; cases hu
    obtain rfl : a = .swtchBack := arrives_instr hi hpc
    obtain ⟨p', pc', hc, -, -, rfl, -, hz⟩ := swtchBack_instr hi
    left
    have hst := h.active c p ht.symm
    rw [ht, hz hpc] at hst; exact hst
  · rcases after_th_of_ne ht with hth | ⟨np, -, -, hth⟩
    · rw [hth] at hp
      have hst := h.dead p hp
      rcases shift h hi p with hsame | ⟨-, hsh⟩
      · rw [hsame]; exact hst
      · rcases hsh.of_dead hst with hz | hu | rfl
        · exact .inl hz
        · exact .inr hu
        · have hth' : (s.after c (.store (.alloc p)) n).th (.proc p) = ⟨.forkret, none⟩ :=
            update_self _ _ _
          rw [← hth, hth'] at hp; cases hp
    · rw [hth] at hp; cases hp

theorem child_of_store {np : Slot} (ha : a = .store (.free np) ∨ a = .store (.start np)) :
    (s.th (s.cur c)).intr = none ∧ child (s.th (s.cur c)).base = some np := by
  rcases ha with rfl | rfl
  · have hpc : (s.th (s.cur c)).pc = .forkMade np := guard_instr hi
    refine ⟨h.base_of_not_isIntr (by rw [hpc]; rfl), ?_⟩
    rw [h.base_eq hpc rfl]; rfl
  · have hpc : (s.th (s.cur c)).pc = .forkStart np := guard_instr hi
    refine ⟨h.base_of_not_isIntr (by rw [hpc]; rfl), ?_⟩
    rw [h.base_eq hpc rfl]; rfl

theorem child_after (t : Tid) (np : Slot) (hnp : child ((s.after c a n).th t).base = some np) :
    child (s.th t).base = some np ∧ (a = .store (.free np) ∨ a = .store (.start np) → t ≠ s.cur c)
      ∨ t = s.cur c ∧ a = .store (.alloc np) := by
  rcases after_base h hi t with hb | ⟨rfl, hint, hb⟩ | ⟨np', -, -, hb⟩
  · rw [hb] at hnp
    refine .inl ⟨hnp, fun ha ht => ?_⟩
    -- freeing or starting a child moves its maker on
    subst ht
    obtain ⟨hint, -⟩ := child_of_store h hi ha
    have hch := (handed_instr hi).1
    rw [after_th_self h hi, base_next_of_none n hint] at hb
    rw [hb, hnp] at hch
    rcases ha with rfl | rfl <;> cases hch
  · rw [hb, (handed_instr hi).1, Inv.pc_of_none hint] at hnp
    cases a with
    | store e =>
      cases e with
      | alloc np' => right; cases hnp; exact ⟨rfl, rfl⟩
      | free np' | start np' => cases hnp
      | _ => left; refine ⟨hnp, ?_⟩; rintro (ha | ha) <;> cases ha
    | _ => left; refine ⟨hnp, ?_⟩; rintro (ha | ha) <;> cases ha
  · rw [hb] at hnp; cases hnp

theorem fork_after (t : Tid) (np : Slot) (hnp : child ((s.after c a n).th t).base = some np) :
    ((s.after c a n).proc np).state = .used ∧ (s.after c a n).th (.proc np) = ⟨.forkret, none⟩ := by
  rcases child_after h hi t np hnp with ⟨hnp, hne⟩ | ⟨rfl, rfl⟩
  · obtain ⟨hst, hth⟩ := h.fork t np hnp
    constructor
    · rcases shift h hi np with hsame | ⟨-, hsh⟩
      · rw [hsame, hst]
      · have ha := hsh.of_used hst
        exact absurd (h.forkUniq t _ np hnp (child_of_store h hi ha).2) (hne ha)
    · have hcur : .proc np ≠ s.cur c := fun e => (h.state_of_cur e.symm).2 hst
      rcases after_th_of_ne hcur with hsame | ⟨np', -, -, hth'⟩
      · rw [hsame, hth]
      · exact hth'
  · refine ⟨?_, update_self _ _ _⟩
    rw [after_proc rfl, update_self]

theorem forkUniq_after (t t' : Tid) (np : Slot) (hnp : child ((s.after c a n).th t).base = some np)
    (hnp' : child ((s.after c a n).th t').base = some np) : t = t' := by
  have key : ∀ t, child (s.th t).base = some np → a ≠ .store (.alloc np) := by
    rintro t ht rfl
    have hu := (guard_instr hi).2
    rw [(h.fork t np ht).1] at hu; cases hu
  rcases child_after h hi t np hnp with ⟨hc, -⟩ | ⟨rfl, ha⟩
  · rcases child_after h hi t' np hnp' with ⟨hc', -⟩ | ⟨-, ha⟩
    · exact h.forkUniq t t' np hc hc'
    · exact absurd ha (key t hc)
  · rcases child_after h hi t' np hnp' with ⟨hc', -⟩ | ⟨rfl, -⟩
    · exact absurd ha (key t' hc')
    · rfl

theorem inv_after (he : a.Enabled c s) : Inv (s.after c a n) where
  cproc := cproc_after h hi
  cur := cur_after h hi
  uniq := uniq_after h hi
  base := base_after h hi
  intr := intr_after h hi
  held := held_after h hi he
  nodup := nodup_after h hi he
  running := running_after h hi
  active := active_after h hi
  swtch := swtch_after h hi
  swtched := swtched_after h hi
  chosen := chosen_after h hi
  parked := parked_after h hi
  dead := dead_after h hi
  fork := fork_after h hi
  forkUniq := forkUniq_after h hi

omit hi in
theorem inv_enter {pc pc' : Pc} (hth : s.th (s.cur c) = ⟨pc, none⟩) (hpc : holds (s.cur c) pc = [])
    (hpc' : holds (s.cur c) pc' = []) (hint : isIntr pc' = true) : Inv (s.setThread (s.cur c) ⟨pc, some pc'⟩) := by
  have hself : (s.setThread (s.cur c) ⟨pc, some pc'⟩).th (s.cur c) = ⟨pc, some pc'⟩ :=
    update_self _ _ _
  have hother : ∀ t, t ≠ s.cur c → (s.setThread (s.cur c) ⟨pc, some pc'⟩).th t = s.th t :=
    fun t ht => update_of_ne ht _ _
  have hbase : ∀ t, ((s.setThread (s.cur c) ⟨pc, some pc'⟩).th t).base = (s.th t).base :=
    base_setThread (by rw [hth])
  have hheld : ∀ c', heldBy (s.setThread (s.cur c) ⟨pc, some pc'⟩) c' = heldBy s c' := by
    intro c'
    by_cases hc : c' = c
    · subst hc
      rw [heldBy, heldBy, hth]
      change holds (s.cur c') ((s.setThread (s.cur c') ⟨pc, some pc'⟩).th (s.cur c')).pc = _
      rw [hself]; exact hpc'.trans hpc.symm
    · have hne : s.cur c' ≠ s.cur c := fun e => hc (h.cur_inj e)
      change holds (s.cur c') ((s.setThread (s.cur c) ⟨pc, some pc'⟩).th (s.cur c')).pc = _
      rw [hother _ hne, heldBy]
  have hproc : ∀ p, .proc p = s.cur c → want pc' = want pc ∧ pc' ≠ .exitDead := by
    intro p hp
    rw [← hp] at hpc hpc'
    refine ⟨by rw [want_of_free hpc, want_of_free hpc'], ?_⟩
    rintro rfl; cases hpc'
  refine ⟨fun c' => ?_, fun c' => ?_, h.uniq, fun t => ?_, fun t pc0 hpc0 => ?_, fun c' L => ?_,
    fun c' => ?_, h.running, fun c' p hc' => ?_, fun c' b p hb => ?_, fun c' b p hc' hb => ?_,
    fun c' p hp => ?_, fun p hp => ?_, fun p hp => ?_, fun t np hnp => ?_, fun t t' np hnp hnp' => ?_⟩
  · rw [hbase]; exact h.cproc c'
  · rcases h.cur c' with hc | ⟨p, b, hc, hb⟩
    · exact .inl hc
    · refine .inr ⟨p, b, hc, ?_⟩
      rw [hother, hb]
      intro e
      rw [h.cur_cpu_eq e.symm, ← e] at hc; cases hc
  · rw [hbase]; exact h.base t
  · by_cases ht : t = s.cur c
    · subst ht
      rw [hself] at hpc0 ⊢
      cases hpc0; exact ⟨hint, hpc⟩
    · rw [hother t ht] at hpc0 ⊢; exact h.intr t pc0 hpc0
  · rw [hheld]; exact h.held c' L
  · rw [hheld]; exact h.nodup c'
  · have hst := h.active c' p hc'
    by_cases ht : .proc p = s.cur c
    · rw [ht, hself]; rw [ht, hth] at hst; exact hst.trans (hproc p ht).1.symm
    · rw [hother _ ht]; exact hst
  · rw [hbase] at hb; exact h.swtch c' b p hb
  · rw [hbase] at hb; exact h.swtched c' b p hc' hb
  · rw [hbase] at hp; exact h.chosen c' p hp
  · rw [hother _ (hp c).symm]; exact h.parked p hp
  · by_cases ht : .proc p = s.cur c
    · rw [ht, hself] at hp; exact absurd hp (hproc p ht).2
    · rw [hother _ ht] at hp; exact h.dead p hp
  · rw [hbase] at hnp
    obtain ⟨hst, hf⟩ := h.fork t np hnp
    refine ⟨hst, ?_⟩
    rw [hother, hf]; exact fun e => (h.state_of_cur e.symm).2 hst
  · rw [hbase] at hnp hnp'; exact h.forkUniq t t' np hnp hnp'

end Step

theorem inv_step (h : Inv s) (hs : Step s c s') : Inv s' := by
  cases hs with
  | instr hi he => exact inv_after h hi he
  | timer hc hth hpc =>
    rw [← hc] at hth hpc ⊢; exact inv_enter h hth hpc rfl rfl
  | device n hth hpc => exact inv_enter h hth hpc rfl rfl

theorem inv_reachable (h : Reachable sys s) : Inv s := by
  refine h.inv (I := Inv) (fun s hs => ?_) fun _ _ _ hI hs => inv_step hI hs
  obtain rfl : s = boot := hs; exact inv_boot

/-- **No process runs on two CPUs.**  In every state the CPUs can reach, if `p->lock` is free then
`p->state = RUNNING` exactly when exactly one CPU has `c->proc = p`, and otherwise no CPU has. -/
theorem running_iff_one_cpu (h : Reachable sys s) (p : Slot) (hp : s.lock (.proc p) = none) :
    ((s.proc p).state = .running ↔ ∃! c, s.cproc c = some p) ∧
      ((s.proc p).state ≠ .running → ∀ c, s.cproc c ≠ some p) := by
  have hI := inv_reachable h
  have hrun : ∀ c, s.cproc c = some p → (s.proc p).state = .running := by
    intro c hc
    by_contra hst
    rw [(hI.held c _).mpr (hI.held_of_not_running hc hst)] at hp; cases hp
  refine ⟨⟨fun hst => ?_, fun ⟨c, hc, _⟩ => hrun c hc⟩, fun hst c hc => hst (hrun c hc)⟩
  obtain ⟨c, hc⟩ := hI.running p hst
  exact ⟨c, hc, fun c' hc' => hI.uniq c' c p hc' hc⟩

def initRuns : State :=
  ((((boot.after 0 .tau (.goto (.rrScan 0))).after 0 (.acquire (.proc 0)) (.goto (.rrTest 0))).after
    0 (.store (.run 0)) (.goto (.swtch .rr 0))).after 0 (.swtchTo 0) (.goto (.swtched .rr 0))).after
    0 (.release (.proc 0)) (.goto .user)

theorem reachable_initRuns : Reachable sys initRuns := by
  have h0 : Reachable sys boot := .start rfl
  have h1 := reach h0 0 (.inr SchedInstr.topRr)
  have h2 := reach h1 0 (.inr (SchedInstr.rrScan (q := 0)))
  have h3 := reach h2 0 (.inr (SchedInstr.rrPick rfl))
  have h4 := reach h3 0 (.inr SchedInstr.swtch)
  exact reach h4 0 (.inr ProcInstr.forkret)

theorem running_iff_one_cpu_init : Reachable sys initRuns ∧ initRuns.lock (.proc 0) = none ∧
    (initRuns.proc 0).state = .running ∧ ∃! c, initRuns.cproc c = some 0 :=
  ⟨reachable_initRuns, rfl, rfl, (running_iff_one_cpu reachable_initRuns 0 rfl).1.mp rfl⟩

end Xv6.Smp.Running
