import Mathlib.Algebra.BigOperators.Group.Finset.Basic
import Xv6.Vm.Space

/-!
# Address spaces and the conservation of pages

Runs of the calls of `Vm.Space`.  After every call the free list, the processes, the pipes and the kernel's
own pages make up the pages of the machine, and every process has its memory mapped: `Inv`.  From it come
the address spaces of the processes and the owners of the pages.
-/

namespace Xv6.Vm.Conservation

open Lib.Runs Lib.Stateful Lib.Tables Vm.Copy Vm.Pages Vm.Space Multiset Function
open Finset (add_sum_erase mem_univ ne_of_mem_erase sum_congr)

variable {P : Type} {all R : Multiset Pa} {m : Mem} {tr tf : Pa}

/-! ## Definitions -/

inductive Owner (P : Type)
  | trapframe (p : P)
  | root (p : P)
  | level1 (p : P) (k : ℕ)
  | level0 (p : P) (k : ℕ)
  | user (p : P) (v : ℕ)
  | pipe
  | permanent

def heldTable (q : P) (pt : PageTable) : Multiset (Owner P × Pa) :=
  {(.root q, pt.root)} + pt.l1.total (fun x => {(.level1 q x.1, x.2)}) +
    pt.l0.total (fun x => {(.level0 q x.1, x.2)}) +
    pt.leaf.total (fun x => if x.1 < TRAPFRAME then {(.user q x.1, x.2.pa)} else 0)

def held (q : P) (p : Proc) : Multiset (Owner P × Pa) :=
  p.trapframe.elim 0 (fun tf => {(.trapframe q, tf)}) + p.pagetable.elim 0 (heldTable q)

def Mapped (s : State P) (p : P) (v : ℕ) (pte : Pte) : Prop :=
  ∃ pt, (s.proc p).pagetable = some pt ∧ pt.leaf.get v = some pte

theorem map_heldTable (q : P) (pt : PageTable) : (heldTable q pt).map Prod.snd = pt.pages := by
  have hw : (fun x : ℕ × Pte => map Prod.snd
      (if x.1 < TRAPFRAME then {((Owner.user q x.1 : Owner P), x.2.pa)} else 0)) = weigh := by
    funext x
    unfold weigh
    split_ifs <;> rfl
  unfold heldTable PageTable.pages
  rw [map_add, map_add, map_add, map_total, map_total, map_total, hw]; rfl

theorem map_held (q : P) (p : Proc) : (held q p).map Prod.snd = p.pages := by
  unfold held Proc.pages
  rw [map_add]
  congr 1
  · cases p.trapframe <;> rfl
  · cases p.pagetable with
    | none => rfl
    | some pt => exact map_heldTable q pt

section
variable [Fintype P]

structure Inv (tr : Pa) (all : Multiset Pa) (s : State P) : Prop where
  bal : (s.free : Multiset Pa) + (∑ q, (s.proc q).pages + (s.pipes + s.permanent)) = all
  ok : ∀ q, (s.proc q).Ok tr

def holdings (s : State P) : Multiset (Owner P × Pa) :=
  ∑ q, held q (s.proc q) +
    (map (Prod.mk Owner.pipe) s.pipes + map (Prod.mk Owner.permanent) s.permanent)

def owners (s : State P) (a : Pa) : Multiset (Owner P) := ((holdings s).filter fun x => a = x.2).map Prod.fst

end

/-! ## Runs -/

variable {s s' : State P} {q : P} {c : Call P} {o : List Bool} {m' : Mem} {pages : List Pa}

section
variable [DecidableEq P]

theorem step_proc (hq : c.target = some q) {r : Proc × Bool} (hr : procCall tr s c ⟨s.free, o⟩ = .ok (r, m')) :
    step tr s (c, o) = .ok { s with free := m'.free, proc := update s.proc q r.1 } := by
  unfold step
  rw [hq]
  rw [hr]; rfl

theorem step_pipe (hq : c.target = none) {l : List Pa} (hr : pipeCall s c ⟨s.free, o⟩ = .ok (l, m')) :
    step tr s (c, o) = .ok { s with free := m'.free, pipes := l } := by
  unfold step
  rw [hq]
  rw [hr]; rfl

end

variable [Fintype P]

theorem Inv.used (h : Inv tr all s) (hs : (s.proc q).state ≠ .unused) :
    ∃ state tf pt sz, s.proc q = ⟨state, some tf, some pt, sz⟩ ∧ state ≠ .unused ∧
      Maps tr tf pt (User (pagesOf sz)) := by
  cases hp : s.proc q with
  | mk state tf pt sz =>
    have hok := h.ok q
    rw [hp] at hok hs
    cases hok with
    | unused => exact absurd rfl hs
    | used hne hm => exact ⟨_, _, _, _, rfl, hne, hm⟩

theorem pipeCall_returns (h : Inv tr all s) (hen : Enabled s c) : wp (fun _ => False) (pipeCall s c)
      (fun l m' => Bal all (l + (∑ r, (s.proc r).pages + s.permanent)) m') ⟨s.free, o⟩ := by
  have hb : Bal all (s.pipes + (∑ r, (s.proc r).pages + s.permanent)) ⟨s.free, o⟩ := by
    unfold Bal
    rw [← h.bal]
    abel
  cases c with
  | pipe p kept =>
    refine .bind (wp_kalloc hb (fun m' h' => h') fun page m' h' => ?_)
    cases kept with
    | true =>
      refine h'.of_eq ?_
      rw [← cons_coe, ← singleton_add, add_assoc]
    | false => exact .bind (wp_kfree h' fun m2 h2 => h2)
  | close p page =>
    have hmem : page ∈ s.pipes := hen.2
    have hsplit : (s.pipes : Multiset Pa) = {page} + (s.pipes.erase page : List Pa) := by
      exact coe_eq_coe.mpr (List.perm_cons_erase hmem)
    rw [hsplit, add_assoc] at hb; exact .bind (wp_kfree hb fun m' h' => h')
  | _ => exact hb

section
variable [DecidableEq P]

theorem Inv.split (h : Inv tr all s) (q : P) (o : List Bool) :
    Bal all ((s.proc q).pages + (∑ r ∈ Finset.univ.erase q, (s.proc r).pages + (s.pipes + s.permanent)))
      ⟨s.free, o⟩ := by
  rw [← add_assoc (s.proc q).pages, add_sum_erase _ (fun r => (s.proc r).pages) (mem_univ q)]
  exact h.bal

section
variable (hall : card all ≤ NPAGES)
include hall

theorem Inv.bound {state : ProcState} {pt : PageTable} {sz : ℕ}
    (h : Inv tr all s) (hp : s.proc q = ⟨state, some tf, some pt, sz⟩) (hm : Maps tr tf pt (User (pagesOf sz))) :
    pagesOf sz < TRAPFRAME := by
  have hb := h.split q []
  rw [hp, pages_used, used_split] at hb; exact hm.bound (scarce hall) hb

theorem Inv.fork (h : Inv tr all s) {p np : P} (hp : (s.proc p).state = .used) (hnp : (s.proc np).state = .unused) :
    Keeps tr all (s.proc np) (fork tr (s.proc p) (s.proc np)) := by
  obtain ⟨state, tf, pt, sz, he, -, hm⟩ := h.used (q := p) (by rw [hp]; decide)
  have hlt := h.bound hall he hm
  rw [(h.ok np).of_unused hnp, he]; exact keeps_fork hm hlt

theorem keeps_procCall (h : Inv tr all s) (hen : Enabled s c)
    (hq : c.target = some q) : Keeps tr all (s.proc q) (procCall tr s c) := by
  have hne : ∀ {p : P}, (s.proc p).state = .used → (s.proc p).state ≠ .unused := fun hp => by
    rw [hp]; decide
  cases c with
  | fork p np | forkWithPriority p np =>
    cases hq; exact h.fork hall hen.1 hen.2
  | exec p args img =>
    cases hq
    obtain ⟨state, tf, pt, sz, he, hs, hm⟩ := h.used (hne hen)
    show Keeps tr all (s.proc q) (sysExec tr (s.proc q) args img)
    rw [he]; exact keeps_sysExec hall hs hm
  | sbrk p n =>
    cases hq
    obtain ⟨state, tf, pt, sz, he, hs, hm⟩ := h.used (hne hen)
    show Keeps tr all (s.proc q) (growproc (s.proc q) n)
    rw [he]; exact keeps_growproc hall hs hm
  | exit p =>
    cases hq
    obtain ⟨state, tf, pt, sz, he, hs, hm⟩ := h.used (hne hen)
    intro R m hb
    show Proc.Ok tr { s.proc q with state := .zombie } ∧
      Bal all (Proc.pages { s.proc q with state := .zombie } + R) m
    rw [he] at hb ⊢; exact ⟨.used (by decide) hm, hb⟩
  | wait p child copied =>
    cases hq
    obtain ⟨state, tf, pt, sz, he, hs, hm⟩ := h.used (by rw [hen.2]; decide)
    unfold procCall
    simp only []
    rw [he]
    cases copied with
    | true => exact keeps_free hall hm
    | false => exact keeps_pure (.used hs hm)
  | pipe p kept | close p page => cases hq

end

theorem Inv.step (hall : card all ≤ NPAGES) (h : Inv tr all s) (hen : Enabled s c) :
    ∃ s', Space.step tr s (c, o) = .ok s' ∧ Inv tr all s' ∧ s'.permanent = s.permanent ∧
      ∀ r, c.target ≠ some r → s'.proc r = s.proc r := by
  cases hq : c.target with
  | some q =>
    obtain ⟨r, m', hr, hok, hb⟩ := wp_returns (keeps_procCall hall h hen hq _ _ (h.split q o))
    refine ⟨_, step_proc hq hr, ⟨?_, fun r' => ?_⟩, rfl, fun r' hr' => ?_⟩
    · have hrest : ∑ r' ∈ Finset.univ.erase q, (update s.proc q r.1 r').pages =
          ∑ r' ∈ Finset.univ.erase q, (s.proc r').pages :=
        sum_congr rfl fun r' hr' => by rw [update_of_ne (ne_of_mem_erase hr')]
      show (m'.free : Multiset Pa) + (∑ r', (update s.proc q r.1 r').pages + _) = all
      rw [← add_sum_erase _ _ (mem_univ q), hrest, update_self, add_assoc]
      exact hb
    · exact (forall_update_iff s.proc fun _ v => v.Ok tr).mpr ⟨hok, fun r' _ => h.ok r'⟩ r'
    · exact update_of_ne (fun he => hr' (congrArg some he.symm)) _ _
  | none =>
    obtain ⟨l, m', hr, hb⟩ := wp_returns (pipeCall_returns h hen)
    refine ⟨_, step_pipe hq hr, ⟨?_, h.ok⟩, rfl, fun _ _ => rfl⟩
    rw [← hb]
    abel

theorem inv_boot (h : Booted tr pages s) : Inv tr pages s := by
  obtain ⟨-, -, -, permanent, rest, first, p, m, hperm, hrun, rfl⟩ := h
  have hb : Bal (pages : Multiset Pa) (permanent : Multiset Pa) ⟨rest, []⟩ := by
    unfold Bal
    rw [add_comm]; exact coe_eq_coe.mpr hperm
  obtain ⟨tf, pt, he, hm, hbal⟩ := wp_ok (wp_userinit hb) hrun p rfl
  have hok : p.Ok tr := he ▸ .used nofun hm
  have hrest : ∑ q ∈ Finset.univ.erase first, ((boot permanent first p m).proc q).pages = 0 := by
    refine Finset.sum_eq_zero fun q hq => ?_
    show (if q = first then p else Proc.free).pages = 0
    rw [if_neg (ne_of_mem_erase hq)]; rfl
  have hself : (boot permanent first p m).proc first = p := if_pos rfl
  refine ⟨?_, fun q => ?_⟩
  · rw [← add_sum_erase _ _ (mem_univ first), hrest, hself, add_zero]
    exact hbal
  · show (if q = first then p else Proc.free).Ok tr
    split_ifs
    · exact hok
    · exact .unused

theorem inv_reachable (hr : Reachable (sys tr (Booted tr pages)) s) : Inv tr pages s ∧
    pages.Nodup ∧ pages.length ≤ NPAGES ∧ tr ∉ pages := by
  refine hr.inv (I := fun s => Inv tr pages s ∧ pages.Nodup ∧ pages.length ≤ NPAGES ∧ tr ∉ pages)
    (fun s h => ?_) fun t e t' ht hs => ?_
  · have hboot : Booted tr pages s := h
    exact ⟨inv_boot hboot, hboot.1, hboot.2.1, hboot.2.2.1⟩
  obtain ⟨hen, hst⟩ := hs
  have hall : card (pages : Multiset Pa) ≤ NPAGES := ht.2.2.1
  obtain ⟨t'', hst', hinv, -⟩ := ht.1.step hall hen
  have heq : (Except.ok t' : Except Panic (State P)) = .ok t'' := hst.symm.trans hst'
  cases heq; exact ⟨hinv, ht.2⟩

end

/-! ## Owners -/

theorem map_holdings (s : State P) :
    (holdings s).map Prod.snd = ∑ q, (s.proc q).pages + (s.pipes + s.permanent) := by
  have hsum : (∑ q, held q (s.proc q)).map Prod.snd = ∑ q, (s.proc q).pages := by
    rw [← coe_mapAddMonoidHom, map_sum]
    exact sum_congr rfl fun q _ => map_held q (s.proc q)
  unfold holdings
  rw [map_add, map_add, map_map, map_map]
  congr 2 <;> exact map_id _

variable {a : Pa}

theorem Inv.count (h : Inv tr pages s) (hnd : pages.Nodup) (ha : a ∈ pages) :
    s.free.count a + Multiset.card (owners s a) = 1 := by
  have hcount : Multiset.count a (pages : Multiset Pa) = 1 := by
    rw [coe_count]; exact List.count_eq_one_of_mem hnd ha
  rw [← h.bal, ← map_holdings, count_add, coe_count, count_map] at hcount
  unfold owners
  rw [card_map]; exact hcount

theorem mem_owners {x : Owner P} : x ∈ owners s a ↔ (x, a) ∈ holdings s := by
  unfold owners
  rw [mem_map]
  constructor
  · rintro ⟨y, hy, rfl⟩; obtain ⟨hmem, rfl⟩ := mem_filter.mp hy; exact hmem
  · intro hx; exact ⟨(x, a), mem_filter.mpr ⟨hx, rfl⟩, rfl⟩

theorem Inv.owner_unique (h : Inv tr pages s) (hnd : pages.Nodup) {x y : Owner P}
    (hx : (x, a) ∈ holdings s) (hy : (y, a) ∈ holdings s) : a ∈ pages ∧ x = y := by
  have hmem : a ∈ pages := by
    have hin : a ∈ (pages : Multiset Pa) := by
      rw [← h.bal, ← map_holdings]
      exact mem_add.mpr (.inr (mem_map_of_mem Prod.snd hx))
    exact hin
  have hcount := h.count hnd hmem
  have hx' := mem_owners.mpr hx
  have hpos : 0 < card (owners s a) := card_pos_iff_exists_mem.mpr ⟨x, hx'⟩
  obtain ⟨z, hz⟩ := card_eq_one.mp (show card (owners s a) = 1 by omega)
  have hy' := mem_owners.mpr hy
  rw [hz, mem_singleton] at hx' hy'; exact ⟨hmem, hx'.trans hy'.symm⟩

theorem held_holdings {x : Owner P × Pa} (h : x ∈ held q (s.proc q)) : x ∈ holdings s := by
  exact mem_add.mpr (.inl (mem_sum.mpr ⟨q, mem_univ q, h⟩))

/-! ## Address spaces -/

variable {v : ℕ} {pte : Pte}

theorem Mapped.used (h : Inv tr all s) (hv : Mapped s q v pte) :
    ∃ state tf pt sz, s.proc q = ⟨state, some tf, some pt, sz⟩ ∧ Maps tr tf pt (User (pagesOf sz)) ∧
      pt.leaf.get v = some pte := by
  obtain ⟨pt, hpt, hget⟩ := hv
  have hs : (s.proc q).state ≠ .unused := by intro hs; rw [(h.ok q).of_unused hs] at hpt; cases hpt
  obtain ⟨state, tf, pt', sz, he, -, hm⟩ := h.used hs
  rw [he] at hpt
  cases hpt; exact ⟨state, tf, pt, sz, he, hm, hget⟩

theorem Mapped.holds (hv : Mapped s q v pte) (hlt : v < TRAPFRAME) : (Owner.user q v, pte.pa) ∈ holdings s := by
  obtain ⟨pt, hpt, hget⟩ := hv
  refine held_holdings (q := q) ?_
  unfold held
  rw [hpt]
  refine mem_add.mpr (.inr ?_)
  refine mem_add.mpr (.inr ?_)
  rw [total_erase hget, if_pos hlt]
  exact mem_add.mpr (.inl (mem_singleton_self _))

theorem trapframe_holds (h : (s.proc q).trapframe = some tf) : (Owner.trapframe q, tf) ∈ holdings s := by
  refine held_holdings (q := q) ?_
  unfold held
  rw [h]; exact mem_add.mpr (.inl (mem_singleton_self _))

variable [DecidableEq P]

theorem Mapped.lt (hall : card all ≤ NPAGES) (h : Inv tr all s)
    (hv : Mapped s q v pte) (h1 : v ≠ TRAPFRAME) (h2 : v ≠ TRAMPOLINE) : v < TRAPFRAME := by
  obtain ⟨state, tf, pt, sz, he, hm, hget⟩ := hv.used h
  have hlt := h.bound hall he hm
  rcases (hm.dom v).mp (by rw [hget]; rfl) with hv | hv | hv
  · omega
  · exact absurd hv h1
  · exact absurd hv h2

/-- **Address spaces.**  Between calls, whatever `kalloc` answered, a process maps the pages below its
size, rounded up, beside the trapframe and the trampoline; each of them is mapped once in the machine; and
no call panics. -/
theorem memory_mapped (hr : Reachable (sys tr (Booted tr pages)) s) :
    (∀ p, (s.proc p).state ≠ .unused → ∀ v, v ≠ TRAPFRAME → v ≠ TRAMPOLINE →
      ((∃ pte, Mapped s p v pte) ↔ v < pagesOf (s.proc p).sz)) ∧
    (∀ p v pte q w pte', v ≠ TRAPFRAME → v ≠ TRAMPOLINE → Mapped s p v pte → Mapped s q w pte' →
      pte.pa = pte'.pa → p = q ∧ v = w) ∧ ∀ c o, Enabled s c → ∃ s', step tr s (c, o) = .ok s' := by
  obtain ⟨h, hnd, hlen, htr⟩ := inv_reachable hr
  have hall : card (pages : Multiset Pa) ≤ NPAGES := hlen
  refine ⟨fun p hs v h1 h2 => ?_, fun p v pte q w pte' h1 h2 hv hw heq => ?_, fun c o hen => ?_⟩
  · obtain ⟨state, tf, pt, sz, he, -, hm⟩ := h.used hs
    rw [he]
    constructor
    · rintro ⟨pte, pt', hpt', hget⟩
      rw [he] at hpt'
      cases hpt'
      rcases (hm.dom v).mp (by rw [hget]; rfl) with hv | hv | hv
      · exact hv
      · exact absurd hv h1
      · exact absurd hv h2
    · intro hv
      obtain ⟨pte, hget⟩ := Option.isSome_iff_exists.mp ((hm.dom v).mpr (.inl hv))
      exact ⟨pte, pt, by rw [he], hget⟩
  · have hmem := hv.holds (hv.lt hall h h1 h2)
    rw [heq] at hmem
    obtain ⟨state, tf, pt, sz, he, hm, hget⟩ := hw.used h
    by_cases hw1 : w = TRAPFRAME
    · rw [hw1] at hget
      have htf : (Owner.trapframe q, tf) ∈ holdings s := trapframe_holds (by rw [he])
      rw [hm.trapframe pte' hget] at hmem; cases (h.owner_unique hnd hmem htf).2
    · by_cases hw2 : w = TRAMPOLINE
      · rw [hw2] at hget
        rw [hm.trampoline pte' hget] at hmem
        exact absurd (h.owner_unique hnd hmem hmem).1 htr
      · have hmem' := hw.holds (hw.lt hall h hw1 hw2)
        cases (h.owner_unique hnd hmem hmem').2; exact ⟨rfl, rfl⟩
  · obtain ⟨s', hs', -⟩ := h.step hall hen; exact ⟨s', hs'⟩

def next (tr : Pa) (s : State P) (e : Call P × List Bool) : Option (State P) :=
  if Enabled s e.1 then (step tr s e).toOption else none

omit [Fintype P] in
theorem sys_next {init : State P → Prop} (s : State P) (e : Call P × List Bool) (s' : State P)
    (h : next tr s e = some s') : (sys tr init).step s e s' := by
  unfold next at h
  split_ifs at h with hen
  cases hs : step tr s e with
  | error x => rw [hs] at h; cases h
  | ok t =>
    rw [hs] at h
    cases h; exact ⟨hen, hs⟩

def small : State Bool :=
  match userinit 1000 ⟨List.range 40, []⟩ with
  | .ok (some p, m) => boot [] false p m
  | _ => ⟨[], fun _ => .free, [], []⟩

theorem small_booted : Booted 1000 (List.range 40) small := by
  refine ⟨List.nodup_range, by decide, by decide, ?_⟩
  have hok : (match userinit 1000 ⟨List.range 40, []⟩ with
    | .ok (some _, _) => true
    | _ => false) = true := by decide +kernel
  unfold small
  split at hok
  · next p m hrun =>
    exact ⟨[], List.range 40, false, p, m, List.Perm.refl _, hrun, rfl⟩
  · cases hok

/-- The child grows; then memory runs out while its parent grows. -/
theorem memory_mapped_grown : ∃ s : State Bool, ((s.proc true).sz = 9096 ∧ (s.proc false).sz = 4096) ∧
    (∃ pte, Mapped s true 2 pte) ∧ ¬∃ pte, Mapped s false 1 pte := by
  obtain ⟨s, hr, -, ht⟩ := exists_run (T := sys 1000 (Booted 1000 (List.range 40))) (f := next 1000) sys_next
    small_booted
    [(.fork false true, []), (.sbrk true 5000, []), (.sbrk false 9000, [true, false])]
    (fun s => decide (((s.proc true).sz = 9096 ∧ (s.proc false).sz = 4096) ∧
      (s.proc true).state = .used ∧ (s.proc false).state = .used)) (by decide +kernel)
  obtain ⟨hsz, hs, hs'⟩ := of_decide_eq_true ht
  have hmap := (memory_mapped ⟨_, hr⟩).1
  refine ⟨s, hsz, (hmap true (by rw [hs]; decide) 2 (by decide) (by decide)).mpr ?_, fun hm => ?_⟩
  · rw [hsz.1]; decide
  · have hlt := (hmap false (by rw [hs']; decide) 1 (by decide) (by decide)).mp hm
    rw [hsz.2] at hlt; exact absurd hlt (by decide)

def tablePages (p : Proc) : ℕ :=
  p.pagetable.elim 0 fun pt => 1 + pt.l1.entries.length + pt.l0.entries.length

theorem card_single (l : List (ℕ × Pa)) : card (l.map single).sum = l.length := by
  induction l with
  | nil => rfl
  | cons x l ih =>
    rw [List.map_cons, List.sum_cons, card_add, ih, Nat.add_comm]; rfl

theorem card_pages {pt : PageTable} {n : ℕ} (hm : Maps tr tf pt (User n)) (hn : n < TRAPFRAME) :
    card pt.pages = 1 + pt.l1.entries.length + pt.l0.entries.length + n := by
  have hdom : ∀ v, v < TRAPFRAME → ((pt.leaf.get v).isSome = true ↔ v < n) := by
    intro v hv
    have hTT : TRAPFRAME < TRAMPOLINE := by decide
    rw [hm.dom]
    unfold User; omega
  unfold PageTable.pages Table.total
  rw [card_add, card_add, card_add, card_single, card_single, card_weigh, countP_eq hdom hn.le]
  rfl

theorem Inv.card_proc (hall : card all ≤ NPAGES) (h : Inv tr all s) (hs : 0 < tablePages (s.proc q)) :
    card (s.proc q).pages = 1 + (tablePages (s.proc q) + pagesOf (s.proc q).sz) := by
  have hne : (s.proc q).state ≠ .unused := by
    intro hu
    rw [(h.ok q).of_unused hu] at hs; exact absurd hs (lt_irrefl 0)
  obtain ⟨state, tf, pt, sz, he, -, hm⟩ := h.used hne
  have hlt := h.bound hall he hm
  rw [he, pages_used, card_add, card_pages hm hlt]; rfl

theorem Inv.card_free (h : Inv tr pages s) (q : P) : s.free.length +
    (card (s.proc q).pages + card (∑ r ∈ Finset.univ.erase q, (s.proc r).pages) +
      (s.pipes.length + s.permanent.length)) = pages.length := by
  have hb := congrArg card (h.split q [])
  rw [card_add, card_add, card_add, card_add] at hb
  rw [Nat.add_assoc (card _)]; exact hb

theorem family_run {p : P} {h : List (State P × (Call P × List Bool))} (hi : Inv tr pages s)
    (hlen : pages.length ≤ NPAGES) (hr : Run (sys tr (· = s)) h s')
    (hC : ∀ x ∈ h, ∀ q, x.2.1.target = some q → q = p ∨ (s.proc q).state = .unused) :
    Inv tr pages s' ∧ s'.permanent = s.permanent ∧
      ∀ q, q ≠ p → (s.proc q).state ≠ .unused → s'.proc q = s.proc q := by
  refine hr.inv_of_ok (I := fun t => Inv tr pages t ∧ t.permanent = s.permanent ∧
      ∀ q, q ≠ p → (s.proc q).state ≠ .unused → t.proc q = s.proc q)
    (C := fun _ e => ∀ q, e.1.target = some q → q = p ∨ (s.proc q).state = .unused)
    (fun t ht => ?_) (fun t e t' ht hc hs => ?_) hC
  · have heq : t = s := ht; rw [heq]; exact ⟨hi, rfl, fun _ _ _ => rfl⟩
  · obtain ⟨hinv, hperm, hsame⟩ := ht
    obtain ⟨hen, hst⟩ := hs
    have hall : card (pages : Multiset Pa) ≤ NPAGES := hlen
    obtain ⟨t'', hst', hinv', hperm', hsame'⟩ := hinv.step hall hen
    have heq : (Except.ok t' : Except Panic (State P)) = .ok t'' := hst.symm.trans hst'
    cases heq
    refine ⟨hinv', hperm'.trans hperm, fun q hq hu => ?_⟩
    rw [hsame' q fun ht => (hc q ht).elim hq hu]
    exact hsame q hq hu

/-- **Pages are conserved.**  Between calls, whatever `kalloc` answered, every page of the machine is on
the free list once or has one owner.  Hence there are as many free pages as before once the processes made
since by `p` and its descendants are reaped, `p` has its old size and as many page-table pages, and there
are as many pipes. -/
theorem pages_conserved (hr : Reachable (sys tr (Booted tr pages)) s) :
    (∀ a ∈ pages, (s.free.count a = 1 ∧ owners s a = 0) ∨ (a ∉ s.free ∧ ∃ x, owners s a = {x})) ∧
    ∀ p h s', Run (sys tr (· = s)) h s' → (s.proc p).state ≠ .unused →
      (∀ x ∈ h, ∀ q, x.2.1.target = some q → q = p ∨ (s.proc q).state = .unused) →
      (∀ q, (s.proc q).state = .unused → (s'.proc q).state = .unused) →
      (s'.proc p).sz = (s.proc p).sz → tablePages (s'.proc p) = tablePages (s.proc p) →
      s'.pipes.length = s.pipes.length → s'.free.length = s.free.length := by
  obtain ⟨hi, hnd, hlen, -⟩ := inv_reachable hr
  have hall : card (pages : Multiset Pa) ≤ NPAGES := hlen
  refine ⟨fun a ha => ?_, fun p h s' hrun hp hC hreap hsz htab hpipes => ?_⟩
  · have hcount := hi.count hnd ha
    by_cases hf : a ∈ s.free
    · have hpos := List.count_pos_iff.mpr hf
      exact .inl ⟨by omega, card_eq_zero.mp (by omega)⟩
    · have hzero := List.count_eq_zero.mpr hf
      exact .inr ⟨hf, card_eq_one.mp (by omega)⟩
  · obtain ⟨hi', hperm, hsame⟩ := family_run hi hlen hrun hC
    have hothers : ∑ r ∈ Finset.univ.erase p, (s'.proc r).pages = ∑ r ∈ Finset.univ.erase p, (s.proc r).pages := by
      refine sum_congr rfl fun r hmem => ?_
      by_cases hu : (s.proc r).state = .unused
      · rw [(hi.ok r).of_unused hu, (hi'.ok r).of_unused (hreap r hu)]
      · rw [hsame r (ne_of_mem_erase hmem) hu]
    have hpos : 0 < tablePages (s.proc p) := by
      obtain ⟨state, tf, pt, sz, he, -, -⟩ := hi.used hp
      rw [he]
      show 0 < 1 + pt.l1.entries.length + pt.l0.entries.length; omega
    have hcard := hi.card_proc hall hpos
    have hcard' := hi'.card_proc (q := p) hall (by omega)
    have hfree := hi.card_free p
    have hfree' := hi'.card_free p
    rw [hothers, hcard', hsz, hperm] at hfree'; omega

def child : List (Call Bool × List Bool) :=
  [(.fork false true, []), (.sbrk true 5000, [true, true]), (.pipe true false, []), (.exit true, []),
    (.wait false true true, [])]

theorem pages_conserved_child : ∃ s' : State Bool, (∃ h, Run (sys 1000 (· = small)) h s' ∧
    h.map Prod.snd = child) ∧ s'.free.length = small.free.length := by
  obtain ⟨s', hr, hes, ht⟩ := exists_run (T := sys 1000 (· = small)) (f := next 1000) sys_next rfl child
    (fun s => decide ((∀ q, (small.proc q).state = .unused → (s.proc q).state = .unused) ∧
      (s.proc false).sz = (small.proc false).sz ∧
      tablePages (s.proc false) = tablePages (small.proc false) ∧ s.pipes.length = small.pipes.length))
    (by decide +kernel)
  obtain ⟨hreap, hsz, htab, hpipes⟩ := of_decide_eq_true ht
  have htargets : ∀ e ∈ child, ∀ q, e.1.target = some q → q = false ∨ (small.proc q).state = .unused := by
    have hfree : (small.proc true).state = .unused := by decide +kernel
    intro e _ q _
    cases q with
    | false => exact .inl rfl
    | true => exact .inr hfree
  refine ⟨s', ⟨_, hr, hes⟩, (pages_conserved (.start small_booted)).2 false _ s' hr (by decide +kernel)
    (fun x hx => htargets x.2 ?_) hreap hsz htab hpipes⟩
  rw [← hes]; exact List.mem_map_of_mem hx

end Xv6.Vm.Conservation
