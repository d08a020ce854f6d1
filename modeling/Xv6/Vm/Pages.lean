import Mathlib.Algebra.Order.Group.Multiset
import Mathlib.Tactic.Abel
import Xv6.Lib.Stateful
import Xv6.Lib.Tables
import Xv6.Vm.Copy

/-!
# Page tables and the page allocator

The functions of `vm.c` that build, copy and free user page tables, over the free list of `kalloc.c`.  A page
table is a value: its root page, the page-table pages of the two levels below, keyed by the part of the page
number that selects them, and the leaf entries.  `kalloc` fails when the free list is empty, and also wherever the
allocator's `outcomes` say so.

`Bal all R m` says that the free list and `R` together are the pages `all`; `Maps pt tf D` that the leaf entries
are those of the page numbers in `D`.
-/

namespace Xv6.Vm.Pages

open Lib.Stateful Lib.Tables Vm.Copy Multiset Option
open Bool (false_ne_true)

abbrev Pa := ℕ

def PTE_V : BitVec 10 := 1
def PTE_R : BitVec 10 := 2
def PTE_W : BitVec 10 := 4
def PTE_X : BitVec 10 := 8
def PTE_U : BitVec 10 := 16

def MAXPAGE : ℕ := 2 ^ 26

/-- The page numbers of `TRAMPOLINE` and `TRAPFRAME`. -/
def TRAMPOLINE : ℕ := MAXPAGE - 1
def TRAPFRAME : ℕ := TRAMPOLINE - 1

def NPAGES : ℕ := 128 * 1024 * 1024 / PGSIZE

def pagesOf (sz : ℕ) : ℕ := (sz + PGSIZE - 1) / PGSIZE

structure Pte where
  pa : Pa
  flags : BitVec 10

structure PageTable where
  root : Pa
  l1 : Table Pa
  l0 : Table Pa
  leaf : Table Pte

/-- The allocator; `outcomes` makes `kalloc` calls fail although there are free pages. -/
structure Mem where
  free : List Pa
  outcomes : List Bool

inductive Panic
  | walk | remap | unmapWalk | notMapped | notLeaf | freewalkLeaf | copyWalk | copyNotPresent | clear
deriving DecidableEq

abbrev K := StateT Mem (Except Panic)

/-- What `kalloc` returns, and the allocator after it. -/
def Mem.take (m : Mem) : Option Pa × Mem :=
  match m.outcomes, m.free with
  | false :: o, f => (none, ⟨f, o⟩)
  | o, [] => (none, ⟨[], o.tail⟩)
  | o, a :: f => (some a, ⟨f, o.tail⟩)

def kalloc : K (Option Pa) := do
  let m ← get
  set m.take.2
  return m.take.1

def kfree (a : Pa) : K Unit := modify fun m => { m with free := a :: m.free }

/-! ## vm.c -/

/-- One level of `walk` with `alloc`: the entry `k`, made if it is missing. -/
def descend (t : Table Pa) (k : ℕ) : K (Table Pa × Bool) :=
  if (t.get k).isSome then pure (t, true)
  else do
    match ← kalloc with
    | none => return (t, false)
    | some a => return (t.insert k a, true)

/-- `walk(pagetable, va, 1)`; the flag says whether there is an entry for the page. -/
def walk (pt : PageTable) (v : ℕ) : K (PageTable × Bool) :=
  if v ≥ MAXPAGE then throw .walk
  else do
    let r1 ← descend pt.l1 (v / 2 ^ 18)
    if r1.2 then do
      let r0 ← descend pt.l0 (v / 2 ^ 9)
      return ({ pt with l1 := r1.1, l0 := r0.1 }, r0.2)
    else return ({ pt with l1 := r1.1 }, false)

/-- Whether `walk(pagetable, va, 0)` finds an entry. -/
def PageTable.present (pt : PageTable) (v : ℕ) : Bool :=
  (pt.l1.get (v / 2 ^ 18)).isSome && (pt.l0.get (v / 2 ^ 9)).isSome

/-- `mappages` of one page, as all callers here use it. -/
def mappages (pt : PageTable) (v : ℕ) (pa : Pa) (perm : BitVec 10) : K (PageTable × Bool) := do
  let r ← walk pt v
  if r.2 then
    if (r.1.leaf.get v).isSome then throw .remap
    else return ({ r.1 with leaf := r.1.leaf.insert v ⟨pa, perm ||| PTE_V⟩ }, true)
  else return (r.1, false)

/-- `uvmunmap`; the recursion is on `npages`. -/
def uvmunmap (pt : PageTable) (v : ℕ) (doFree : Bool) : ℕ → K PageTable
  | 0 => pure pt
  | npages + 1 =>
    if v ≥ MAXPAGE then throw .walk
    else if pt.present v = false then throw .unmapWalk
    else match pt.leaf.get v with
    | none => throw .notMapped
    | some pte =>
      if pte.flags = PTE_V then throw .notLeaf
      else do
        if doFree then kfree pte.pa
        uvmunmap { pt with leaf := pt.leaf.erase v } (v + 1) doFree npages

def uvmcreate : K (Option PageTable) := do
  match ← kalloc with
  | none => return none
  | some a => return some ⟨a, .empty, .empty, .empty⟩

def uvmdealloc (pt : PageTable) (oldsz newsz : ℕ) : K (PageTable × ℕ) :=
  if newsz ≥ oldsz then pure (pt, oldsz)
  else if pagesOf newsz < pagesOf oldsz then do
    let pt ← uvmunmap pt (pagesOf newsz) true (pagesOf oldsz - pagesOf newsz)
    return (pt, newsz)
  else pure (pt, newsz)

/-- The loop of `uvmalloc` from page `a` on; `a0` is the first page it was to add. -/
def allocLoop (a0 : ℕ) (perm : BitVec 10) : ℕ → PageTable → ℕ → K (PageTable × Bool)
  | 0, pt, _ => pure (pt, true)
  | rounds + 1, pt, a => do
    match ← kalloc with
    | none => do
      let r ← uvmdealloc pt (a * PGSIZE) (a0 * PGSIZE)
      return (r.1, false)
    | some mem => do
      let r ← mappages pt a mem (PTE_R ||| PTE_U ||| perm)
      if r.2 then allocLoop a0 perm rounds r.1 (a + 1)
      else do
        kfree mem
        let r ← uvmdealloc r.1 (a * PGSIZE) (a0 * PGSIZE)
        return (r.1, false)

def uvmalloc (pt : PageTable) (oldsz newsz : ℕ) (perm : BitVec 10) : K (PageTable × ℕ) :=
  if newsz < oldsz then pure (pt, oldsz)
  else do
    let r ← allocLoop (pagesOf oldsz) perm (pagesOf newsz - pagesOf oldsz) pt (pagesOf oldsz)
    return (r.1, if r.2 then newsz else 0)

/-- `freewalk`, over the valid entries. -/
def freewalk (pt : PageTable) : K Unit := do
  if pt.leaf.entries.isEmpty then do
    pt.l0.entries.forM fun x => kfree x.2
    pt.l1.entries.forM fun x => kfree x.2
    kfree pt.root
  else throw .freewalkLeaf

def uvmfree (pt : PageTable) (sz : ℕ) : K Unit := do
  if sz > 0 then do
    let pt ← uvmunmap pt 0 true (pagesOf sz)
    freewalk pt
  else freewalk pt

def copyLoop (old : PageTable) : ℕ → PageTable → ℕ → K (PageTable × Bool)
  | 0, new, _ => pure (new, true)
  | rounds + 1, new, i =>
    if i ≥ MAXPAGE then throw .walk
    else if old.present i = false then throw .copyWalk
    else match old.leaf.get i with
    | none => throw .copyNotPresent
    | some pte => do
      match ← kalloc with
      | none => do
        let new ← uvmunmap new 0 true i
        return (new, false)
      | some mem => do
        let r ← mappages new i mem pte.flags
        if r.2 then copyLoop old rounds r.1 (i + 1)
        else do
          kfree mem
          let new ← uvmunmap r.1 0 true i
          return (new, false)

def uvmcopy (old new : PageTable) (sz : ℕ) : K (PageTable × Bool) := copyLoop old (pagesOf sz) new 0

def uvmclear (pt : PageTable) (v : ℕ) : K PageTable :=
  if v ≥ MAXPAGE then throw .walk
  else if pt.present v = false then throw .clear
  else match pt.leaf.get v with
  | none => pure pt
  | some pte => pure { pt with leaf := (pt.leaf.erase v).insert v { pte with flags := pte.flags &&& ~~~PTE_U } }

def procPagetable (trampoline trapframe : Pa) : K (Option PageTable) := do
  match ← uvmcreate with
  | none => return none
  | some pt => do
    let r ← mappages pt TRAMPOLINE trampoline (PTE_R ||| PTE_X)
    if r.2 then do
      let r' ← mappages r.1 TRAPFRAME trapframe (PTE_R ||| PTE_W)
      if r'.2 then return some r'.1
      else do
        let pt ← uvmunmap r'.1 TRAMPOLINE false 1
        uvmfree pt 0
        return none
    else do
      uvmfree r.1 0
      return none

def procFreepagetable (pt : PageTable) (sz : ℕ) : K Unit := do
  let pt ← uvmunmap pt TRAMPOLINE false 1
  let pt ← uvmunmap pt TRAPFRAME false 1
  uvmfree pt sz

/-! ## What a page table holds and maps -/

def single (x : ℕ × Pa) : Multiset Pa := {x.2}

/-- The pages a leaf entry holds: the trampoline and the trapframe do not belong to the table. -/
def weigh (x : ℕ × Pte) : Multiset Pa := if x.1 < TRAPFRAME then {x.2.pa} else 0

def PageTable.pages (pt : PageTable) : Multiset Pa :=
  {pt.root} + pt.l1.total single + pt.l0.total single + pt.leaf.total weigh

def Bal (all R : Multiset Pa) (m : Mem) : Prop := (m.free : Multiset Pa) + R = all

/-- The leaf entries are those of `D`, with the page-table pages above them. -/
structure Maps (trampoline tf : Pa) (pt : PageTable) (D : ℕ → Prop) : Prop where
  dom : ∀ v, (pt.leaf.get v).isSome = true ↔ D v
  present : ∀ v, D v → pt.present v = true
  leaf : ∀ v pte, pt.leaf.get v = some pte → pte.flags &&& PTE_R ≠ 0
  trapframe : ∀ pte, pt.leaf.get TRAPFRAME = some pte → pte.pa = tf
  trampoline : ∀ pte, pt.leaf.get TRAMPOLINE = some pte → pte.pa = trampoline

def User (n v : ℕ) : Prop := v < n ∨ v = TRAPFRAME ∨ v = TRAMPOLINE

variable {all R : Multiset Pa} {m : Mem} {pt new : PageTable} {tr tf : Pa} {D D' : ℕ → Prop} {v n : ℕ}
  {E : Panic → Prop} {k : ℕ}

theorem Bal.of_eq {R' : Multiset Pa} (h : Bal all R m) (he : R = R') : Bal all R' m := he ▸ h

theorem Bal.le (h : Bal all R m) : R ≤ all := by
  rw [← h]; exact le_add_left R _

theorem Maps.congr (h : Maps tr tf pt D) (hD : ∀ v, D v ↔ D' v) : Maps tr tf pt D' where
  dom v := (h.dom v).trans (hD v)
  present v hv := h.present v ((hD v).mpr hv)
  leaf := h.leaf
  trapframe := h.trapframe
  trampoline := h.trampoline

theorem card_weigh (l : List (ℕ × Pte)) :
    Multiset.card (l.map weigh).sum = l.countP fun x => decide (x.1 < TRAPFRAME) := by
  induction l with
  | nil => rfl
  | cons x l ih =>
    rw [List.map_cons, List.sum_cons, card_add, ih]
    unfold weigh
    by_cases hx : x.1 < TRAPFRAME
    · rw [if_pos hx, List.countP_cons, if_pos (decide_eq_true hx), card_singleton, Nat.add_comm]
    · rw [if_neg hx, List.countP_cons, if_neg (by simpa using hx), card_zero, Nat.zero_add,
        Nat.add_zero]

/-- The pages beside `R` are fewer than a process can map. -/
def Scarce (all R : Multiset Pa) : Prop := Multiset.card all < TRAPFRAME + Multiset.card R

theorem scarce (hall : Multiset.card all ≤ NPAGES) : Scarce all R := by
  have : NPAGES < TRAPFRAME := by decide
  unfold Scarce; omega

theorem pages_bound (hall : Scarce all R) (hle : pt.pages + R ≤ all)
    (hdom : ∀ v, v < n → (pt.leaf.get v).isSome = true) : n < TRAPFRAME := by
  have hcard := card_le_card hle
  unfold PageTable.pages Table.total at hcard
  rw [card_add, card_add, card_weigh] at hcard
  by_contra hn
  have hcount : TRAPFRAME ≤ _ := le_countP
    (fun v hv => hdom v (by omega)) le_rfl
  unfold Scarce at hall; omega

/-! ## Specifications -/

theorem wp_kalloc {Q : Option Pa → Mem → Prop} (h : Bal all R m) (hnone : ∀ m', Bal all R m' → Q none m')
    (hsome : ∀ a m', Bal all ({a} + R) m' → Q (some a) m') : wp E kalloc Q m := by
  show Q m.take.1 m.take.2
  unfold Mem.take
  split
  · next hf => exact hnone _ (by rw [← hf] at *; exact h)
  · next hf _ => exact hnone _ (by unfold Bal at h ⊢; rw [hf] at h; exact h)
  · next a f hf _ =>
    refine hsome a _ ?_
    unfold Bal at h ⊢
    rw [hf, ← cons_coe, ← singleton_add] at h
    rw [← h]
    abel

theorem wp_kfree {a : Pa} {Q : Unit → Mem → Prop} (h : Bal all ({a} + R) m) (hQ : ∀ m', Bal all R m' → Q () m') :
    wp E (kfree a) Q m := by
  refine hQ _ ?_
  unfold Bal at h ⊢
  rw [← h, ← cons_coe, ← singleton_add]
  abel

theorem wp_freeAll {l : List (ℕ × Pa)} {Q : Unit → Mem → Prop} (h : Bal all ((l.map single).sum + R) m)
    (hQ : ∀ m', Bal all R m' → Q () m') : wp E (l.forM fun x => kfree x.2) Q m := by
  refine wp_forM (fun l m => Bal all ((l.map single).sum + R) m) (fun x l m h => ?_) (fun m h => ?_) h
  · rw [List.map_cons, List.sum_cons, add_assoc] at h
    exact wp_kfree h fun m' h' => h'
  · exact hQ m (h.of_eq (zero_add R))

theorem wp_descend {t : Table Pa} {Q : Table Pa × Bool → Mem → Prop} (h : Bal all (t.total single + R) m)
    (hQ : ∀ r m', Bal all (r.1.total single + R) m' → (r.2 = true → (r.1.get k).isSome = true) →
      (∀ j, (t.get j).isSome = true → (r.1.get j).isSome = true) → Q r m') : wp E (descend t k) Q m := by
  unfold descend
  split_ifs with hk
  · exact hQ (t, true) m h (fun _ => hk) fun _ hj => hj
  · have hnone : t.get k = none := not_isSome_iff_eq_none.mp hk
    refine .bind (wp_kalloc h (fun m' h' => ?_) fun a m' h' => ?_)
    · exact hQ (t, false) m' h' (fun hf => absurd hf false_ne_true) fun _ hj => hj
    · refine hQ (t.insert k a, true) m' (h'.of_eq ?_) (fun _ => ?_) fun j hj => isSome_insert hj
      · rw [total_insert hnone, ← add_assoc]; rfl
      · rw [get_insert_self]; rfl

theorem present_iff : pt.present v = true ↔
    (pt.l1.get (v / 2 ^ 18)).isSome = true ∧ (pt.l0.get (v / 2 ^ 9)).isSome = true := by
  exact Bool.and_eq_true_iff

variable {Q : PageTable × Bool → Mem → Prop}

theorem wp_walk (hv : v < MAXPAGE) (hm : Maps tr tf pt D) (h : Bal all (pt.pages + R) m)
    (hQ : ∀ r m', Maps tr tf r.1 D → Bal all (r.1.pages + R) m' → r.1.leaf = pt.leaf →
      (r.2 = true → r.1.present v = true) → Q r m') : wp E (walk pt v) Q m := by
  unfold walk
  rw [if_neg (by omega)]
  have h1 : Bal all (pt.l1.total single + ({pt.root} + pt.l0.total single + pt.leaf.total weigh + R)) m := by
    refine h.of_eq ?_
    unfold PageTable.pages
    abel
  refine .bind (wp_descend h1 fun r1 m1 hb1 hk1 hj1 => ?_)
  by_cases hr1 : r1.2 = true
  · have h0 : Bal all (pt.l0.total single + ({pt.root} + r1.1.total single + pt.leaf.total weigh + R)) m1 := by
      refine hb1.of_eq ?_
      abel
    rw [if_pos hr1]
    refine .bind (wp_descend h0 fun r0 m0 hb0 hk0 hj0 => ?_)
    refine hQ _ _ ⟨hm.dom, fun u hu => ?_, hm.leaf, hm.trapframe, hm.trampoline⟩ (hb0.of_eq ?_) rfl fun hr0 => ?_
    · have hp := present_iff.mp (hm.present u hu)
      exact present_iff.mpr ⟨hj1 _ hp.1, hj0 _ hp.2⟩
    · unfold PageTable.pages
      abel
    · exact present_iff.mpr ⟨hk1 hr1, hk0 hr0⟩
  · rw [if_neg hr1]
    refine hQ _ _ ⟨hm.dom, fun u hu => ?_, hm.leaf, hm.trapframe, hm.trampoline⟩ (hb1.of_eq ?_) rfl fun hf => ?_
    · have hp := present_iff.mp (hm.present u hu)
      exact present_iff.mpr ⟨hj1 _ hp.1, hp.2⟩
    · unfold PageTable.pages
      abel
    · exact absurd hf false_ne_true

theorem readable_or (perm : BitVec 10) : (perm ||| PTE_V) &&& PTE_R = perm &&& PTE_R := by
  rw [BitVec.and_or_distrib_right]; exact BitVec.or_zero

theorem ne_valid {flags : BitVec 10} (h : flags &&& PTE_R ≠ 0) : flags ≠ PTE_V := by
  rintro rfl; exact h (by decide)

variable {pte : Pte}

theorem Maps.insert (hm : Maps tr tf pt D) (hp : pt.present v = true) (hr : pte.flags &&& PTE_R ≠ 0)
    (htf : v = TRAPFRAME → pte.pa = tf) (htr : v = TRAMPOLINE → pte.pa = tr) :
    Maps tr tf { pt with leaf := pt.leaf.insert v pte } (fun u => u = v ∨ D u) := by
  refine ⟨fun u => ?_, fun u hu => ?_, fun u e hu => ?_, fun e hu => ?_, fun e hu => ?_⟩
  · by_cases huv : u = v
    · rw [huv, get_insert_self]; exact ⟨fun _ => .inl rfl, fun _ => rfl⟩
    · rw [get_insert_ne huv, hm.dom]
      exact ⟨.inr, fun ho => ho.resolve_left huv⟩
  · rcases hu with rfl | hu
    · exact hp
    · exact hm.present u hu
  · rcases get_insert_cases hu with ⟨_, rfl⟩ | hu
    · exact hr
    · exact hm.leaf u e hu
  · rcases get_insert_cases hu with ⟨hv, rfl⟩ | hu
    · exact htf hv.symm
    · exact hm.trapframe e hu
  · rcases get_insert_cases hu with ⟨hv, rfl⟩ | hu
    · exact htr hv.symm
    · exact hm.trampoline e hu

theorem Maps.erase (hm : Maps tr tf pt D) :
    Maps tr tf { pt with leaf := pt.leaf.erase v } (fun u => D u ∧ u ≠ v) := by
  have hget : ∀ u pte, (pt.leaf.erase v).get u = some pte → u ≠ v ∧ pt.leaf.get u = some pte := by
    intro u pte hu
    by_cases huv : u = v
    · rw [huv, get_erase_self] at hu; cases hu
    · rw [get_erase_ne huv] at hu; exact ⟨huv, hu⟩
  refine ⟨fun u => ?_, fun u hu => hm.present u hu.1, fun u pte hu => hm.leaf u pte (hget u pte hu).2,
    fun pte hu => hm.trapframe pte (hget _ pte hu).2, fun pte hu => hm.trampoline pte (hget _ pte hu).2⟩
  by_cases huv : u = v
  · rw [huv, get_erase_self]
    exact ⟨fun hf => absurd hf false_ne_true, fun hu => absurd rfl hu.2⟩
  · rw [get_erase_ne huv, hm.dom]; exact ⟨fun hu => ⟨hu, huv⟩, And.left⟩

variable {perm : BitVec 10} {oldsz newsz : ℕ} {sz : ℕ} {pa : Pa}

theorem wp_mappages (hv : v < MAXPAGE)
    (hD : ¬D v) (hperm : perm &&& PTE_R ≠ 0) (htf : v = TRAPFRAME → pa = tf) (htr : v = TRAMPOLINE → pa = tr)
    (hm : Maps tr tf pt D) (h : Bal all (pt.pages + (weigh (v, ⟨pa, perm ||| PTE_V⟩) + R)) m)
    (hok : ∀ pt' m', Maps tr tf pt' (fun u => u = v ∨ D u) → Bal all (pt'.pages + R) m' → Q (pt', true) m')
    (hfail : ∀ pt' m', Maps tr tf pt' D →
      Bal all (pt'.pages + (weigh (v, ⟨pa, perm ||| PTE_V⟩) + R)) m' → Q (pt', false) m') :
    wp E (mappages pt v pa perm) Q m := by
  refine .bind (wp_walk hv hm h fun r m' hm' hb _ hp => ?_)
  obtain ⟨pt', ok⟩ := r
  cases ok with
  | false => exact hfail pt' m' hm' hb
  | true =>
    have hnone : pt'.leaf.get v = none :=
      not_isSome_iff_eq_none.mp fun hs => hD ((hm'.dom v).mp hs)
    rw [if_pos rfl, if_neg (by rw [hnone]; exact false_ne_true)]
    refine hok _ _ (hm'.insert (hp rfl) (readable_or perm ▸ hperm) htf htr) (hb.of_eq ?_)
    unfold PageTable.pages
    rw [total_insert hnone]
    abel

theorem wp_uvmunmap {doFree : Bool} {Q : PageTable → Mem → Prop} (hD : ∀ u, v ≤ u → u < v + n → D u)
    (hmax : v + n ≤ MAXPAGE) (hown : ∀ u, v ≤ u → u < v + n → (u < TRAPFRAME ↔ doFree = true))
    (hm : Maps tr tf pt D) (h : Bal all (pt.pages + R) m)
    (hQ : ∀ pt' m', Maps tr tf pt' (fun u => D u ∧ ¬(v ≤ u ∧ u < v + n)) → Bal all (pt'.pages + R) m' →
      Q pt' m') : wp E (uvmunmap pt v doFree n) Q m := by
  induction n generalizing pt v m D with
  | zero => exact hQ pt m (hm.congr fun u => ⟨fun hu => ⟨hu, by omega⟩, And.left⟩) h
  | succ n ih =>
    have hv : D v := hD v le_rfl (by omega)
    obtain ⟨pte, hpte⟩ := isSome_iff_exists.mp ((hm.dom v).mpr hv)
    unfold uvmunmap
    rw [if_neg (by omega), if_neg (by rw [hm.present v hv]; exact Bool.noConfusion), hpte]
    simp only []
    rw [if_neg (ne_valid (hm.leaf v pte hpte))]
    have hrest : ∀ m', Bal all (PageTable.pages { pt with leaf := pt.leaf.erase v } + R) m' →
        wp E (uvmunmap { pt with leaf := pt.leaf.erase v } (v + 1) doFree n) Q m' := by
      intro m' hb
      refine ih (fun u h1 h2 => ⟨hD u (by omega) (by omega), by omega⟩) (by omega)
        (fun u h1 h2 => hown u (by omega) (by omega)) hm.erase hb fun pt' m'' hm'' hb'' => ?_
      refine hQ pt' m'' (hm''.congr fun u => ⟨fun hu => ⟨hu.1.1, ?_⟩, fun hu => ⟨⟨hu.1, ?_⟩, ?_⟩⟩) hb''
      · omega
      · omega
      · omega
    have hpages : pt.pages = weigh (v, pte) + PageTable.pages { pt with leaf := pt.leaf.erase v } := by
      unfold PageTable.pages
      rw [total_erase hpte]
      abel
    have hw := hown v le_rfl (by omega)
    rw [hpages] at h
    unfold weigh at h
    cases doFree with
    | true =>
      rw [if_pos (hw.mpr rfl), add_assoc] at h; exact .bind (wp_kfree h hrest)
    | false =>
      rw [if_neg (fun hlt => false_ne_true (hw.mp hlt)), zero_add] at h
      exact hrest m h

theorem wp_freewalk {Q : Unit → Mem → Prop} (hm : Maps tr tf pt fun _ => False) (h : Bal all (pt.pages + R) m)
    (hQ : ∀ m', Bal all R m' → Q () m') : wp E (freewalk pt) Q m := by
  have hnil : pt.leaf.entries = [] :=
    entries_eq_nil fun u => not_isSome_iff_eq_none.mp fun hs => (hm.dom u).mp hs
  have hleaf : pt.leaf.total weigh = 0 := by unfold Table.total; rw [hnil]; rfl
  have h0 : Bal all ((pt.l0.entries.map single).sum + ((pt.l1.entries.map single).sum + ({pt.root} + R))) m := by
    refine h.of_eq ?_
    unfold PageTable.pages
    rw [hleaf]
    unfold Table.total
    abel
  unfold freewalk
  rw [if_pos (by rw [hnil]; rfl)]
  refine .bind (wp_freeAll h0 fun m1 h1 => ?_)
  refine .bind (wp_freeAll h1 fun m2 h2 => ?_)
  exact wp_kfree h2 hQ

theorem wp_uvmfree {Q : Unit → Mem → Prop} (hsz : pagesOf sz ≤ TRAPFRAME)
    (hm : Maps tr tf pt fun u => u < pagesOf sz) (h : Bal all (pt.pages + R) m)
    (hQ : ∀ m', Bal all R m' → Q () m') : wp E (uvmfree pt sz) Q m := by
  unfold uvmfree
  by_cases h0 : sz > 0
  · rw [if_pos h0]
    have hmax : TRAPFRAME ≤ MAXPAGE := by decide
    refine .bind (wp_uvmunmap (fun u _ hu => by omega) (by omega) (fun u _ hu => ?_) hm h
      fun pt' m' hm' hb' => ?_)
    · exact ⟨fun _ => rfl, fun _ => by omega⟩
    · exact wp_freewalk (hm'.congr fun u => ⟨fun hu => hu.2 (by omega), False.elim⟩) hb' hQ
  · rw [if_neg h0]
    have hz : pagesOf sz = 0 := by
      have : sz = 0 := by omega
      rw [this]; rfl
    exact wp_freewalk (hm.congr fun u => ⟨fun hu => by omega, False.elim⟩) h hQ

theorem pagesOf_mul (n : ℕ) : pagesOf (n * PGSIZE) = n := by
  unfold pagesOf PGSIZE; omega

theorem pagesOf_mono {a b : ℕ} (h : a ≤ b) : pagesOf a ≤ pagesOf b := Nat.div_le_div_right (by omega)

theorem Maps.bound (hall : Scarce all R) (hm : Maps tr tf pt (User n))
    (h : Bal all (pt.pages + R) m) : n < TRAPFRAME := by
  refine pages_bound hall h.le fun v hv => ?_
  exact (hm.dom v).mpr (.inl hv)

theorem Maps.shrink (hk : n < TRAPFRAME) (hkn : k ≤ n)
    (hm : Maps tr tf pt fun u => User n u ∧ ¬(k ≤ u ∧ u < k + (n - k))) : Maps tr tf pt (User k) := by
  refine hm.congr fun u => ⟨fun hu => ?_, fun hu => ⟨?_, fun hr => ?_⟩⟩
  · rcases hu.1 with h | h
    · exact .inl (by have := hu.2; omega)
    · exact .inr h
  · rcases hu with h | h
    · exact .inl (by omega)
    · exact .inr h
  · have : TRAPFRAME < TRAMPOLINE := by decide
    rcases hu with h | h | h <;> omega

theorem wp_uvmdealloc {Q : PageTable × ℕ → Mem → Prop} (hall : Scarce all R)
    (hm : Maps tr tf pt (User (pagesOf oldsz))) (h : Bal all (pt.pages + R) m)
    (hQ : ∀ pt' m', Maps tr tf pt' (User (pagesOf (min oldsz newsz))) → Bal all (pt'.pages + R) m' →
      Q (pt', min oldsz newsz) m') : wp E (uvmdealloc pt oldsz newsz) Q m := by
  have hlt := hm.bound hall h
  have hmax : TRAPFRAME ≤ MAXPAGE := by decide
  unfold uvmdealloc
  split_ifs with h1 h2
  · rw [min_eq_left h1] at hQ; exact hQ pt m hm h
  · rw [min_eq_right (by omega)] at hQ
    refine .bind (wp_uvmunmap (fun u _ hu => .inl (by omega)) (by omega) (fun u _ hu => ?_) hm h
      fun pt' m' hm' hb' => ?_)
    · exact ⟨fun _ => rfl, fun _ => by omega⟩
    · exact hQ pt' m' (hm'.shrink hlt (by omega)) hb'
  · rw [min_eq_right (by omega)] at hQ
    have hle : pagesOf newsz ≤ pagesOf oldsz := pagesOf_mono (by omega)
    have heq : pagesOf oldsz = pagesOf newsz := by omega
    rw [heq] at hm; exact hQ pt m hm h

theorem weigh_user (h : v < TRAPFRAME) : weigh (v, pte) = {pte.pa} := if_pos h

theorem weigh_special (h : ¬v < TRAPFRAME) : weigh (v, pte) = 0 := if_neg h

theorem user_succ {u : ℕ} : (u = n ∨ User n u) ↔ User (n + 1) u := by
  unfold User; omega

theorem wp_mapUser (hlt : n < TRAPFRAME) (hperm : perm &&& PTE_R ≠ 0) (hm : Maps tr tf pt (User n))
    (h : Bal all ({pa} + (pt.pages + R)) m)
    (hok : ∀ pt' m', Maps tr tf pt' (User (n + 1)) → Bal all (pt'.pages + R) m' → Q (pt', true) m')
    (hfail : ∀ pt' m', Maps tr tf pt' (User n) → Bal all ({pa} + (pt'.pages + R)) m' → Q (pt', false) m') :
    wp E (mappages pt n pa perm) Q m := by
  have hb : Bal all (pt.pages + ({pa} + R)) m := h.of_eq (add_left_comm _ _ _)
  have hmax : TRAPFRAME < TRAMPOLINE ∧ TRAMPOLINE < MAXPAGE := by decide
  refine wp_mappages (by omega) (fun hu => ?_) hperm (fun he => by omega) (fun he => by omega) hm
    (by rw [weigh_user hlt]; exact hb) (fun pt' m' hm' hb' => ?_) fun pt' m' hm' hb' => ?_
  · rcases hu with h | h | h <;> omega
  · exact hok pt' m' (hm'.congr fun u => user_succ) hb'
  · rw [weigh_user hlt] at hb'
    exact hfail pt' m' hm' (hb'.of_eq (add_left_comm _ _ _))

theorem wp_allocLoop {a0 rounds a : ℕ} (hall : Scarce all R) (ha : a0 ≤ a) (hm : Maps tr tf pt (User a))
    (h : Bal all (pt.pages + R) m)
    (hok : ∀ pt' m', Maps tr tf pt' (User (a + rounds)) → Bal all (pt'.pages + R) m' → Q (pt', true) m')
    (hfail : ∀ pt' m', Maps tr tf pt' (User a0) → Bal all (pt'.pages + R) m' → Q (pt', false) m') :
    wp E (allocLoop a0 perm rounds pt a) Q m := by
  induction rounds generalizing pt a m with
  | zero => exact hok pt m hm h
  | succ rounds ih =>
    -- both failures leave through `uvmdealloc` down to the first page
    have hback : ∀ pt' m', Maps tr tf pt' (User a) → Bal all (pt'.pages + R) m' →
        wp E (uvmdealloc pt' (a * PGSIZE) (a0 * PGSIZE)) (fun r s => Q (r.1, false) s) m' := by
      intro pt' m' hm' hb'
      rw [← pagesOf_mul a] at hm'
      refine wp_uvmdealloc hall hm' hb' fun pt'' m'' hm'' hb'' => hfail pt'' m'' ?_ hb''
      rw [min_eq_right (Nat.mul_le_mul_right _ ha), pagesOf_mul] at hm''
      exact hm''
    have hperm : (PTE_R ||| PTE_U ||| perm) &&& PTE_R ≠ 0 := by
      rw [BitVec.and_or_distrib_right]
      intro h0
      have hz := (BitVec.or_eq_zero_iff.mp h0).1; exact absurd hz (by decide)
    refine .bind (wp_kalloc h (fun m' h' => ?_) fun mem m' h' => ?_)
    · exact .bind (hback pt m' hm h')
    · refine .bind (wp_mapUser (hm.bound hall h) hperm hm h' (fun pt' m'' hm' hb' => ?_)
        fun pt' m'' hm' hb' => ?_)
      · refine ih (by omega) hm' hb' fun pt'' m3 hm'' hb'' => hok pt'' m3 ?_ hb''
        rw [show a + (rounds + 1) = a + 1 + rounds by omega]
        exact hm''
      · exact .bind (wp_kfree hb' fun m3 hb3 => .bind (hback pt' m3 hm' hb3))

theorem wp_uvmalloc {Q : PageTable × ℕ → Mem → Prop}
    (hall : Scarce all R) (hm : Maps tr tf pt (User (pagesOf oldsz))) (h : Bal all (pt.pages + R) m)
    (hok : ∀ pt' sz m', sz ≠ 0 → Maps tr tf pt' (User (pagesOf sz)) → Bal all (pt'.pages + R) m' → Q (pt', sz) m')
    (hfail : ∀ pt' m', Maps tr tf pt' (User (pagesOf oldsz)) → Bal all (pt'.pages + R) m' → Q (pt', 0) m') :
    wp E (uvmalloc pt oldsz newsz perm) Q m := by
  unfold uvmalloc
  split_ifs with hlt
  · exact hok pt oldsz m (by omega) hm h
  · refine .bind (wp_allocLoop hall le_rfl hm h (fun pt' m' hm' hb' => ?_) hfail)
    have hle : pagesOf oldsz ≤ pagesOf newsz := pagesOf_mono (by omega)
    rw [Nat.add_sub_cancel' hle] at hm'
    by_cases h0 : newsz = 0
    · have hold : oldsz = newsz := by omega
      rw [← hold] at hm'
      have hres := hfail pt' m' hm' hb'
      rw [← h0] at hres; exact hres
    · exact hok pt' newsz m' h0 hm' hb'

theorem wp_copyLoop {old : PageTable} {tf' : Pa} {rounds i : ℕ} (hold : Maps tr tf' old (User (i + rounds)))
    (hmax : i + rounds < TRAPFRAME) (hm : Maps tr tf new (User i)) (h : Bal all (new.pages + R) m)
    (hok : ∀ pt' m', Maps tr tf pt' (User (i + rounds)) → Bal all (pt'.pages + R) m' → Q (pt', true) m')
    (hfail : ∀ pt' m', Maps tr tf pt' (User 0) → Bal all (pt'.pages + R) m' → Q (pt', false) m') :
    wp E (copyLoop old rounds new i) Q m := by
  induction rounds generalizing new i m with
  | zero => exact hok new m hm h
  | succ rounds ih =>
    have htop : TRAPFRAME ≤ MAXPAGE := by decide
    have hback : ∀ pt' m', Maps tr tf pt' (User i) → Bal all (pt'.pages + R) m' →
        wp E (uvmunmap pt' 0 true i) (fun r s => Q (r, false) s) m' := by
      intro pt' m' hm' hb'
      refine wp_uvmunmap (fun u _ hu => .inl (by omega)) (by omega) (fun u _ hu => ?_) hm' hb'
        fun pt'' m'' hm'' hb'' => hfail pt'' m'' ?_ hb''
      · exact ⟨fun _ => rfl, fun _ => by omega⟩
      · exact Maps.shrink (by omega) (Nat.zero_le i) hm''
    have hi : User (i + (rounds + 1)) i := .inl (by omega)
    obtain ⟨pte, hpte⟩ := isSome_iff_exists.mp ((hold.dom i).mpr hi)
    unfold copyLoop
    rw [if_neg (by omega), if_neg (by rw [hold.present i hi]; exact Bool.noConfusion), hpte]
    refine .bind (wp_kalloc h (fun m' h' => ?_) fun mem m' h' => ?_)
    · exact .bind (hback new m' hm h')
    · refine .bind (wp_mapUser (by omega) (hold.leaf i pte hpte) hm h' (fun pt' m'' hm' hb' => ?_)
        fun pt' m'' hm' hb' => ?_)
      · have heq : i + (rounds + 1) = i + 1 + rounds := by omega
        rw [heq] at hold hmax hok; exact ih hold hmax hm' hb' hok
      · exact .bind (wp_kfree hb' fun m3 hb3 => .bind (hback pt' m3 hm' hb3))

theorem wp_uvmclear {Q : PageTable → Mem → Prop} (hv : v < TRAPFRAME) (hD : D v) (hm : Maps tr tf pt D)
    (h : Bal all (pt.pages + R) m)
    (hQ : ∀ pt', Maps tr tf pt' D → Bal all (pt'.pages + R) m → Q pt' m) : wp E (uvmclear pt v) Q m := by
  have hmax : TRAPFRAME < TRAMPOLINE ∧ TRAMPOLINE < MAXPAGE := by decide
  obtain ⟨pte, hpte⟩ := isSome_iff_exists.mp ((hm.dom v).mpr hD)
  unfold uvmclear
  rw [if_neg (by omega), if_neg (by rw [hm.present v hD]; exact Bool.noConfusion), hpte]
  have hread : (pte.flags &&& ~~~PTE_U) &&& PTE_R ≠ 0 := by
    rw [BitVec.and_assoc]; exact hm.leaf v pte hpte
  have hins : Maps tr tf
      { pt with leaf := (pt.leaf.erase v).insert v { pte with flags := pte.flags &&& ~~~PTE_U } }
      (fun u => u = v ∨ (D u ∧ u ≠ v)) :=
    hm.erase.insert (hm.present v hD) hread (fun he => by omega) fun he => by omega
  refine hQ _ (hins.congr fun u => ⟨fun hu => ?_, fun hu => ?_⟩) (h.of_eq ?_)
  · rcases hu with rfl | hu
    · exact hD
    · exact hu.1
  · by_cases huv : u = v
    · exact .inl huv
    · exact .inr ⟨hu, huv⟩
  · unfold PageTable.pages
    rw [total_erase hpte, total_insert get_erase_self, weigh_user hv, weigh_user hv]

theorem wp_uvmcreate {Q : Option PageTable → Mem → Prop} (h : Bal all R m) (hnone : ∀ m', Bal all R m' → Q none m')
    (hsome : ∀ pt m', Maps tr tf pt (fun _ => False) → Bal all (pt.pages + R) m' → Q (some pt) m') :
    wp E uvmcreate Q m := by
  refine .bind (wp_kalloc h (fun m' h' => hnone m' h') fun a m' h' => ?_)
  refine hsome _ m' ⟨fun u => ?_, fun _ hu => hu.elim, fun u e hu => ?_, fun e hu => ?_, fun e hu => ?_⟩
    (h'.of_eq ?_)
  · exact ⟨fun hf => false_ne_true hf, False.elim⟩
  · cases hu
  · cases hu
  · cases hu
  · unfold PageTable.pages
    rw [total_empty, total_empty, add_zero, add_zero, add_zero]

theorem wp_procPagetable {Q : Option PageTable → Mem → Prop} (h : Bal all R m)
    (hnone : ∀ m', Bal all R m' → Q none m')
    (hsome : ∀ pt m', Maps tr tf pt (User 0) → Bal all (pt.pages + R) m' → Q (some pt) m') :
    wp E (procPagetable tr tf) Q m := by
  have hTT : TRAPFRAME < TRAMPOLINE ∧ TRAMPOLINE < MAXPAGE := by decide
  have hfree : ∀ pt' m', Maps tr tf pt' (fun _ => False) → Bal all (pt'.pages + R) m' →
      wp E (uvmfree pt' 0) (fun _ s => Q none s) m' := by
    intro pt' m' hm' hb'
    exact wp_uvmfree (Nat.zero_le _) (hm'.congr fun u => ⟨False.elim, fun hu => absurd hu (Nat.not_lt_zero u)⟩)
      hb' hnone
  refine .bind (wp_uvmcreate h hnone fun pt m1 (hm1 : Maps tr tf pt fun _ => False) hb1 => ?_)
  refine .bind (wp_mappages (R := R) hTT.2 id (by decide) (fun he => by omega) (fun _ => rfl) hm1
    (hb1.of_eq ?_) (fun pt2 m2 hm2 hb2 => ?_) fun pt2 m2 hm2 hb2 => ?_)
  · rw [weigh_special (by omega), zero_add]
  · refine .bind (wp_mappages (R := R) (by omega) (fun hu => ?_) (by decide) (fun _ => rfl)
      (fun he => by omega) hm2 (hb2.of_eq ?_) (fun pt3 m3 hm3 hb3 => ?_) fun pt3 m3 hm3 hb3 => ?_)
    · rcases hu with hu | hu
      · omega
      · exact hu
    · rw [weigh_special (by omega), zero_add]
    · refine hsome pt3 m3 (hm3.congr fun u => ?_) hb3
      constructor
      · rintro (hu | hu | hu)
        · exact .inr (.inl hu)
        · exact .inr (.inr hu)
        · exact hu.elim
      · rintro (hu | hu | hu)
        · omega
        · exact .inl hu
        · exact .inr (.inl hu)
    · rw [weigh_special (by omega), zero_add] at hb3
      refine .bind (wp_uvmunmap (fun u h1 h2 => .inl (by omega)) (by omega) (fun u h1 _ => ?_) hm3 hb3
        fun pt4 m4 hm4 hb4 => .bind (hfree pt4 m4 (hm4.congr fun u => ⟨fun hu => ?_, False.elim⟩) hb4))
      · exact ⟨fun hu => by omega, fun hf => absurd hf false_ne_true⟩
      · rcases hu.1 with he | hf
        · omega
        · exact hf
  · rw [weigh_special (by omega), zero_add] at hb2
    exact .bind (hfree pt2 m2 hm2 hb2)

theorem wp_procFreepagetable {Q : Unit → Mem → Prop} (hlt : pagesOf sz < TRAPFRAME)
    (hm : Maps tr tf pt (User (pagesOf sz))) (h : Bal all (pt.pages + R) m)
    (hQ : ∀ m', Bal all R m' → Q () m') : wp E (procFreepagetable pt sz) Q m := by
  have hTT : TRAPFRAME < TRAMPOLINE ∧ TRAMPOLINE + 1 = MAXPAGE := by decide
  refine .bind (wp_uvmunmap (fun u _ _ => .inr (.inr (by omega))) (by omega) (fun u h1 _ => ?_) hm h
    fun pt1 m1 hm1 hb1 => ?_)
  · exact ⟨fun hu => by omega, fun hf => absurd hf false_ne_true⟩
  refine .bind (wp_uvmunmap (fun u _ _ => ⟨.inr (.inl (by omega)), by omega⟩) (by omega)
    (fun u h1 _ => ?_) hm1 hb1 fun pt2 m2 hm2 hb2 => ?_)
  · exact ⟨fun hu => by omega, fun hf => absurd hf false_ne_true⟩
  refine wp_uvmfree (by omega) (hm2.congr fun u => ?_) hb2 hQ
  unfold User; omega

end Xv6.Vm.Pages
