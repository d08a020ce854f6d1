import Mathlib.Algebra.Order.Ring.Nat
import Mathlib.Data.List.Nodup
import Mathlib.Tactic.Common
import Xv6.Lib.FreeList
import Xv6.Lib.Runs

/-!
# `malloc` and `free`

The allocator of `umalloc.c` over the heap of a process.  Blocks are counted in units of a header, 16 bytes, which
has the size of the block and, while it is free, the address of the next free block.  The free blocks are in a
circle, in the order of their addresses, with `base`, which is below the heap, as the first.

The memory is seen through the headers: `ptr a` and `size a` are the fields of a header at the address `a`.  What
the program stores in its own blocks may change every header that overlaps such a block.  `Inv` says that the
circle is sorted and linked and that free blocks and allocations do not overlap.
-/

namespace Xv6.User.Malloc

open Lib.FreeList Lib.Runs List Function Option Nat

/-! ## umalloc.c -/

/-- `freep` is 0 before the first `malloc`; `brk` is the end of the heap.  A size is a `uint`. -/
structure Heap where
  ptr : ℕ → ℕ
  size : ℕ → ℕ
  freep : ℕ
  brk : ℕ
  uint : ∀ a, size a < 2 ^ 32

def Heap.setPtr (h : Heap) (a v : ℕ) : Heap := { h with ptr := Function.update h.ptr a v }

theorem update_uint {size : ℕ → ℕ} (hs : ∀ a, size a < 2 ^ 32) (a v b : ℕ) :
    Function.update size a (v % 2 ^ 32) b < 2 ^ 32 := by
  rw [update_apply]
  split_ifs
  · exact mod_lt _ (by decide)
  · exact hs b

def Heap.setSize (h : Heap) (a v : ℕ) : Heap :=
  { h with size := Function.update h.size a (v % 2 ^ 32), uint := update_uint h.uint a v }

def UNIT : ℕ := 16

def freeLoop (h : Heap) (bp : ℕ) : ℕ → ℕ → Option ℕ
  | 0, _ => none
  | fuel + 1, p =>
    if p < bp ∧ bp < h.ptr p then some p
    else if h.ptr p ≤ p ∧ (p < bp ∨ bp < h.ptr p) then some p
    else freeLoop h bp fuel (h.ptr p)

def joinNext (h : Heap) (bp p : ℕ) : Heap :=
  if bp + UNIT * h.size bp = h.ptr p then
    (h.setSize bp (h.size bp + h.size (h.ptr p))).setPtr bp (h.ptr (h.ptr p))
  else h.setPtr bp (h.ptr p)

def joinPrev (h : Heap) (bp p : ℕ) : Heap :=
  if p + UNIT * h.size p = bp then
    (h.setSize p (h.size p + h.size bp)).setPtr p (h.ptr bp)
  else h.setPtr p bp

def free (fuel ap : ℕ) (h : Heap) : Option Heap := do
  let bp := ap - UNIT
  let p ← freeLoop h bp fuel h.freep
  some { joinPrev (joinNext h bp p) bp p with freep := p }

def sbrk (ok : Bool) (n : BitVec 32) (h : Heap) : Option (ℕ × Heap) :=
  if ok then some (h.brk, { h with brk := (h.brk + n.toInt).toNat }) else none

def morecore (fuel nu : ℕ) (ok : Bool) (h : Heap) : Option (ℕ × Heap) :=
  let nu := if nu < 4096 then 4096 else nu
  match sbrk ok (BitVec.ofNat 32 (nu * UNIT)) h with
  | none => some (0, h)
  | some (hp, h) => do
    let h ← free fuel (hp + UNIT) (h.setSize hp nu)
    some (h.freep, h)

/-- The loop of `malloc`; `grow` has the outcomes of the calls of `sbrk`. -/
def mallocLoop (nunits : ℕ) : ℕ → ℕ → ℕ → List Bool → Heap → Option (ℕ × Heap)
  | 0, _, _, _, _ => none
  | fuel + 1, prevp, p, grow, h =>
    if nunits ≤ h.size p then
      if h.size p = nunits then
        some (p + UNIT, { h.setPtr prevp (h.ptr p) with freep := prevp })
      else
        let h := h.setSize p (h.size p - nunits)
        let p := p + UNIT * h.size p
        some (p + UNIT, { h.setSize p nunits with freep := prevp })
    else if p = h.freep then
      match morecore fuel nunits (grow.headD false) h with
      | none => none
      | some (p, h) =>
        if p = 0 then some (0, h) else mallocLoop nunits fuel p (h.ptr p) grow.tail h
    else mallocLoop nunits fuel p (h.ptr p) grow h

def nunits (nbytes : BitVec 32) : ℕ := ((nbytes.toNat + UNIT - 1) / UNIT + 1) % 2 ^ 32

def malloc (base fuel : ℕ) (nbytes : BitVec 32) (grow : List Bool) (h : Heap) : Option (ℕ × Heap) :=
  let h := if h.freep = 0 then { (h.setPtr base base).setSize base 0 with freep := base } else h
  mallocLoop (nunits nbytes) fuel h.freep (h.ptr h.freep) grow h

/-- The heap, and the pointers that `malloc` has returned and that have not been freed, each with the number
of bytes asked for. -/
structure State where
  heap : Heap
  live : List (ℕ × ℕ)

inductive Op
  | malloc (nbytes : BitVec 32) (grow : List Bool)
  | free (x : ℕ × ℕ)
  | store

def Apart (a n b m : ℕ) : Prop := a + n ≤ b ∨ b + m ≤ a

structure Stored (live : List (ℕ × ℕ)) (h h' : Heap) : Prop where
  freep : h'.freep = h.freep
  brk : h'.brk = h.brk
  same : ∀ a, (∀ x ∈ live, Apart a UNIT x.1 x.2) → h'.ptr a = h.ptr a ∧ h'.size a = h.size a

/-- The program calls `malloc`, frees what it has, or stores in what it has. -/
inductive Step (base : ℕ) : State → Op → State → Prop
  | malloc {s : State} {nbytes : BitVec 32} {grow : List Bool} {fuel r : ℕ} {h : Heap}
      (hm : malloc base fuel nbytes grow s.heap = some (r, h)) :
      Step base s (.malloc nbytes grow) ⟨h, if r = 0 then s.live else (r, nbytes.toNat) :: s.live⟩
  | free {s : State} {x : ℕ × ℕ} {fuel : ℕ} {h : Heap} (hx : x ∈ s.live)
      (hf : free fuel x.1 s.heap = some h) : Step base s (.free x) ⟨h, s.live.erase x⟩
  | store {s : State} {h : Heap} (hs : Stored s.live s.heap h) : Step base s .store ⟨h, s.live⟩

def sys (base start : ℕ) : Sys State Op where
  init s := s.heap.freep = 0 ∧ s.heap.brk = start ∧ s.live = []
  step := Step base

/-- The addresses of headers: `base`, those of the allocations and those of the free blocks. -/
def IsHeader (base : ℕ) (s : State) (a : ℕ) : Prop :=
  a = base ∨ (∃ x ∈ s.live, a + UNIT = x.1) ∨ s.heap.freep ≠ 0 ∧ ∃ k, s.heap.ptr^[k] s.heap.freep = a

structure Safe (base start : ℕ) (s : State) : Prop where
  inside : ∀ x ∈ s.live, start ≤ x.1 ∧ x.1 + x.2 ≤ s.heap.brk
  apart : s.live.Pairwise fun x y => Apart x.1 x.2 y.1 y.2
  headers : ∀ x ∈ s.live, ∀ a, IsHeader base s a → Apart a UNIT x.1 x.2

def len (h : Heap) (a : ℕ) : ℕ := UNIT * max (h.size a) 1

def hdrs (live : List (ℕ × ℕ)) : List ℕ := live.map fun x => x.1 - UNIT

/-- The blocks: those of the circle `L` but for `base`, and the allocations. -/
def blocks (base : ℕ) (L : List ℕ) (live : List (ℕ × ℕ)) : Set ℕ :=
  {a | a ∈ L ∧ a ≠ base ∨ a ∈ hdrs live}

structure Owned (h : Heap) (live : List (ℕ × ℕ)) : Prop where
  nodup : (hdrs live).Nodup
  fits : ∀ x ∈ live, UNIT ≤ x.1 ∧ x.2 + UNIT ≤ UNIT * h.size (x.1 - UNIT)

/-- The allocator between two calls, once it has been set up; `L` is the circle from `base` on. -/
structure Inv (base start : ℕ) (L : List ℕ) (live : List (ℕ × ℕ)) (h : Heap) : Prop where
  head : L.head? = some base
  linked : Path h.ptr L base
  sorted : L.Pairwise (· < ·)
  baseSize : h.size base = 0
  freep : h.freep ∈ L
  grown : start ≤ h.brk
  arena : Arena start h.brk (len h) (blocks base L live)
  disjoint : ∀ a ∈ L, a ∉ hdrs live
  owned : Owned h live

variable {base start : ℕ} {L l₁ l₂ : List ℕ} {live : List (ℕ × ℕ)} {h h' : Heap} {p bp n : ℕ}

theorem path_split : Path h.ptr (l₁ ++ p :: l₂) base ↔
    Path h.ptr l₁ p ∧ h.ptr p = l₂.headD base ∧ Path h.ptr l₂ base :=
  path_append

/-! ## Freeing -/

def Place (h : Heap) (bp p : ℕ) : Prop := p < bp ∧ bp < h.ptr p ∨ h.ptr p ≤ p ∧ (p < bp ∨ bp < h.ptr p)

instance : Decidable (Place h bp p) := inferInstanceAs (Decidable (_ ∨ _))

theorem freeLoop_succ (h : Heap) (bp fuel p : ℕ) :
    freeLoop h bp (fuel + 1) p = if Place h bp p then some p else freeLoop h bp fuel (h.ptr p) := by
  rw [freeLoop]
  by_cases h1 : p < bp ∧ bp < h.ptr p
  · rw [if_pos h1, if_pos (show Place h bp p from .inl h1)]
  rw [if_neg h1]
  by_cases h2 : h.ptr p ≤ p ∧ (p < bp ∨ bp < h.ptr p)
  · rw [if_pos h2, if_pos (show Place h bp p from .inr h2)]
  · rw [if_neg h2, if_neg (show ¬ Place h bp p from not_or.mpr ⟨h1, h2⟩)]

variable {fuel q : ℕ}

theorem freeLoop_some (hL : ∀ a ∈ L, h.ptr a ∈ L) (hp : p ∈ L)
    (hf : freeLoop h bp fuel p = some q) : q ∈ L ∧ Place h bp q := by
  induction fuel generalizing p with
  | zero => cases hf
  | succ fuel ih =>
    rw [freeLoop_succ] at hf
    split_ifs at hf with h1
    · cases hf; exact ⟨hp, h1⟩
    · exact ih (hL p hp) hf

section
variable (hi : Inv base start L live h)
include hi

theorem Inv.base_mem : base ∈ L := mem_of_mem_head? hi.head

theorem Inv.eq_cons : ∃ l, L = base :: l := by
  rcases L with _ | ⟨a, l⟩
  · cases hi.head
  · exact ⟨l, by rw [Option.some.inj hi.head]⟩

theorem Inv.ptr_mem : ∀ a ∈ L, h.ptr a ∈ L := by
  intro a ha
  rcases hi.linked.next_mem ha with h1 | h1
  · exact h1
  · rw [h1]; exact hi.base_mem

theorem Inv.place (hbp : base < bp)
    (hf : freeLoop h bp fuel h.freep = some p) : ∃ l₁ l₂, L = l₁ ++ p :: l₂ ∧ p < bp ∧ ∀ x ∈ l₂, bp < x := by
  obtain ⟨hp, htest⟩ := freeLoop_some hi.ptr_mem hi.freep hf
  obtain ⟨l₁, l₂, rfl⟩ := append_of_mem hp
  obtain ⟨-, hlink, -⟩ := path_split.mp hi.linked
  have hs := (pairwise_append.mp hi.sorted).2.1
  unfold Place at htest
  rw [hlink] at htest
  refine ⟨l₁, l₂, rfl, ?_⟩
  rcases l₂ with _ | ⟨x, l₂⟩
  · -- `p` is the last one
    have htest : p < bp ∧ bp < base ∨ base ≤ p ∧ (p < bp ∨ bp < base) := htest
    exact ⟨by omega, by simp⟩
  · have htest : p < bp ∧ bp < x ∨ x ≤ p ∧ (p < bp ∨ bp < x) := htest
    have hpx := (pairwise_cons.mp hs).1 x (by simp)
    refine ⟨by omega, fun y hy => ?_⟩
    rcases mem_cons.mp hy with rfl | hy
    · omega
    · have := (pairwise_cons.mp (pairwise_cons.mp hs).2).1 y hy; omega

end

theorem head?_append_cons (l₁ l₂ : List ℕ) (p : ℕ) : (l₁ ++ p :: l₂).head? = (l₁ ++ [p]).head? := by
  rcases l₁ with _ | ⟨a, l₁⟩ <;> rfl

theorem len_le (h : Heap) (a : ℕ) : len h a ≤ UNIT * h.size a + UNIT ∧ UNIT ≤ len h a ∧
    UNIT * h.size a ≤ len h a := by
  unfold len UNIT; omega

variable {a : ℕ}

theorem len_of_pos (hs : 1 ≤ h.size a) : len h a = UNIT * h.size a := by
  unfold len UNIT; omega

/-- While `bp` is inserted between `p` and `l₂`: nothing is said of the links of `p` and `bp`. -/
structure Floating (base start : ℕ) (l₁ : List ℕ) (p bp : ℕ) (l₂ : List ℕ) (live : List (ℕ × ℕ)) (h : Heap) :
    Prop where
  head : (l₁ ++ [p]).head? = some base
  before : Path h.ptr l₁ p
  after : Path h.ptr l₂ base
  sorted : (l₁ ++ p :: bp :: l₂).Pairwise (· < ·)
  baseSize : h.size base = 0
  grown : start ≤ h.brk
  arena : Arena start h.brk (len h) (blocks base (l₁ ++ p :: bp :: l₂) live)
  disjoint : ∀ a ∈ l₁ ++ p :: bp :: l₂, a ∉ hdrs live
  owned : Owned h live
  above : base < bp

theorem Owned.congr (ho : Owned h live) (hs : ∀ a ∈ hdrs live, h'.size a = h.size a) : Owned h' live := by
  refine ⟨ho.nodup, fun x hx => ?_⟩
  rw [hs _ (mem_map.mpr ⟨x, hx, rfl⟩)]; exact ho.fits x hx

theorem hdrs_cons (live : List (ℕ × ℕ)) (a n : ℕ) : hdrs ((a + UNIT, n) :: live) = a :: hdrs live := by
  simp [hdrs]

theorem mem_blocks_cons (ha : a ∈ blocks base L ((p + UNIT, n) :: live)) : a = p ∨ a ∈ blocks base L live := by
  rcases ha with ha | ha
  · exact .inr (.inl ha)
  · exact (mem_cons.mp ha).imp_right .inr

theorem Owned.cons (ho : Owned h live) (hp : p ∉ hdrs live) (hn : n + UNIT ≤ UNIT * h.size p) :
    Owned h ((p + UNIT, n) :: live) := by
  refine ⟨?_, fun x hx => ?_⟩
  · exact nodup_cons.mpr ⟨hp, ho.nodup⟩
  · rcases mem_cons.mp hx with rfl | hx
    · exact ⟨le_add_left _ _, hn⟩
    · exact ho.fits x hx

theorem setSize_size (h : Heap) (a v b : ℕ) : (h.setSize a v).size b = if b = a then v % 2 ^ 32 else h.size b :=
  update_apply _ _ _ _

theorem setPtr_ptr (h : Heap) (a v b : ℕ) : (h.setPtr a v).ptr b = if b = a then v else h.ptr b :=
  update_apply _ _ _ _

theorem len_setSize (h : Heap) (a v b : ℕ) :
    len (h.setSize a v) b = if b = a then UNIT * max (v % 2 ^ 32) 1 else len h b := by
  unfold len
  rw [setSize_size]
  split_ifs <;> rfl

theorem sorted_insert (hs : (l₁ ++ p :: l₂).Pairwise (· < ·)) (hp : p < bp) (hl : ∀ x ∈ l₂, bp < x) :
    (l₁ ++ p :: bp :: l₂).Pairwise (· < ·) := by
  obtain ⟨hs1, hs2, hs3⟩ := pairwise_append.mp hs
  obtain ⟨hpl, hs2⟩ := pairwise_cons.mp hs2
  refine pairwise_append.mpr ⟨hs1, pairwise_cons.mpr ⟨fun b hb => ?_,
    pairwise_cons.mpr ⟨hl, hs2⟩⟩, fun a ha b hb => ?_⟩
  · rcases mem_cons.mp hb with rfl | hb
    · exact hp
    · exact hpl b hb
  · have hap : a < p := hs3 a ha p (by simp)
    rcases mem_cons.mp hb with rfl | hb
    · exact hap
    · rcases mem_cons.mp hb with rfl | hb
      · exact hap.trans hp
      · exact hs3 a ha b (mem_cons_of_mem _ hb)

theorem Inv.float (hb : base < start) (hi : Inv base start (l₁ ++ p :: l₂) ((bp + UNIT, n) :: live) h)
    (hp : p < bp) (hl : ∀ x ∈ l₂, bp < x) : Floating base start l₁ p bp l₂ live h ∧ h.ptr p = l₂.headD base := by
  obtain ⟨hbefore, hlink, hafter⟩ := path_split.mp hi.linked
  have hnd := hi.owned.nodup
  rw [hdrs_cons, nodup_cons] at hnd
  have hmem : bp ∈ blocks base (l₁ ++ p :: l₂) ((bp + UNIT, n) :: live) :=
    .inr (by rw [hdrs_cons]; simp)
  have hcases : ∀ a ∈ l₁ ++ p :: bp :: l₂, a ∈ l₁ ++ p :: l₂ ∨ a = bp := by
    intro a ha
    simp only [mem_append, mem_cons] at ha ⊢
    tauto
  refine ⟨⟨?_, hbefore, hafter, sorted_insert hi.sorted hp hl, hi.baseSize, hi.grown, ?_, fun a ha => ?_,
    ⟨hnd.2, fun x hx => hi.owned.fits x (by simp [hx])⟩, ?_⟩, hlink⟩
  · rw [← head?_append_cons l₁ l₂ p]; exact hi.head
  · refine hi.arena.mono ?_ fun _ _ => le_rfl
    rintro a (⟨ha, hne⟩ | ha)
    · rcases hcases a ha with ha | rfl
      · exact .inl ⟨ha, hne⟩
      · exact hmem
    · exact .inr (by rw [hdrs_cons]; simp [ha])
  · rcases hcases a ha with ha | rfl
    · have := hi.disjoint a ha
      rw [hdrs_cons, mem_cons, not_or] at this; exact this.2
    · exact hnd.1
  · have := (hi.arena.inside bp hmem).1; omega

theorem sorted_ne (hs : (l₁ ++ p :: bp :: l₂).Pairwise (· < ·)) :
    (∀ a ∈ l₁, a ≠ p ∧ a ≠ bp) ∧ p ≠ bp ∧ ∀ a ∈ l₂, a ≠ p ∧ a ≠ bp := by
  obtain ⟨-, hs2, hs3⟩ := pairwise_append.mp hs
  obtain ⟨hpl, hs2⟩ := pairwise_cons.mp hs2
  obtain ⟨hbl, -⟩ := pairwise_cons.mp hs2
  refine ⟨fun a ha => ⟨(hs3 a ha p (by simp)).ne, (hs3 a ha bp (by simp)).ne⟩, (hpl bp (by simp)).ne,
    fun a ha => ⟨(hpl a (by simp [ha])).ne', (hbl a ha).ne'⟩⟩

theorem arena_join {b hi : ℕ} (hs : (l₁ ++ a :: b :: l₂).Pairwise (· < ·)) (hlive : b ∉ hdrs live)
    (ha : a ≠ base) (hb : b ≠ base) (hadj : a + UNIT * h.size a = b)
    (harena : Arena start hi (len h) (blocks base (l₁ ++ a :: b :: l₂) live)) :
    Arena start hi (len (h.setSize a (h.size a + h.size b))) (blocks base (l₁ ++ a :: l₂) live) := by
  obtain ⟨hne1, hab, hne2⟩ := sorted_ne hs
  have hpos : 1 ≤ h.size a := by
    by_contra h0
    have h0 : h.size a = 0 := by omega
    rw [h0] at hadj; omega
  have hlt : a < b := by omega
  refine (harena.join (.inl ⟨by simp, ha⟩) (.inl ⟨by simp, hb⟩) hlt ?_ ?_ ?_).mono ?_
    fun _ _ => le_rfl
  · rw [len_of_pos hpos]; exact hadj
  · rw [len_setSize, if_pos rfl]; unfold len UNIT; omega
  · intro y _ hy
    rw [len_setSize, if_neg hy]
  · rintro x (⟨hx, hxb⟩ | hx)
    · simp only [mem_append, mem_cons] at hx
      refine ⟨.inl ⟨by simp only [mem_append, mem_cons]; tauto, hxb⟩, ?_⟩
      rintro rfl
      rcases hx with hx | rfl | hx
      · exact (hne1 _ hx).2 rfl
      · exact hab rfl
      · exact (hne2 _ hx).2 rfl
    · exact ⟨.inr hx, fun he => hlive (he ▸ hx)⟩

theorem Floating.joinNext (hf : Floating base start l₁ p bp l₂ live h) (hlink : h.ptr p = l₂.headD base) :
    ∃ l2', Floating base start l₁ p bp l2' live (joinNext h bp p) ∧ (joinNext h bp p).ptr bp = l2'.headD base := by
  obtain ⟨hne1, -, hne2⟩ := sorted_ne hf.sorted
  unfold Malloc.joinNext
  by_cases hadj : bp + UNIT * h.size bp = h.ptr p
  · rw [if_pos hadj]
    rcases l₂ with _ | ⟨x, l3⟩
    · -- nothing is after `p` but `base`, which is below
      rw [hlink] at hadj
      have hadj : bp + UNIT * h.size bp = base := hadj
      have := hf.above; omega
    have hpx : h.ptr p = x := hlink
    obtain ⟨hxlink, hafter⟩ := hf.after
    have hsub : (l₁ ++ p :: bp :: l3).Sublist (l₁ ++ p :: bp :: x :: l3) :=
      (List.Sublist.refl l₁).append (((sublist_cons_self x l3).cons_cons bp).cons_cons p)
    have hbpnot : ∀ a ∈ hdrs live, a ≠ bp := fun a ha he => hf.disjoint bp (by simp) (he ▸ ha)
    have hbaseNe : base ≠ bp := hf.above.ne
    rw [hpx]
    rw [hpx] at hadj
    refine ⟨l3, ⟨hf.head, ?_, ?_, hf.sorted.sublist hsub, ?_, hf.grown, ?_,
      fun a ha => hf.disjoint a (hsub.subset ha), ?_, hf.above⟩, ?_⟩
    · exact hf.before.congr fun a ha => by
        rw [setPtr_ptr, if_neg (hne1 a ha).2]; rfl
    · exact hafter.congr fun a ha => by
        rw [setPtr_ptr, if_neg (hne2 a (by simp [ha])).2]; rfl
    · show (h.setSize bp _).size base = 0
      rw [setSize_size, if_neg hbaseNe]; exact hf.baseSize
    · have hs : ((l₁ ++ [p]) ++ bp :: x :: l3).Pairwise (· < ·) := by simpa using hf.sorted
      have hbx : x ≠ base := by have := hf.above; omega
      have := arena_join hs (hf.disjoint x (by simp)) hbaseNe.symm hbx hadj (by simpa using hf.arena)
      rw [append_assoc] at this; exact this
    · refine hf.owned.congr fun a ha => ?_
      show (h.setSize bp _).size a = _
      rw [setSize_size, if_neg (hbpnot a ha)]
    · rw [setPtr_ptr, if_pos rfl]; exact hxlink
  · rw [if_neg hadj]
    refine ⟨l₂, ⟨hf.head, ?_, ?_, hf.sorted, hf.baseSize, hf.grown,
      hf.arena.mono subset_rfl fun _ _ => le_rfl, hf.disjoint, hf.owned.congr fun _ _ => rfl, hf.above⟩, ?_⟩
    · exact hf.before.congr fun a ha => by rw [setPtr_ptr, if_neg (hne1 a ha).2]
    · exact hf.after.congr fun a ha => by rw [setPtr_ptr, if_neg (hne2 a ha).2]
    · rw [setPtr_ptr, if_pos rfl, hlink]

theorem Floating.joinPrev (hf : Floating base start l₁ p bp l₂ live h) (hlink : h.ptr bp = l₂.headD base) :
    ∃ L, Inv base start L live { joinPrev h bp p with freep := p } := by
  obtain ⟨hne1, hpbp, hne2⟩ := sorted_ne hf.sorted
  unfold Malloc.joinPrev
  by_cases hadj : p + UNIT * h.size p = bp
  · rw [if_pos hadj]
    have hpbase : p ≠ base := by rintro rfl; rw [hf.baseSize] at hadj; omega
    have hsub : (l₁ ++ p :: l₂).Sublist (l₁ ++ p :: bp :: l₂) :=
      (List.Sublist.refl l₁).append ((sublist_cons_self bp l₂).cons_cons p)
    have hpnot : ∀ a ∈ hdrs live, a ≠ p := fun a ha he => hf.disjoint p (by simp) (he ▸ ha)
    refine ⟨l₁ ++ p :: l₂, ⟨?_, path_split.mpr ⟨?_, ?_, ?_⟩, hf.sorted.sublist hsub, ?_, by simp, hf.grown, ?_,
      fun a ha => hf.disjoint a (hsub.subset ha), ?_⟩⟩
    · rw [head?_append_cons]; exact hf.head
    · exact hf.before.congr fun a ha => (setPtr_ptr _ _ _ _).trans (if_neg (hne1 a ha).1)
    · exact ((setPtr_ptr _ _ _ _).trans (if_pos rfl)).trans hlink
    · exact hf.after.congr fun a ha => (setPtr_ptr _ _ _ _).trans (if_neg (hne2 a ha).1)
    · exact ((setSize_size _ _ _ _).trans (if_neg hpbase.symm)).trans hf.baseSize
    · exact arena_join hf.sorted (hf.disjoint bp (by simp)) hpbase hf.above.ne' hadj hf.arena
    · exact hf.owned.congr fun a ha => (setSize_size _ _ _ _).trans (if_neg (hpnot a ha))
  · rw [if_neg hadj]
    refine ⟨l₁ ++ p :: bp :: l₂, ⟨?_, path_split.mpr ⟨?_, ?_, ?_, ?_⟩, hf.sorted, hf.baseSize, by simp, hf.grown,
      hf.arena.mono subset_rfl fun _ _ => le_rfl, hf.disjoint, hf.owned.congr fun _ _ => rfl⟩⟩
    · rw [head?_append_cons]; exact hf.head
    · exact hf.before.congr fun a ha => (setPtr_ptr _ _ _ _).trans (if_neg (hne1 a ha).1)
    · exact (setPtr_ptr _ _ _ _).trans (if_pos rfl)
    · exact ((setPtr_ptr _ _ _ _).trans (if_neg hpbp.symm)).trans hlink
    · exact hf.after.congr fun a ha => (setPtr_ptr _ _ _ _).trans (if_neg (hne2 a ha).1)

theorem Inv.free (hb : base < start) (hi : Inv base start L ((bp + UNIT, n) :: live) h)
    (hf : free fuel (bp + UNIT) h = some h') : (∃ L', Inv base start L' live h') ∧ h'.brk = h.brk := by
  obtain ⟨p, hp, he⟩ := bind_eq_some_iff.mp hf
  rw [Nat.add_sub_cancel] at hp he
  cases he
  have hmem : bp ∈ blocks base L ((bp + UNIT, n) :: live) := .inr (by simp [hdrs])
  have hbp : base < bp := by have := (hi.arena.inside bp hmem).1; omega
  obtain ⟨l₁, l₂, rfl, hpb, hl⟩ := hi.place hbp hp
  obtain ⟨hfl, hlink⟩ := hi.float hb hpb hl
  obtain ⟨l2', hfl', hlink'⟩ := hfl.joinNext hlink
  refine ⟨hfl'.joinPrev hlink', ?_⟩
  unfold Malloc.joinPrev Malloc.joinNext
  split_ifs <;> rfl

theorem Inv.base_le (hi : Inv base start L live h) (ha : a ∈ L) : base ≤ a := by
  obtain ⟨l, rfl⟩ := hi.eq_cons
  rcases mem_cons.mp ha with rfl | ha
  · exact le_rfl
  · exact ((pairwise_cons.mp hi.sorted).1 a ha).le

variable {nu : ℕ}

theorem Inv.grow (hb : base < start) (hi : Inv base start L live h) (hpos : 1 ≤ nu) (hnu : nu < 2 ^ 32) :
    Inv base start L ((h.brk + UNIT, 0) :: live) ({ h with brk := h.brk + UNIT * nu }.setSize h.brk nu) := by
  have hlt : ∀ a ∈ blocks base L live, a < h.brk := by
    intro a ha
    have h1 := hi.arena.inside a ha
    have h2 := (len_le h a).2.1
    unfold UNIT at h2; omega
  have hbase : base < h.brk := hb.trans_le hi.grown
  have hL : ∀ a ∈ L, a ≠ h.brk := by
    intro a ha
    by_cases he : a = base
    · rw [he]; exact hbase.ne
    · exact (hlt a (.inl ⟨ha, he⟩)).ne
  have hlive : h.brk ∉ hdrs live := fun hm => (hlt _ (.inr hm)).ne rfl
  refine ⟨hi.head, hi.linked, hi.sorted, ?_, hi.freep, ?_, ?_, fun a ha => ?_, ?_⟩
  · rw [setSize_size, if_neg hbase.ne]; exact hi.baseSize
  · exact hi.grown.trans (le_add_right _ _)
  · refine (hi.arena.extend hi.grown le_rfl ?_ fun x hx => ?_).mono
      (fun _ => mem_blocks_cons) fun _ _ => le_rfl
    · rw [len_setSize, if_pos rfl, mod_eq_of_lt hnu, max_eq_left hpos]
      exact le_rfl
    · rw [len_setSize, if_neg (hlt x hx).ne]; exact le_rfl
  · rw [hdrs_cons, mem_cons, not_or]; exact ⟨hL a ha, hi.disjoint a ha⟩
  · refine Owned.cons (hi.owned.congr fun a ha => ?_) hlive ?_
    · have hne : a ≠ h.brk := fun he => hlive (he ▸ ha)
      rw [setSize_size, if_neg hne]
    · rw [setSize_size, if_pos rfl]; unfold UNIT; omega

theorem morecore_size (h : Heap) (hnu : nu * UNIT < 2 ^ 31) :
    1 ≤ (if nu < 4096 then 4096 else nu) ∧ (if nu < 4096 then 4096 else nu) < 2 ^ 32 ∧
      (h.brk + (BitVec.ofNat 32 ((if nu < 4096 then 4096 else nu) * UNIT)).toInt).toNat =
        h.brk + UNIT * (if nu < 4096 then 4096 else nu) := by
  set m := if nu < 4096 then 4096 else nu with hm
  have hm1 : 1 ≤ m := by
    rw [hm]
    split_ifs <;> omega
  have hm2 : m * 16 < 2 ^ 31 := by
    rw [hm]
    unfold UNIT at hnu
    split_ifs <;> omega
  refine ⟨hm1, by omega, ?_⟩
  have hint : (BitVec.ofNat 32 (m * 16)).toInt = (m * 16 : ℕ) := by
    rw [BitVec.toInt_eq_toNat_of_lt (by rw [BitVec.toNat_ofNat]; omega), BitVec.toNat_ofNat,
      mod_eq_of_lt (by omega)]
  unfold UNIT; omega

theorem Inv.morecore (h0 : 0 < base) (hb : base < start) (hi : Inv base start L live h)
    {ok : Bool} (hnu : nu * UNIT < 2 ^ 31) (hm : morecore fuel nu ok h = some (q, h')) :
    q = 0 ∧ h' = h ∨ q ≠ 0 ∧ q = h'.freep ∧ ∃ L', Inv base start L' live h' := by
  unfold Malloc.morecore sbrk at hm
  rcases ok with _ | _
  · simp only [Bool.false_eq_true, if_false, Option.some.injEq, Prod.mk.injEq] at hm
    exact .inl ⟨hm.1.symm, hm.2.symm⟩
  · simp only [if_true] at hm
    obtain ⟨hm1, hm2, hbrk⟩ := morecore_size h hnu
    rw [hbrk] at hm
    obtain ⟨h1, hf, he⟩ := bind_eq_some_iff.mp hm
    cases he
    obtain ⟨⟨L', hL'⟩, -⟩ := (hi.grow hb hm1 hm2).free hb hf
    exact .inr ⟨(h0.trans_le (hL'.base_le hL'.freep)).ne', rfl, L', hL'⟩

/-! ## Allocating -/

theorem Inv.ne_base (hi : Inv base start L live h) (hpos : 1 ≤ nu) (hge : nu ≤ h.size p) : p ≠ base := by
  rintro rfl
  rw [hi.baseSize] at hge; omega

variable {prevp : ℕ}

theorem Inv.next (hi : Inv base start L live h) (hprev : prevp ∈ L) (hp : h.ptr prevp = p)
    (hbase : p ≠ base) : ∃ l₁ l₂, L = l₁ ++ prevp :: p :: l₂ := by
  obtain ⟨l₁, l₂, rfl⟩ := append_of_mem hprev
  obtain ⟨-, hlink, -⟩ := path_split.mp hi.linked
  rw [hp] at hlink
  rcases l₂ with _ | ⟨x, l₂⟩
  · exact absurd hlink hbase
  · obtain rfl : p = x := hlink; exact ⟨l₁, l₂, rfl⟩

theorem Inv.take (hi : Inv base start (l₁ ++ prevp :: p :: l₂) live h) (hbase : p ≠ base)
    (hn : n + UNIT ≤ UNIT * h.size p) : Inv base start (l₁ ++ prevp :: l₂) ((p + UNIT, n) :: live)
      { h.setPtr prevp (h.ptr p) with freep := prevp } := by
  obtain ⟨hne1, hpp, hne2⟩ := sorted_ne hi.sorted
  obtain ⟨hbefore, -, hlink, hafter⟩ := path_split.mp hi.linked
  have hsub : (l₁ ++ prevp :: l₂).Sublist (l₁ ++ prevp :: p :: l₂) :=
    (List.Sublist.refl l₁).append ((sublist_cons_self p l₂).cons_cons prevp)
  have hpnot : ∀ a ∈ l₁ ++ prevp :: l₂, a ≠ p := by
    intro a ha
    rcases mem_append.mp ha with ha | ha
    · exact (hne1 a ha).2
    · rcases mem_cons.mp ha with rfl | ha
      · exact hpp
      · exact (hne2 a ha).2
  refine ⟨?_, path_split.mpr ⟨?_, ?_, ?_⟩, hi.sorted.sublist hsub, hi.baseSize, by simp, hi.grown, ?_,
    fun a ha => ?_, ?_⟩
  · rw [head?_append_cons, ← head?_append_cons l₁ (p :: l₂)]; exact hi.head
  · exact hbefore.congr fun a ha => (setPtr_ptr _ _ _ _).trans (if_neg (hne1 a ha).1)
  · exact ((setPtr_ptr _ _ _ _).trans (if_pos rfl)).trans hlink
  · exact hafter.congr fun a ha => (setPtr_ptr _ _ _ _).trans (if_neg (hne2 a ha).1)
  · refine hi.arena.mono (fun a ha => ?_) fun _ _ => le_rfl
    rcases mem_blocks_cons ha with rfl | ⟨ha, hab⟩ | ha
    · exact .inl ⟨by simp, hbase⟩
    · exact .inl ⟨hsub.subset ha, hab⟩
    · exact .inr ha
  · rw [hdrs_cons, mem_cons, not_or]
    exact ⟨hpnot a ha, hi.disjoint a (hsub.subset ha)⟩
  · exact Owned.cons (hi.owned.congr fun _ _ => rfl) (hi.disjoint p (by simp)) hn

theorem Inv.carve (hb : base < start) (hi : Inv base start L live h) {freep : ℕ} (hp : p ∈ L)
    (hbase : p ≠ base) (hfreep : freep ∈ L) (hlt : nu < h.size p) (hq : q = p + UNIT * (h.size p - nu))
    (hpos : 1 ≤ nu) (hn : n + UNIT ≤ UNIT * nu) : Inv base start L ((q + UNIT, n) :: live)
      { (h.setSize p (h.size p - nu)).setSize q nu with freep := freep } := by
  have huint := h.uint p
  have hpB : p ∈ blocks base L live := .inl ⟨hp, hbase⟩
  have hlen : len h p = UNIT * h.size p := len_of_pos (by omega)
  have hpq : p < q := by unfold UNIT at hq; omega
  have hqend : q + UNIT * nu = p + len h p := by
    rw [hlen, hq, Nat.add_assoc, ← Nat.mul_add, Nat.sub_add_cancel hlt.le]
  have hqB : q ∉ blocks base L live := by
    intro hm
    have := hi.arena.apart p hpB q hm hpq
    unfold UNIT at hqend; omega
  have hbq : base < q := by have := (hi.arena.inside p hpB).1; omega
  have hqL : ∀ a ∈ L, a ≠ q := by rintro a ha rfl; exact hqB (.inl ⟨ha, hbq.ne'⟩)
  have hsize : ∀ a, a ≠ p → a ≠ q → ((h.setSize p (h.size p - nu)).setSize q nu).size a = h.size a := by
    intro a h1 h2
    rw [setSize_size, if_neg h2, setSize_size, if_neg h1]
  have hlive : ∀ a ∈ hdrs live, a ≠ p ∧ a ≠ q :=
    fun a ha => ⟨fun he => hi.disjoint p hp (he ▸ ha), fun he => hqB (.inr (he ▸ ha))⟩
  have hlenq : len ((h.setSize p (h.size p - nu)).setSize q nu) q = UNIT * nu := by
    rw [len_setSize, if_pos rfl, Nat.mod_eq_of_lt (by omega), Nat.max_eq_left hpos]
  refine ⟨hi.head, hi.linked, hi.sorted, (hsize base hbase.symm hbq.ne).trans hi.baseSize, hfreep, hi.grown,
    ?_, fun a ha => ?_, ?_⟩
  · refine (hi.arena.split hpB hpq ?_ ?_ ?_ ?_).mono
      (fun _ => mem_blocks_cons) fun _ _ => le_rfl
    · show q + len ((h.setSize p _).setSize q nu) q ≤ _
      rw [hlenq, hqend]
    · show p + len ((h.setSize p _).setSize q nu) p ≤ _
      rw [len_setSize, if_neg hpq.ne, len_setSize, if_pos rfl, Nat.mod_eq_of_lt (by omega),
        Nat.max_eq_left (by omega), hq]
    · show 0 < len ((h.setSize p _).setSize q nu) q
      rw [hlenq]
      unfold UNIT; omega
    · intro x hx hxp
      show len ((h.setSize p _).setSize q nu) x ≤ _
      have hxq : x ≠ q := fun he => hqB (he ▸ hx)
      rw [len_setSize, if_neg hxq, len_setSize, if_neg hxp]
  · rw [hdrs_cons, mem_cons, not_or]; exact ⟨hqL a ha, hi.disjoint a ha⟩
  · refine Owned.cons (hi.owned.congr fun a ha => hsize a (hlive a ha).1 (hlive a ha).2)
      (fun hm => hqB (.inr hm)) ?_
    rw [setSize_size, if_pos rfl, Nat.mod_eq_of_lt (by omega)]; exact hn

/-- What a call of `malloc` for `n` bytes leaves behind. -/
def Allocated (base start n : ℕ) (live : List (ℕ × ℕ)) (r : ℕ) (h : Heap) : Prop :=
  ∃ L, Inv base start L (if r = 0 then live else (r, n) :: live) h

variable {grow : List Bool} {r : ℕ}

theorem Inv.mallocLoop (h0 : 0 < base) (hb : base < start) (hi : Inv base start L live h)
    (hprev : prevp ∈ L) (hn : n + UNIT ≤ UNIT * nu) (hnu : nu * UNIT < 2 ^ 31)
    (hm : mallocLoop nu fuel prevp (h.ptr prevp) grow h = some (r, h')) : Allocated base start n live r h' := by
  induction fuel generalizing L prevp grow h with
  | zero => cases hm
  | succ fuel ih =>
    unfold Malloc.mallocLoop at hm
    have hpos : 1 ≤ nu := by unfold UNIT at hn; omega
    have hpL := hi.ptr_mem prevp hprev
    split_ifs at hm with hge heq hfp
    · -- the block has the right size
      cases hm
      have hne := hi.ne_base hpos hge
      obtain ⟨l₁, l₂, rfl⟩ := hi.next hprev rfl hne
      refine ⟨l₁ ++ prevp :: l₂, ?_⟩
      rw [if_neg (by unfold UNIT; omega)]
      exact hi.take hne (by rw [heq]; exact hn)
    · -- the block is split
      cases hm
      have hne := hi.ne_base hpos hge
      have hsz : (h.setSize (h.ptr prevp) (h.size (h.ptr prevp) - nu)).size (h.ptr prevp) =
          h.size (h.ptr prevp) - nu := by
        have := h.uint (h.ptr prevp)
        rw [setSize_size, if_pos rfl, mod_eq_of_lt (by omega)]
      refine ⟨L, ?_⟩
      rw [if_neg (by unfold UNIT; omega)]
      exact hi.carve hb hpL hne hprev (by omega) (by rw [hsz]) hpos hn
    · -- the whole circle has been searched
      rcases hmc : Malloc.morecore fuel nu (grow.headD false) h with _ | ⟨q, h1⟩
      · rw [hmc] at hm; cases hm
      · rw [hmc] at hm
        rcases hi.morecore h0 hb hnu hmc with ⟨rfl, rfl⟩ | ⟨hq, hfreep, L', hL'⟩
        · obtain ⟨rfl, rfl⟩ := hm; exact ⟨L, by rw [if_pos rfl]; exact hi⟩
        · simp only [if_neg hq] at hm; exact ih hL' (hfreep ▸ hL'.freep) hm
    · exact ih hi hpL hm

/-- A request whose bytes, with the header, are an `int`. -/
def Moderate (nbytes : BitVec 32) : Prop := nbytes.toNat ≤ 2147483616

instance (nbytes : BitVec 32) : Decidable (Moderate nbytes) := inferInstanceAs (Decidable (_ ≤ _))

variable {nbytes : BitVec 32}

theorem Moderate.nunits (hm : Moderate nbytes) :
    nbytes.toNat + UNIT ≤ UNIT * nunits nbytes ∧ nunits nbytes * UNIT < 2 ^ 31 := by
  unfold Moderate at hm
  unfold Malloc.nunits UNIT; omega

theorem inv_setup (hbrk : h.brk = start) :
    Inv base start [base] [] { (h.setPtr base base).setSize base 0 with freep := base } := by
  refine ⟨rfl, ⟨?_, trivial⟩, pairwise_singleton _ _, ?_, by simp, hbrk.ge, ⟨?_, ?_⟩, by simp [hdrs],
    ⟨nodup_nil, by simp⟩⟩
  · exact (setPtr_ptr h base base base).trans (if_pos rfl)
  · exact (setSize_size (h.setPtr base base) base 0 base).trans (if_pos rfl)
  · rintro a (⟨ha, hne⟩ | ha)
    · exact absurd (mem_singleton.mp ha) hne
    · cases ha
  · rintro a (⟨ha, hne⟩ | ha)
    · exact absurd (mem_singleton.mp ha) hne
    · cases ha

def Good (base start : ℕ) (s : State) : Prop :=
  s.heap.freep = 0 ∧ s.heap.brk = start ∧ s.live = [] ∨ ∃ L, Inv base start L s.live s.heap

variable {s : State}

theorem Good.malloc (h0 : 0 < base) (hb : base < start) (hg : Good base start s)
    (hn : Moderate nbytes) (hm : malloc base fuel nbytes grow s.heap = some (r, h')) :
    Allocated base start nbytes.toNat s.live r h' := by
  unfold Malloc.malloc at hm
  rcases hg with ⟨hfreep, hbrk, hlive⟩ | ⟨L, hi⟩
  · rw [if_pos hfreep] at hm
    rw [hlive]
    exact (inv_setup hbrk).mallocLoop h0 hb (mem_singleton_self base) hn.nunits.1 hn.nunits.2 hm
  · have hne : s.heap.freep ≠ 0 := (h0.trans_le (hi.base_le hi.freep)).ne'
    rw [if_neg hne] at hm
    exact hi.mallocLoop h0 hb hi.freep hn.nunits.1 hn.nunits.2 hm

/-! ## Runs -/

theorem Inv.apart_header (hb : base + UNIT ≤ start) (hi : Inv base start L live h)
    (ha : a ∈ L ∨ a ∈ hdrs live) {x : ℕ × ℕ} (hx : x ∈ live) : Apart a UNIT x.1 x.2 := by
  have hxm : x.1 - UNIT ∈ hdrs live := mem_map.mpr ⟨x, hx, rfl⟩
  have hxB : x.1 - UNIT ∈ blocks base L live := .inr hxm
  obtain ⟨hx1, hx2⟩ := hi.owned.fits x hx
  have hxl := (len_le h (x.1 - UNIT)).2.2
  have hin := (hi.arena.inside _ hxB).1
  unfold Apart
  by_cases hbase : a = base
  · omega
  have haB : a ∈ blocks base L live := ha.imp (fun h => ⟨h, hbase⟩) id
  rcases lt_trichotomy a (x.1 - UNIT) with hlt | heq | hgt
  · omega
  · omega
  · have := hi.arena.apart _ hxB a haB hgt; omega

theorem Inv.apart_live (hi : Inv base start L live h) {x y : ℕ × ℕ} (hx : x ∈ live) (hy : y ∈ live)
    (hne : x.1 - UNIT ≠ y.1 - UNIT) : Apart x.1 x.2 y.1 y.2 := by
  have hmem : ∀ z ∈ live, z.1 - UNIT ∈ blocks base L live := fun z hz => .inr (mem_map.mpr ⟨z, hz, rfl⟩)
  obtain ⟨hx1, hx2⟩ := hi.owned.fits x hx
  obtain ⟨hy1, hy2⟩ := hi.owned.fits y hy
  have hxl := (len_le h (x.1 - UNIT)).2.2
  have hyl := (len_le h (y.1 - UNIT)).2.2
  unfold Apart
  rcases lt_or_gt_of_ne hne with hlt | hgt
  · have := hi.arena.apart _ (hmem x hx) _ (hmem y hy) hlt; omega
  · have := hi.arena.apart _ (hmem y hy) _ (hmem x hx) hgt; omega

theorem Inv.store (hb : base + UNIT ≤ start) (hi : Inv base start L live h) (hs : Stored live h h') :
    Inv base start L live h' := by
  have hsame : ∀ a, a ∈ L ∨ a ∈ hdrs live → h'.ptr a = h.ptr a ∧ h'.size a = h.size a :=
    fun a ha => hs.same a fun x hx => hi.apart_header hb ha hx
  refine ⟨hi.head, hi.linked.congr fun a ha => (hsame a (.inl ha)).1, hi.sorted,
    (hsame base (.inl hi.base_mem)).2.trans hi.baseSize, hs.freep ▸ hi.freep, hs.brk ▸ hi.grown, ?_,
    hi.disjoint, hi.owned.congr fun a ha => (hsame a (.inr ha)).2⟩
  rw [hs.brk]
  refine hi.arena.mono subset_rfl fun a ha => ?_
  unfold len
  rw [(hsame a (ha.imp (fun h => h.1) id)).2]

theorem Inv.perm {live' : List (ℕ × ℕ)} (hi : Inv base start L live h) (hp : live.Perm live') :
    Inv base start L live' h := by
  have hperm : (hdrs live).Perm (hdrs live') := hp.map _
  refine ⟨hi.head, hi.linked, hi.sorted, hi.baseSize, hi.freep, hi.grown, ?_,
    fun a ha hm => hi.disjoint a ha (hperm.mem_iff.mpr hm), hperm.nodup_iff.mp hi.owned.nodup,
    fun x hx => hi.owned.fits x (hp.mem_iff.mpr hx)⟩
  refine hi.arena.mono ?_ fun _ _ => le_rfl
  rintro a (ha | ha)
  · exact .inl ha
  · exact .inr (hperm.mem_iff.mpr ha)

def Asks : State → Op → Prop
  | _, .malloc nbytes _ => Moderate nbytes
  | _, _ => True

theorem Good.step (h0 : 0 < base) (hb : base + UNIT ≤ start) {s' : State} {o : Op} (hg : Good base start s)
    (hs : Step base s o s') (hok : Asks s o) : Good base start s' := by
  have hlt : base < start := by unfold UNIT at hb; omega
  cases hs with
  | malloc hm => exact .inr (hg.malloc h0 hlt hok hm)
  | @free x _ _ hx hf =>
    rcases hg with ⟨-, -, hlive⟩ | ⟨L, hi⟩
    · rw [hlive] at hx; cases hx
    · have hx1 := (hi.owned.fits x hx).1
      have hperm := hi.perm (perm_cons_erase hx)
      obtain ⟨a, n⟩ := x
      obtain ⟨bp, rfl⟩ : ∃ bp, a = bp + UNIT := ⟨a - UNIT, by omega⟩
      exact .inr (hperm.free hlt hf).1
  | store hst =>
    rcases hg with ⟨hfreep, hbrk, hlive⟩ | ⟨L, hi⟩
    · exact .inl ⟨hst.freep.trans hfreep, hst.brk.trans hbrk, hlive⟩
    · exact .inr ⟨L, hi.store hb hst⟩

theorem Inv.iterate_mem (hi : Inv base start L live h) (k : ℕ) : h.ptr^[k] h.freep ∈ L := by
  induction k with
  | zero => exact hi.freep
  | succ k ih => rw [iterate_succ_apply']; exact hi.ptr_mem _ ih

theorem Good.safe (hb : base + UNIT ≤ start) (hg : Good base start s) : Safe base start s := by
  rcases hg with ⟨-, -, hlive⟩ | ⟨L, hi⟩
  · refine ⟨?_, ?_, ?_⟩ <;> simp [hlive]
  refine ⟨fun x hx => ?_, ?_, fun x hx a ha => ?_⟩
  · have hin := hi.arena.inside (x.1 - UNIT) (.inr (mem_map.mpr ⟨x, hx, rfl⟩))
    have hlen := (len_le s.heap (x.1 - UNIT)).2.2
    obtain ⟨h1, h2⟩ := hi.owned.fits x hx; omega
  · have hnd : s.live.Pairwise fun x y => x.1 - UNIT ≠ y.1 - UNIT := pairwise_map.mp hi.owned.nodup
    exact hnd.imp_of_mem fun hx hy hne => hi.apart_live hx hy hne
  · refine hi.apart_header hb ?_ hx
    rcases ha with rfl | ⟨y, hy, he⟩ | ⟨-, k, rfl⟩
    · exact .inl hi.base_mem
    · exact .inr (mem_map.mpr ⟨y, hy, by omega⟩)
    · exact .inl (hi.iterate_mem k)

/-- **Allocations are real and disjoint memory**: in every run of a program whose requests are all moderate,
every allocation has the bytes asked for, in the heap, and overlaps no other allocation and no header. -/
theorem allocations_disjoint (h0 : 0 < base) (hb : base + UNIT ≤ start) {H : List (State × Op)} {s : State}
    (hr : Run (sys base start) H s) (hok : ∀ x ∈ H, Asks x.1 x.2) : Safe base start s :=
  (hr.inv_of_ok (I := Good base start) (fun _ hs => .inl hs)
    (fun _ _ _ hg hc hs => hg.step h0 hb hs hc) hok).safe hb

def fresh (start : ℕ) : Heap := ⟨fun _ => 0, fun _ => 0, 0, start, fun _ => by decide⟩

def next (base : ℕ) (s : State) : Op → Option State
  | .malloc nbytes grow => (malloc base 9 nbytes grow s.heap).map fun r =>
      ⟨r.2, if r.1 = 0 then s.live else (r.1, nbytes.toNat) :: s.live⟩
  | .free x => if x ∈ s.live then (free 9 x.1 s.heap).map fun h => ⟨h, s.live.erase x⟩ else none
  | .store => none

theorem step_of_next {s s' : State} {o : Op} (h : next base s o = some s') : Step base s o s' := by
  cases o with
  | malloc nbytes grow =>
    obtain ⟨r, hr, rfl⟩ := map_eq_some_iff.mp h; exact .malloc hr
  | free x =>
    dsimp only [next] at h
    split_ifs at h with hx
    obtain ⟨r, hr, rfl⟩ := map_eq_some_iff.mp h; exact .free hx hr
  | store => cases h

theorem init_fresh : (sys 16 32).init ⟨fresh 32, []⟩ := ⟨rfl, rfl, rfl⟩

def reuse : List Op := [.malloc 65536 [true], .malloc 100 [true], .free (48, 65536), .malloc 5000 []]

/-- `p = malloc(65536); q = malloc(100); free(p); r = malloc(5000)`: what is freed joins the free block behind it,
and `r` ends just below the header of `q`. -/
theorem allocations_disjoint_reuse : ∃ H s, Run (sys 16 32) H s ∧ H.map Prod.snd = reuse ∧
    s.live = [(125984, 5000), (131008, 100)] ∧ Safe 16 32 s := by
  obtain ⟨s, hr, hops, hlive⟩ := exists_run (T := sys 16 32) (f := next 16) (fun _ _ _ => step_of_next)
    init_fresh reuse (fun s => s.live = [(125984, 5000), (131008, 100)]) (by decide +kernel)
  refine ⟨_, s, hr, hops, of_decide_eq_true hlive, allocations_disjoint (by decide) (by decide) hr fun x hx => ?_⟩
  have hx2 : x.2 ∈ reuse := hops ▸ mem_map_of_mem hx
  have hall : ∀ o ∈ reuse, Asks x.1 o := by simp [reuse, Asks, Moderate]
  exact hall x.2 hx2

/-- **A request for 2³² − 1 bytes** gets a pointer to the end of the heap: `sbrk` has been asked for 2³² + 16
bytes, as an `int`. -/
theorem huge_request :
    ∃ H h, Run (sys 16 32) H ⟨h, [(48, 4294967295)]⟩ ∧ h.brk = 48 ∧ ¬ Safe 16 32 ⟨h, [(48, 4294967295)]⟩ := by
  obtain ⟨⟨h, live⟩, hr, -, ht⟩ := exists_run (T := sys 16 32) (f := next 16) (fun _ _ _ => step_of_next)
    init_fresh [.malloc 4294967295 [true]]
    (fun s => s.live = [(48, 4294967295)] ∧ s.heap.brk = 48) (by decide +kernel)
  obtain ⟨rfl, hbrk⟩ : live = _ ∧ h.brk = 48 := of_decide_eq_true ht
  refine ⟨_, h, hr, hbrk, fun hs => ?_⟩
  have h1 : 48 + 4294967295 ≤ h.brk := (hs.inside (48, 4294967295) (by simp)).2
  omega

end Xv6.User.Malloc
