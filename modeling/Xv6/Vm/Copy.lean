import Mathlib.Algebra.Order.Ring.Nat
import Mathlib.Tactic.Common

/-!
# Copying from and to user memory

`copyin` and `copyout` of `kernel/vm.c`.  They go through the user's memory page by page and stop at the
first page that they may not use, so a copy that fails can have moved the bytes of the pages before it.
-/

namespace Xv6.Vm.Copy

open List

abbrev Byte := BitVec 8

def PGSIZE : ℕ := 4096

/-- A page of a process: whether `PTE_W` is set, and its bytes. -/
structure Page where
  writable : Bool
  bytes : ℕ → Byte

/-- The pages of a process by their number: those that a page table maps below `MAXVA` with `PTE_V` and
`PTE_U`. -/
abbrev UserMem := ℕ → Option Page

def UserMem.walkaddr (mem : UserMem) (va : ℕ) : Option Page := mem (va / PGSIZE)

def onPage (va len : ℕ) : ℕ := min (PGSIZE - va % PGSIZE) len

def copyinLoop (mem : UserMem) : ℕ → ℕ → ℕ → List Byte × Bool
  | 0, _, _ => ([], true)
  | rounds + 1, srcva, len =>
    if 0 < len then
      match mem.walkaddr srcva with
      | none => ([], false)
      | some page =>
        let n := onPage srcva len
        let r := copyinLoop mem rounds (srcva - srcva % PGSIZE + PGSIZE) (len - n)
        ((List.range n).map (fun i => page.bytes (srcva % PGSIZE + i)) ++ r.1, r.2)
    else ([], true)

/-- `copyin`: the bytes that it has moved to the destination, and whether it succeeds.  Every round
moves a byte at least, so `len` rounds are enough. -/
def copyin (mem : UserMem) (srcva len : ℕ) : List Byte × Bool := copyinLoop mem len srcva len

def UserMem.byte (mem : UserMem) (va : ℕ) : Byte :=
  match mem.walkaddr va with
  | some page => page.bytes (va % PGSIZE)
  | none => 0

def userBytes (mem : UserMem) (va len : ℕ) : List Byte := (List.range len).map fun j => mem.byte (va + j)

def UserMem.store (mem : UserMem) (va : ℕ) (page : Page) (bytes : List Byte) : UserMem := fun i =>
  if i = va / PGSIZE then
    some { page with
      bytes := fun j => if va % PGSIZE ≤ j then bytes.getD (j - va % PGSIZE) (page.bytes j)
        else page.bytes j }
  else mem i

def copyoutLoop : ℕ → UserMem → ℕ → List Byte → UserMem × Bool
  | 0, mem, _, _ => (mem, true)
  | rounds + 1, mem, dstva, src =>
    if src = [] then (mem, true)
    else
      match mem.walkaddr dstva with
      | none => (mem, false)
      | some page =>
        if page.writable then
          let n := onPage dstva src.length
          copyoutLoop rounds (mem.store dstva page (src.take n)) (dstva - dstva % PGSIZE + PGSIZE)
            (src.drop n)
        else (mem, false)

/-- `copyout`: the memory afterwards, and whether it succeeds. -/
def copyout (mem : UserMem) (dstva : ℕ) (src : List Byte) : UserMem × Bool :=
  copyoutLoop src.length mem dstva src

variable {mem : UserMem} {va len : ℕ} {rounds : ℕ}

theorem copyin_eq_nil (h : mem.walkaddr va = none) : (copyin mem va len).1 = [] := by
  unfold copyin
  cases len with
  | zero => rfl
  | succ len =>
    unfold copyinLoop
    rw [if_pos (Nat.succ_pos len), h]

theorem copyinLoop_ok (h : ∀ i < len, mem.walkaddr (va + i) ≠ none) : (copyinLoop mem rounds va len).2 = true := by
  induction rounds generalizing va len with
  | zero => rfl
  | succ rounds ih =>
    unfold copyinLoop
    by_cases hl : 0 < len
    · rw [if_pos hl]
      cases hw : mem.walkaddr va with
      | none => exact (h 0 hl hw).elim
      | some page =>
        have hm := Nat.mod_lt va (show 0 < PGSIZE by decide)
        refine ih fun i hi => ?_
        -- the next page begins at `va + onPage va len`, unless nothing is left
        have hn : va - va % PGSIZE + PGSIZE + i = va + (onPage va len + i) := by
          have := Nat.mod_le va PGSIZE
          unfold onPage at hi ⊢; omega
        rw [hn]; exact h _ (by omega)
    · rw [if_neg hl]

theorem copyin_ok (h : ∀ i < len, mem.walkaddr (va + i) ≠ none) : (copyin mem va len).2 = true :=
  copyinLoop_ok h

theorem length_userBytes : (userBytes mem va len).length = len := by
  rw [userBytes, length_map, length_range]

theorem userBytes_add {a b : ℕ} : userBytes mem va (a + b) = userBytes mem va a ++ userBytes mem (va + a) b := by
  unfold userBytes
  rw [range_add, map_append, map_map]
  congr 1
  refine map_congr_left fun j _ => ?_
  rw [Function.comp_apply, Nat.add_assoc]

theorem userBytes_onPage {page : Page} (hw : mem.walkaddr va = some page) :
    (List.range (onPage va len)).map (fun i => page.bytes (va % PGSIZE + i)) =
      userBytes mem va (onPage va len) := by
  refine map_congr_left fun i hi => ?_
  have hi := mem_range.mp hi
  unfold onPage PGSIZE at hi
  have hdiv : (va + i) / PGSIZE = va / PGSIZE := by unfold PGSIZE; omega
  have hmod : (va + i) % PGSIZE = va % PGSIZE + i := by unfold PGSIZE; omega
  unfold UserMem.walkaddr at hw
  unfold UserMem.byte UserMem.walkaddr
  rw [hdiv, hw, hmod]

theorem copyinLoop_bytes (hr : len ≤ rounds) (h : (copyinLoop mem rounds va len).2 = true) :
    (copyinLoop mem rounds va len).1 = userBytes mem va len := by
  induction rounds generalizing va len with
  | zero =>
    obtain rfl : len = 0 := by omega
    rfl
  | succ rounds ih =>
    unfold copyinLoop at h ⊢
    by_cases hl : 0 < len
    · rw [if_pos hl] at h ⊢
      cases hw : mem.walkaddr va with
      | none => rw [hw] at h; cases h
      | some page =>
        rw [hw] at h
        have hpage : 1 ≤ onPage va len ∧ onPage va len ≤ len := by unfold onPage PGSIZE; omega
        have hrest := ih (by omega) h
        -- the next page begins at `va + onPage va len`, unless nothing is left
        have hnext : userBytes mem (va - va % PGSIZE + PGSIZE) (len - onPage va len) =
            userBytes mem (va + onPage va len) (len - onPage va len) := by
          by_cases h0 : len - onPage va len = 0
          · rw [h0]; rfl
          · have : va - va % PGSIZE + PGSIZE = va + onPage va len := by
              unfold onPage PGSIZE at h0 ⊢; omega
            rw [this]
        show _ ++ (copyinLoop mem rounds _ _).1 = _
        rw [hrest, hnext, userBytes_onPage hw, ← userBytes_add, Nat.add_sub_cancel' hpage.2]
    · obtain rfl : len = 0 := by omega
      rfl

theorem copyin_bytes (h : (copyin mem va len).2 = true) : (copyin mem va len).1 = userBytes mem va len :=
  copyinLoop_bytes le_rfl h

end Xv6.Vm.Copy
