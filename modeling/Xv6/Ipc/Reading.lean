import Xv6.Ipc.Pipe

/-!
# What a read of a pipe delivers

`piperead` with the memory of the caller.  It takes a byte out of the ring and then copies it: if the copy fails, the
byte is gone.
-/

namespace Xv6.Ipc.Reading

open Lib.Counters Vm.Copy Ipc.Pipe Nat

variable {P : Type} [DecidableEq P]

/-- The second loop of `piperead` from `i` on, with a bound on its rounds: `i` at its end, the pipe and the memory. -/
def copyLoop (p : P) (addr : ℕ) (n : ℤ) : ℕ → ℕ → State P → UserMem → ℕ × State P × UserMem
  | 0, i, s, mem => (i, s, mem)
  | rounds + 1, i, s, mem =>
    if i < n ∧ s.ring.head ≠ s.ring.tail then
      let r := copyout mem (addr + i) [s.ring.front PIPESIZE]
      if r.2 then copyLoop p addr n rounds (i + 1) (readLoop s p n i true) r.1
      else (i, readLoop s p n i false, r.1)
    else (i, readLoop s p n i true, mem)

/-- `piperead` when it has the lock, up to its end or to `sleep` (`none`). -/
def piperead (p : P) (addr : ℕ) (n : ℤ) (s : State P) (mem : UserMem) : Option ℤ × State P × UserMem :=
  if s.ring.head = s.ring.tail ∧ s.writeopen = true then
    (if (s.thread p).killed then some (-1) else none, readTop s p n, mem)
  else
    let r := copyLoop p addr n (n.toNat + 1) 0 (readTop s p n) mem
    (some r.1, r.2)

def Writable (mem : UserMem) (va : ℕ) : Prop := ∃ page, mem.walkaddr va = some page ∧ page.writable = true

variable {p : P} {addr i rounds va : ℕ} {n : ℤ} {s : State P} {mem : UserMem} {b : Byte} {page : Page}

theorem copyout_byte (mem : UserMem) (va : ℕ) (b : Byte) : (¬ Writable mem va ∧ copyout mem va [b] = (mem, false)) ∨
      ∃ page, mem.walkaddr va = some page ∧ page.writable = true ∧ copyout mem va [b] = (mem.store va page [b], true) := by
  unfold copyout
  rw [List.length_singleton, copyoutLoop]
  cases hw : mem.walkaddr va with
  | none =>
    refine .inl ⟨?_, rfl⟩
    rintro ⟨page, hpage, -⟩
    rw [hw] at hpage; cases hpage
  | some page =>
    cases hp : page.writable with
    | false =>
      refine .inl ⟨?_, by simp [hp]⟩
      rintro ⟨page', hpage, hp'⟩
      rw [hw] at hpage
      cases hpage
      rw [hp] at hp'; cases hp'
    | true =>
      have hone : onPage va [b].length = 1 := by
        have := mod_lt va (show 0 < PGSIZE by decide)
        unfold onPage
        rw [List.length_singleton]; omega
      refine .inr ⟨page, rfl, hp, ?_⟩
      dsimp only
      rw [if_pos hp, hone]; rfl

theorem walkaddr_store (mem : UserMem) (va : ℕ) (page : Page) (b : Byte) (va' : ℕ) :
    (mem.store va page [b]).walkaddr va' = if va' / PGSIZE = va / PGSIZE then
      some { page with bytes := fun j => if j = va % PGSIZE then b else page.bytes j } else mem.walkaddr va' := by
  unfold UserMem.walkaddr UserMem.store
  split_ifs
  · congr
    funext j; grind
  · rfl

theorem byte_store (hw : mem.walkaddr va = some page) (va' : ℕ) :
    (mem.store va page [b]).byte va' = if va' = va then b else mem.byte va' := by
  unfold UserMem.byte
  rw [walkaddr_store]
  have hdm := div_add_mod va PGSIZE
  have hdm' := div_add_mod va' PGSIZE
  split_ifs with hq he
  · subst he; simp
  · have hmod : va' % PGSIZE ≠ va % PGSIZE := fun h => he (by rw [← hdm, ← hdm', hq, h])
    have hw' : mem.walkaddr va' = some page := by unfold UserMem.walkaddr at hw ⊢; rw [hq, hw]
    simp [hmod, hw']
  · rename_i he; exact absurd (by rw [he]) hq
  · rfl

theorem writable_store (hw : mem.walkaddr va = some page) (va' : ℕ) :
    Writable (mem.store va page [b]) va' ↔ Writable mem va' := by
  unfold Writable
  rw [walkaddr_store]
  split_ifs with hq
  · have hw' : mem.walkaddr va' = some page := by unfold UserMem.walkaddr at hw ⊢; rw [hq, hw]
    simp [hw']
  · rfl

theorem ring_readLoop (ok : Bool) (h : i < n ∧ s.ring.head ≠ s.ring.tail) :
    (readLoop s p n i ok).ring = s.ring.pop := by
  unfold readLoop
  rw [if_pos h]

/-- What the loop has done from `i` on: `m` bytes are delivered, and `lost` is gone too. -/
structure Delivered (addr : ℕ) (n : ℤ) (i m : ℕ) (lost : List Byte) (s s' : State P) (mem mem' : UserMem) : Prop where
  ring : s.ring.contents PIPESIZE = userBytes mem' (addr + i) m ++ (lost ++ s'.ring.contents PIPESIZE)
  others : ∀ va, va < addr + i ∨ addr + i + m ≤ va → mem'.byte va = mem.byte va
  lost : (lost = [] ∧ ∀ j < min (n.toNat - i) s.ring.count, Writable mem (addr + i + j)) ∨
    lost.length = 1 ∧ m < min (n.toNat - i) s.ring.count ∧ ¬ Writable mem (addr + i + m)

theorem copyLoop_delivered (p : P) (addr : ℕ) (s : State P) (mem : UserMem) (hr : n.toNat ≤ i + rounds) : ∃ m lost,
    (copyLoop p addr n rounds i s mem).1 = i + m ∧
      Delivered addr n i m lost s (copyLoop p addr n rounds i s mem).2.1 mem (copyLoop p addr n rounds i s mem).2.2 := by
  have hdvd : PIPESIZE ∣ 2 ^ 32 := by decide
  induction rounds generalizing i s mem with
  | zero => exact ⟨0, [], rfl, rfl, fun _ _ => rfl, .inl ⟨rfl, fun j hj => by omega⟩⟩
  | succ rounds ih =>
    unfold copyLoop
    split_ifs with hcond
    · have hpos : 0 < s.ring.count := pos_of_ne_zero fun h0 => hcond.2 (count_eq_zero.mp h0)
      have hcont := contents_pop hdvd hpos
      rcases copyout_byte mem (addr + i) (s.ring.front PIPESIZE) with ⟨hno, he⟩ | ⟨page, hw, hp, he⟩
      · rw [he, if_neg Bool.false_ne_true]
        refine ⟨0, [s.ring.front PIPESIZE], rfl, ?_, fun _ _ => rfl, .inr ⟨rfl, by omega, hno⟩⟩
        rw [ring_readLoop false hcond, hcont]; rfl
      · rw [he, if_pos rfl]
        obtain ⟨m, lost, hm, hring, hothers, hlost⟩ := ih (i := i + 1) (readLoop s p n i true)
          (mem.store (addr + i) page [s.ring.front PIPESIZE]) (by omega)
        generalize copyLoop p addr n rounds (i + 1) _ _ = x at hm hring hothers ⊢
        have hcount : (readLoop s p n i true).ring.count = s.ring.count - 1 := by
          rw [ring_readLoop true hcond, count_pop hpos]
        have hfirst := hothers (addr + i) (.inl (by omega))
        rw [byte_store hw, if_pos rfl] at hfirst
        have hone : userBytes x.2.2 (addr + i) 1 = [s.ring.front PIPESIZE] := congrArg (fun b => [b]) hfirst
        refine ⟨m + 1, lost, by omega, ?_, fun va hva => ?_, ?_⟩
        · rw [ring_readLoop true hcond] at hring
          rw [hcont, hring, add_comm m 1, userBytes_add, hone]; rfl
        · rw [hothers va (by omega), byte_store hw, if_neg (by omega)]
        · simp only [writable_store hw] at hlost
          refine hlost.imp (fun ⟨h1, h2⟩ => ⟨h1, fun j hj => ?_⟩) fun ⟨h1, h2, h3⟩ => ⟨h1, by omega, ?_⟩
          · cases j with
            | zero => exact ⟨page, hw, hp⟩
            | succ j =>
              have := h2 j (by omega)
              rwa [show addr + i + (j + 1) = addr + (i + 1) + j by omega]
          · rwa [show addr + i + (m + 1) = addr + (i + 1) + m by omega]
    · have hring : (readLoop s p n i true).ring = s.ring := by
        unfold readLoop
        rw [if_neg hcond]; rfl
      refine ⟨0, [], rfl, ?_, fun _ _ => rfl, .inl ⟨rfl, fun j hj => absurd ⟨by omega, ?_⟩ hcond⟩⟩
      · rw [hring]; rfl
      · intro h0; rw [count_eq_zero.mpr h0] at hj; omega

/-- **A read of a pipe** that returns -1 has removed nothing.  One that returns `k` has changed the memory at `addr`
up to `addr + k` only, and the bytes there are those removed from the ring if, and only if, every byte that was to
be read could be stored. -/
theorem piperead_delivers_iff (p : P) (addr : ℕ) (n : ℤ) (s s' : State P) (mem mem' : UserMem) (r : ℤ)
    (h : piperead p addr n s mem = (some r, s', mem')) :
    (r = -1 ∧ s'.ring = s.ring ∧ mem' = mem) ∨ ∃ k : ℕ, r = k ∧
      (∀ va, va < addr ∨ addr + k ≤ va → mem'.byte va = mem.byte va) ∧
      (s.ring.contents PIPESIZE = userBytes mem' addr k ++ s'.ring.contents PIPESIZE ↔
        ∀ j < min n.toNat s.ring.count, Writable mem (addr + j)) := by
  have hring : (readTop s p n).ring = s.ring := by
    unfold readTop
    split_ifs <;> rfl
  unfold piperead at h
  split_ifs at h with hempty hkilled
  · obtain ⟨hr, hrest⟩ := Prod.mk.inj h
    cases hrest; exact .inl ⟨(Option.some.inj hr).symm, hring, rfl⟩
  · cases h
  · obtain ⟨m, lost, hm, hd⟩ := copyLoop_delivered p addr (readTop s p n) mem
      (show n.toNat ≤ 0 + (n.toNat + 1) by omega)
    obtain ⟨hr, hrest⟩ := Prod.mk.inj h
    rw [hrest] at hd
    refine .inr ⟨m, ?_, hd.others, ?_⟩
    · rw [← Option.some.inj hr, hm, zero_add]
    have hcont := hd.ring
    have hlost := hd.lost
    rw [hring] at hcont hlost
    rcases hlost with ⟨rfl, hall⟩ | ⟨hlen, hlt, hno⟩
    · exact ⟨fun _ => hall, fun _ => hcont⟩
    · constructor
      · intro he
        have := congrArg List.length (hcont.symm.trans he); simp [hlen] at this
      · intro hall; exact absurd (hall m hlt) hno

/-- A pipe with a byte in it. -/
def oneByte : State Bool := { newPipe with ring := newPipe.ring.push PIPESIZE 7 }

theorem piperead_delivers_iff_one : ∃ s' mem', piperead true 0 1 oneByte (fun _ => some ⟨true, fun _ => 0⟩) =
    (some 1, s', mem') ∧ oneByte.ring.contents PIPESIZE = userBytes mem' 0 1 ++ s'.ring.contents PIPESIZE := by
  have h : piperead true 0 1 oneByte (fun _ => some ⟨true, fun _ => 0⟩) =
      (some 1, (piperead true 0 1 oneByte (fun _ => some ⟨true, fun _ => 0⟩)).2) := Prod.ext (by decide) rfl
  refine ⟨_, _, h, ?_⟩
  obtain ⟨hr, -⟩ | ⟨k, hk, -, hiff⟩ := piperead_delivers_iff _ _ _ _ _ _ _ _ h
  · cases hr
  · obtain rfl : k = 1 := by exact_mod_cast hk.symm
    exact hiff.mpr fun _ _ => ⟨_, rfl, rfl⟩

/-- To an address that is not mapped, the byte is removed and 0 is returned. -/
theorem piperead_loses_byte : (piperead true 0 1 oneByte fun _ => none).1 = some 0 ∧
    oneByte.ring.contents PIPESIZE = [7] ∧
    (piperead true 0 1 oneByte fun _ => none).2.1.ring.contents PIPESIZE = [] := by
  decide

end Xv6.Ipc.Reading
