import Mathlib.Tactic.Common
import Xv6.Vm.Copy

/-!
# memmove

`memmove` of the kernel, `kernel/string.c`, and of the user library, `user/ulib.c`.  Both copy upwards or downwards
so that no byte is overwritten before it is read; they choose the direction by different tests, and the library's
length is an `int`.
-/

namespace Xv6.User.Memmove

open Function Vm.Copy

abbrev Addr := BitVec 64

abbrev Mem := Addr → Byte

/-- `while(n-- > 0) *d++ = *s++`. -/
def copyUp : ℕ → Addr → Addr → Mem → Mem
  | 0, _, _, m => m
  | n + 1, d, s, m => copyUp n (d + 1) (s + 1) (update m d (m s))

/-- `while(n-- > 0) *--d = *--s`. -/
def copyDown : ℕ → Addr → Addr → Mem → Mem
  | 0, _, _, m => m
  | n + 1, d, s, m => copyDown n (d - 1) (s - 1) (update m (d - 1) (m (s - 1)))

/-- `memmove` of the kernel: the memory it leaves, and what it returns. -/
def kmemmove (m : Mem) (dst src : Addr) (n : BitVec 32) : Mem × Addr :=
  if n = 0 then (m, dst)
  else if src < dst ∧ dst < src + n.zeroExtend 64 then
    (copyDown n.toNat (dst + n.zeroExtend 64) (src + n.zeroExtend 64) m, dst)
  else (copyUp n.toNat dst src m, dst)

/-- `memmove` of the library; a negative `n` is no round of a loop. -/
def umemmove (m : Mem) (vdst vsrc : Addr) (n : BitVec 32) : Mem × Addr :=
  if vdst < vsrc then (copyUp n.toInt.toNat vdst vsrc m, vdst)
  else (copyDown n.toInt.toNat (vdst + n.signExtend 64) (vsrc + n.signExtend 64) m, vdst)

/-- `r` is `m` with the `n` bytes at `src` also at `dst`. -/
structure Moved (m : Mem) (dst src : Addr) (n : ℕ) (r : Mem) : Prop where
  copied : ∀ i < n, r (dst + .ofNat 64 i) = m (src + .ofNat 64 i)
  frame : ∀ a, (∀ i < n, a ≠ dst + .ofNat 64 i) → r a = m a

variable {m : Mem} {d s : Addr} {n : ℕ}

theorem Moved.unique {r r' : Mem} (h : Moved m d s n r) (h' : Moved m d s n r') : r = r' := by
  funext a
  by_cases ha : ∀ i < n, a ≠ d + .ofNat 64 i
  · rw [h.frame a ha, h'.frame a ha]
  · push Not at ha
    obtain ⟨i, hi, rfl⟩ := ha
    rw [h.copied i hi, h'.copied i hi]

theorem add_succ (a : Addr) (i : ℕ) : a + .ofNat 64 (i + 1) = a + 1 + .ofNat 64 i := by
  bv_omega

/-- Upwards, the bytes that are written must not be read later. -/
theorem moved_copyUp (hn : n ≤ 2 ^ 64) (hr : ∀ i j, i < j → j < n → d + .ofNat 64 i ≠ s + .ofNat 64 j) :
    Moved m d s n (copyUp n d s m) := by
  induction n generalizing d s m with
  | zero => exact ⟨fun i hi => absurd hi (by omega), fun _ _ => rfl⟩
  | succ n ih =>
    have hm : Moved (update m d (m s)) (d + 1) (s + 1) n (copyUp (n + 1) d s m) := by
      refine ih (by omega) fun i j hij hj => ?_
      rw [← add_succ, ← add_succ]; exact hr _ _ (by omega) (by omega)
    constructor
    · intro i hi
      cases i with
      | zero =>
        have hd : ∀ i < n, d ≠ d + 1 + .ofNat 64 i := by intro i hi; bv_omega
        simpa using hm.frame d hd
      | succ i =>
        rw [add_succ, hm.copied i (by omega), ← add_succ, update_of_ne]
        simpa using (hr 0 (i + 1) (by omega) hi).symm
    · intro a ha
      have h0 : a ≠ d := by simpa using ha 0 (by omega)
      rw [hm.frame a fun i hi => ?_, update_of_ne h0]
      rw [← add_succ]; exact ha _ (by omega)

/-- The same downwards, where the pointers are past the ends. -/
theorem moved_copyDown (hn : n ≤ 2 ^ 64) (hr : ∀ i j, i < j → j < n → s + .ofNat 64 i ≠ d + .ofNat 64 j) :
    Moved m d s n (copyDown n (d + .ofNat 64 n) (s + .ofNat 64 n) m) := by
  induction n generalizing m with
  | zero => exact ⟨fun i hi => absurd hi (by omega), fun _ _ => rfl⟩
  | succ n ih =>
    have hsub : ∀ a : Addr, a + .ofNat 64 (n + 1) - 1 = a + .ofNat 64 n := by intro a; bv_omega
    rw [copyDown, hsub, hsub]
    have hm := ih (m := update m (d + .ofNat 64 n) (m (s + .ofNat 64 n))) (by omega)
      fun i j hij hj => hr i j hij (by omega)
    constructor
    · intro i hi
      rcases Nat.lt_succ_iff_lt_or_eq.mp hi with hi | rfl
      · rw [hm.copied i hi, update_of_ne (hr i n hi (by omega))]
      · have hd : ∀ j < i, d + .ofNat 64 i ≠ d + .ofNat 64 j := by intro j hj; bv_omega
        rw [hm.frame _ hd, update_self]
    · intro a ha
      rw [hm.frame a fun i hi => ha i (by omega), update_of_ne (ha n (by omega))]

theorem moved_kmemmove {n : BitVec 32} (hs : s.toNat + n.toNat ≤ 2 ^ 64) (hd : d.toNat + n.toNat ≤ 2 ^ 64) :
    Moved m d s n.toNat (kmemmove m d s n).1 := by
  have hn : n.zeroExtend 64 = .ofNat 64 n.toNat := by bv_omega
  unfold kmemmove
  split_ifs with h0 h
  · subst h0; exact ⟨fun i hi => absurd hi (by simp), fun _ _ => rfl⟩
  · rw [hn]
    refine moved_copyDown (by omega) fun i j hij hj => ?_
    bv_omega
  · refine moved_copyUp (by omega) fun i j hij hj => ?_
    rw [hn] at h; bv_omega

theorem moved_umemmove {n : BitVec 32} (hs : s.toNat + n.toInt.toNat ≤ 2 ^ 64)
    (hd : d.toNat + n.toInt.toNat ≤ 2 ^ 64) : Moved m d s n.toInt.toNat (umemmove m d s n).1 := by
  unfold umemmove
  split_ifs with h
  · refine moved_copyUp (by omega) fun i j hij hj => ?_
    bv_omega
  · by_cases hn : 0 ≤ n.toInt
    · have he : n.signExtend 64 = .ofNat 64 n.toInt.toNat := by
        rw [← BitVec.ofInt_natCast, Int.toNat_of_nonneg hn]; rfl
      rw [he]
      refine moved_copyDown (by omega) fun i j hij hj => ?_
      bv_omega
    · rw [Int.toNat_of_nonpos (by omega)]
      exact ⟨fun i hi => absurd hi (by omega), fun _ _ => rfl⟩

/-- **Both are right for every overlap**, and so they agree. -/
theorem memmove_moves (m : Mem) (dst src : Addr) (n : BitVec 32) :
    (src.toNat + n.toNat ≤ 2 ^ 64 → dst.toNat + n.toNat ≤ 2 ^ 64 →
      Moved m dst src n.toNat (kmemmove m dst src n).1) ∧
    (src.toNat + n.toInt.toNat ≤ 2 ^ 64 → dst.toNat + n.toInt.toNat ≤ 2 ^ 64 →
      Moved m dst src n.toInt.toNat (umemmove m dst src n).1) ∧
    (0 ≤ n.toInt → src.toNat + n.toNat ≤ 2 ^ 64 → dst.toNat + n.toNat ≤ 2 ^ 64 →
      umemmove m dst src n = kmemmove m dst src n) := by
  refine ⟨moved_kmemmove, moved_umemmove, fun hn hs hd => ?_⟩
  have hnat : n.toInt.toNat = n.toNat := by
    rw [BitVec.toInt_eq_toNat_of_lt (by rw [BitVec.toInt_eq_toNat_cond] at hn; omega), Int.toNat_natCast]
  have hu := moved_umemmove (m := m) (hnat ▸ hs) (hnat ▸ hd)
  rw [hnat] at hu
  refine Prod.ext (hu.unique (moved_kmemmove hs hd)) ?_
  unfold umemmove kmemmove
  split_ifs <;> rfl

theorem memmove_moves_overlap : let m : Mem := fun a => a.setWidth 8
    Moved m 2 1 3 (kmemmove m 2 1 3).1 ∧ Moved m 2 1 3 (umemmove m 2 1 3).1 ∧
      umemmove m 2 1 3 = kmemmove m 2 1 3 := by
  intro m
  obtain ⟨hk, hu, he⟩ := memmove_moves m 2 1 3
  exact ⟨hk (by decide) (by decide), hu (by decide) (by decide), he (by decide) (by decide) (by decide)⟩

end Xv6.User.Memmove
