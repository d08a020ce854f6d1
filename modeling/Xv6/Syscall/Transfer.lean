import Xv6.Syscall.Exec

/-!
# Copies between the kernel and a process

`copyout`, `copyin` and `copyinstr` of `vm.c` through a page table, on the contents of the physical pages.  The
addresses and lengths are those of the user.  The pages of the page table are not pages of the user, so a copy
does not change it, and a kernel buffer is not on a page of the user.  On the memory of the process (`userMem`)
`copyout` is that of `Vm.Copy` (`wp_copyout_userMem`).
-/

namespace Xv6.Syscall.Transfer

open Lib.Stateful Vm.Copy Vm.Pages List Nat
open Syscall.Exec hiding Page copyout copyoutLoop

variable {P : Type} {pt : PageTable} {flags : BitVec 10} {s s' : State P} {d i rounds : ℕ} {src : List Byte}
  {E : Exec.Panic → Prop} {pa : Pa}

/-! ## `copyout` -/

def UW : BitVec 10 := PTE_U ||| PTE_W

/-- The byte `i` from `d` on and all before it are on pages with the flags. -/
def Reached (pt : PageTable) (flags : BitVec 10) (d i : ℕ) : Prop :=
  ∀ j ≤ i, (entryWith pt flags ((d + j) / PGSIZE)).isSome = true

def Distinct (pt : PageTable) : Prop :=
  ∀ u v pa, entryWith pt PTE_U u = some pa → entryWith pt PTE_U v = some pa → u = v

/-- What `copyout` has done: it has copied the bytes up to the first page that it may not write. -/
structure CopiedOut (pt : PageTable) (d : ℕ) (src : List Byte) (s : State P) (ok : Bool) (s' : State P) :
    Prop where
  ret : ok = true ↔ ∀ i < src.length, (entryWith pt UW ((d + i) / PGSIZE)).isSome = true
  data : ∀ i b pa, src[i]? = some b → Reached pt UW d i → entryWith pt UW ((d + i) / PGSIZE) = some pa →
    s'.ram pa ((d + i) % PGSIZE) = b
  rest : ∀ pa off, (∀ i < src.length, Reached pt UW d i → entryWith pt UW ((d + i) / PGSIZE) = some pa →
    (d + i) % PGSIZE ≠ off) → s'.ram pa off = s.ram pa off
  other : s' = { s with ram := s'.ram }

theorem entry_user {v : ℕ} (h : entryWith pt UW v = some pa) : entryWith pt PTE_U v = some pa := by
  unfold entryWith at h ⊢
  split_ifs at h ⊢
  cases hpte : pt.leaf.get v with
  | none => simp [hpte] at h
  | some pte =>
    simp only [hpte] at h ⊢
    split_ifs at h with h1
    have hu := congrArg (· &&& PTE_U) h1
    have hUW : UW &&& PTE_U = PTE_U := by decide
    rw [BitVec.and_assoc, hUW] at hu
    rw [if_pos hu]; exact h

section
variable {n : ℕ} (hn : min (PGSIZE - d % PGSIZE) src.length = n)
include hn

theorem low_byte (hi : i < n) : (d + i) / PGSIZE = d / PGSIZE ∧ (d + i) % PGSIZE = d % PGSIZE + i := by
  unfold PGSIZE at hn ⊢; omega

theorem next_byte (hi : n + i < src.length) : (d / PGSIZE + 1) * PGSIZE + i = d + (n + i) := by
  unfold PGSIZE at hn ⊢; omega

variable (he : entryWith pt UW (d / PGSIZE) = some pa)
include he

theorem low_page (hi : i < n) : entryWith pt UW ((d + i) / PGSIZE) = some pa := by
  rw [(low_byte hn hi).1, he]

theorem reached_next (hi : n + i < src.length) :
    Reached pt UW d (n + i) ↔ Reached pt UW ((d / PGSIZE + 1) * PGSIZE) i := by
  refine ⟨fun h j hj => ?_, fun h j hj => ?_⟩
  · rw [next_byte hn (by omega)]; exact h (n + j) (by omega)
  · by_cases hjn : j < n
    · rw [low_page hn he hjn]; rfl
    · obtain ⟨j, rfl⟩ := Nat.exists_eq_add_of_le (not_lt.mp hjn)
      rw [← next_byte hn (by omega)]; exact h j (by omega)

/-- The first `n` bytes go to this page, the others are those of the next rounds. -/
theorem CopiedOut.round (hd : Distinct pt) {ok : Bool} {s1 : State P} (h1 : s1 = { s with ram := s1.ram })
    (hat : ∀ off, s1.ram pa off = if d % PGSIZE ≤ off then (src.take n).getD (off - d % PGSIZE) (s.ram pa off)
      else s.ram pa off) (hne : ∀ pa', pa' ≠ pa → s1.ram pa' = s.ram pa')
    (h : CopiedOut pt ((d / PGSIZE + 1) * PGSIZE) (src.drop n) s1 ok s') : CopiedOut pt d src s ok s' := by
  have hlen : (src.drop n).length = src.length - n := length_drop
  have hother : ∀ i, entryWith pt UW (((d / PGSIZE + 1) * PGSIZE + i) / PGSIZE) ≠ some pa := by
    intro i hi
    have := hd _ _ pa (entry_user hi) (entry_user he)
    unfold PGSIZE at this; omega
  refine ⟨h.ret.trans ⟨fun h i hi => ?_, fun h i hi => ?_⟩, fun i b pa' hb hre hpa => ?_, fun pa' off hoff => ?_,
    h.other.trans (by rw [h1])⟩
  · by_cases hin : i < n
    · rw [low_page hn he hin]; rfl
    · obtain ⟨i, rfl⟩ := Nat.exists_eq_add_of_le (not_lt.mp hin)
      rw [← next_byte hn hi]; exact h i (by omega)
  · rw [next_byte hn (by omega)]; exact h (n + i) (by omega)
  · have hi := (List.getElem?_eq_some_iff.mp hb).1
    by_cases hin : i < n
    · obtain rfl := Option.some.inj ((low_page hn he hin).symm.trans hpa)
      rw [h.rest pa _ fun j _ _ hj => absurd hj (hother j), (low_byte hn hin).2, hat]
      simp [hin, hb]
    · obtain ⟨i, rfl⟩ := Nat.exists_eq_add_of_le (not_lt.mp hin)
      rw [← next_byte hn hi] at hpa ⊢
      exact h.data i b pa' (by rw [List.getElem?_drop, hb]) ((reached_next hn he hi).mp hre) hpa
  · rw [h.rest pa' off fun j hj hre hpa => ?_]
    · by_cases hpa : pa' = pa
      · subst hpa
        rw [hat]
        by_cases hle : d % PGSIZE ≤ off
        · have hnot : ¬ off - d % PGSIZE < n := fun hin => by
            refine hoff _ (by omega) (fun j hj => ?_) (low_page hn he hin) ?_
            · rw [low_page hn he (by omega)]; rfl
            · rw [(low_byte hn hin).2]; omega
          simp [hnot]
        · simp [hle]
      · rw [hne pa' hpa]
    · have hj : n + j < src.length := by omega
      rw [next_byte hn hj] at hpa ⊢; exact hoff (n + j) hj ((reached_next hn he hj).mpr hre) hpa

end

theorem wp_copyout (hd : Distinct pt) (hr : src.length ≤ rounds) :
    wp E (Exec.copyoutLoop pt rounds d src) (CopiedOut pt d src s) s := by
  induction rounds generalizing s d src with
  | zero =>
    obtain rfl := length_eq_zero_iff.mp (Nat.le_zero.mp hr)
    exact ⟨by simp, by simp, fun _ _ _ => rfl, rfl⟩
  | succ rounds ih =>
    unfold Exec.copyoutLoop
    split_ifs with hs
    · cases he : entryWith pt (PTE_U ||| PTE_W) (d / PGSIZE) with
      | none =>
        have hno : ∀ i, ¬ Reached pt UW d i := fun i h => by simpa [UW, he] using h 0 (Nat.zero_le i)
        refine ⟨⟨fun h => absurd h Bool.false_ne_true, fun h => ?_⟩, fun i _ _ _ h => absurd h (hno i),
          fun _ _ _ => rfl, rfl⟩
        simpa [UW, he] using h 0 hs
      | some pa =>
        generalize hn : min (PGSIZE - d % PGSIZE) src.length = n
        have hpos : 0 < n := by unfold PGSIZE at hn; omega
        refine .bind (wp_modify.mpr (wp_mono (ih (by rw [length_drop]; omega)) fun ok s2 h2 => ?_))
        exact h2.round hn he hd rfl (fun off => by simp) fun pa' hpa => Function.update_of_ne hpa _ _
    · obtain rfl := length_eq_zero_iff.mp (Nat.le_zero.mp (not_lt.mp hs))
      exact ⟨by simp, by simp, fun _ _ _ => rfl, rfl⟩

theorem wp_copyout_frame (h : ∀ v, entryWith pt UW v ≠ some pa) :
    wp E (Exec.copyoutLoop pt rounds d src) (fun _ s' => s'.ram pa = s.ram pa) s := by
  induction rounds generalizing s d src with
  | zero => exact rfl
  | succ rounds ih =>
    unfold Exec.copyoutLoop
    split_ifs
    · split
      · exact rfl
      · next pa' he =>
        refine .bind (wp_modify.mpr (wp_mono ih fun _ _ h2 => h2.trans ?_))
        exact Function.update_of_ne (fun heq => h _ (heq ▸ he)) _ _
    · exact rfl

def userMem (pt : PageTable) (ram : Pa → Exec.Page) : UserMem := fun v =>
  (Exec.walkaddr pt v).map fun pa => ⟨(entryWith pt UW v).isSome, ram pa⟩

theorem userMem_store {v : ℕ} {bytes : List Byte} (hd : Distinct pt) (he : entryWith pt UW (v / PGSIZE) = some pa)
    (ram : Pa → Exec.Page) : (userMem pt ram).store v ⟨true, ram pa⟩ bytes =
      userMem pt (Function.update ram pa fun j =>
        if v % PGSIZE ≤ j then bytes.getD (j - v % PGSIZE) (ram pa j) else ram pa j) := by
  have hw : Exec.walkaddr pt (v / PGSIZE) = some pa := entry_user he
  funext u
  unfold UserMem.store userMem
  split_ifs with hu
  · rw [hu, hw, he]; simp
  · cases hwu : Exec.walkaddr pt u with
    | none => rfl
    | some pa' =>
      have hne : pa' ≠ pa := fun h => hu (hd _ _ pa (h ▸ hwu) hw)
      simp [hne]

/-- On the pages of the user, `copyout` through the page table is the `copyout` of `Vm.Copy`. -/
theorem wp_copyout_userMem (hd : Distinct pt) : wp E (Exec.copyoutLoop pt rounds d src)
    (fun ok s' => copyoutLoop rounds (userMem pt s.ram) d src = (userMem pt s'.ram, ok)) s := by
  induction rounds generalizing s d src with
  | zero => exact rfl
  | succ rounds ih =>
    unfold Exec.copyoutLoop copyoutLoop
    by_cases hs : src = []
    · rw [hs]; exact rfl
    rw [if_pos (length_pos_iff.mpr hs), if_neg hs]
    have hpage : (userMem pt s.ram).walkaddr d =
        (Exec.walkaddr pt (d / PGSIZE)).map fun pa => ⟨(entryWith pt UW (d / PGSIZE)).isSome, s.ram pa⟩ := rfl
    cases he : entryWith pt (PTE_U ||| PTE_W) (d / PGSIZE) with
    | none =>
      rw [hpage, show entryWith pt UW (d / PGSIZE) = none from he]
      cases Exec.walkaddr pt (d / PGSIZE) <;> exact rfl
    | some pa =>
      change entryWith pt UW (d / PGSIZE) = some pa at he
      have hw : Exec.walkaddr pt (d / PGSIZE) = some pa := entry_user he
      have hnext : d - d % PGSIZE + PGSIZE = (d / PGSIZE + 1) * PGSIZE := by unfold PGSIZE; omega
      rw [hpage, hw, he, Option.map_some]
      dsimp only [Option.isSome_some]
      rw [if_pos rfl, userMem_store hd he, hnext]
      exact .bind (wp_modify.mpr ih)

theorem CopiedOut.read {b : Byte} (h : CopiedOut pt d src s true s') (hb : src[i]? = some b) :
    (userMem pt s'.ram).walkaddr (d + i) ≠ none ∧ (userMem pt s'.ram).byte (d + i) = b := by
  have hi := (List.getElem?_eq_some_iff.mp hb).1
  have hall := h.ret.mp rfl
  obtain ⟨pa, hpa⟩ := Option.isSome_iff_exists.mp (hall i hi)
  have hw : Exec.walkaddr pt ((d + i) / PGSIZE) = some pa := entry_user hpa
  have hdata := h.data i b pa hb (fun j hj => hall j (by omega)) hpa
  simp [UserMem.byte, UserMem.walkaddr, userMem, hw, hdata]

/-- **`copyout` is exact and confined**: it succeeds exactly if every byte is on a page below `MAXVA` with
`PTE_V`, `PTE_U` and `PTE_W`; it stores the bytes up to the first page that is not so, and no others
(`CopiedOut`).  When it succeeds `copyin` reads the bytes back, and pages not mapped so are left. -/
theorem copyout_exact (hd : Distinct pt) (s : State P) (d : BitVec 64) (src : List Byte) :
    ∃ ok s', Exec.copyout pt d.toNat src s = .ok (ok, s') ∧ CopiedOut pt d.toNat src s ok s' ∧
      (ok = true → copyin (userMem pt s'.ram) d.toNat src.length = (src, true)) ∧
      ∀ pa, (∀ v, entryWith pt UW v ≠ some pa) → s'.ram pa = s.ram pa := by
  obtain ⟨ok, s', hrun, h⟩ := wp_returns (wp_copyout hd (le_refl src.length))
  refine ⟨ok, s', hrun, h, fun hok => ?_, fun pa hpa => funext fun off => ?_⟩
  · subst hok
    have hmap : (copyin (userMem pt s'.ram) d.toNat src.length).2 = true :=
      copyin_ok fun i hi => (h.read (List.getElem?_eq_getElem hi)).1
    refine Prod.ext ((copyin_bytes hmap).trans (ext_getElem length_userBytes fun i _ hi => ?_)) hmap
    rw [← (h.read (List.getElem?_eq_getElem hi)).2]; simp [userBytes]
  · exact h.rest pa off fun i _ _ he => absurd he (hpa _)

def onePage : PageTable :=
  ⟨1, .insert .empty 0 2, .insert .empty 0 3, .insert .empty 0 ⟨7, PTE_R ||| UW ||| PTE_V⟩⟩

theorem onePage_distinct : Distinct onePage := by
  have hzero : ∀ u pa, entryWith onePage PTE_U u = some pa → u = 0 := by
    intro u pa h
    by_contra hu
    have hget : onePage.leaf.get u = none := Lib.Tables.get_insert_ne hu
    simp [entryWith, hget] at h
  exact fun u v pa hu hv => (hzero u pa hu).trans (hzero v pa hv).symm

theorem copyout_exact_page : ∃ ok s', Exec.copyout onePage 5 [72, 105] (caller [] onePage []) = .ok (ok, s') ∧
    CopiedOut onePage 5 [72, 105] (caller [] onePage []) ok s' := by
  obtain ⟨ok, s', hrun, h, -⟩ := copyout_exact onePage_distinct (caller [] onePage []) 5 [72, 105]
  exact ⟨ok, s', hrun, h⟩

/-! ## `copyinstr` -/

/-- The inner loop of `copyinstr`: the bytes that it stores, and `got_null`. -/
def copyChars (page : Vm.Copy.Page) : ℕ → ℕ → List Byte × Bool
  | 0, _ => ([], false)
  | n + 1, off =>
    if page.bytes off = 0 then ([0], true)
    else (page.bytes off :: (copyChars page n (off + 1)).1, (copyChars page n (off + 1)).2)

def copyinstrLoop (mem : UserMem) : ℕ → ℕ → ℕ → List Byte × Bool
  | 0, _, _ => ([], false)
  | rounds + 1, srcva, max =>
    if 0 < max then
      match mem.walkaddr srcva with
      | none => ([], false)
      | some page =>
        let r := copyChars page (onPage srcva max) (srcva % PGSIZE)
        if r.2 then r
        else
          let r' := copyinstrLoop mem rounds (srcva - srcva % PGSIZE + PGSIZE) (max - onPage srcva max)
          (r.1 ++ r'.1, r'.2)
    else ([], false)

/-- `copyinstr`: the bytes stored at `dst`, and whether it returns 0. -/
def copyinstr (mem : UserMem) (srcva max : ℕ) : List Byte × Bool := copyinstrLoop mem max srcva max

def strlen (buf : List Byte) : ℕ := (buf.takeWhile (· ≠ 0)).length

/-- `fetchstr`; `none` is -1. -/
def fetchstr (mem : UserMem) (addr max : ℕ) : Option ℕ :=
  if (copyinstr mem addr max).2 then some (strlen (copyinstr mem addr max).1) else none

def scan (mem : UserMem) : ℕ → ℕ → List Byte × Bool
  | 0, _ => ([], false)
  | max + 1, a =>
    match mem.walkaddr a with
    | none => ([], false)
    | some page =>
      if page.bytes (a % PGSIZE) = 0 then ([0], true)
      else (page.bytes (a % PGSIZE) :: (scan mem max (a + 1)).1, (scan mem max (a + 1)).2)

variable {mem : UserMem} {max va n k : ℕ}

theorem scan_page {page : Vm.Copy.Page} (hw : mem.walkaddr va = some page) (hn : n ≤ PGSIZE - va % PGSIZE) :
    scan mem (n + max) va = if (copyChars page n (va % PGSIZE)).2 then copyChars page n (va % PGSIZE)
      else ((copyChars page n (va % PGSIZE)).1 ++ (scan mem max (va + n)).1, (scan mem max (va + n)).2) := by
  induction n generalizing va with
  | zero => simp [copyChars]
  | succ n ih =>
    rw [succ_add_eq_add_succ, add_succ, scan, hw]
    dsimp only
    rw [copyChars]
    by_cases h0 : page.bytes (va % PGSIZE) = 0
    · rw [if_pos h0, if_pos h0]; rfl
    · rw [if_neg h0, if_neg h0]
      cases n with
      | zero => rw [zero_add]; rfl
      | succ n =>
        have hdiv : (va + 1) / PGSIZE = va / PGSIZE ∧ (va + 1) % PGSIZE = va % PGSIZE + 1 := by
          unfold PGSIZE at hn ⊢; omega
        have hw' : mem.walkaddr (va + 1) = some page := by rwa [UserMem.walkaddr, hdiv.1]
        have hnext := ih hw' (by omega)
        rw [hdiv.2, add_right_comm va 1] at hnext
        rw [hnext]
        split_ifs <;> rfl

theorem copyinstrLoop_eq (hr : max ≤ rounds) : copyinstrLoop mem rounds va max = scan mem max va := by
  induction rounds generalizing va max with
  | zero => obtain rfl := Nat.le_zero.mp hr; rfl
  | succ rounds ih =>
    unfold copyinstrLoop
    split_ifs with hm
    · have hn : onPage va max ≤ PGSIZE - va % PGSIZE ∧ 0 < onPage va max ∧ onPage va max ≤ max := by
        unfold onPage PGSIZE; omega
      cases hw : mem.walkaddr va with
      | none =>
        obtain ⟨max, rfl⟩ := Nat.exists_eq_succ_of_ne_zero hm.ne'
        simp [scan, hw]
      | some page =>
        have hscan : scan mem (_ + (max - onPage va max)) va = _ := scan_page hw hn.1
        rw [Nat.add_sub_cancel' hn.2.2] at hscan
        rw [hscan]
        rw [ih (by omega)]
        have hnext : scan mem (max - onPage va max) (va - va % PGSIZE + PGSIZE) =
            scan mem (max - onPage va max) (va + onPage va max) := by
          by_cases h0 : max - onPage va max = 0
          · rw [h0, scan, scan]
          · rw [show va - va % PGSIZE + PGSIZE = va + onPage va max by unfold onPage PGSIZE at h0 ⊢; omega]
        rw [hnext]
    · rw [Nat.eq_zero_of_not_pos hm, scan]

/-- The first NUL from `va` on is the byte `k`, and the bytes up to it are on pages of the user. -/
structure FirstNul (mem : UserMem) (va k : ℕ) : Prop where
  mapped : ∀ i ≤ k, mem.walkaddr (va + i) ≠ none
  nul : mem.byte (va + k) = 0
  first : ∀ i < k, mem.byte (va + i) ≠ 0

theorem scan_succ (hw : mem.walkaddr va ≠ none) : scan mem (max + 1) va = if mem.byte va = 0 then ([0], true)
    else (mem.byte va :: (scan mem max (va + 1)).1, (scan mem max (va + 1)).2) := by
  obtain ⟨page, hpage⟩ := Option.ne_none_iff_exists'.mp hw
  rw [scan, UserMem.byte, hpage]

theorem scan_length : (scan mem max va).1.length ≤ max := by
  induction max generalizing va with
  | zero => exact le_rfl
  | succ max ih =>
    by_cases hw : mem.walkaddr va = none
    · simp [scan, hw]
    · rw [scan_succ hw]
      split_ifs
      · simp
      · simpa using ih

theorem scan_nul (hk : k < max) (h : FirstNul mem va k) : scan mem max va = (userBytes mem va (k + 1), true) := by
  induction k generalizing va max with
  | zero =>
    obtain ⟨max, rfl⟩ := exists_eq_succ_of_ne_zero (ne_zero_of_lt hk)
    have hw : mem.walkaddr va ≠ none := h.mapped 0 le_rfl
    have h0 : mem.byte va = 0 := h.nul
    rw [scan_succ hw, if_pos h0, ← h0]; rfl
  | succ k ih =>
    obtain ⟨max, rfl⟩ := exists_eq_succ_of_ne_zero (ne_zero_of_lt hk)
    have hw : mem.walkaddr va ≠ none := h.mapped 0 (zero_le _)
    have h0 : mem.byte va ≠ 0 := h.first 0 (succ_pos k)
    have hadd : ∀ i, va + 1 + i = va + (i + 1) := fun i => by omega
    have hnext : FirstNul mem (va + 1) k :=
      ⟨fun i hi => hadd i ▸ h.mapped _ (by omega), hadd k ▸ h.nul, fun i hi => hadd i ▸ h.first _ (by omega)⟩
    have hsplit : userBytes mem va (1 + (k + 1)) = userBytes mem va 1 ++ userBytes mem (va + 1) (k + 1) :=
      userBytes_add
    rw [scan_succ hw, if_neg h0, ih (by omega) hnext, add_comm (k + 1), hsplit]
    rfl

theorem nul_of_scan (h : (scan mem max va).2 = true) : ∃ k < max, FirstNul mem va k := by
  induction max generalizing va with
  | zero => cases h
  | succ max ih =>
    by_cases hw : mem.walkaddr va = none
    · simp [scan, hw] at h
    · rw [scan_succ hw] at h
      split_ifs at h with h0
      · exact ⟨0, by omega, fun i hi => le_zero.mp hi ▸ hw, h0, nofun⟩
      · obtain ⟨k, hk, hnul⟩ := ih h
        refine ⟨k + 1, by omega, fun i hi => ?_, ?_, fun i hi => ?_⟩
        · cases i with
          | zero => exact hw
          | succ i => simpa [add_right_comm, add_assoc] using hnul.mapped i (by omega)
        · simpa [add_right_comm, add_assoc] using hnul.nul
        · cases i with
          | zero => exact h0
          | succ i => simpa [add_right_comm, add_assoc] using hnul.first i (by omega)

/-- **`copyinstr` is exact**: it returns 0 exactly if there is a NUL below `max` and all bytes up to it are on
pages below `MAXVA` with `PTE_V` and `PTE_U`; it then stores those bytes.  It never stores more than `max`, and
the length that `fetchstr` returns is below `max`. -/
theorem copyinstr_exact (pt : PageTable) (ram : Pa → Exec.Page) (srcva max : BitVec 64) :
    ((copyinstr (userMem pt ram) srcva.toNat max.toNat).2 = true ↔
      ∃ k < max.toNat, FirstNul (userMem pt ram) srcva.toNat k) ∧
    (∀ k < max.toNat, FirstNul (userMem pt ram) srcva.toNat k →
      (copyinstr (userMem pt ram) srcva.toNat max.toNat).1 = userBytes (userMem pt ram) srcva.toNat (k + 1)) ∧
    (copyinstr (userMem pt ram) srcva.toNat max.toNat).1.length ≤ max.toNat ∧
    ∀ n, fetchstr (userMem pt ram) srcva.toNat max.toNat = some n → n < max.toNat := by
  unfold fetchstr copyinstr
  rw [copyinstrLoop_eq le_rfl]
  refine ⟨⟨nul_of_scan, fun ⟨k, hk, h⟩ => by rw [scan_nul hk h]⟩, fun k hk h => by rw [scan_nul hk h],
    scan_length, fun n hn => ?_⟩
  split_ifs at hn with h
  obtain ⟨k, hk, hnul⟩ := nul_of_scan h
  rw [scan_nul hk hnul] at hn
  cases hn
  refine lt_of_le_of_lt (not_lt.mp fun hlt => ?_) hk
  -- the NUL itself is not counted
  have heq := (takeWhile_sublist (l := userBytes (userMem pt ram) srcva.toNat (k + 1))
    (· ≠ 0)).eq_of_length_le (by rw [length_userBytes]; exact hlt)
  have hmem : 0 ∈ userBytes (userMem pt ram) srcva.toNat (k + 1) :=
    mem_map.mpr ⟨k, mem_range.mpr (by omega), hnul.nul⟩
  rw [← heq] at hmem; simpa using mem_takeWhile_imp hmem

end Xv6.Syscall.Transfer
