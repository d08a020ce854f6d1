import Xv6.Syscall.Transfer

/-!
# The memory of a process

What `sbrk` and `fork` make of the memory of a process: the entries of its page table and the contents of the
pages.  A page that is taken from the free list is filled with zeros, and one that is freed with ones
(`Xv6.Syscall.Exec.refill`); `kalloc` may fail anywhere.  What `uvmcopy` does to the allocator is what the one of
`Vm.Pages` does (`uvmcopy_actsAs`).
-/

namespace Xv6.Syscall.Memory

open Lib.Stateful Lib.Tables Vm.Copy Vm.Pages Multiset
open Vm.Space (Proc ProcState addSize growproc)
open Syscall.Exec (X State Going onMem wp_onMem refill refill_kept mappages_leaf mem_pages not_free entryWith)
open Syscall.Transfer (UW entry_user wp_copyout_frame)

variable {α : Type} {tr tf pa : Pa} {pt pt' : PageTable} {m m' : Mem} {all R : Multiset Pa} {v n sz : ℕ}
variable {oldsz newsz : ℕ} {perm : BitVec 10}

/-! ## The entries of the page table -/

def Takes (k : K α) : Prop := ∀ m, wp (fun _ => True) k (fun _ m' => m'.free ⊆ m.free) m

theorem Takes.bind {β : Type} {k : K α} {f : α → K β} (hk : Takes k) (hf : ∀ a, Takes (f a)) : Takes (k >>= f) :=
  fun m => wp_seq (hk m) fun a m1 h1 => wp_mono (hf a m1) fun _ _ h2 => List.Subset.trans h2 h1

theorem Takes.pure (a : α) : Takes (Pure.pure a : K α) := fun _ => List.Subset.refl _

variable {ram : Pa → Exec.Page}

def view (pt : PageTable) (ram : Pa → Exec.Page) (u : ℕ) : Option (Pte × Exec.Page) :=
  (pt.leaf.get u).map fun pte => (pte, ram pte.pa)

section
variable (ram) (hnd : all.Nodup) (hall : Multiset.card all ≤ NPAGES) (hm : Maps tr tf pt (User (pagesOf sz)))
  (hb : Bal all (pt.pages + R) m)
include hnd hall hm hb

end

/-- The page table of a process with `n` pages: each entry is valid, and those of the trapframe and the
trampoline are not for the user. -/
structure AddressSpace (tr tf : Pa) (pt : PageTable) (n : ℕ) : Prop extends Maps tr tf pt (User n) where
  valid : ∀ u pte, pt.leaf.get u = some pte → pte.flags ||| PTE_V = pte.flags
  kernel : ∀ u pte, TRAPFRAME ≤ u → pt.leaf.get u = some pte → pte.flags &&& PTE_U = 0

def bare (tr tf root a b : Pa) : PageTable where
  root := root
  l1 := .insert .empty (TRAPFRAME / 2 ^ 18) a
  l0 := .insert .empty (TRAPFRAME / 2 ^ 9) b
  leaf := .insert (.insert .empty TRAMPOLINE ⟨tr, PTE_R ||| PTE_X ||| PTE_V⟩) TRAPFRAME
    ⟨tf, PTE_R ||| PTE_W ||| PTE_V⟩

theorem bare_space (root a b : Pa) : AddressSpace tr tf (bare tr tf root a b) 0 := by
  have hne : TRAPFRAME ≠ TRAMPOLINE := by decide
  have hempty : Maps tr tf { bare tr tf root a b with leaf := .empty } fun _ => False :=
    ⟨fun _ => iff_of_false nofun id, fun _ h => h.elim, nofun, nofun, nofun⟩
  have hmaps : Maps tr tf (bare tr tf root a b) fun u => u = TRAPFRAME ∨ u = TRAMPOLINE ∨ False :=
    (hempty.insert rfl (by dsimp only; decide) (fun h => absurd h hne.symm) fun _ => rfl).insert rfl
      (by dsimp only; decide) (fun _ => rfl) fun h => absurd h hne
  have hall : ∀ u pte, (bare tr tf root a b).leaf.get u = some pte →
      pte.flags ||| PTE_V = pte.flags ∧ pte.flags &&& PTE_U = 0 := by
    intro u pte h
    rcases get_insert_cases h with ⟨-, rfl⟩ | h
    · dsimp only; decide
    · rcases get_insert_cases h with ⟨-, rfl⟩ | h
      · dsimp only; decide
      · cases h
  refine ⟨hmaps.congr fun u => ?_, fun u pte h => (hall u pte h).1, fun u pte _ h => (hall u pte h).2⟩
  simp [User]

/-- The page table of a process with one page, `pa`. -/
def paged (tr tf root a b c d pa : Pa) : PageTable where
  root := root
  l1 := .insert (bare tr tf root a b).l1 0 c
  l0 := .insert (bare tr tf root a b).l0 0 d
  leaf := .insert (bare tr tf root a b).leaf 0 ⟨pa, PTE_R ||| PTE_W ||| PTE_X ||| PTE_U ||| PTE_V⟩

theorem paged_space (root a b c d pa : Pa) : AddressSpace tr tf (paged tr tf root a b c d pa) 1 := by
  have hbare : AddressSpace tr tf (bare tr tf root a b) 0 := bare_space root a b
  have hrest : Maps tr tf { paged tr tf root a b c d pa with leaf := (bare tr tf root a b).leaf } (User 0) := by
    refine { hbare.toMaps with present := fun u hu => ?_ }
    rcases hu with h | rfl | rfl
    · omega
    · rfl
    · rfl
  have hmaps : Maps tr tf (paged tr tf root a b c d pa) fun u => u = 0 ∨ User 0 u :=
    hrest.insert rfl (by dsimp only; decide) (fun h => absurd h (by decide)) fun h => absurd h (by decide)
  refine ⟨hmaps.congr fun u => by unfold User; omega, fun u pte h => ?_, fun u pte hu h => ?_⟩
  · rcases get_insert_cases h with ⟨-, rfl⟩ | h
    · dsimp only; decide
    · exact hbare.valid u pte h
  · rcases get_insert_cases h with ⟨rfl, -⟩ | h
    · cases hu
    · exact hbare.kernel u pte hu h

variable {P : Type} {old new : PageTable} {s s₀ : Exec.State P} {F : Defs.State P} {k : ℕ}
variable {l : List (ℕ × List Byte)}

/-- The loop of `uvmcopy` from page `i` on, with the contents. -/
def copyLoop (old : PageTable) : ℕ → PageTable → ℕ → X P (PageTable × Bool)
  | 0, new, _ => return (new, true)
  | rounds + 1, new, i =>
    if i ≥ MAXPAGE then throw (.vm .walk)
    else if old.present i = false then throw (.vm .copyWalk)
    else match old.leaf.get i with
    | none => throw (.vm .copyNotPresent)
    | some pte => do
      match ← onMem kalloc with
      | none => do
        let new ← onMem (uvmunmap new 0 true i)
        return (new, false)
      | some mem => do
        -- `memmove(mem, (char*)pa, PGSIZE)`
        modify fun s => { s with ram := Function.update s.ram mem (s.ram pte.pa) }
        let r ← onMem (mappages new i mem pte.flags)
        if r.2 then copyLoop old rounds r.1 (i + 1)
        else do
          onMem (kfree mem)
          let new ← onMem (uvmunmap r.1 0 true i)
          return (new, false)

def uvmcopy (old new : PageTable) (sz : ℕ) : X P (PageTable × Bool) := copyLoop old (pagesOf sz) new 0

/-- What `x` does to the allocator is `k`. -/
def ActsAs (x : X P α) (k : K α) : Prop :=
  ∀ s, (x s).map (fun r => (r.1, r.2.mem)) = (k s.mem).mapError .vm

theorem ActsAs.onMem (k : K α) : ActsAs (P := P) (Exec.onMem k) k := by
  intro s
  unfold Exec.onMem
  rcases k s.mem with e | ⟨a, m⟩ <;> rfl

theorem ActsAs.bind {β : Type} {x : X P α} {k : K α} {f : α → X P β} {g : α → K β} (h : ActsAs x k)
    (hf : ∀ a, ActsAs (f a) (g a)) : ActsAs (x >>= f) (k >>= g) := by
  intro s
  have hs := h s
  show ((x s).bind fun r => f r.1 r.2).map _ = ((k s.mem).bind fun r => g r.1 r.2).mapError _
  generalize x s = y at hs ⊢
  generalize k s.mem = z at hs ⊢
  rcases y with e | ⟨a, s1⟩ <;> rcases z with e' | ⟨b, m⟩ <;> cases hs
  · rfl
  · exact hf a s1

theorem ActsAs.modify {x : X P α} {k : K α} {f : State P → State P} (hf : ∀ s, (f s).mem = s.mem)
    (h : ActsAs x k) : ActsAs (do modify f; x) k := by
  intro s
  rw [← hf s]; exact h (f s)

/-- **The contents do not matter to `uvmcopy`**: on the allocator it is the `uvmcopy` of the page tables. -/
theorem uvmcopy_actsAs (old new : PageTable) (sz : ℕ) :
    ActsAs (P := P) (uvmcopy old new sz) (Vm.Pages.uvmcopy old new sz) := by
  suffices h : ∀ rounds new i, ActsAs (P := P) (copyLoop old rounds new i) (Vm.Pages.copyLoop old rounds new i) from
    h (pagesOf sz) new 0
  intro rounds
  induction rounds with
  | zero => exact fun _ _ _ => rfl
  | succ rounds ih =>
    intro new i
    unfold copyLoop Vm.Pages.copyLoop
    split_ifs
    · exact fun _ => rfl
    · exact fun _ => rfl
    cases old.leaf.get i with
    | none => exact fun _ => rfl
    | some pte =>
      refine (ActsAs.onMem kalloc).bind fun r => ?_
      cases r with
      | none => exact (ActsAs.onMem _).bind fun _ _ => rfl
      | some mem =>
        -- the copy of the page leaves the allocator alone
        refine ActsAs.modify (fun _ => rfl) ((ActsAs.onMem _).bind fun r => ?_)
        split_ifs
        · exact ih r.1 (i + 1)
        · exact (ActsAs.onMem _).bind fun _ => (ActsAs.onMem _).bind fun _ _ => rfl

def Copied (old : PageTable) (s₀ : State P) (new : PageTable) (i : ℕ) (s : State P) : Prop :=
  ∀ u < i, ∃ pte pa, old.leaf.get u = some pte ∧ new.leaf.get u = some ⟨pa, pte.flags ||| PTE_V⟩ ∧
    s.ram pa = s₀.ram pte.pa

theorem wp_copyLoop {tf' : Pa} {rounds i : ℕ} (hnd : all.Nodup) (hold : Maps tr tf' old (User k))
    (hk : k < TRAPFRAME) (hR : old.pages ≤ R) (hi : i ≤ k) (hm : Maps tr tf new (User i))
    (hg : Going all R s₀ F new.pages s) (hc : Copied old s₀ new i s) :
    wp (fun _ => True) (copyLoop old rounds new i) (fun r s' => r.2 = true →
      Maps tr tf r.1 (User (i + rounds)) ∧ Going all R s₀ F r.1.pages s' ∧ Copied old s₀ r.1 (i + rounds) s' ∧
      ∀ u, TRAPFRAME ≤ u → r.1.leaf.get u = new.leaf.get u) s := by
  induction rounds generalizing new i s with
  | zero => exact fun _ => ⟨hm, hg, hc, fun _ _ => rfl⟩
  | succ rounds ih =>
    unfold copyLoop
    split_ifs
    · trivial
    · trivial
    cases hpte : old.leaf.get i with
    | none => trivial
    | some pte =>
      have hik : i < k := by
        have hTT : TRAPFRAME < TRAMPOLINE := by decide
        rcases (hold.dom i).mp (by rw [hpte]; rfl) with h | h | h <;> omega
      refine .bind (wp_onMem.mpr (wp_kalloc hg.bal (fun m1 _ => ?_) fun mem m1 h1 => ?_))
      · exact .bind (wp_mono wp_true fun _ _ _ => nofun)
      · have hb1 : Bal all ({mem} + new.pages + R) m1 := h1.of_eq (add_assoc _ _ _).symm
        have hmem : mem ∈ {mem} + new.pages := mem_add.mpr (.inl (mem_singleton_self mem))
        have hg1 := (hg.mem hnd hb1).store hnd hmem ((refill s.mem.free m1.free s.ram) pte.pa)
        have hne : ∀ pa ∈ new.pages, pa ≠ mem := by
          rintro pa hpa rfl
          have hall := hnd
          rw [← hb1, nodup_add, nodup_add, nodup_add] at hall
          exact disjoint_left.mp hall.2.1.1.2.2 (mem_singleton_self pa) hpa
        rw [wp_bind, wp_modify, wp_bind, wp_onMem]
        refine wp_mono (wp_and (Q := fun r m2 => r.2 = true → Maps tr tf r.1 (User (i + 1)) ∧
          Bal all (r.1.pages + R) m2) (wp_mapUser (by omega) (hold.leaf i pte hpte) hm h1
            (fun pt' m2 hm' hb' _ => ⟨hm', hb'⟩) fun _ _ _ _ => nofun) mappages_leaf) fun r m2 hr => ?_
        split_ifs with hok
        · obtain ⟨⟨hm2, hb2⟩, hleaf⟩ := And.imp_left (· hok) hr
          rw [if_pos hok] at hleaf
          refine wp_mono (ih (by omega) hm2 (hg1.mem hnd hb2) fun u hu => ?_) fun r' s' hr' hok' => ?_
          · by_cases hui : u = i
            · have hget : r.1.leaf.get u = some ⟨mem, pte.flags ||| PTE_V⟩ := by
                rw [hleaf, hui]; exact get_insert_self
              have hin : mem ∈ r.1.pages := mem_pages (by omega) hget
              have hsame := (hg.mem hnd hb1).ram pte.pa (mem_of_le hR (mem_pages (by omega) hpte))
              refine ⟨pte, mem, hui ▸ hpte, hget, ?_⟩
              exact (refill_kept hnd hb1 hb2 (mem_add.mpr (.inl hmem)) (mem_add.mpr (.inl hin))).trans
                ((Function.update_self ..).trans hsame)
            · obtain ⟨pte', pa, ho, hn, hram⟩ := hc u (by omega)
              have hget : r.1.leaf.get u = some ⟨pa, pte'.flags ||| PTE_V⟩ := by
                rw [hleaf, ← hn]; exact get_insert_ne hui
              have hin : pa ∈ new.pages := mem_pages (by omega) hn
              have hin1 : pa ∈ {mem} + new.pages + R := mem_add.mpr (.inl (mem_add.mpr (.inr hin)))
              have hin2 : pa ∈ r.1.pages := mem_pages (by omega) hget
              refine ⟨pte', pa, ho, hget, ?_⟩
              exact (refill_kept hnd hb1 hb2 hin1 (mem_add.mpr (.inl hin2))).trans
                ((Function.update_of_ne (hne pa hin) ..).trans
                  ((refill_kept hnd hg.bal hb1 (mem_add.mpr (.inl hin)) hin1).trans hram))
          · have heq : i + (rounds + 1) = i + 1 + rounds := by omega
            rw [heq]
            obtain ⟨h3, h4, h5, h6⟩ := hr' hok'
            refine ⟨h3, h4, h5, fun u hu => (h6 u hu).trans ?_⟩
            rw [hleaf]; exact get_insert_ne (by omega)
        · exact .bind (wp_mono wp_true fun _ _ _ => .bind (wp_mono wp_true fun _ _ _ => nofun))

def copyouts (pt : PageTable) : List (ℕ × List Byte) → X P Unit
  | [] => return ()
  | (dstva, src) :: rest => do
    let _ ← Exec.copyout pt dstva src
    copyouts pt rest

theorem entry_pages (h : ∀ u pte, TRAPFRAME ≤ u → pt.leaf.get u = some pte → pte.flags &&& PTE_U = 0)
    (he : entryWith pt UW v = some pa) : pa ∈ pt.pages := by
  by_cases hv : v < TRAPFRAME
  · exact Exec.entryWith_mem hv he
  · have hu := entry_user he
    unfold entryWith at hu
    split_ifs at hu
    cases hpte : pt.leaf.get v with
    | none => simp [hpte] at hu
    | some pte =>
      rw [hpte] at hu
      dsimp only at hu
      rw [h v pte (by omega) hpte] at hu; cases hu

theorem wp_copyouts {a : Pa} (ha : ∀ v, entryWith pt UW v ≠ some a) :
    wp (fun _ => True) (copyouts pt l) (fun _ s' => s'.ram a = s.ram a) s := by
  induction l generalizing s with
  | nil => exact rfl
  | cons x l ih => exact wp_seq (wp_copyout_frame ha) fun _ s1 h1 => wp_mono ih fun _ _ h2 => h2.trans h1

theorem view_apart {s' : State P} {u : ℕ}
    (hk : ∀ u pte, TRAPFRAME ≤ u → pt.leaf.get u = some pte → pte.flags &&& PTE_U = 0)
    (hd : ∀ a ∈ pt'.pages, a ∉ pt.pages) (hrun : copyouts pt l s = .ok ((), s')) (hu : u < TRAPFRAME) :
    view pt' s'.ram u = view pt' s.ram u := by
  unfold view
  cases hpte : pt'.leaf.get u with
  | none => rfl
  | some pte =>
    have hout : ∀ v, entryWith pt UW v ≠ some pte.pa := fun v hv => hd _ (mem_pages hu hpte) (entry_pages hk hv)
    simp only [Option.map_some, wp_ok (wp_copyouts hout) hrun]

/-- **`uvmcopy` copies and isolates**: each page below the size has the same flags and the same bytes in the new
page table, on a page that the old one does not have, and nothing of the old memory changes.  Whatever is later
copied out through one of the two tables, what the other maps stays as it is. -/
theorem uvmcopy_isolates {tf' : Pa} {new' : PageTable} {s' : State P} (hnd : all.Nodup)
    (hold : AddressSpace tr tf' old k) (hk : k < TRAPFRAME) (hnew : AddressSpace tr tf new 0)
    (hb : Bal all (new.pages + (old.pages + R)) s.mem) (hrun : uvmcopy old new sz s = .ok ((new', true), s')) :
    (∀ u < pagesOf sz, ∃ pte pa, old.leaf.get u = some pte ∧ new'.leaf.get u = some ⟨pa, pte.flags⟩ ∧
      s'.ram pa = s.ram pte.pa) ∧ (∀ a ∈ old.pages, a ∉ new'.pages ∧ s'.ram a = s.ram a) ∧
    ∀ l s'', (copyouts new' l s' = .ok ((), s'') → ∀ u < TRAPFRAME, view old s''.ram u = view old s'.ram u) ∧
      (copyouts old l s' = .ok ((), s'') → ∀ u < TRAPFRAME, view new' s''.ram u = view new' s'.ram u) := by
  have hgo : Going all (old.pages + R) s s.fs new.pages s := ⟨hb, fun _ _ => rfl, rfl, rfl⟩
  obtain ⟨hm', hg', hc, htop⟩ := wp_ok (wp_copyLoop hnd hold.toMaps hk (le_add_right _ R)
    (Nat.zero_le k) hnew.toMaps hgo nofun) hrun rfl
  have hapart : ∀ a ∈ old.pages, a ∉ new'.pages := by
    intro a ha ha'
    have hall := hnd
    rw [← hg'.bal, nodup_add, nodup_add] at hall
    exact disjoint_left.mp hall.2.1.2.2 ha' (mem_add.mpr (.inl ha))
  refine ⟨fun u hu => ?_, fun a ha => ⟨hapart a ha, hg'.ram a (mem_add.mpr (.inl ha))⟩, fun l s'' =>
    ⟨fun hl u hu => ?_, fun hl u hu => ?_⟩⟩
  · obtain ⟨pte, pa, ho, hn, hram⟩ := hc u (by omega)
    rw [hold.valid u pte ho] at hn; exact ⟨pte, pa, ho, hn, hram⟩
  · exact view_apart (fun v pte hv hpte => hnew.kernel v pte hv (htop v hv ▸ hpte)) hapart hl hu
  · exact view_apart hold.kernel (fun a ha hin => hapart a hin ha) hl hu

/-- A process with one page before its fork. -/
def withPage : State Bool :=
  { Exec.caller [] (paged 100 7 1 2 3 4 5 6) [12, 13, 14, 15] with ram := fun a _ => if a = 6 then 65 else 0 }

theorem uvmcopy_isolates_page : ∃ new' s' pa,
    uvmcopy (paged 100 7 1 2 3 4 5 6) (bare 100 8 9 10 11) 4096 withPage = .ok ((new', true), s') ∧
    (new'.leaf.get 0).map Pte.pa = some pa ∧ pa ≠ 6 ∧ s'.ram pa = (fun _ => 65) ∧ s'.ram 6 = fun _ => 65 := by
  have hok : (uvmcopy (paged 100 7 1 2 3 4 5 6) (bare 100 8 9 10 11) 4096 withPage).toOption.any (fun r => r.1.2) =
      true := by decide +kernel
  obtain ⟨⟨⟨new', ok⟩, s'⟩, hrun, rfl⟩ := (Option.any_eq_true _ _).mp hok
  have hrun := toOption_eq_some hrun
  have hb : Bal ((Multiset.range 16).erase 0) ((bare 100 8 9 10 11).pages + ((paged 100 7 1 2 3 4 5 6).pages + {7, 8}))
      withPage.mem := by
    unfold Bal; decide
  obtain ⟨hcopy, hold, -⟩ := uvmcopy_isolates (by decide) (paged_space 1 2 3 4 5 6) (by decide)
    (bare_space 9 10 11) hb hrun
  obtain ⟨pte, pa, h0, h1, h2⟩ := hcopy 0 (by decide)
  cases h0
  have h6 := hold 6 (by decide)
  refine ⟨new', s', pa, hrun, congrArg (Option.map Pte.pa) h1, ?_, h2, h6.2⟩
  rintro rfl; exact h6.1 (mem_pages (by decide) h1)

end Xv6.Syscall.Memory
