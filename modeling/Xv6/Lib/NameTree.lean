import Mathlib.Data.Multiset.AddSub
import Xv6.Lib.RefCount

/-!
# A tree that is kept by names

A directory `d` has a parent `par d` and names the objects `kids d`; what has no parent is no directory.
`total` counts the names of an object: how often it is a kid, and how often a parent.  `Rooted` says that
the directories form a tree: each but the root is named once, by its parent.  Objects and empty directories
are added and removed; each time the tree stays one, and `total` changes by what is said of it here.
-/

namespace Xv6.Lib.NameTree

open Lib.RefCount Multiset Finset Function Option

variable {ι : Type*} [Fintype ι] [DecidableEq ι] {par : ι → Option ι} {kids : ι → Multiset ι}
  {root d i j : ι}

def names (kids : ι → Multiset ι) (i : ι) : ℕ := ∑ d, (kids d).count i

def total (par : ι → Option ι) (kids : ι → Multiset ι) (i : ι) : ℕ := names kids i + refs par i

structure Rooted (par : ι → Option ι) (kids : ι → Multiset ι) (root : ι) : Prop where
  top : par root = some root
  unnamed : names kids root = 0
  once : ∀ d, par d ≠ none → d ≠ root → names kids d = 1
  up : ∀ d i, i ∈ kids d → ∀ r, par i = some r → r = d
  only : ∀ d i, i ∈ kids d → par d ≠ none

theorem names_pos : 0 < names kids i ↔ ∃ d, i ∈ kids d := by
  unfold names
  rw [Nat.pos_iff_ne_zero, Ne, Finset.sum_eq_zero_iff]; simp [count_eq_zero]

theorem names_update (K : Multiset ι) :
    names (update kids d K) j + (kids d).count j = names kids j + K.count j := by
  unfold names
  rw [← sum_erase_add _ _ (mem_univ d), ← sum_erase_add _ _ (mem_univ d), update_self]
  have hrest : ∑ x ∈ Finset.univ.erase d, (update kids d K x).count j =
      ∑ x ∈ Finset.univ.erase d, (kids x).count j := by
    refine sum_congr rfl fun x hx => ?_
    rw [update_of_ne (ne_of_mem_erase hx)]
  omega

theorem names_add : names (update kids d (i ::ₘ kids d)) j = names kids j + if j = i then 1 else 0 := by
  have h : names (update kids d (i ::ₘ kids d)) j + _ = _ := names_update (i ::ₘ kids d)
  rw [count_cons] at h; omega

theorem names_erase (hi : i ∈ kids d) :
    names kids j = names (update kids d ((kids d).erase i)) j + if j = i then 1 else 0 := by
  have h : names (update kids d ((kids d).erase i)) j + _ = _ := names_update ((kids d).erase i)
  by_cases hj : j = i
  · have hpos := count_pos.mpr hi
    rw [hj, count_erase_self] at h
    rw [hj, if_pos rfl]; omega
  · rw [count_erase_of_ne hj] at h; rw [if_neg hj]; omega

/-! ## The tree -/

section
variable (h : Rooted par kids root)
include h

theorem Rooted.ne_root (hi : i ∈ kids d) : i ≠ root := by
  rintro rfl
  have hpos : 0 < names kids i := names_pos.mpr ⟨d, hi⟩
  rw [h.unnamed] at hpos; exact lt_irrefl 0 hpos

theorem Rooted.mem_parent (hd : par d = some i) (hne : d ≠ root) : d ∈ kids i := by
  have hone := h.once d (by rw [hd]; exact some_ne_none i) hne
  obtain ⟨e, he⟩ := names_pos.mp (hone.symm ▸ Nat.one_pos)
  rw [h.up e d he i hd]; exact he

theorem Rooted.parent_dir (hd : par d = some i) : par i ≠ none := by
  by_cases hne : d = root
  · rw [hne, h.top] at hd; cases hd; rw [h.top]; exact some_ne_none root
  · exact h.only i d (h.mem_parent hd hne)

theorem Rooted.total_empty (hd : par d ≠ none) (hne : d ≠ root) (h0 : kids d = 0) : total par kids d = 1 := by
  have hrefs : refs par d = 0 := by
    refine refs_eq_zero.mpr fun x hx => ?_
    by_cases hxr : x = root
    · rw [hxr, h.top] at hx; exact hne (Option.some.inj hx).symm
    · have hmem := h.mem_parent hx hxr
      rw [h0] at hmem; exact notMem_zero x hmem
  rw [total, h.once d hd hne, hrefs]

theorem Rooted.two_le_total (hi : i ∈ kids d) (hdir : par i ≠ none) : 2 ≤ total par kids d := by
  have hir := h.ne_root hi
  obtain ⟨r, hr⟩ := ne_none_iff_exists'.mp hdir
  have hpar : par i = some d := by rw [hr, h.up d i hi r hr]
  have hdrop := refs_drop hpar d
  rw [if_pos rfl] at hdrop
  unfold total
  by_cases hd : d = root
  · -- the root is its own parent too
    have hroot : 0 < refs (update par i none) d := by
      refine refs_pos.mpr ⟨root, ?_⟩
      rw [update_of_ne (Ne.symm hir), h.top, hd]
    omega
  · have := h.once d (h.only d i hi) hd; omega

section
variable (hd : par d ≠ none)
include hd

theorem only_update (K : Multiset ι) : ∀ e j, j ∈ update kids d K e → par e ≠ none := by
  intro e j hj
  by_cases he : e = d
  · rw [he]; exact hd
  · rw [update_of_ne he] at hj; exact h.only e j hj

/-- **An object is added.** -/
theorem Rooted.addFile (hi : par i = none) : Rooted par (update kids d (i ::ₘ kids d)) root := by
  have hnames : ∀ e, par e ≠ none → names (update kids d (i ::ₘ kids d)) e = names kids e := by
    intro e he
    rw [names_add, if_neg, Nat.add_zero]
    rintro rfl; exact he hi
  refine ⟨h.top, ?_, fun e he hne => ?_, fun e j hj r hr => ?_, only_update h hd _⟩
  · rw [hnames root (by rw [h.top]; exact some_ne_none root), h.unnamed]
  · rw [hnames e he, h.once e he hne]
  · by_cases he : e = d
    · rw [he, update_self] at hj
      rw [he]
      rcases mem_cons.mp hj with rfl | hj
      · rw [hi] at hr; cases hr
      · exact h.up d j hj r hr
    · rw [update_of_ne he] at hj; exact h.up e j hj r hr

/-- **An empty directory is added.** -/
theorem Rooted.addDir (hi : par i = none)
    (hno : names kids i = 0) : Rooted (update par i (some d)) (update kids d (i ::ₘ kids d)) root := by
  have hroot : root ≠ i := by rintro rfl; rw [h.top] at hi; cases hi
  have hpar : ∀ e, e ≠ i → update par i (some d) e = par e := fun e he =>
    update_of_ne he _ _
  refine ⟨by rw [hpar root hroot, h.top], ?_, fun e he hne => ?_, fun e j hj r hr => ?_, fun e j hj => ?_⟩
  · rw [names_add, if_neg hroot, h.unnamed]
  · rw [names_add]
    by_cases hei : e = i
    · rw [hei, hno, if_pos rfl]
    · rw [hpar e hei] at he
      rw [if_neg hei, h.once e he hne]
  · -- only the new entry names the new directory
    have hji : j ∈ kids e → j ≠ i := by
      rintro hmem rfl
      have hpos : 0 < names kids j := names_pos.mpr ⟨e, hmem⟩; omega
    by_cases he : e = d
    · rw [he, update_self] at hj
      rw [he] at hji ⊢
      rcases mem_cons.mp hj with rfl | hj
      · rw [update_self] at hr; exact (Option.some.inj hr).symm
      · rw [hpar j (hji hj)] at hr; exact h.up d j hj r hr
    · rw [update_of_ne he] at hj
      rw [hpar j (hji hj)] at hr; exact h.up e j hj r hr
  · have he := only_update h hd _ e j hj
    by_cases hei : e = i
    · rw [hei] at he; exact absurd hi he
    · rw [hpar e hei]; exact he

end

end

omit [Fintype ι] in
theorem mem_of_mem_erased {e : ι} (hj : j ∈ update kids d ((kids d).erase i) e) : j ∈ kids e := by
  by_cases he : e = d
  · rw [he, update_self] at hj; rw [he]; exact mem_of_mem_erase hj
  · rw [update_of_ne he] at hj; exact hj

/-- **An object is removed.** -/
theorem Rooted.dropFile (h : Rooted par kids root) (hmem : i ∈ kids d) (hi : par i = none) :
    Rooted par (update kids d ((kids d).erase i)) root := by
  have hnames : ∀ e, par e ≠ none → names (update kids d ((kids d).erase i)) e = names kids e := by
    intro e he
    rw [names_erase hmem, if_neg, Nat.add_zero]
    rintro rfl; exact he hi
  refine ⟨h.top, ?_, fun e he hne => ?_, fun e j hj r hr => h.up e j (mem_of_mem_erased hj) r hr,
    fun e j hj => h.only e j (mem_of_mem_erased hj)⟩
  · rw [hnames root (by rw [h.top]; exact some_ne_none root), h.unnamed]
  · rw [hnames e he, h.once e he hne]

/-- **An empty directory is removed.** -/
theorem Rooted.dropDir (h : Rooted par kids root) (hmem : i ∈ kids d) (h0 : kids i = 0) :
    Rooted (update par i none) (update kids d ((kids d).erase i)) root := by
  have hroot : root ≠ i := Ne.symm (h.ne_root hmem)
  have hpar : ∀ e r, update par i none e = some r → e ≠ i ∧ par e = some r := by
    intro e r hr
    have hei : e ≠ i := by rintro rfl; rw [update_self] at hr; cases hr
    rw [update_of_ne hei] at hr; exact ⟨hei, hr⟩
  have hnames : ∀ e, e ≠ i → names (update kids d ((kids d).erase i)) e = names kids e := by
    intro e he
    rw [names_erase hmem, if_neg he, Nat.add_zero]
  refine ⟨by rw [update_of_ne hroot, h.top], by rw [hnames root hroot, h.unnamed],
    fun e he hne => ?_, fun e j hj r hr => h.up e j (mem_of_mem_erased hj) r (hpar j r hr).2, fun e j hj => ?_⟩
  · obtain ⟨r, hr⟩ := ne_none_iff_exists'.mp he
    obtain ⟨hei, hr⟩ := hpar e r hr
    rw [hnames e hei, h.once e (by rw [hr]; exact some_ne_none r) hne]
  · have hj' := mem_of_mem_erased hj
    have hei : e ≠ i := by rintro rfl; rw [h0] at hj'; exact notMem_zero j hj'
    rw [update_of_ne hei]; exact h.only e j hj'

theorem total_addFile : total par (update kids d (i ::ₘ kids d)) j = total par kids j + if j = i then 1 else 0 := by
  rw [total, total, names_add]; omega

theorem total_addDir (hi : par i = none) : total (update par i (some d)) (update kids d (i ::ₘ kids d)) j =
      total par kids j + (if j = i then 1 else 0) + if j = d then 1 else 0 := by
  rw [total, total, names_add, refs_take hi]; omega

theorem total_dropFile (hmem : i ∈ kids d) : total par kids j =
    total par (update kids d ((kids d).erase i)) j + if j = i then 1 else 0 := by
  have h := names_erase hmem (j := j)
  rw [total, total]; omega

theorem total_dropDir (hmem : i ∈ kids d) (hi : par i = some d) : total par kids j =
    total (update par i none) (update kids d ((kids d).erase i)) j +
      (if j = i then 1 else 0) + if j = d then 1 else 0 := by
  have h := names_erase hmem (j := j)
  have h' := refs_drop hi j
  rw [total, total]; omega

end Xv6.Lib.NameTree
