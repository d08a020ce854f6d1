import Mathlib.Data.Fintype.Sum
import Xv6.Lib.RefCount
import Xv6.Syscall.Defs

/-!
# References and locks of inodes

Between calls an inode is referred to by the current directories and the open files (`holder`).  Inside a call the
code refers to some more (`held`) and has some locked (`locks`), and `Book` keeps the account.  Each function on
inodes has a specification: which references and locks it takes or gives up, and that it changes nothing else
(`Same`).
-/

namespace Xv6.Syscall.Inodes

open Lib.Stateful Lib.RefCount Param Syscall.Defs Function

variable {P : Type} {s s' s'' : State P} {i : Inum} {held locks : List Inum} {m m' : Inum → Inode} {ref : ℕ}
variable {v : Bool} {j : Inum}

/-! ## The account -/

def inumOf (f : File) : Option Inum :=
  match f.type with
  | .inode | .device => some f.ip
  | _ => none

def holder (s : State P) : P ⊕ Fin NFILE → Option Inum
  | .inl p => s.cwd p
  | .inr f => inumOf (s.file f)

/-- Only inodes and what `itable` says of them may differ. -/
structure Frame (s s' : State P) : Prop where
  ops : s'.ops = s.ops
  file : s'.file = s.file
  ofile : s'.ofile = s.ofile
  cwd : s'.cwd = s.cwd
  pipe : s'.pipe = s.pipe
  initproc : s'.initproc = s.initproc

structure Same (s s' : State P) : Prop extends Frame s s' where
  inode : s'.inode = s.inode

theorem Frame.refl (s : State P) : Frame s s := ⟨rfl, rfl, rfl, rfl, rfl, rfl⟩

theorem Frame.trans (h : Frame s s') (h' : Frame s' s'') : Frame s s'' :=
  ⟨h'.ops.trans h.ops, h'.file.trans h.file, h'.ofile.trans h.ofile, h'.cwd.trans h.cwd,
    h'.pipe.trans h.pipe, h'.initproc.trans h.initproc⟩

theorem Frame.holder (h : Frame s s') : holder s' = holder s := by
  funext x
  cases x with
  | inl p => exact congrFun h.cwd p
  | inr f => exact congrArg inumOf (congrFun h.file f)

theorem Same.refl (s : State P) : Same s s := ⟨.refl s, rfl⟩

theorem Same.trans (h : Same s s') (h' : Same s' s'') : Same s s'' :=
  ⟨h.toFrame.trans h'.toFrame, h'.inode.trans h.inode⟩

theorem same_setRef : Same s (s.setRef i ref v) :=
  ⟨⟨rfl, rfl, rfl, rfl, rfl, rfl⟩, rfl⟩

theorem same_setLocked {l : Bool} : Same s (s.setLocked i l) := ⟨⟨rfl, rfl, rfl, rfl, rfl, rfl⟩, rfl⟩

theorem frame_setInode {ip : Inode} : Frame s (s.setInode i ip) := ⟨rfl, rfl, rfl, rfl, rfl, rfl⟩

def FreeStep (m m' : Inum → Inode) (i : Inum) : Prop :=
  m' = m ∨ ((m i).nlink = 0 ∧ (m i).type ≠ .free ∧ m' = update m i (m i).freed)

theorem FreeStep.of_ne (h : FreeStep m m' i) (hj : j ≠ i) : m' j = m j := by
  rcases h with rfl | ⟨-, -, rfl⟩
  · rfl
  · exact update_of_ne hj _ _

theorem FreeStep.of_nlink (h : FreeStep m m' i) (hi : (m i).nlink ≠ 0) : m' = m := by
  rcases h with rfl | ⟨h0, -⟩
  · rfl
  · exact absurd h0 hi

/-! ## Walks -/

/-- What the loop of `namex` finds, by the inodes alone. -/
def walk (inode : Inum → Inode) (parent : Bool) : List Name → Name → Inum → Option (Inum × Name)
  | [], name, ip => if parent then none else some (ip, name)
  | name :: rest, _, ip =>
    if (inode ip).type ≠ .dir then none
    else if parent = true ∧ rest = [] then some (ip, name)
    else
      match lookup name 0 (inode ip).entries with
      | none => none
      | some (next, _) => walk inode parent rest name next

def Named (s : State P) (i : Inum) : Prop :=
  ∃ d, (s.inode d).type = .dir ∧ ∃ de ∈ (s.inode d).entries, de.inum = i ∧ i ≠ 0

def found (s : State P) (p : P) (path : Path) (parent : Bool) : Option (Inum × Name) :=
  (s.start p path).bind (walk s.inode parent (elements path) [])

/-- The inodes that a walk may lock are allocated, or the panic of `ilock` is allowed. -/
def Walkable (E : Panic → Prop) (s : State P) (p : P) (path : Path) : Prop :=
  ∀ i, (s.inode i).type = .free → s.start p path = some i ∨ Named s i → E .ilockNoType

/-- The errors of the functions on inodes, but for the panic of `ilock` on a free inode. -/
def usual : Panic → Bool
  | .igetNoInodes | .ilock | .iunlock | .dirlookupNotDir | .deadlock => true
  | _ => false

theorem lookup_eq_some {name : Name} {off k : ℕ} {es : List Dirent} (h : lookup name off es = some (i, k)) :
    off ≤ k ∧ es[k - off]? = some ⟨i, name⟩ ∧ i ≠ 0 := by
  induction es generalizing off with
  | nil => cases h
  | cons de es ih =>
    rw [lookup] at h
    split_ifs at h with hde
    · cases h; obtain ⟨h0, rfl⟩ := hde; exact ⟨le_rfl, by simp, h0⟩
    · obtain ⟨hle, hget, h0⟩ := ih h
      refine ⟨by omega, ?_, h0⟩
      rw [show k - off = (k - (off + 1)) + 1 by omega]
      exact hget

theorem lookup_named {name : Name} {dp : Inum} {r : Inum × ℕ} (ht : (s.inode dp).type = .dir)
    (h : lookup name 0 (s.inode dp).entries = some r) : Named s r.1 := by
  obtain ⟨-, hget, h0⟩ := lookup_eq_some h
  exact ⟨dp, ht, _, List.mem_of_getElem? hget, rfl, h0⟩

variable [Fintype P]

def holders (s : State P) (i : Inum) : ℕ := refs (holder s) i

theorem Frame.holders (h : Frame s s') (i : Inum) : holders s' i = holders s i := by
  unfold Inodes.holders
  rw [h.holder]

structure Book (s : State P) (held locks : List Inum) : Prop where
  refs : ∀ i, s.ref i = holders s i + held.count i
  lock : ∀ i, s.locked i = true ↔ i ∈ locks
  nodup : locks.Nodup
  typed : ∀ i, s.valid i = true → 0 < s.ref i → (s.inode i).type ≠ .free
  valid : ∀ i, (s.inode i).type ≠ .free → (s.inode i).nlink = 0 → 0 < s.ref i → s.valid i = true
  alloc : ∀ i, (s.inode i).type = .free → holders s i = 0
  locked : ∀ i, i ∈ locks → s.valid i = true ∧ 0 < s.ref i

def Kept (s : State P) (held : List Inum) : Prop :=
  ∀ i, (s.inode i).type ≠ .free → (s.inode i).nlink = 0 → 0 < holders s i + held.count i

theorem Kept.cons (h : Kept s held) (i : Inum) : Kept s (i :: held) := by
  intro j hj hn
  have hpos := h j hj hn
  have hle : held.count j ≤ (i :: held).count j := List.count_le_count_cons
  omega

theorem Kept.same (h : Kept s held) (hs : Same s s') : Kept s' held := by
  intro j hj hn
  rw [hs.inode] at hj hn
  rw [hs.toFrame.holders]; exact h j hj hn

/-! ## Functions on one inode -/

omit [Fintype P] in
theorem setRef_cases {R : Inum → ℕ → Bool → Prop} (hi : R i ref v)
    (hne : ∀ j, j ≠ i → R j (s.ref j) (s.valid j)) (j : Inum) :
    R j ((s.setRef i ref v).ref j) ((s.setRef i ref v).valid j) := by
  show R j (update s.ref i ref j) (update s.valid i v j)
  by_cases hj : j = i
  · rw [hj, update_self, update_self]; exact hi
  · rw [update_of_ne hj, update_of_ne hj]; exact hne j hj

theorem Book.setRef {held' : List Inum} (h : Book s held locks)
    (hi : ref = holders s i + held'.count i) (hne : ∀ j, j ≠ i → held'.count j = held.count j)
    (htyped : v = true → 0 < ref → (s.inode i).type ≠ .free)
    (hvalid : (s.inode i).type ≠ .free → (s.inode i).nlink = 0 → 0 < ref → v = true)
    (hlock : i ∈ locks → v = true ∧ 0 < ref) : Book (s.setRef i ref v) held' locks := by
  refine ⟨?_, h.lock, h.nodup, ?_, ?_, h.alloc, ?_⟩
  · exact setRef_cases (R := fun j r _ => r = holders s j + held'.count j) hi fun j hj => by
      rw [h.refs j, hne j hj]
  · exact setRef_cases (R := fun j r v => v = true → 0 < r → (s.inode j).type ≠ .free) htyped fun j _ => h.typed j
  · exact setRef_cases (R := fun j r v => (s.inode j).type ≠ .free → (s.inode j).nlink = 0 → 0 < r → v = true)
      hvalid fun j _ => h.valid j
  · exact setRef_cases (R := fun j r v => j ∈ locks → v = true ∧ 0 < r) hlock fun j _ => h.locked j

theorem count_cons_ne (h : j ≠ i) : (i :: held).count j = held.count j :=
  List.count_cons_of_ne (Ne.symm h)

theorem Book.more (h : Book s held locks) (hpos : 0 < s.ref i) :
    Book (s.setRef i (s.ref i + 1) (s.valid i)) (i :: held) locks := by
  refine h.setRef ?_ (fun j hj => count_cons_ne hj) (fun hv _ => h.typed i hv hpos)
    (fun ht hn _ => h.valid i ht hn hpos) fun hl => ⟨(h.locked i hl).1, Nat.succ_pos _⟩
  rw [h.refs i, List.count_cons_self, Nat.add_assoc]

theorem Book.less (h : Book s (i :: held) locks) (hl : i ∈ locks → 1 < s.ref i) :
    Book (s.setRef i (s.ref i - 1) (s.valid i)) held locks := by
  have hi := h.refs i
  rw [List.count_cons_self] at hi
  refine h.setRef ?_ (fun j hj => (count_cons_ne hj).symm) (fun hv hr => h.typed i hv (by omega))
    (fun ht hn hr => h.valid i ht hn (by omega)) fun hm => ⟨(h.locked i hm).1, Nat.sub_pos_of_lt (hl hm)⟩
  omega

omit [Fintype P] in
theorem locked_setLocked {l : Bool} (s : State P) (i j : Inum) :
    (s.setLocked i l).locked j = if j = i then l else s.locked j := update_apply _ _ _ _

theorem Book.take (h : Book s held locks) (hv : s.valid i = true) (hi : 0 < s.ref i) (hni : i ∉ locks) :
    Book (s.setLocked i true) held (i :: locks) := by
  refine ⟨h.refs, fun j => ?_, List.nodup_cons.mpr ⟨hni, h.nodup⟩, h.typed, h.valid, h.alloc, fun j hj => ?_⟩
  · rw [locked_setLocked]
    by_cases hj : j = i
    · simp [hj]
    · rw [if_neg hj, h.lock j]; simp [hj]
  · rcases List.mem_cons.mp hj with rfl | hj
    · exact ⟨hv, hi⟩
    · exact h.locked j hj

theorem Book.give (h : Book s held (i :: locks)) : Book (s.setLocked i false) held locks := by
  obtain ⟨hni, hnodup⟩ := List.nodup_cons.mp h.nodup
  refine ⟨h.refs, fun j => ?_, hnodup, h.typed, h.valid, h.alloc,
    fun j hj => h.locked j (List.mem_cons_of_mem i hj)⟩
  rw [locked_setLocked]
  by_cases hj : j = i
  · rw [hj]; simp [hni]
  · rw [if_neg hj, h.lock j]; simp [hj]

section
variable (h : Book s held locks)
include h

theorem Book.perm {held' locks' : List Inum} (hh : held.Perm held')
    (hl : locks.Perm locks') : Book s held' locks' := by
  refine ⟨fun i => ?_, fun i => ?_, hl.nodup_iff.mp h.nodup, h.typed, h.valid, h.alloc, fun i hi => ?_⟩
  · rw [h.refs i, hh.count_eq]
  · rw [h.lock i, hl.mem_iff]
  · exact h.locked i (hl.mem_iff.mpr hi)

theorem Book.setInode (ip : Inode) (htyped : s.valid i = true → 0 < s.ref i → ip.type ≠ .free)
    (hvalid : ip.type ≠ .free → ip.nlink = 0 → 0 < s.ref i → s.valid i = true)
    (halloc : ip.type = .free → holders s i = 0) : Book (s.setInode i ip) held locks := by
  refine ⟨h.refs, h.lock, h.nodup, ?_, ?_, ?_, h.locked⟩
  · exact (forall_update_iff s.inode fun j v => s.valid j = true → 0 < s.ref j → v.type ≠ .free).mpr
      ⟨htyped, fun j _ => h.typed j⟩
  · exact (forall_update_iff s.inode fun j v => v.type ≠ .free → v.nlink = 0 → 0 < s.ref j → s.valid j = true).mpr
      ⟨hvalid, fun j _ => h.valid j⟩
  · exact (forall_update_iff s.inode fun j v => v.type = .free → holders s j = 0).mpr
      ⟨halloc, fun j _ => h.alloc j⟩

theorem Book.ref_pos (hi : i ∈ held) : 0 < s.ref i := by
  rw [h.refs i]
  have := List.count_pos_iff.mpr hi; omega

end

/-- The entries of `itable` in use while the code refers to `held`. -/
def used (s : State P) (held : List Inum) : ℕ := (Finset.univ.filter fun i => 0 < holders s i + held.count i).card

theorem Book.inTable (h : Book s held locks) : s.inTable = used s held := by
  unfold State.inTable used; simp only [h.refs]

theorem Frame.used (h : Frame s s') (held : List Inum) : used s' held = used s held := by
  unfold Inodes.used; simp only [h.holders]

theorem used_cons_le : used s (i :: held) ≤ used s held + 1 := by
  refine (Finset.card_le_card fun j hj => ?_).trans (Finset.card_insert_le i _)
  simp only [Finset.mem_filter, Finset.mem_univ, true_and, Finset.mem_insert] at hj ⊢
  by_cases hji : j = i
  · exact .inl hji
  · rw [count_cons_ne hji] at hj; exact .inr hj

section
variable {E : Panic → Prop} {parent : Bool} {name : Name} {path : Path}

theorem wp_iget (hI : NINODE ≤ used s held → E .igetNoInodes) (h : Book s held locks) (hk : Kept s held) :
    wp E (iget i) (fun _ s' => Same s s' ∧ Book s' (i :: held) locks) s := by
  unfold iget
  rw [wp_bind, wp_get]
  split_ifs with hpos hroom
  · exact ⟨same_setRef, h.more hpos⟩
  · have hi := h.refs i
    refine ⟨same_setRef, h.setRef ?_ (fun j hj => count_cons_ne hj) (fun hv => by cases hv)
      (fun ht hn _ => ?_) (fun hl => ?_)⟩
    · rw [List.count_cons_self]; omega
    · have hpos := hk i ht hn; omega
    · have hh := (h.locked i hl).2; omega
  · exact hI (by rw [← h.inTable]; exact not_lt.mp hroom)

theorem wp_idup (h : Book s held locks) (hpos : 0 < s.ref i) :
    wp E (idup i) (fun _ s' => Same s s' ∧ Book s' (i :: held) locks) s :=
  ⟨same_setRef, h.more hpos⟩

theorem wp_ilock (hD : i ∈ locks → E .deadlock) (h : Book s held locks) (hi : i ∈ held) (hT : (s.inode i).type = .free → E .ilockNoType) :
    wp E (ilock i) (fun _ s' => Same s s' ∧ Book s' held (i :: locks) ∧ i ∉ locks ∧
      (s.inode i).type ≠ .free) s := by
  have hpos := h.ref_pos hi
  unfold ilock
  rw [wp_bind, wp_get]
  split_ifs with href hl hv ht
  · omega
  · exact hD ((h.lock i).mp hl)
  · have hni : i ∉ locks := fun hm => hl ((h.lock i).mpr hm)
    exact ⟨same_setLocked, h.take hv hpos hni, hni, h.typed i hv hpos⟩
  · exact hT ht
  · have hni : i ∉ locks := fun hm => hl ((h.lock i).mpr hm)
    have hread : Book (s.setRef i (s.ref i) true) held locks :=
      h.setRef (h.refs i) (fun _ _ => rfl) (fun _ _ => ht) (fun _ _ _ => rfl) fun hm => absurd hm hni
    have hval : (s.setRef i (s.ref i) true).valid i = true := update_self _ _ _
    exact ⟨same_setRef.trans same_setLocked, hread.take hval (hread.ref_pos hi) hni, hni, ht⟩

theorem wp_ilock_new (hD : i ∈ locks → E .deadlock) (h : Book (s.setRef i (s.ref i) true) held locks) (hi : i ∈ held)
    (hv : s.valid i = false) (ht : (s.inode i).type ≠ .free) :
    wp E (ilock i) (fun _ s' => Same s s' ∧ Book s' held (i :: locks)) s := by
  have hpos := h.ref_pos hi
  have hval : (s.setRef i (s.ref i) true).valid i = true := update_self _ _ _
  unfold ilock
  rw [wp_bind, wp_get]
  split_ifs with href hl hv'
  · have hpos' : 0 < s.ref i := by rwa [← show (s.setRef i (s.ref i) true).ref i = s.ref i from update_self _ _ _]
    omega
  · exact hD ((h.lock i).mp hl)
  · rw [hv] at hv'; cases hv'
  · have hni : i ∉ locks := fun hm => hl ((h.lock i).mpr hm)
    exact ⟨same_setRef.trans same_setLocked, h.take hval hpos hni⟩

theorem wp_iunlock (h : Book s held (i :: locks)) :
    wp E (iunlock i) (fun _ s' => Same s s' ∧ Book s' held locks) s := by
  unfold iunlock
  rw [wp_bind, wp_get]
  split_ifs with hbad
  · have hpos := (h.locked i List.mem_cons_self).2
    rw [(h.lock i).mpr List.mem_cons_self] at hbad; simp at hbad; omega
  · exact ⟨same_setLocked, h.give⟩

theorem wp_iput (h : Book s (i :: held) locks) (hk : Kept s (i :: held)) (hl : i ∉ locks) :
    wp E (iput i) (fun _ s' => Frame s s' ∧ FreeStep s.inode s'.inode i ∧ Book s' held locks ∧ Kept s' held) s := by
  have hi := h.refs i
  rw [List.count_cons_self] at hi
  unfold iput
  rw [wp_bind, wp_get]
  split_ifs with hlast hlocked
  · exact absurd ((h.lock i).mp hlocked) hl
  · obtain ⟨hone, hvalid, hn⟩ := hlast
    have ht := h.typed i hvalid (by omega)
    have h0 : holders s i = 0 ∧ held.count i = 0 := by omega
    have hself : ((s.setInode i (s.inode i).freed).inode i) = (s.inode i).freed :=
      update_self _ _ _
    have hdrop : Book (s.setRef i (s.ref i - 1) false) held locks := by
      refine h.setRef (by omega) (fun j hj => (count_cons_ne hj).symm) (fun hf => by cases hf)
        (fun _ _ hr => ?_) fun hm => absurd hm hl
      omega
    have hbook : Book ((s.setRef i (s.ref i - 1) false).setInode i (s.inode i).freed) held locks := by
      refine hdrop.setInode _ (fun hf => ?_) (fun hf => absurd rfl hf) fun _ => ?_
      · rw [show (s.setRef i (s.ref i - 1) false).valid i = false from update_self _ _ _] at hf
        cases hf
      · rw [same_setRef.toFrame.holders, h0.1]
    refine ⟨frame_setInode.trans same_setRef.toFrame, .inr ⟨hn, ht, rfl⟩, hbook, fun j hj hnj => ?_⟩
    by_cases hji : j = i
    · rw [hji] at hj; exact absurd (congrArg Inode.type hself) hj
    · have hne : (s.setInode i (s.inode i).freed).inode j = s.inode j := update_of_ne hji _ _
      have hpos := hk j (by rw [← hne]; exact hj) (by rw [← hne]; exact hnj)
      rw [count_cons_ne hji] at hpos; exact hpos
  · refine ⟨same_setRef.toFrame, .inl rfl, h.less fun hm => absurd hm hl, fun j hj hnj => ?_⟩
    by_cases hji : j = i
    · rw [hji] at hj hnj ⊢
      -- there is another reference, as the inode has not been freed
      have hr : s.ref i ≠ 1 := fun hr => hlast ⟨hr, h.valid i hj hnj (by omega), hnj⟩
      show 0 < holders s i + held.count i; omega
    · have hpos := hk j hj hnj; rw [count_cons_ne hji] at hpos; exact hpos

theorem wp_iput_same (h : Book s (i :: held) locks) (hk : Kept s held) (hl : i ∈ locks → 1 < s.ref i) :
    wp E (iput i) (fun _ s' => Same s s' ∧ Book s' held locks) s := by
  have hi := h.refs i
  rw [List.count_cons_self] at hi
  unfold iput
  rw [wp_bind, wp_get]
  split_ifs with hlast hlocked
  · have := hl ((h.lock i).mp hlocked); omega
  · obtain ⟨hone, hvalid, hn⟩ := hlast
    have hpos := hk i (h.typed i hvalid (by omega)) hn; omega
  · exact ⟨same_setRef, h.less hl⟩

theorem wp_iunlockput_same (h : Book s (i :: held) (i :: locks)) (hk : Kept s held) :
    wp E (iunlockput i) (fun _ s' => Same s s' ∧ Book s' held locks) s := by
  have hl := (List.nodup_cons.mp h.nodup).1
  refine wp_seq (wp_iunlock h) fun _ s1 h1 => ?_
  obtain ⟨hs1, hb1⟩ := h1
  refine wp_mono (wp_iput_same hb1 (hk.same hs1) fun hm => absurd hm hl) fun _ s2 h2 => ?_
  exact ⟨hs1.trans h2.1, h2.2⟩

theorem wp_iunlockput (h : Book s (i :: held) (i :: locks)) (hk : Kept s (i :: held)) :
    wp E (iunlockput i) (fun _ s' => Frame s s' ∧ FreeStep s.inode s'.inode i ∧ Book s' held locks ∧
      Kept s' held) s := by
  have hl := (List.nodup_cons.mp h.nodup).1
  refine wp_seq (wp_iunlock h) fun _ s1 h1 => ?_
  obtain ⟨hs1, hb1⟩ := h1
  refine wp_mono (wp_iput hb1 (hk.same hs1) hl) fun _ s2 h2 => ?_
  rw [hs1.inode] at h2; exact ⟨hs1.toFrame.trans h2.1, h2.2⟩

theorem wp_dirlookup {dp : Inum} (hI : NINODE ≤ used s held → E .igetNoInodes)
    (hN : (s.inode dp).type ≠ .dir → E .dirlookupNotDir) (h : Book s held locks) (hk : Kept s held) :
    wp E (dirlookup dp name) (fun r s' => Same s s' ∧ r = lookup name 0 (s.inode dp).entries ∧
      Book s' ((r.map Prod.fst).toList ++ held) locks) s := by
  unfold dirlookup
  rw [wp_bind, wp_get]
  split_ifs with ht
  · cases hr : lookup name 0 (s.inode dp).entries with
    | none => exact ⟨.refl s, rfl, h⟩
    | some r =>
      refine wp_seq (wp_iget hI h hk) fun _ s1 h1 => ?_
      exact ⟨h1.1, rfl, h1.2⟩
  · exact hN ht

/-- While it walks, `namex` refers to the inode that it looks into and to the one found there. -/
theorem wp_namexLoop {names : List Name} {ip : Inum} (hI : NINODE ≤ used s held + 1 → E .igetNoInodes)
    (h : Book s (ip :: held) []) (hk : Kept s held)
    (hT : ∀ i, (s.inode i).type = .free → i = ip ∨ Named s i → E .ilockNoType) :
    wp E (namexLoop parent names name ip) (fun r s' => Same s s' ∧ r = walk s.inode parent names name ip ∧
      Book s' ((r.map Prod.fst).toList ++ held) []) s := by
  induction names generalizing s name ip with
  | nil =>
    unfold namexLoop walk
    split_ifs
    · refine wp_seq (wp_iput_same h hk fun hm => absurd hm List.not_mem_nil) fun _ s1 h1 => ?_
      exact ⟨h1.1, rfl, h1.2⟩
    · exact ⟨.refl s, rfl, h⟩
  | cons n rest ih =>
    unfold namexLoop walk
    refine wp_seq (wp_ilock (fun hm => absurd hm List.not_mem_nil) h List.mem_cons_self fun ht => hT ip ht (.inl rfl)) fun _ s1 h1 => ?_
    obtain ⟨hs1, hb1, -, -⟩ := h1
    rw [wp_bind, wp_get, hs1.inode]
    split_ifs with hd hlast
    · refine wp_seq (wp_iunlockput_same hb1 (hk.same hs1)) fun _ s2 h2 => ?_
      exact ⟨hs1.trans h2.1, rfl, h2.2⟩
    · refine wp_seq (wp_iunlock hb1) fun _ s2 h2 => ?_
      exact ⟨hs1.trans h2.1, rfl, h2.2⟩
    · rw [not_not] at hd
      refine wp_seq (wp_dirlookup (fun hfull => hI ?_) (fun hn => absurd (by rw [hs1.inode]; exact hd) hn) hb1 ((hk.same hs1).cons ip)) fun r s2 h2 => ?_
      · rw [hs1.toFrame.used] at hfull; exact hfull.trans used_cons_le
      obtain ⟨hs2, hr, hb2⟩ := h2
      rw [hs1.inode] at hr
      have hs := hs1.trans hs2
      cases r with
      | none =>
        rw [← hr]
        refine wp_seq (wp_iunlockput_same hb2 (hk.same hs)) fun _ s3 h3 => ?_
        exact ⟨hs.trans h3.1, rfl, h3.2⟩
      | some r =>
        rw [← hr]
        -- the reference to the next inode is held before the one to this inode is given up
        have hb2' : Book s2 (ip :: r.1 :: held) [ip] := hb2.perm (.swap _ _ _) (.refl _)
        refine wp_seq (wp_iunlockput_same hb2' ((hk.same hs).cons _)) fun _ s3 h3 => ?_
        have hs3 := hs.trans h3.1
        refine wp_mono (ih ?_ h3.2 (hk.same hs3) fun i hi hor => ?_) fun r' s4 h4 => ?_
        · rw [hs3.toFrame.used]; exact hI
        · rw [hs3.inode] at hi
          refine hT i hi (.inr ?_)
          rcases hor with rfl | ⟨d, hdir, de, hde, hdi⟩
          · exact lookup_named hd hr.symm
          · rw [hs3.inode] at hdir hde; exact ⟨d, hdir, de, hde, hdi⟩
        · rw [hs3.inode] at h4; exact ⟨hs3.trans h4.1, h4.2⟩

theorem wp_namex {p : P} (hI : NINODE ≤ used s held + 1 → E .igetNoInodes) (h : Book s held []) (hk : Kept s held)
    (hp : s.cwd p ≠ none) (hT : Walkable E s p path) :
    wp E (namex p path parent) (fun r s' => Same s s' ∧ r = found s p path parent ∧
      Book s' ((r.map Prod.fst).toList ++ held) []) s := by
  unfold namex found
  rw [wp_bind, wp_get]
  cases hstart : s.start p path with
  | none =>
    unfold State.start at hstart
    split_ifs at hstart; exact absurd hstart hp
  | some ip =>
    have hget : wp E (getStart path ip) (fun _ s' => Same s s' ∧ Book s' (ip :: held) []) s := by
      unfold getStart
      unfold State.start at hstart
      split_ifs at hstart ⊢
      · exact wp_iget (fun hfull => hI (Nat.le_succ_of_le hfull)) h hk
      · refine wp_idup h ?_
        rw [h.refs ip]
        have hpos : 0 < holders s ip := refs_pos.mpr ⟨.inl p, hstart⟩; omega
    refine wp_seq hget fun _ s1 h1 => ?_
    obtain ⟨hs1, hb1⟩ := h1
    refine wp_mono (wp_namexLoop (by rwa [hs1.toFrame.used]) hb1 (hk.same hs1) fun i hi hor => ?_) fun r s2 h2 => ?_
    · rw [hs1.inode] at hi
      refine hT i hi ?_
      rcases hor with rfl | ⟨d, hdir, de, hde, hdi⟩
      · exact .inl hstart
      · rw [hs1.inode] at hdir hde; exact .inr ⟨d, hdir, de, hde, hdi⟩
    · rw [hs1.inode] at h2; exact ⟨hs1.trans h2.1, h2.2⟩

theorem wp_namei {p : P} (hI : NINODE ≤ used s held + 1 → E .igetNoInodes) (h : Book s held []) (hk : Kept s held)
    (hp : s.cwd p ≠ none) (hT : Walkable E s p path) :
    wp E (namei p path) (fun r s' => Same s s' ∧ r = (found s p path false).map Prod.fst ∧
      Book s' (r.toList ++ held) []) s := by
  refine wp_seq (wp_namex hI h hk hp hT) fun r s1 h1 => ?_
  obtain ⟨hs, rfl, hb⟩ := h1; exact ⟨hs, rfl, hb⟩

end

end Xv6.Syscall.Inodes
