import Xv6.Syscall.Directories
import Xv6.Syscall.System

/-!
# Link counts and dangling entries over whole runs

From a fresh image, calls that are `Tidy` keep the directories a tree and the links counted (`links_counted`).
When also no call removes the parent of a directory without links (`Upright`), no entry of an allocated directory
names a free inode (`entries_allocated`).  The entries of a removed current directory are not counted any more.
-/

namespace Xv6.Syscall.Counts

open Param Vm.Copy Lib.Runs Lib.Stateful Lib.RefCount Lib.NameTree List Function Nat
open Syscall.Defs Syscall.Inodes Syscall.Linking Syscall.Links Syscall.Descriptors
open Syscall.Opening Syscall.Directories Syscall.System

variable {P : Type} [DecidableEq P] {s s' : State P} {p : P} {c : Call P} {r : ℤ}

/-! ## The fresh image -/

def Image.files (img : Image) : List Inum := (List.range img.names.length).map fun k => Fin.ofNat NINODES (k + 2)

theorem val_file (img : Image) {k : ℕ} (hk : k < img.names.length) : (Fin.ofNat NINODES (k + 2)).val = k + 2 := by
  have := img.fits; exact mod_eq_of_lt (by omega)

variable {i : Inum}

theorem mem_files {img : Image} : i ∈ Image.files img ↔ 2 ≤ i.val ∧ i.val < img.names.length + 2 := by
  unfold Image.files
  rw [mem_map]
  constructor
  · rintro ⟨k, hk, rfl⟩; rw [mem_range] at hk; rw [val_file img hk]; omega
  · rintro ⟨h1, h2⟩
    refine ⟨i.val - 2, mem_range.mpr (by omega), Fin.ext ?_⟩
    rw [val_file img (by omega)]; omega

theorem nodup_files (img : Image) : (Image.files img).Nodup := by
  refine List.Nodup.map_on (fun a ha b hb he => ?_) nodup_range
  rw [mem_range] at ha hb
  have hval := congrArg Fin.val he
  rw [val_file img ha, val_file img hb] at hval; omega

theorem inums_append (es es' : List Dirent) : inums (es ++ es') = inums es + inums es' := by
  unfold inums
  rw [map_append, filter_append, Multiset.coe_add]

theorem inums_rest (img : Image) : inums img.rest = (Image.files img : List Inum) := by
  unfold Image.rest
  rw [inums_append]
  have hpad : ∀ n, inums (List.replicate n ⟨0, []⟩) = 0 := by
    intro n
    induction n with
    | zero => rfl
    | succ n ih => rw [replicate_succ, inums_cons, if_pos rfl, ih]
  have hfiles : (img.names.zipIdx.map fun x => (⟨Fin.ofNat NINODES (x.2 + 2), x.1⟩ : Dirent)).map Dirent.inum =
      Image.files img := by
    unfold Image.files
    rw [map_map, range_eq_range', ← zipIdx_map_snd 0 img.names, map_map]; rfl
  rw [hpad, add_zero]
  unfold inums
  rw [hfiles, filter_eq_self.mpr]
  intro i hi
  rw [mem_files] at hi
  refine decide_eq_true fun h0 => ?_
  rw [h0] at hi; exact absurd hi.1 (by decide)

theorem root_not_file (img : Image) : ROOTINO ∉ Image.files img := by
  rw [mem_files]
  intro h; exact absurd h.1 (by decide)

theorem shape_root (img : Image) : Shape ROOTINO (img.inode ROOTINO) ROOTINO img.rest := by
  have hone : (1 : BitVec 16) ≠ 0 := by decide
  refine ⟨rfl, by decide, fun de hde h0 => ?_, fun h0 => absurd h0 hone⟩
  rcases mem_append.mp hde with hde | hde
  · obtain ⟨x, hx, rfl⟩ := mem_map.mp hde
    exact img.plain x.1 (fst_mem_of_mem_zipIdx hx)
  · rw [eq_of_mem_replicate hde] at h0; exact absurd rfl h0

theorem linked_root (img : Image) : isLinked (img.inode ROOTINO) := by
  exact ⟨rfl, (by decide : (1 : BitVec 16) ≠ 0)⟩

theorem not_dir {img : Image} (hi : i ≠ ROOTINO) : (img.inode i).type ≠ .dir := by
  unfold Image.inode
  rw [if_neg hi]
  split_ifs <;> exact InodeType.noConfusion

section
variable (img : Image)
include img

theorem par_image : par img.inode = update (fun _ => none) ROOTINO (some ROOTINO) := by
  funext i
  by_cases hi : i = ROOTINO
  · rw [hi]; exact (shape_root img).parentOf_eq (linked_root img)
  · rw [update_of_ne hi]; exact par_eq_none (not_linked_of_type (not_dir hi))

theorem kids_image : kids img.inode = update (fun _ => 0) ROOTINO (Image.files img : List Inum) := by
  funext i
  by_cases hi : i = ROOTINO
  · rw [hi, ← inums_rest]; exact (shape_root img).kidsOf_eq (linked_root img)
  · rw [update_of_ne hi]; exact kids_eq_zero (not_linked_of_type (not_dir hi))

theorem names_image (i : Inum) : names (kids img.inode) i = (Image.files img).count i := by
  have h : names (update (fun _ : Inum => (0 : Multiset Inum)) ROOTINO _) i + _ = _ :=
    names_update (Image.files img : List Inum)
  have h0 : names (fun _ : Inum => (0 : Multiset Inum)) i = 0 := Finset.sum_const_zero
  rw [Multiset.count_zero, h0, zero_add, add_zero, Multiset.coe_count] at h
  rw [kids_image, h]

theorem tree_image : Tree img.inode := by
  have htop : par img.inode ROOTINO = some ROOTINO := by rw [par_image, update_self]
  have honly : ∀ d, par img.inode d ≠ none → d = ROOTINO := by
    intro d hd
    by_contra hne
    rw [par_image, update_of_ne hne] at hd; exact hd rfl
  have hkid : ∀ d i, i ∈ kids img.inode d → d = ROOTINO ∧ i ∈ Image.files img := by
    intro d i hi
    rw [kids_image] at hi
    by_cases hd : d = ROOTINO
    · rw [hd] at hi; exact ⟨hd, hi⟩
    · rw [update_of_ne hd] at hi; exact absurd hi (Multiset.notMem_zero i)
  refine ⟨fun d hd => ?_, ⟨htop, ?_, fun d hd hne => absurd (honly d hd) hne, fun d i hi r hr => ?_,
    fun d i hi => ?_⟩, fun i hi => ?_, fun i hi => ?_, ?_⟩
  · by_cases hdr : d = ROOTINO
    · rw [hdr]; exact ⟨_, _, shape_root img⟩
    · exact absurd hd (not_dir hdr)
  · rw [names_image]; exact count_eq_zero_of_not_mem (root_not_file img)
  · have hroot := honly i (by rw [hr]; exact Option.some_ne_none r)
    rw [hroot] at hi; exact absurd (hkid d ROOTINO hi).2 (root_not_file img)
  · rw [(hkid d i hi).1]; exact Option.some_ne_none _
  · have hrefs : refs (par img.inode) i = if i = ROOTINO then 1 else 0 := by
      have hnone : refs (fun _ : Inum => (none : Option Inum)) i = 0 := refs_eq_zero.mpr fun _ => nofun
      rw [par_image, refs_take rfl, hnone, zero_add]
    rw [total, names_image, hrefs]
    by_cases hr : i = ROOTINO
    · rw [hr, count_eq_zero_of_not_mem (root_not_file img)]; rfl
    · unfold Image.inode
      split_ifs with hfile
      · rw [count_eq_one_of_mem (nodup_files img) (mem_files.mpr hfile)]; rfl
      · rw [count_eq_zero_of_not_mem fun hm => hfile (mem_files.mp hm)]
        rfl
  · unfold Image.inode at hi ⊢
    split_ifs at hi ⊢
    · show (1 : BitVec 16).toNat ≤ SHRT_MAX; decide
    · show (1 : BitVec 16).toNat ≤ SHRT_MAX; decide
    · exact absurd rfl hi
  · rfl

theorem sheltered_image : Sheltered img.inode := by
  intro d hd
  have hroot : d = ROOTINO := by by_contra hne; exact not_dir hne hd.1
  rw [hroot] at hd; exact absurd hd.2 (linked_root img).2

end

/-- No entry is made in a directory without links, and no `nlink` of 32767 is raised. -/
def Tidy (s : State P) (p : P) : Call P → Prop
  | .sysOpen path omode room => omode &&& O_CREATE ≠ 0 → ∀ q dp name ip, path = some q →
      Creates s p q .file room dp name ip → (s.inode dp).nlink ≠ 0
  | .sysMkdir path room => ∀ q dp name ip, path = some q → Creates s p q .dir room dp name ip →
      (s.inode dp).nlink ≠ 0 ∧ (s.inode dp).nlink.toNat ≠ SHRT_MAX
  | .sysMknod path _ _ room => ∀ q dp name ip, path = some q → Creates s p q .device room dp name ip →
      (s.inode dp).nlink ≠ 0
  | .sysLink old new room => ∀ o n ip last dp name, old = some o → new = some n →
      found s p o false = some (ip, last) → (s.inode ip).type ≠ .dir → found s p n true = some (dp, name) →
      lookup name 0 (s.inode dp).entries = none → hasRoom (s.inode dp).entries room = true →
      (s.inode dp).nlink ≠ 0 ∧ (s.inode ip).nlink.toNat ≠ SHRT_MAX
  | _ => True

/-- No directory is removed that the `..` of an allocated directory without links names. -/
def Upright (s : State P) (p : P) : Call P → Prop
  | .sysUnlink path => ∀ dp ip name off, Finds s p path dp ip name off → (s.inode ip).type = .dir →
      isdirempty (s.inode ip).entries = true → ∀ d, isOrphan (s.inode d) → dotdotOf (s.inode d) ≠ some ip
  | _ => True

variable {dp ip : Inum} {name : Name}

omit [DecidableEq P] in
theorem Finds.dir {path : Option Path} {off : ℕ}
    (h : Finds s p path dp ip name off) : (s.inode dp).type = .dir := by
  obtain ⟨q, -, hq⟩ := Option.bind_eq_some_iff.mp h.parent
  exact found_parent_dir hq

variable {m : Inum → Inode}

omit [DecidableEq P] in
theorem tree_made {q : Path} {type : InodeType} {major minor : BitVec 16} {room : Room}
    (h : Tree s.inode) (hc : Creates s p q type room dp name ip)
    (hn : (s.inode dp).nlink ≠ 0) (htype : type ≠ .free) (hmax : type = .dir → (s.inode dp).nlink.toNat ≠ SHRT_MAX)
    (hfree : FreeStep (created s.inode dp ip name type major minor) m dp) :
    Tree m ∧ (Sheltered s.inode → Sheltered m) := by
  have hdp : isLinked (s.inode dp) := ⟨found_parent_dir hc.parent, hn⟩
  obtain ⟨hip0, hipf⟩ := freeInode_eq_some hc.free
  exact ⟨(h.created hdp hipf hip0 hc.absent htype hmax).free hfree, fun ho => (ho.created h hdp hipf).free hfree⟩

variable {m' : Inum → Inode}

theorem tree_alike (h : Tree m) (ha : Alike m m') : Tree m' ∧ (Sheltered m → Sheltered m') :=
  ⟨h.alike ha, fun ho => ho.congr (fun i => (ha i).1) fun i hi => by rw [(ha i).2 hi]; exact ⟨rfl, rfl⟩⟩

theorem tree_trunc (h : Tree m) (ht : TruncStep m m' ip) : Tree m' ∧ (Sheltered m → Sheltered m') := by
  have hsame : ∀ i, (m' i).type = (m i).type ∧ (m' i).nlink = (m i).nlink ∧ (m' i).entries = (m i).entries := by
    intro i
    rcases ht with rfl | rfl
    · exact ⟨rfl, rfl, rfl⟩
    · by_cases hi : i = ip
      · rw [hi, update_self]; exact ⟨rfl, rfl, rfl⟩
      · rw [update_of_ne hi]; exact ⟨rfl, rfl, rfl⟩
  exact ⟨h.congr (fun i => (hsame i).1) fun i _ => (hsame i).2,
    fun ho => ho.congr (fun i => (hsame i).1) fun i _ => (hsame i).2⟩

theorem tree_frees (h : Tree m) (hf : Frees m m') : Tree m' ∧ (Sheltered m → Sheltered m') := by
  induction hf with
  | refl => exact ⟨h, id⟩
  | tail _ hstep ih =>
    obtain ⟨i, hi⟩ := hstep; exact ⟨ih.1.free hi, fun ho => (ih.2 ho).free hi⟩

omit [DecidableEq P] in
theorem tree_step (h : Tree s.inode) (heff : Effect s p c r s') (hok : Tidy s p c) :
    Tree s'.inode ∧ (Upright s p c → Sheltered s.inode → Sheltered s'.inode) := by
  have hdone : ∀ {m : Inum → Inode}, Tree m ∧ (Sheltered s.inode → Sheltered m) →
      Tree m ∧ (Upright s p c → Sheltered s.inode → Sheltered m) := fun hm => ⟨hm.1, fun _ => hm.2⟩
  cases c with
  | sysOpen path omode room =>
    refine hdone ?_
    obtain ⟨-, heff⟩ := heff
    cases heff with
    | failed hf ha hno => exact tree_alike h ha
    | leftover hq ho hc hfull hf hfree =>
      exact tree_made h hc (hok ho _ _ _ _ hq hc) InodeType.noConfusion InodeType.noConfusion hfree
    | opened hr hfull hm htrunc =>
      rcases hm with hm | ⟨ho, q, dp, name, hq, hc, hfree⟩
      · rw [hm] at htrunc; exact tree_trunc h htrunc
      · obtain ⟨h1, h2⟩ :=
          tree_made h hc (hok ho _ _ _ _ hq hc) InodeType.noConfusion InodeType.noConfusion hfree
        obtain ⟨h3, h4⟩ := tree_trunc h1 htrunc; exact ⟨h3, h4 ∘ h2⟩
  | sysMkdir path room =>
    refine hdone ?_
    obtain ⟨-, heff⟩ := heff
    generalize s'.inode = m at heff ⊢
    cases heff with
    | failed ha => exact tree_alike h ha
    | made hq hc hfree =>
      obtain ⟨hn, hmax⟩ := hok _ _ _ _ hq hc
      exact tree_made h hc hn InodeType.noConfusion (fun _ => hmax) hfree
  | sysMknod path major minor room =>
    refine hdone ?_
    obtain ⟨-, heff⟩ := heff
    generalize s'.inode = m at heff ⊢
    cases heff with
    | failed ha => exact tree_alike h ha
    | made hq hc hfree =>
      exact tree_made h hc (hok _ _ _ _ hq hc) InodeType.noConfusion InodeType.noConfusion hfree
  | sysLink old new room =>
    refine hdone ?_
    obtain ⟨-, heff⟩ := heff
    generalize s'.inode = m at heff ⊢
    cases heff with
    | failed => exact ⟨h, id⟩
    | made ho hn hfound hdir hip hfound' hno hroom hfree =>
      obtain ⟨hn0, hmax⟩ := hok _ _ _ _ _ _ ho hn hfound hdir hfound' hno hroom
      have hdp : isLinked (s.inode _) := ⟨found_parent_dir hfound', hn0⟩
      exact ⟨(h.linked hdp hdir hip hno hmax).free hfree, fun hsh => (hsh.linked hdp hdir).free hfree⟩
  | sysUnlink path =>
    obtain ⟨-, heff⟩ := heff
    generalize s'.inode = m at heff ⊢
    cases heff with
    | failed => exact ⟨h, fun _ => id⟩
    | made hfinds hne hnlink hempty hfree hfree' =>
      have hdir := Finds.dir hfinds
      obtain ⟨hn0, ht⟩ := h.unlinked hdir hfinds.ne_dot hfinds.ne_dotdot hfinds.entry hne hempty
      have hm := hfree.of_nlink hn0
      rw [hm] at hfree'
      refine ⟨ht.free hfree', fun hup hsh => Sheltered.free ?_ hfree'⟩
      exact hsh.unlinked h hdir hfinds.ne_dot hfinds.ne_dotdot hfinds.entry hne hn0
        fun hd => hup _ _ _ _ hfinds hd (hempty hd)
  | sysChdir path =>
    refine hdone ?_
    replace heff : ChdirEffect s r s' := heff
    cases heff with
    | failed hf hm => rw [hm]; exact ⟨h, id⟩
    | moved hfree => exact ⟨h.free hfree, fun hsh => hsh.free hfree⟩
  | sysClose fd | sysDup fd | sysPipe page copied | fork np ok | forkWithPriority np ok | exec path e | exit =>
    exact hdone (tree_frees h heff)

variable [Fintype P] {h : List (State P × P × Call P)}

/-! ## Link counts -/

theorem tree_run (hr : Run (sys Fresh) h s) (hok : ∀ x ∈ h, Tidy x.1 x.2.1 x.2.2) : Good s ∧ Tree s.inode := by
  refine hr.inv_of_ok (I := fun s => Good s ∧ Tree s.inode) (C := fun s e => Tidy s e.1 e.2)
    (fun t ht => ?_) (fun t e t' hi hC hs => ?_) hok
  · obtain ⟨img, q, rfl⟩ := id ht
    exact ⟨(Fresh.booted ht).good, tree_image img⟩
  · obtain ⟨hen, r, hrun⟩ := hs
    obtain ⟨hgood, -, heff⟩ := run_ok hi.1 hen hrun
    exact ⟨hgood, (tree_step hi.2 heff hC).1⟩

theorem toInt_nlink (h : Tree m) (hi : (m i).type ≠ .free) : (m i).nlink.toInt = (m i).nlink.toNat := by
  have hsmall := h.small i hi
  unfold SHRT_MAX at hsmall
  rw [BitVec.toInt_eq_toNat_cond, if_pos (by omega)]

theorem nlink_eq_entryCount (h : Tree m) (hi : (m i).type ≠ .free) : (m i).nlink.toInt = entryCount m i := by
  have hi0 := h.ne_zero hi
  rw [toInt_nlink h hi, h.entryCount_eq hi0, h.count i hi0, links_of_ne hi]

omit [Fintype P] [DecidableEq P] in
theorem one_le_nlink (h : Tree s.inode) {path : Option Path} {off : ℕ}
    (hf : Finds s p path dp ip name off) : 1 ≤ (s.inode ip).nlink.toInt := by
  obtain ⟨-, hmem⟩ := h.found (Finds.dir hf) hf.ne_dot hf.ne_dotdot hf.entry
  obtain ⟨hip, hn⟩ := h.named hmem
  rw [toInt_nlink h hip]
  have hpos : (s.inode ip).nlink.toNat ≠ 0 := fun h0 => hn (BitVec.eq_of_toNat_eq h0)
  omega

/-- **Links are counted.**  In every run from a fresh image whose calls are all tidy, the `nlink` of an
allocated inode is the number of entries for it, other than `.`, in directories with links; a free inode
has no such entry, an inode with links has one, and no call panics with `unlink: nlink < 1`. -/
theorem links_counted {h : List (State P × P × Call P)} (hr : Run (sys Fresh) h s)
    (hok : ∀ x ∈ h, Tidy x.1 x.2.1 x.2.2) :
    (∀ i, (s.inode i).type ≠ .free → (s.inode i).nlink.toInt = entryCount s.inode i) ∧
    (∀ i, i ≠ 0 → (s.inode i).type = .free → entryCount s.inode i = 0) ∧
    (∀ i, (s.inode i).type ≠ .free → 0 < (s.inode i).nlink.toInt → ∃ d, isLinked (s.inode d) ∧
      ∃ de ∈ (s.inode d).entries, de.inum = i ∧ de.name ≠ dot) ∧
    ∀ p (c : Call P), Enabled s p c → run p c s ≠ .error .unlinkNlink := by
  obtain ⟨hgood, ht⟩ := tree_run hr hok
  refine ⟨fun i hi => nlink_eq_entryCount ht hi, fun i hi0 hi => ?_, fun i hi hpos => ?_,
    fun p c hen herr => ?_⟩
  · rw [ht.entryCount_eq hi0, ht.count i hi0, links, if_pos hi]
  · rw [nlink_eq_entryCount ht hi] at hpos
    have hsum : entryCount s.inode i ≠ 0 := by omega
    obtain ⟨d, -, hd⟩ := Finset.exists_ne_zero_of_sum_ne_zero hsum
    split_ifs at hd with hl
    · obtain ⟨de, hde, hprop⟩ := countP_pos_iff.mp (pos_of_ne_zero hd)
      exact ⟨d, hl, de, hde, of_decide_eq_true hprop⟩
    · exact absurd rfl hd
  · have hwp := wp_run (E := fun e => e ≠ .unlinkNlink)
      (fun e he => by cases e <;> first | decide | exact absurd he (by decide)) hgood hen
      (fun _ _ _ _ => by decide) fun path dp ip name off _ hf hn => by
        have := one_le_nlink ht hf; omega
    exact (wp_iff.mp hwp).2 _ herr rfl

def firstDir : Bool × Call Bool := (false, .sysMkdir (some [100]) ⟨true, true⟩)

theorem tidy_firstDir : Tidy (emptyImage.boot false) firstDir.1 firstDir.2 := by
  intro q dp name ip hq hc
  cases hq
  have hfound : found (emptyImage.boot false) false [100] true = some (ROOTINO, [100]) := by
    decide +kernel
  have hparent : found (emptyImage.boot false) false [100] true = some (dp, name) := hc.parent
  rw [hfound] at hparent
  rw [← (Prod.mk.inj (Option.some.inj hparent)).1]; decide +kernel

theorem run_firstDir : ∃ (s : State Bool) (h : _), Run (sys Fresh) h s ∧
    (∀ x ∈ h, x = (emptyImage.boot false, firstDir)) ∧ (s.inode ROOTINO).nlink = 2 ∧
    (s.inode ROOTINO).type ≠ .free ∧ (s.inode 2).type = .dir := by
  have h0 : Fresh (emptyImage.boot false) := ⟨emptyImage, false, rfl⟩
  obtain ⟨s, hr, -, ht⟩ := exists_run (T := sys Fresh) (f := next) sys_next h0 [firstDir]
    (fun s => decide ((s.inode ROOTINO).nlink = 2 ∧ (s.inode ROOTINO).type ≠ .free ∧
      (s.inode 2).type = .dir)) (by decide +kernel)
  refine ⟨s, _, hr, fun x hx => ?_, of_decide_eq_true ht⟩
  rw [stepsOf] at hx
  rcases mem_cons.mp hx with rfl | hx
  · rfl
  · split at hx <;> cases hx

/-- After `mkdir("d")` the root directory has two links, from its own `..` and from the one of `d`. -/
theorem links_counted_dir : ∃ s : State Bool, (s.inode ROOTINO).nlink = 2 ∧
    entryCount s.inode ROOTINO = 2 := by
  obtain ⟨s, h, hr, honly, hn, ht, -⟩ := run_firstDir
  refine ⟨s, hn, ?_⟩
  have hcount := (links_counted hr fun x hx => by
    rw [honly x hx]
    exact tidy_firstDir).1 ROOTINO ht
  rw [hn] at hcount; exact Int.ofNat.inj hcount.symm

def createInRemoved : List (Bool × Call Bool) :=
  [(false, .sysMkdir (some [100]) ⟨true, true⟩), (false, .sysChdir (some [100])),
    (false, .sysUnlink (some [46, 46, 47, 100])), (false, .sysOpen (some [120]) O_CREATE ⟨true, true⟩)]

/-- `mkdir("d"); chdir("d"); unlink("../d"); open("x", O_CREATE)`: the new file has `nlink` 1 and no entry
in a directory with links. -/
theorem file_in_removed : ∃ s : State Bool, Reachable (sys Fresh) s ∧ (s.inode 3).type = .file ∧
    (s.inode 3).nlink.toInt = 1 ∧ entryCount s.inode 3 = 0 := by
  have h0 : Fresh (emptyImage.boot false) := ⟨emptyImage, false, rfl⟩
  obtain ⟨s, hr, -, ht⟩ := exists_run (T := sys Fresh) (f := next) sys_next h0 createInRemoved
    (fun s => decide ((s.inode 3).type = .file ∧ (s.inode 3).nlink.toInt = 1 ∧ entryCount s.inode 3 = 0))
    (by decide +kernel)
  exact ⟨s, ⟨_, hr⟩, of_decide_eq_true ht⟩

theorem sheltered_run (hr : Run (sys Fresh) h s) (hok : ∀ x ∈ h, Tidy x.1 x.2.1 x.2.2 ∧ Upright x.1 x.2.1 x.2.2) :
    Good s ∧ Tree s.inode ∧ Sheltered s.inode := by
  refine hr.inv_of_ok (I := fun s => Good s ∧ Tree s.inode ∧ Sheltered s.inode)
    (C := fun s e => Tidy s e.1 e.2 ∧ Upright s e.1 e.2) (fun t ht => ?_) (fun t e t' hi hC hs => ?_) hok
  · obtain ⟨img, q, rfl⟩ := id ht
    exact ⟨(Fresh.booted ht).good, tree_image img, sheltered_image img⟩
  · obtain ⟨hen, r, hrun⟩ := hs
    obtain ⟨hgood, -, heff⟩ := run_ok hi.1 hen hrun
    obtain ⟨ht, hsh⟩ := tree_step hi.2.1 heff hC.1
    exact ⟨hgood, ht, hsh hC.2 hi.2.2⟩

/-- **No entry dangles.**  In every run from a fresh image whose calls are all tidy and upright, every entry
of every allocated directory names an allocated inode, and `..` a directory.  The inode that `ialloc` takes
has no entry, and no call panics with `ilock: no type`. -/
theorem entries_allocated {h : List (State P × P × Call P)} (hr : Run (sys Fresh) h s)
    (hok : ∀ x ∈ h, Tidy x.1 x.2.1 x.2.2 ∧ Upright x.1 x.2.1 x.2.2) :
    (∀ d, (s.inode d).type = .dir → ∀ de ∈ (s.inode d).entries, de.inum ≠ 0 →
      (s.inode de.inum).type ≠ .free ∧ (de.name = dotdot → (s.inode de.inum).type = .dir)) ∧
    (∀ ip, s.freeInode = some ip → ∀ d, (s.inode d).type = .dir → ∀ de ∈ (s.inode d).entries, de.inum ≠ ip) ∧
    ∀ p (c : Call P), Enabled s p c → run p c s ≠ .error .ilockNoType := by
  obtain ⟨hgood, ht, hsh⟩ := sheltered_run hr hok
  have hnamed : ∀ i, (s.inode i).type = .free → ¬ Named s i := by
    rintro i hi ⟨d, hd, de, hde, rfl, h0⟩
    exact (ht.no_dangling hsh hd hde h0).1 hi
  refine ⟨fun d hd de hde h0 => ht.no_dangling hsh hd hde h0, fun ip hip d hd de hde he => ?_,
    fun p c hen herr => ?_⟩
  · obtain ⟨hip0, hipf⟩ := freeInode_eq_some hip
    exact hnamed ip hipf ⟨d, hd, de, hde, he, hip0⟩
  · have hroot : (s.inode ROOTINO).type ≠ .free := by
      have hl := ht.linked_iff.mp (show par s.inode ROOTINO ≠ none by
        rw [ht.rooted.top]
        exact Option.some_ne_none _)
      rw [hl.1]; exact InodeType.noConfusion
    have hwalk : ∀ path, Walkable (fun e => e ≠ .ilockNoType) s p path := by
      intro path i hi hor
      rcases hor with hstart | hn
      · unfold State.start at hstart
        split_ifs at hstart
        · rw [← Option.some.inj hstart] at hi; exact absurd hi hroot
        · have hpos : 0 < holders s i := refs_pos.mpr ⟨.inl p, hstart⟩
          rw [hgood.whole.account.book.alloc i hi] at hpos
          exact absurd hpos (lt_irrefl 0)
      · exact absurd hn (hnamed i hi)
    have hwp := wp_run
      (fun e he => by cases e <;> first | decide | exact absurd he (by decide)) hgood hen hwalk
      fun _ _ _ _ _ _ _ _ => by decide
    exact (wp_iff.mp hwp).2 _ herr rfl

/-- After `mkdir("d")` the `..` of `d` names a directory. -/
theorem entries_allocated_dir : ∃ s : State Bool, (s.inode 2).type = .dir ∧
    ∀ de ∈ (s.inode 2).entries, de.inum ≠ 0 → (s.inode de.inum).type ≠ .free ∧
      (de.name = dotdot → (s.inode de.inum).type = .dir) := by
  obtain ⟨s, h, hr, honly, -, -, hdir⟩ := run_firstDir
  refine ⟨s, hdir, (entries_allocated hr fun x hx => ?_).1 2 hdir⟩
  rw [honly x hx]; exact ⟨tidy_firstDir, trivial⟩

def removeParent : List (Bool × Call Bool) :=
  [(false, .sysMkdir (some [97]) ⟨true, true⟩), (false, .sysMkdir (some [97, 47, 98]) ⟨true, true⟩),
    (false, .sysChdir (some [97, 47, 98])), (false, .sysUnlink (some [46, 46, 47, 98])),
    (false, .sysUnlink (some [47, 97]))]

/-- `mkdir("a"); mkdir("a/b"); chdir("a/b"); unlink("../b"); unlink("/a")`: the `..` of the current directory
names a free inode, and `open("..")` panics. -/
theorem parent_removed : ∃ s : State Bool, Reachable (sys Fresh) s ∧
    (∃ d, (s.inode d).type = .dir ∧ ∃ de ∈ (s.inode d).entries, de.inum ≠ 0 ∧
      (s.inode de.inum).type = .free) ∧ Enabled s false (.sysOpen (some dotdot) 0 ⟨true, true⟩) ∧
    run false (.sysOpen (some dotdot) 0 ⟨true, true⟩) s = .error .ilockNoType := by
  have h0 : Fresh (emptyImage.boot false) := ⟨emptyImage, false, rfl⟩
  obtain ⟨s, hr, -, ht⟩ := exists_run (T := sys Fresh) (f := next) sys_next h0 removeParent
    (fun s => decide ((s.inode 3).type = .dir ∧ (⟨2, dotdot⟩ : Dirent) ∈ (s.inode 3).entries ∧
      (s.inode 2).type = .free ∧ Enabled s false (.sysOpen (some dotdot) 0 ⟨true, true⟩) ∧
      (match run false (.sysOpen (some dotdot) 0 ⟨true, true⟩) s with
        | .error e => some e
        | .ok _ => none) = some .ilockNoType)) (by decide +kernel)
  obtain ⟨hdir, hmem, hfree, hen, herr⟩ := of_decide_eq_true ht
  refine ⟨s, ⟨_, hr⟩, ⟨3, hdir, _, hmem, by decide, hfree⟩, hen, ?_⟩
  cases hrun : run false (.sysOpen (some dotdot) 0 ⟨true, true⟩) s with
  | ok x => rw [hrun] at herr; cases herr
  | error e =>
    rw [hrun] at herr
    rw [Option.some.inj herr]

end Xv6.Syscall.Counts
