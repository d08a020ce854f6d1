import Xv6.Lib.NameTree
import Xv6.Syscall.Opening

/-!
# Directories and link counts

A directory with links and what it names are seen as a tree of names (`parentOf`, `kidsOf`).  `Tree` says
that this is a tree indeed, that the `nlink` of every inode is the number of its names, and how directories
look: they start with `.` and `..`, and a directory without links has no other entries.
-/

namespace Xv6.Syscall.Directories

open Param Lib.RefCount Lib.NameTree Syscall.Defs Syscall.Inodes Multiset Function BitVec
open Syscall.Linking Syscall.Links Syscall.Opening

variable {m m' : Inum → Inode} {d dp i ip : Inum} {name : Name}

def SHRT_MAX : ℕ := 32767

def inums (es : List Dirent) : Multiset Inum := ((es.map Dirent.inum).filter (· ≠ 0) : List Inum)

theorem inums_cons (de : Dirent) (es : List Dirent) :
    inums (de :: es) = if de.inum = 0 then inums es else de.inum ::ₘ inums es := by
  unfold inums
  rw [List.map_cons, List.filter_cons]
  split_ifs with h1 h2 h2
  · simp [h2] at h1
  · rfl
  · rfl
  · simp [h2] at h1

variable {es : List Dirent}

theorem mem_inums : i ∈ inums es ↔ ∃ de ∈ es, de.inum = i ∧ i ≠ 0 := by
  unfold inums
  rw [mem_coe, List.mem_filter, List.mem_map]
  constructor
  · rintro ⟨⟨de, hde, rfl⟩, h0⟩; exact ⟨de, hde, rfl, of_decide_eq_true h0⟩
  · rintro ⟨de, hde, rfl, h0⟩; exact ⟨⟨de, hde, rfl⟩, decide_eq_true h0⟩

theorem putEntry_cons (x de : Dirent) (es : List Dirent) :
    putEntry (x :: es) de = if x.inum = 0 then de :: es else x :: putEntry es de := by
  unfold putEntry emptySlot
  rw [List.findIdx?_cons]
  by_cases hx : x.inum = 0
  · rw [if_pos hx, if_pos (decide_eq_true hx)]; rfl
  · rw [if_neg hx, if_neg fun hc => hx (of_decide_eq_true hc)]
    cases List.findIdx? (fun de : Dirent => decide (de.inum = 0)) es <;> rfl

theorem inums_putEntry (hi : i ≠ 0) : inums (putEntry es ⟨i, name⟩) = i ::ₘ inums es := by
  induction es with
  | nil => rw [putEntry_nil, inums_cons]; exact if_neg hi
  | cons x es ih =>
    rw [putEntry_cons]
    split_ifs with hx
    · rw [inums_cons, inums_cons, if_pos hx]; exact if_neg hi
    · rw [inums_cons, inums_cons, if_neg hx, if_neg hx, ih, cons_swap]

theorem mem_putEntry {x de : Dirent} (h : x ∈ putEntry es de) : x = de ∨ x ∈ es := by
  induction es with
  | nil => exact .inl (List.mem_singleton.mp h)
  | cons y es ih =>
    rw [putEntry_cons] at h
    split_ifs at h with hy
    · rcases List.mem_cons.mp h with h | h
      · exact .inl h
      · exact .inr (List.mem_cons_of_mem y h)
    · rcases List.mem_cons.mp h with rfl | h
      · exact .inr List.mem_cons_self
      · exact (ih h).imp_right (List.mem_cons_of_mem y)

theorem inums_set {k : ℕ} (hk : es[k]? = some ⟨i, name⟩) (hi : i ≠ 0) :
    i ∈ inums es ∧ inums (es.set k ⟨0, []⟩) = (inums es).erase i := by
  refine ⟨mem_inums.mpr ⟨_, List.mem_of_getElem? hk, rfl, hi⟩, ?_⟩
  induction es generalizing k with
  | nil => cases hk
  | cons x es ih =>
    cases k with
    | zero =>
      cases hk
      rw [List.set_cons_zero, inums_cons, inums_cons, if_pos rfl]
      rw [if_neg hi, erase_cons_head]
    | succ k =>
      have hk' : es[k]? = some ⟨i, name⟩ := hk
      rw [List.set_cons_succ, inums_cons, inums_cons, ih hk']
      split_ifs with hx
      · rfl
      · by_cases hxi : x.inum = i
        · have hmem : i ∈ inums es := mem_inums.mpr ⟨_, List.mem_of_getElem? hk', rfl, hi⟩
          rw [hxi, erase_cons_head, cons_erase hmem]
        · rw [erase_cons_tail _ hxi]

/-! ## A directory -/

def isLinked (ip : Inode) : Prop := ip.type = .dir ∧ ip.nlink ≠ 0

instance decLinked (ip : Inode) : Decidable (isLinked ip) := instDecidableAnd

def parentOf (ip : Inode) : Option Inum := if isLinked ip then (ip.entries[1]?).map Dirent.inum else none

def kidsOf (ip : Inode) : Multiset Inum := if isLinked ip then inums (ip.entries.drop 2) else 0

theorem not_linked_of_type {ip : Inode} (h : ip.type ≠ .dir) : ¬ isLinked ip := fun hl => h hl.1

theorem ne_free_of_dir {i : Inode} (h : i.type = .dir) : i.type ≠ .free := by
  rw [h]; exact InodeType.noConfusion

structure Shape (d : Inum) (ip : Inode) (q : Inum) (rest : List Dirent) : Prop where
  entries : ip.entries = ⟨d, dot⟩ :: ⟨q, dotdot⟩ :: rest
  parent : q ≠ 0
  plain : ∀ de ∈ rest, de.inum ≠ 0 → de.name ≠ dot ∧ de.name ≠ dotdot
  bare : ip.nlink = 0 → ∀ de ∈ rest, de.inum = 0

variable {x y : Inode} {q : Inum} {rest : List Dirent}

theorem view_congr (hl : isLinked y ↔ isLinked x) (he : isLinked x → y.entries = x.entries) :
    parentOf y = parentOf x ∧ kidsOf y = kidsOf x := by
  simp only [parentOf, kidsOf, hl]
  split_ifs with hx
  · rw [he hx]; exact ⟨rfl, rfl⟩
  · exact ⟨rfl, rfl⟩

theorem Shape.parentOf_eq (h : Shape d x q rest) (hl : isLinked x) : parentOf x = some q := by
  unfold parentOf
  rw [if_pos hl, h.entries]; rfl

theorem Shape.kidsOf_eq (h : Shape d x q rest) (hl : isLinked x) : kidsOf x = inums rest := by
  unfold kidsOf
  rw [if_pos hl, h.entries]; rfl

variable {off : ℕ}

theorem Shape.behind (h : Shape d x q rest)
    (hlook : lookup name 0 x.entries = some (i, off)) (h1 : name ≠ dot) (h2 : name ≠ dotdot) :
    2 ≤ off ∧ rest[off - 2]? = some ⟨i, name⟩ ∧ i ≠ 0 ∧ x.nlink ≠ 0 := by
  obtain ⟨-, hget, hi⟩ := lookup_eq_some hlook
  rw [h.entries] at hget
  match off, hget with
  | 0, hget =>
    exact absurd (congrArg Dirent.name (Option.some.inj hget)).symm h1
  | 1, hget =>
    exact absurd (congrArg Dirent.name (Option.some.inj hget)).symm h2
  | off + 2, hget =>
    refine ⟨Nat.le_add_left 2 off, hget, hi, fun h0 => ?_⟩
    exact hi (h.bare h0 _ (List.mem_of_getElem? hget))

theorem Shape.ne_dots (h : Shape d x q rest) (hd : d ≠ 0) (hno : lookup name 0 x.entries = none) :
    name ≠ dot ∧ name ≠ dotdot := by
  rw [h.entries] at hno
  constructor
  · rintro rfl; rw [lookup, if_pos ⟨hd, rfl⟩] at hno; cases hno
  · rintro rfl
    have hne : dot ≠ dotdot := by decide
    rw [lookup, if_neg fun hc => hne hc.2, lookup, if_pos ⟨h.parent, rfl⟩] at hno
    cases hno

variable {n : BitVec 16}

theorem Shape.put (h : Shape d x q rest) (hd : d ≠ 0) (hname : name ≠ dot ∧ name ≠ dotdot) (hn : n ≠ 0) :
    Shape d { x with entries := putEntry x.entries ⟨i, name⟩, nlink := n } q (putEntry rest ⟨i, name⟩) := by
  refine ⟨?_, h.parent, fun de hde h0 => ?_, fun h0 => absurd h0 hn⟩
  · rw [h.entries, putEntry_cons, if_neg hd, putEntry_cons, if_neg h.parent]
  · rcases mem_putEntry hde with rfl | hde
    · exact hname
    · exact h.plain de hde h0

theorem Shape.clear (h : Shape d x q rest) (hoff : 2 ≤ off) (hn : n ≠ 0) :
    Shape d { x with entries := x.entries.set off ⟨0, []⟩, nlink := n } q (rest.set (off - 2) ⟨0, []⟩) := by
  refine ⟨?_, h.parent, fun de hde h0 => ?_, fun h0 => absurd h0 hn⟩
  · obtain ⟨k, rfl⟩ := Nat.exists_eq_add_of_le' hoff; rw [h.entries]; rfl
  · rcases List.mem_or_eq_of_mem_set hde with hde | rfl
    · exact h.plain de hde h0
    · exact absurd rfl h0

/-! ## The tree -/

def par (m : Inum → Inode) : Inum → Option Inum := parentOf ∘ m

def kids (m : Inum → Inode) : Inum → Multiset Inum := kidsOf ∘ m

def links (ip : Inode) : ℕ := if ip.type = .free then 0 else ip.nlink.toNat

structure Tree (m : Inum → Inode) : Prop where
  shape : ∀ d, (m d).type = .dir → ∃ q rest, Shape d (m d) q rest
  rooted : Rooted (par m) (kids m) ROOTINO
  count : ∀ i, i ≠ 0 → total (par m) (kids m) i = links (m i)
  small : ∀ i, (m i).type ≠ .free → (m i).nlink.toNat ≤ SHRT_MAX
  zero : (m 0).type = .free

theorem par_update : par (update m i x) = update (par m) i (parentOf x) :=
  comp_update _ _ _ _

theorem kids_update : kids (update m i x) = update (kids m) i (kidsOf x) :=
  comp_update _ _ _ _

theorem par_eq_none (h : ¬ isLinked (m i)) : par m i = none := if_neg h

theorem kids_eq_zero (h : ¬ isLinked (m i)) : kids m i = 0 := if_neg h

section
variable (h : Tree m)
include h

theorem Tree.ne_zero (hd : (m d).type ≠ .free) : d ≠ 0 := by
  rintro rfl; exact hd h.zero

theorem Tree.linked_iff : par m d ≠ none ↔ isLinked (m d) := by
  constructor
  · intro hp; by_contra hl; exact hp (par_eq_none hl)
  · intro hl
    obtain ⟨q, rest, hs⟩ := h.shape d hl.1
    show parentOf (m d) ≠ none
    rw [hs.parentOf_eq hl]; exact Option.some_ne_none q

theorem Tree.named (hi : i ∈ kids m d) : (m i).type ≠ .free ∧ (m i).nlink ≠ 0 := by
  have hi0 : i ≠ 0 := by
    rintro rfl
    replace hi : (0 : Inum) ∈ kidsOf (m d) := hi
    unfold kidsOf at hi
    split_ifs at hi
    · obtain ⟨-, -, -, h0⟩ := mem_inums.mp hi; exact h0 rfl
    · exact notMem_zero _ hi
  have hpos : 0 < total (par m) (kids m) i :=
    Nat.lt_of_lt_of_le (names_pos.mpr ⟨d, hi⟩) (Nat.le_add_right _ _)
  rw [h.count i hi0, links] at hpos
  split_ifs at hpos with hf
  · exact absurd hpos (lt_irrefl 0)
  · refine ⟨hf, fun h0 => ?_⟩
    rw [h0] at hpos; exact absurd hpos (lt_irrefl 0)

theorem Tree.congr (htype : ∀ i, (m' i).type = (m i).type)
    (hsame : ∀ i, (m i).type ≠ .free → (m' i).nlink = (m i).nlink ∧ (m' i).entries = (m i).entries) : Tree m' := by
  have hview : ∀ i, parentOf (m' i) = parentOf (m i) ∧ kidsOf (m' i) = kidsOf (m i) := by
    intro i
    refine view_congr ?_ fun hl => (hsame i (ne_free_of_dir hl.1)).2
    unfold isLinked
    rw [htype i]
    exact and_congr_right fun hi => by rw [(hsame i (ne_free_of_dir hi)).1]
  have hpar : par m' = par m := funext fun i => (hview i).1
  have hkids : kids m' = kids m := funext fun i => (hview i).2
  refine ⟨fun d hd => ?_, by rw [hpar, hkids]; exact h.rooted, fun i hi => ?_, fun i hi => ?_, ?_⟩
  · rw [htype d] at hd
    obtain ⟨q, rest, hs⟩ := h.shape d hd
    obtain ⟨hn, he⟩ := hsame d (ne_free_of_dir hd)
    exact ⟨q, rest, he.trans hs.entries, hs.parent, hs.plain, fun h0 => hs.bare (hn ▸ h0)⟩
  · rw [hpar, hkids, h.count i hi]
    unfold links
    rw [htype i]
    split_ifs with hf
    · rfl
    · rw [(hsame i hf).1]
  · rw [htype i] at hi; rw [(hsame i hi).1]; exact h.small i hi
  · rw [htype 0]; exact h.zero

theorem Tree.alike (ha : Alike m m') : Tree m' :=
  h.congr (fun i => (ha i).1) fun i hi => by rw [(ha i).2 hi]; exact ⟨rfl, rfl⟩

theorem Tree.free (hf : FreeStep m m' i) : Tree m' := by
  rcases hf with rfl | ⟨hn, ht, rfl⟩
  · exact h
  have hl : ¬ isLinked (m i) := fun hl => hl.2 hn
  have hl' : ¬ isLinked (m i).freed := fun hl => InodeType.noConfusion hl.1
  obtain ⟨hp, hk⟩ := view_congr (iff_of_false hl' hl) (absurd · hl)
  have hpar : par (update m i (m i).freed) = par m := by
    rw [par_update, hp]; exact update_eq_self i _
  have hkids : kids (update m i (m i).freed) = kids m := by
    rw [kids_update, hk]; exact update_eq_self i _
  refine ⟨?_, by rw [hpar, hkids]; exact h.rooted, fun j hj => ?_, ?_, ?_⟩
  · exact (forall_update_iff m fun d v => v.type = .dir → ∃ q rest, Shape d v q rest).mpr
      ⟨InodeType.noConfusion, fun d _ => h.shape d⟩
  · rw [hpar, hkids, h.count j hj]
    by_cases hji : j = i
    · rw [hji, update_self, links, if_neg ht, hn]; rfl
    · rw [update_of_ne hji]
  · exact (forall_update_iff m fun _ v => v.type ≠ .free → v.nlink.toNat ≤ SHRT_MAX).mpr
      ⟨fun hf => absurd rfl hf, fun j _ => h.small j⟩
  · rw [update_of_ne (Ne.symm (h.ne_zero ht))]; exact h.zero

end

/-! ## Entries made and removed -/

theorem toNat_add_one (h : n.toNat ≤ SHRT_MAX) : (n + 1).toNat = n.toNat + 1 := by
  unfold SHRT_MAX at h
  rw [toNat_add, show BitVec.toNat (1 : BitVec 16) = 1 from rfl]; omega

theorem toNat_sub_one (h : 1 ≤ n.toNat) : (n - 1).toNat = n.toNat - 1 := by
  rw [toNat_sub, show BitVec.toNat (1 : BitVec 16) = 1 from rfl]; omega

theorem ne_zero_of_toNat (h : 1 ≤ n.toNat) : n ≠ 0 := by
  rintro rfl; exact absurd h (by decide)

theorem update_pair (m : Inum → Inode) (x y : Inode) (hne : ip ≠ dp) : update (update m ip y) dp x dp = x ∧
    update (update m ip y) dp x ip = y ∧ ∀ j, j ≠ dp → j ≠ ip → update (update m ip y) dp x j = m j := by
  refine ⟨update_self _ _ _, ?_, fun j h1 h2 => ?_⟩
  · rw [update_of_ne hne, update_self]
  · rw [update_of_ne h1, update_of_ne h2]

theorem forall_update_pair (R : Inum → Inode → Prop) (hx : R dp x) (hy : R ip y)
    (hm : ∀ j, j ≠ dp → j ≠ ip → R j (m j)) (j : Inum) : R j (update (update m ip y) dp x j) := by
  refine (forall_update_iff _ R).mpr ⟨hx, fun j h1 => ?_⟩ j
  exact (forall_update_iff m fun j v => j ≠ dp → R j v).mpr ⟨fun _ => hy, fun j h2 h1 => hm j h1 h2⟩ j h1

theorem Tree.edit (h : Tree m) (hdp0 : dp ≠ 0) (hip0 : ip ≠ 0)
    {par' : Inum → Option Inum} {kids' : Inum → Multiset Inum}
    (hpar : par (update (update m ip y) dp x) = par') (hkids : kids (update (update m ip y) dp x) = kids')
    (hr : Rooted par' kids' ROOTINO) (hx : total par' kids' dp = links x) (hy : total par' kids' ip = links y)
    (hother : ∀ j, j ≠ dp → j ≠ ip → total par' kids' j = total (par m) (kids m) j)
    (sx : x.type = .dir → ∃ q rest, Shape dp x q rest) (sy : y.type = .dir → ∃ q rest, Shape ip y q rest)
    (bx : x.type ≠ .free → x.nlink.toNat ≤ SHRT_MAX) (hby : y.type ≠ .free → y.nlink.toNat ≤ SHRT_MAX) :
    Tree (update (update m ip y) dp x) := by
  refine ⟨?_, by rw [hpar, hkids]; exact hr, fun j hj => ?_, ?_, ?_⟩
  · exact forall_update_pair (fun d v => v.type = .dir → ∃ q rest, Shape d v q rest) sx sy
      fun d _ _ => h.shape d
  · rw [hpar, hkids]
    exact forall_update_pair (fun j v => j ≠ 0 → total par' kids' j = links v) (fun _ => hx)
      (fun _ => hy) (fun j h1 h2 h0 => (hother j h1 h2).trans (h.count j h0)) j hj
  · exact forall_update_pair (fun _ v => v.type ≠ .free → v.nlink.toNat ≤ SHRT_MAX) bx hby
      fun j _ _ => h.small j
  · rw [update_of_ne (Ne.symm hdp0), update_of_ne (Ne.symm hip0)]; exact h.zero

theorem links_dir (h : x.type = .dir) : links x = x.nlink.toNat := by
  unfold links
  rw [h]; exact if_neg InodeType.noConfusion

theorem links_of_ne (h : x.type ≠ .free) : links x = x.nlink.toNat := if_neg h

theorem par_edit (hne : ip ≠ dp) (hx : parentOf x = par m dp) :
    par (update (update m ip y) dp x) = update (par m) ip (parentOf y) := by
  have hself : parentOf x = update (par m) ip (parentOf y) dp := by
    rw [hx, update_of_ne (Ne.symm hne)]
  rw [par_update, par_update, hself, update_eq_self]

theorem kids_edit (hy : kidsOf y = kids m ip) :
    kids (update (update m ip y) d x) = update (kids m) d (kidsOf x) := by
  rw [kids_update, kids_update, hy, update_eq_self]

theorem file_edit (hne : ip ≠ d) (hip : ¬ isLinked (m ip)) (hy : ¬ isLinked y)
    (hx : parentOf x = par m d) : par (update (update m ip y) d x) = par m ∧
      kids (update (update m ip y) d x) = update (kids m) d (kidsOf x) := by
  have hpar := par_edit hne (y := y) hx
  rw [show parentOf y = par m ip from (if_neg hy).trans (par_eq_none hip).symm, update_eq_self] at hpar
  exact ⟨hpar, kids_edit ((if_neg hy).trans (kids_eq_zero hip).symm)⟩

theorem withEntry_nlink (hn : x.nlink ≠ 0) (hs : x.nlink.toNat ≤ SHRT_MAX) (de : Dirent) (type : InodeType) :
    (withEntry x de type).nlink ≠ 0 := by
  show (if type = .dir then x.nlink + 1 else x.nlink) ≠ 0
  split_ifs
  · refine ne_zero_of_toNat ?_
    rw [toNat_add_one hs]; omega
  · exact hn

theorem Tree.created (h : Tree m) {type : InodeType} {major minor : BitVec 16} (hdp : isLinked (m dp))
    (hfree : (m ip).type = .free) (hip0 : ip ≠ 0) (hno : lookup name 0 (m dp).entries = none)
    (htype : type ≠ .free) (hmax : type = .dir → (m dp).nlink.toNat ≠ SHRT_MAX) :
    Tree (created m dp ip name type major minor) := by
  have hdpt := ne_free_of_dir hdp.1
  have hdp0 := h.ne_zero hdpt
  have hsmall := h.small dp hdpt
  have hne : ip ≠ dp := by rintro rfl; exact hdpt hfree
  have hipl : ¬ isLinked (m ip) := not_linked_of_type (by rw [hfree]; exact InodeType.noConfusion)
  have hpari : par m ip = none := par_eq_none hipl
  have htotal : total (par m) (kids m) ip = 0 := by rw [h.count ip hip0, links, if_pos hfree]
  have hpard : par m dp ≠ none := h.linked_iff.mpr hdp
  obtain ⟨q, rest, hs⟩ := h.shape dp hdp.1
  have hnames := hs.ne_dots hdp0 hno
  set x := withEntry (m dp) ⟨ip, name⟩ type
  set y := newInode type major minor dp ip with hydef
  have hxn : x.nlink = if type = .dir then (m dp).nlink + 1 else (m dp).nlink := rfl
  have hxn0 : x.nlink ≠ 0 := withEntry_nlink hdp.2 hsmall _ _
  have hxl : isLinked x := ⟨hdp.1, hxn0⟩
  have hsx : Shape dp x q (putEntry rest ⟨ip, name⟩) := hs.put hdp0 hnames hxn0
  have hpx : parentOf x = par m dp := (hsx.parentOf_eq hxl).trans (hs.parentOf_eq hdp).symm
  have hkx : kidsOf x = ip ::ₘ kids m dp := by
    rw [hsx.kidsOf_eq hxl, inums_putEntry hip0]
    exact congrArg _ (hs.kidsOf_eq hdp).symm
  have hlx : links x = links (m dp) + if type = .dir then 1 else 0 := by
    rw [links_dir hdp.1, links_dir hxl.1, hxn]
    split_ifs
    · exact toNat_add_one hsmall
    · rfl
  have hly : links y = 1 := by rw [links_of_ne htype]; rfl
  have hbx : x.type ≠ .free → x.nlink.toNat ≤ SHRT_MAX := by
    intro _
    rw [hxn]
    split_ifs with ht
    · have := hmax ht; rw [toNat_add_one hsmall]; omega
    · exact hsmall
  have hby : y.type ≠ .free → y.nlink.toNat ≤ SHRT_MAX := fun _ => by
    show (1 : BitVec 16).toNat ≤ SHRT_MAX; decide
  have hcount := h.count dp hdp0
  by_cases hdir : type = .dir
  · have hyl : isLinked y := ⟨hdir, by rw [hydef]; exact (by decide : (1 : BitVec 16) ≠ 0)⟩
    have hsy : Shape ip y dp [] := by
      refine ⟨?_, hdp0, fun de hde => absurd hde List.not_mem_nil, fun h0 => absurd h0 hyl.2⟩
      show (if type = .dir then _ else _) = _
      rw [if_pos hdir]
    have hky : kidsOf y = kids m ip := by rw [hsy.kidsOf_eq hyl, kids_eq_zero hipl]; rfl
    have hpar := par_edit (m := m) hne (y := y) hpx
    rw [hsy.parentOf_eq hyl] at hpar
    have hkids := kids_edit (m := m) (d := dp) (x := x) hky
    rw [hkx] at hkids
    have hnames0 : names (kids m) ip = 0 := by unfold total at htotal; omega
    refine h.edit hdp0 hip0 hpar hkids (h.rooted.addDir hpard hpari hnames0) ?_ ?_ (fun j h1 h2 => ?_)
      (fun _ => ⟨q, _, hsx⟩) (fun _ => ⟨dp, _, hsy⟩) hbx hby
    · rw [total_addDir hpari, hcount, hlx, if_neg (Ne.symm hne), if_pos rfl, if_pos hdir]
    · rw [total_addDir hpari, htotal, hly, if_pos rfl, if_neg hne]
    · rw [total_addDir hpari, if_neg h2, if_neg h1, Nat.add_zero]
  · have hyl : ¬ isLinked y := not_linked_of_type hdir
    obtain ⟨hpar, hkids⟩ := file_edit hne hipl hyl hpx
    rw [hkx] at hkids
    refine h.edit hdp0 hip0 hpar hkids (h.rooted.addFile hpard hpari) ?_ ?_ (fun j _ h2 => ?_)
      (fun _ => ⟨q, _, hsx⟩) (fun ht => absurd ht hdir) hbx hby
    · rw [total_addFile, hcount, hlx, if_neg (Ne.symm hne), if_neg hdir]
    · rw [total_addFile, htotal, hly, if_pos rfl]
    · rw [total_addFile, if_neg h2, Nat.add_zero]

theorem Tree.linked (h : Tree m) (hdp : isLinked (m dp)) (hfile : (m ip).type ≠ .dir)
    (hip : (m ip).type ≠ .free) (hno : lookup name 0 (m dp).entries = none)
    (hmax : (m ip).nlink.toNat ≠ SHRT_MAX) : Tree (linked m dp ip name) := by
  have hdpt := ne_free_of_dir hdp.1
  have hdp0 := h.ne_zero hdpt
  have hip0 := h.ne_zero hip
  have hne : ip ≠ dp := by rintro rfl; exact hfile hdp.1
  have hipl : ¬ isLinked (m ip) := not_linked_of_type hfile
  have hpari : par m ip = none := par_eq_none hipl
  have hpard : par m dp ≠ none := h.linked_iff.mpr hdp
  obtain ⟨q, rest, hs⟩ := h.shape dp hdp.1
  unfold Links.linked
  set x : Inode := { m dp with entries := putEntry (m dp).entries ⟨ip, name⟩ }
  set y : Inode := { m ip with nlink := (m ip).nlink + 1 }
  have hxl : isLinked x := hdp
  have hsx : Shape dp x q (putEntry rest ⟨ip, name⟩) := hs.put hdp0 (hs.ne_dots hdp0 hno) hdp.2
  have hyl : ¬ isLinked y := not_linked_of_type hfile
  obtain ⟨hpar, hkids⟩ := file_edit hne hipl hyl ((hsx.parentOf_eq hxl).trans (hs.parentOf_eq hdp).symm)
  have hkx : kidsOf x = ip ::ₘ kids m dp := by
    rw [hsx.kidsOf_eq hxl, inums_putEntry hip0]
    exact congrArg _ (hs.kidsOf_eq hdp).symm
  rw [hkx] at hkids
  have hyn : y.nlink.toNat = (m ip).nlink.toNat + 1 := toNat_add_one (h.small ip hip)
  refine h.edit hdp0 hip0 hpar hkids (h.rooted.addFile hpard hpari) ?_ ?_ (fun j _ h2 => ?_)
    (fun _ => ⟨q, _, hsx⟩) (fun ht => absurd ht hfile) (fun _ => h.small dp hdpt) fun _ => ?_
  · rw [total_addFile, h.count dp hdp0, if_neg (Ne.symm hne)]; rfl
  · rw [total_addFile, h.count ip hip0, if_pos rfl, links_of_ne hip, show links y = y.nlink.toNat from
      links_of_ne hip, hyn]
  · rw [total_addFile, if_neg h2, Nat.add_zero]
  · have := h.small ip hip; omega

theorem Tree.found (h : Tree m) (hdir : (m dp).type = .dir) (h1 : name ≠ dot)
    (h2 : name ≠ dotdot) (hlook : lookup name 0 (m dp).entries = some (ip, off)) :
    isLinked (m dp) ∧ ip ∈ kids m dp := by
  obtain ⟨q, rest, hs⟩ := h.shape dp hdir
  obtain ⟨-, hget, hip0, hn⟩ := hs.behind hlook h1 h2
  have hl : isLinked (m dp) := ⟨hdir, hn⟩
  refine ⟨hl, ?_⟩
  show ip ∈ kidsOf (m dp)
  rw [hs.kidsOf_eq hl]; exact (inums_set hget hip0).1

theorem Tree.kids_empty (h : Tree m) (hdir : (m ip).type = .dir)
    (hempty : isdirempty (m ip).entries = true) : kids m ip = 0 := by
  by_cases hl : isLinked (m ip)
  · obtain ⟨q, rest, hs⟩ := h.shape ip hdir
    show kidsOf (m ip) = 0
    rw [hs.kidsOf_eq hl]
    refine eq_zero_of_forall_notMem fun j hj => ?_
    obtain ⟨de, hde, rfl, h0⟩ := mem_inums.mp hj
    rw [hs.entries] at hempty
    exact h0 (of_decide_eq_true (List.all_eq_true.mp hempty de hde))
  · exact kids_eq_zero hl

theorem dropLink_removed (hne : ip ≠ dp) (off : ℕ) : dropLink (removed m dp ip off) ip =
      update (update m ip { m ip with nlink := (m ip).nlink - 1 }) dp (removed m dp ip off dp) := by
  unfold dropLink
  rw [show removed m dp ip off ip = m ip from update_of_ne hne _ _]
  unfold removed
  rw [update_self]; exact update_comm (Ne.symm hne) _ _ _

theorem Tree.unlinked (h : Tree m) (hdir : (m dp).type = .dir) (h1 : name ≠ dot)
    (h2 : name ≠ dotdot) (hlook : lookup name 0 (m dp).entries = some (ip, off)) (hne : ip ≠ dp)
    (hempty : (m ip).type = .dir → isdirempty (m ip).entries = true) :
    (removed m dp ip off dp).nlink ≠ 0 ∧ Tree (dropLink (removed m dp ip off) ip) := by
  obtain ⟨hdp, hmem⟩ := h.found hdir h1 h2 hlook
  obtain ⟨hip, hipn⟩ := h.named hmem
  have hdpt := ne_free_of_dir hdir
  have hdp0 := h.ne_zero hdpt
  have hip0 := h.ne_zero hip
  obtain ⟨q, rest, hs⟩ := h.shape dp hdir
  obtain ⟨hoff, hget, -, -⟩ := hs.behind hlook h1 h2
  have hone : 1 ≤ (m ip).nlink.toNat := by
    refine Nat.pos_of_ne_zero fun h0 => hipn ?_
    exact eq_of_toNat_eq h0
  have hcount := h.count dp hdp0
  have hcounti := h.count ip hip0
  rw [links_of_ne hdpt] at hcount
  rw [links_of_ne hip] at hcounti
  set x : Inode := { m dp with
    entries := (m dp).entries.set off ⟨0, []⟩
    nlink := if (m ip).type = .dir then (m dp).nlink - 1 else (m dp).nlink }
  set y : Inode := { m ip with nlink := (m ip).nlink - 1 }
  have hself : removed m dp ip off dp = x := update_self _ _ _
  have hyn : y.nlink.toNat = (m ip).nlink.toNat - 1 := toNat_sub_one hone
  have hlx : links x = x.nlink.toNat := links_dir hdir
  have hly : links y = y.nlink.toNat := links_of_ne hip
  have hby : y.type ≠ .free → y.nlink.toNat ≤ SHRT_MAX := fun _ => by
    have := h.small ip hip; omega
  -- the directory has a link from its parent, or is the root, besides the one from `..` of `ip`
  have htwo : (m ip).type = .dir → 2 ≤ (m dp).nlink.toNat := fun ht => by
    rw [← hcount]
    exact h.rooted.two_le_total hmem (h.linked_iff.mpr ⟨ht, hipn⟩)
  have hxn0 : x.nlink ≠ 0 := by
    show (if (m ip).type = .dir then (m dp).nlink - 1 else (m dp).nlink) ≠ 0
    split_ifs with ht
    · have := htwo ht
      refine ne_zero_of_toNat ?_
      rw [toNat_sub_one (by omega)]; omega
    · exact hdp.2
  have hxl : isLinked x := ⟨hdir, hxn0⟩
  have hsx : Shape dp x q (rest.set (off - 2) ⟨0, []⟩) := hs.clear hoff hxn0
  have hpx : parentOf x = par m dp := (hsx.parentOf_eq hxl).trans (hs.parentOf_eq hdp).symm
  have hkx : kidsOf x = (kids m dp).erase ip := by
    rw [hsx.kidsOf_eq hxl, (inums_set hget hip0).2]
    exact congrArg (Multiset.erase · ip) (hs.kidsOf_eq hdp).symm
  have hsmall := h.small dp hdpt
  refine ⟨hself ▸ hxn0, ?_⟩
  rw [dropLink_removed hne off, hself]
  by_cases ht : (m ip).type = .dir
  · have hipl : isLinked (m ip) := ⟨ht, hipn⟩
    have hk0 := h.kids_empty ht (hempty ht)
    have htotal := h.rooted.total_empty (h.linked_iff.mpr hipl) (h.rooted.ne_root hmem) hk0
    have hyn0 : y.nlink = 0 := by
      refine eq_of_toNat_eq ?_
      rw [hyn, ← hcounti, htotal]; rfl
    have hyl : ¬ isLinked y := fun hl => hl.2 hyn0
    have hpari : par m ip = some dp := by
      obtain ⟨r, hr⟩ := Option.ne_none_iff_exists'.mp (h.linked_iff.mpr hipl)
      rw [hr, h.rooted.up dp ip hmem r hr]
    have hpar := par_edit hne (y := y) hpx
    rw [show parentOf y = none from if_neg hyl] at hpar
    have hkids := kids_edit (d := dp) (x := x) (show kidsOf y = kids m ip from (if_neg hyl).trans hk0.symm)
    rw [hkx] at hkids
    have hxn : x.nlink.toNat = (m dp).nlink.toNat - 1 := by
      show (if (m ip).type = .dir then (m dp).nlink - 1 else (m dp).nlink).toNat = _
      rw [if_pos ht]
      have := htwo ht; exact toNat_sub_one (by omega)
    have hdrop : ∀ j, total (par m) (kids m) j = _ := fun j => total_dropDir hmem hpari
    obtain ⟨q', rest', hs'⟩ := h.shape ip ht
    refine h.edit hdp0 hip0 hpar hkids (h.rooted.dropDir hmem hk0) ?_ ?_ (fun j h1 h2 => ?_)
      (fun _ => ⟨q, _, hsx⟩) (fun _ => ⟨q', rest', hs'.entries, hs'.parent, hs'.plain, fun _ => ?_⟩)
      (fun _ => by omega) hby
    · have hd := hdrop dp; rw [if_neg (Ne.symm hne), if_pos rfl] at hd; omega
    · have hd := hdrop ip; rw [if_pos rfl] at hd; rw [hly]; omega
    · have hd := hdrop j
      rw [if_neg h2, if_neg h1, Nat.add_zero] at hd; exact hd.symm
    · have hemp := hempty ht
      rw [hs'.entries] at hemp
      exact fun de hde => of_decide_eq_true (List.all_eq_true.mp hemp de hde)
  · have hipl : ¬ isLinked (m ip) := not_linked_of_type ht
    have hyl : ¬ isLinked y := not_linked_of_type ht
    have hpari : par m ip = none := par_eq_none hipl
    obtain ⟨hpar, hkids⟩ := file_edit hne hipl hyl hpx
    rw [hkx] at hkids
    have hxn : x.nlink = (m dp).nlink := by exact if_neg ht
    have hdrop : ∀ j, total (par m) (kids m) j = _ := fun j => total_dropFile hmem
    refine h.edit hdp0 hip0 hpar hkids (h.rooted.dropFile hmem hpari) ?_ ?_ (fun j h1 h2 => ?_)
      (fun _ => ⟨q, _, hsx⟩) (fun h => absurd h ht) (fun _ => by rw [hxn]; exact hsmall) hby
    · have hd := hdrop dp; rw [if_neg (Ne.symm hne)] at hd; rw [hlx, hxn]; omega
    · have hd := hdrop ip; rw [if_pos rfl] at hd; rw [hly]; omega
    · have hd := hdrop j; rw [if_neg h2, Nat.add_zero] at hd; exact hd.symm

/-! ## Directories without links -/

def dotdotOf (ip : Inode) : Option Inum := (ip.entries[1]?).map Dirent.inum

def isOrphan (ip : Inode) : Prop := ip.type = .dir ∧ ip.nlink = 0

def Sheltered (m : Inum → Inode) : Prop :=
  ∀ d, isOrphan (m d) → ∀ q, dotdotOf (m d) = some q → isLinked (m q)

section
variable (h : Sheltered m)
include h

theorem Sheltered.congr (htype : ∀ i, (m' i).type = (m i).type)
    (hsame : ∀ i, (m i).type ≠ .free → (m' i).nlink = (m i).nlink ∧ (m' i).entries = (m i).entries) :
    Sheltered m' := by
  intro d ⟨ht, hn⟩ q hq
  rw [htype d] at ht
  obtain ⟨hnd, hed⟩ := hsame d (ne_free_of_dir ht)
  unfold dotdotOf at hq
  rw [hed] at hq
  rw [hnd] at hn
  obtain ⟨hqt, hqn⟩ := h d ⟨ht, hn⟩ q hq
  refine ⟨(htype q).trans hqt, ?_⟩
  rw [(hsame q (ne_free_of_dir hqt)).1]; exact hqn

theorem Sheltered.free (hf : FreeStep m m' i) : Sheltered m' := by
  rcases hf with rfl | ⟨hn, -, rfl⟩
  · exact h
  intro d hd q hq
  have hdi : d ≠ i := by rintro rfl; rw [update_self] at hd; exact InodeType.noConfusion hd.1
  rw [update_of_ne hdi] at hd hq
  have hl := h d hd q hq
  have hqi : q ≠ i := by rintro rfl; exact hl.2 hn
  rw [update_of_ne hqi]; exact hl

theorem Sheltered.edit (hne : ip ≠ dp) (hx : isLinked x)
    (hy : isOrphan y → dotdotOf y = some dp) (hip : ∀ d, isOrphan (m d) → dotdotOf (m d) ≠ some ip) :
    Sheltered (update (update m ip y) dp x) := by
  obtain ⟨hat, hat', hout⟩ := update_pair m x y hne
  intro d hd q hq
  have hdp : d ≠ dp := by rintro rfl; rw [hat] at hd; exact hx.2 hd.2
  by_cases hqp : q = dp
  · rw [hqp, hat]; exact hx
  by_cases hdi : d = ip
  · rw [hdi, hat'] at hd hq
    rw [hy hd] at hq; exact absurd (Option.some.inj hq).symm hqp
  · rw [hout d hdp hdi] at hd hq
    have hqi : q ≠ ip := by rintro rfl; exact hip d hd hq
    rw [hout q hqp hqi]; exact h d hd q hq

theorem Sheltered.ne_parent (hip : ¬ isLinked (m ip)) :
    ∀ d, isOrphan (m d) → dotdotOf (m d) ≠ some ip := fun d hd hq => hip (h d hd ip hq)

theorem Sheltered.created (ht : Tree m) {type : InodeType} {major minor : BitVec 16}
    (hdp : isLinked (m dp)) (hfree : (m ip).type = .free) : Sheltered (created m dp ip name type major minor) := by
  have hdpt := ne_free_of_dir hdp.1
  have hne : ip ≠ dp := by rintro rfl; exact hdpt hfree
  refine h.edit hne ⟨hdp.1, withEntry_nlink hdp.2 (ht.small dp hdpt) _ _⟩ (fun hy => absurd hy.2 ?_)
    (h.ne_parent fun hl => ne_free_of_dir hl.1 hfree)
  exact (by decide : (1 : BitVec 16) ≠ 0)

theorem Sheltered.linked (hdp : isLinked (m dp)) (hfile : (m ip).type ≠ .dir) :
    Sheltered (linked m dp ip name) := by
  have hne : ip ≠ dp := by rintro rfl; exact hfile hdp.1
  exact h.edit hne hdp (fun hy => absurd hy.1 hfile) (h.ne_parent (not_linked_of_type hfile))

theorem Sheltered.unlinked (ht : Tree m) (hdir : (m dp).type = .dir)
    (h1 : name ≠ dot) (h2 : name ≠ dotdot) (hlook : lookup name 0 (m dp).entries = some (ip, off))
    (hne : ip ≠ dp) (hn : (removed m dp ip off dp).nlink ≠ 0)
    (hup : (m ip).type = .dir → ∀ d, isOrphan (m d) → dotdotOf (m d) ≠ some ip) :
    Sheltered (dropLink (removed m dp ip off) ip) := by
  obtain ⟨-, hmem⟩ := ht.found hdir h1 h2 hlook
  have hipn := (ht.named hmem).2
  rw [dropLink_removed hne off]
  have htype : (removed m dp ip off dp).type = .dir := by
    unfold removed
    rw [update_self]; exact hdir
  refine h.edit hne ⟨htype, hn⟩ (fun hy => ?_) ?_
  · have hipl : isLinked (m ip) := ⟨hy.1, hipn⟩
    obtain ⟨q, rest, hs⟩ := ht.shape ip hy.1
    have hpar : par m ip = some q := hs.parentOf_eq hipl
    rw [← ht.rooted.up dp ip hmem q hpar]
    show (((m ip).entries)[1]?).map Dirent.inum = some q
    rw [hs.entries]; rfl
  · by_cases hd : (m ip).type = .dir
    · exact hup hd
    · exact h.ne_parent (not_linked_of_type hd)

end

theorem Tree.no_dangling (h : Tree m) (ho : Sheltered m) (hd : (m d).type = .dir) {de : Dirent}
    (hde : de ∈ (m d).entries) (h0 : de.inum ≠ 0) :
    (m de.inum).type ≠ .free ∧ (de.name = dotdot → (m de.inum).type = .dir) := by
  obtain ⟨q, rest, hs⟩ := h.shape d hd
  have hq : (m q).type = .dir := by
    by_cases hn : (m d).nlink = 0
    · refine (ho d ⟨hd, hn⟩ q ?_).1
      unfold dotdotOf
      rw [hs.entries]; rfl
    · have hpar : par m d = some q := hs.parentOf_eq ⟨hd, hn⟩
      exact (h.linked_iff.mp (h.rooted.parent_dir hpar)).1
  rw [hs.entries] at hde
  rcases List.mem_cons.mp hde with rfl | hde
  · exact ⟨ne_free_of_dir hd, fun _ => hd⟩
  rcases List.mem_cons.mp hde with rfl | hde
  · exact ⟨ne_free_of_dir hq, fun _ => hq⟩
  · have hn : (m d).nlink ≠ 0 := fun hn => h0 (hs.bare hn de hde)
    have hmem : de.inum ∈ kids m d := by
      show de.inum ∈ kidsOf (m d)
      rw [hs.kidsOf_eq ⟨hd, hn⟩]; exact mem_inums.mpr ⟨de, hde, rfl, h0⟩
    exact ⟨(h.named hmem).1, fun hname => absurd hname (hs.plain de hde h0).2⟩

/-- The number of entries for an inode, other than `.`, in directories with links. -/
def entryCount (m : Inum → Inode) (i : Inum) : ℕ :=
  ∑ d, if isLinked (m d) then (m d).entries.countP (fun de => decide (de.inum = i ∧ de.name ≠ dot)) else 0

theorem countP_rest (hi : i ≠ 0) (hplain : ∀ de ∈ rest, de.inum ≠ 0 → de.name ≠ dot ∧ de.name ≠ dotdot) :
    rest.countP (fun de => decide (de.inum = i ∧ de.name ≠ dot)) = (inums rest).count i := by
  induction rest with
  | nil => rfl
  | cons de rest ih =>
    rw [List.countP_cons, ih fun x hx => hplain x (List.mem_cons_of_mem de hx), inums_cons]
    by_cases hde : de.inum = i
    · have h0 : de.inum ≠ 0 := hde ▸ hi
      rw [if_pos (decide_eq_true ⟨hde, (hplain de List.mem_cons_self h0).1⟩), if_neg h0, hde, count_cons_self]
    · rw [if_neg fun hc => hde (of_decide_eq_true hc).1, Nat.add_zero]
      split_ifs
      · rfl
      · rw [count_cons_of_ne (Ne.symm hde)]

theorem Tree.entryCount_eq (h : Tree m) (hi : i ≠ 0) : entryCount m i = total (par m) (kids m) i := by
  unfold entryCount total names refs
  rw [Finset.card_filter, ← Finset.sum_add_distrib]
  refine Finset.sum_congr rfl fun d _ => ?_
  by_cases hl : isLinked (m d)
  · obtain ⟨q, rest, hs⟩ := h.shape d hl.1
    have hk : kids m d = inums rest := hs.kidsOf_eq hl
    have hp : par m d = some q := hs.parentOf_eq hl
    have hdd : dotdot ≠ dot := by decide
    have hself : decide ((⟨d, dot⟩ : Dirent).inum = i ∧ (⟨d, dot⟩ : Dirent).name ≠ dot) = false :=
      decide_eq_false fun hc => hc.2 rfl
    rw [if_pos hl, hs.entries, List.countP_cons, List.countP_cons, countP_rest hi hs.plain, hk, hp, hself]
    by_cases hq : q = i
    · rw [if_pos (decide_eq_true ⟨hq, hdd⟩), if_pos (congrArg some hq)]; rfl
    · rw [if_neg fun hc => hq (of_decide_eq_true hc).1, if_neg fun hc => hq (Option.some.inj hc)]
      rfl
  · rw [if_neg hl, kids_eq_zero hl, par_eq_none hl, count_zero, if_neg nofun]

end Xv6.Syscall.Directories
