import Xv6.Syscall.Inodes

/-!
# Making and removing entries

Specifications of `dirlink`, `ialloc`, `create`, and of the parts of `sys_link` and `sys_unlink` that change
directories.  Each says which references and locks are held afterwards and what has become of the inodes.  A
`create` that fails has undone all that it has done (`Alike`), and one that succeeds has done what `created`
says.
-/

namespace Xv6.Syscall.Linking

open Lib.Stateful Syscall.Defs Syscall.Inodes Function
open List (count_cons_self mem_cons_self)

variable {P : Type} {s s' : State P} {i dp ip : Inum} {held locks : List Inum} {name : Name}

def Alike (m m' : Inum → Inode) : Prop :=
  ∀ i, (m' i).type = (m i).type ∧ ((m i).type ≠ .free → m' i = m i)

theorem Alike.refl (m : Inum → Inode) : Alike m m := fun _ => ⟨rfl, fun _ => rfl⟩

def newInode (type : InodeType) (major minor : BitVec 16) (dp ip : Inum) : Inode where
  type := type
  major := major
  minor := minor
  nlink := 1
  entries := if type = .dir then [⟨ip, dot⟩, ⟨dp, dotdot⟩] else []
  data := []

def withEntry (d : Inode) (de : Dirent) (type : InodeType) : Inode :=
  { d with
    entries := putEntry d.entries de
    nlink := if type = .dir then d.nlink + 1 else d.nlink }

def created (m : Inum → Inode) (dp ip : Inum) (name : Name) (type : InodeType) (major minor : BitVec 16) :
    Inum → Inode :=
  update (update m ip (newInode type major minor dp ip)) dp (withEntry (m dp) ⟨ip, name⟩ type)

/-- When `create` makes the entry `name` for the inode `ip` in the directory `dp`. -/
structure Creates (s : State P) (p : P) (path : Path) (type : InodeType) (room : Room) (dp : Inum)
    (name : Name) (ip : Inum) : Prop where
  parent : found s p path true = some (dp, name)
  absent : lookup name 0 (s.inode dp).entries = none
  free : s.freeInode = some ip
  fits : hasRoom (s.inode dp).entries room.entry = true
  fitsDot : type = .dir → room.dot = true

inductive CreateEffect (s : State P) (p : P) (path : Path) (type : InodeType) (major minor : BitVec 16)
    (room : Room) : Option Inum → (Inum → Inode) → Prop
  | failed {m : Inum → Inode} : Alike s.inode m → (∀ dp name ip, ¬ Creates s p path type room dp name ip) →
      CreateEffect s p path type major minor room none m
  | present (ip : Inum) : type = .file → (∀ dp name ip, ¬ Creates s p path type room dp name ip) →
      CreateEffect s p path type major minor room (some ip) s.inode
  | made {dp ip : Inum} {name : Name} {m : Inum → Inode} : Creates s p path type room dp name ip →
      FreeStep (created s.inode dp ip name type major minor) m dp →
      CreateEffect s p path type major minor room (some ip) m

theorem freeInode_eq_some (h : s.freeInode = some i) : i ≠ 0 ∧ (s.inode i).type = .free := by
  have hp := List.find?_some h; exact of_decide_eq_true hp

theorem walk_parent_dir {m : Inum → Inode} {names : List Name} {last : Name} {r : Inum × Name}
    (h : walk m true names last ip = some r) : (m r.1).type = .dir := by
  induction names generalizing last ip with
  | nil => cases h
  | cons n rest ih =>
    unfold walk at h
    split_ifs at h with hd hlast
    · cases h; exact not_not.mp hd
    · cases hl : lookup n 0 (m ip).entries with
      | none => rw [hl] at h; cases h
      | some x => rw [hl] at h; exact ih h

variable {p : P} {path : Path}

theorem found_parent_dir (h : found s p path true = some (dp, name)) : (s.inode dp).type = .dir := by
  obtain ⟨ip, -, h⟩ := Option.bind_eq_some_iff.mp h; exact walk_parent_dir h

variable {type : InodeType} {room : Room}

theorem Creates.ip_ne (h : Creates s p path type room dp name ip) : ip ≠ dp := by
  rintro rfl
  have hdir := found_parent_dir h.parent
  rw [(freeInode_eq_some h.free).2] at hdir; cases hdir

variable [Fintype P]

theorem Book.edit (h : Book s held locks) (hi : i ∈ locks) {ip : Inode}
    (ht : ip.type = (s.inode i).type) : Book (s.setInode i ip) held locks := by
  refine h.setInode ip (fun hv hr => ?_) (fun _ _ _ => (h.locked i hi).1) fun hf => ?_
  · rw [ht]; exact h.typed i hv hr
  · rw [ht] at hf; exact h.alloc i hf

theorem Kept.edit (h : Kept s held) (hi : i ∈ held) (ip : Inode) : Kept (s.setInode i ip) held := by
  intro j ht hn
  by_cases hj : j = i
  · rw [hj]; have := List.count_pos_iff.mpr hi; omega
  · have hne : (s.setInode i ip).inode j = s.inode j := update_of_ne hj _ _
    rw [hne] at ht hn; exact h j ht hn

theorem Kept.fields (h : Kept s held) (hf : Frame s s') {ip : Inode} (hm : s'.inode = update s.inode i ip)
    (htype : ip.type = (s.inode i).type) (hlink : ip.nlink = (s.inode i).nlink) : Kept s' held := by
  intro j ht hn
  rw [hf.holders]
  rw [hm] at ht hn
  by_cases hj : j = i
  · rw [hj, update_self] at ht hn; rw [hj]; exact h i (htype ▸ ht) (hlink ▸ hn)
  · rw [update_of_ne hj] at ht hn; exact h j ht hn

section
variable {E : Panic → Prop} (hE : ∀ e, usual e = true → E e) {major minor : BitVec 16}
include hE

def linkable (es : List Dirent) (name : Name) (room : Bool) : Bool :=
  (lookup name 0 es).isNone && hasRoom es room

theorem wp_dirlink {room : Bool} (h : Book s held locks) (hk : Kept s held) (hdp : dp ∈ locks) :
    wp E (dirlink dp name ip room) (fun r s' => Frame s s' ∧ Book s' held locks ∧
      r = linkable (s.inode dp).entries name room ∧ s'.inode = if r then update s.inode dp
        { s.inode dp with entries := putEntry (s.inode dp).entries ⟨ip, name⟩ } else s.inode) s := by
  unfold dirlink linkable
  refine wp_seq (wp_dirlookup (fun _ => hE _ rfl) (fun _ => hE _ rfl) h hk) fun r s1 h1 => ?_
  obtain ⟨hs1, hr, hb1⟩ := h1
  rw [← hr]
  cases r with
  | none =>
    rw [wp_bind, wp_get, hs1.inode]
    split_ifs with hroom
    · refine ⟨hs1.toFrame.trans frame_setInode, Book.edit hb1 hdp rfl, by simp [hroom], ?_⟩
      rw [← hs1.inode]; rfl
    · refine ⟨hs1.toFrame, hb1, by simp [hroom], ?_⟩
      rw [hs1.inode]; rfl
  | some x =>
    refine wp_seq (wp_iput_same hb1 (hk.same hs1) fun hm => ?_) fun _ s2 h2 => ?_
    · have hpos := (h.locked x.1 hm).2
      have h0 := h.refs x.1
      have h1 := hb1.refs x.1
      rw [hs1.toFrame.holders] at h1
      have hc : ((x.1 :: held).count x.1) = held.count x.1 + 1 := count_cons_self
      rw [h1]
      show 1 < holders s x.1 + (x.1 :: held).count x.1; omega
    · have hs2 := hs1.trans h2.1; exact ⟨hs2.toFrame, h2.2, rfl, hs2.inode⟩

omit hE [Fintype P] in
theorem setRef_setRef {r r' : ℕ} {v v' : Bool} (t : State P) :
    (t.setRef i r v).setRef i r' v' = t.setRef i r' v' := by
  unfold State.setRef; simp only [update_idem]

theorem wp_ialloc (h : Book s held locks) (ht : type ≠ .free) :
    wp E (ialloc type) (fun r s' => Frame s s' ∧ r = s.freeInode ∧ match r with
      | none => s'.inode = s.inode ∧ Book s' held locks
      | some i => s'.inode = update s.inode i { Inode.zero with type := type } ∧
          (held.count i = 0 → s'.valid i = false ∧ Book (s'.setRef i (s'.ref i) true) (i :: held) locks)) s := by
  unfold ialloc
  rw [wp_bind, wp_get]
  cases hf : s.freeInode with
  | none => exact ⟨.refl s, rfl, rfl, h⟩
  | some i =>
    obtain ⟨-, hfree⟩ := freeInode_eq_some hf
    have h0 := h.alloc i hfree
    have hi := h.refs i
    rw [wp_bind, wp_modify]
    unfold iget
    rw [wp_bind, wp_bind, wp_get]
    split_ifs with hpos hroom
    · refine ⟨frame_setInode.trans same_setRef.toFrame, rfl, rfl, fun hc => ?_⟩
      have hpos' : 0 < s.ref i := hpos; omega
    · refine ⟨frame_setInode.trans same_setRef.toFrame, rfl, rfl, fun hc => ?_⟩
      have hnew : Book (s.setInode i { Inode.zero with type := type }) held locks := by
        refine h.setInode _ (fun _ _ => ht) (fun _ _ hr => ?_) fun hf => absurd hf ht
        omega
      have hself : (s.setInode i { Inode.zero with type := type }).inode i =
          { Inode.zero with type := type } := update_self _ _ _
      refine ⟨update_self _ _ _, ?_⟩
      rw [setRef_setRef]
      refine hnew.setRef ?_ (fun j hj => count_cons_ne hj) (fun _ _ => ?_) (fun _ _ _ => rfl) fun hm => ?_
      · show update _ i 1 i = _
        rw [update_self, frame_setInode.holders, h0, count_cons_self, hc]
      · rw [hself]; exact ht
      · have := (h.locked i hm).2; omega
    · exact hE _ rfl

end

omit [Fintype P] in
theorem linkable_nil (room : Bool) : linkable [] name room = room := by cases room <;> rfl

omit [Fintype P] in
theorem putEntry_nil (de : Dirent) : putEntry [] de = [de] := rfl

omit [Fintype P] in
theorem linkable_dot (h : ip ≠ 0) (room : Bool) : linkable [⟨ip, dot⟩] dotdot room = true := by
  have hname : dot ≠ dotdot := by decide
  have hslot : emptySlot [⟨ip, dot⟩] = none := by simp [emptySlot, h]
  unfold linkable hasRoom
  rw [hslot]
  simp only [lookup, hname, and_false, if_false, Option.isNone_none, Option.isSome_none, Bool.false_or,
    Bool.true_and, Bool.and_eq_true, Bool.or_eq_true, decide_eq_true_eq]
  have hlen : (1 < Fs.Layout.MAXFILE * EPB) ∧ 1 % EPB ≠ 0 := by decide
  exact ⟨hlen.1, .inl hlen.2⟩

omit [Fintype P] in
theorem putEntry_dot (h : ip ≠ 0) (de : Dirent) : putEntry [⟨ip, dot⟩] de = [⟨ip, dot⟩, de] := by
  unfold putEntry
  rw [show emptySlot [⟨ip, dot⟩] = none by simp [emptySlot, h]]
  rfl

/-! ## The inode that `create` makes -/

/-- No allocated inode but `ip` is without links and holders. -/
def KeptBut (s : State P) (ip : Inum) : Prop :=
  ∀ j, j ≠ ip → (s.inode j).type ≠ .free → (s.inode j).nlink = 0 → 0 < holders s j

/-- `create` has come from `s` to `t` with `ip` and `dp` locked and has written to `ip` only. -/
structure Filling (s t : State P) (dp ip : Inum) : Prop where
  frame : Frame s t
  book : Book t [ip, dp] [ip, dp]
  alloc : (t.inode ip).type ≠ .free
  other : ∀ j, j ≠ ip → t.inode j = s.inode j

/-- `create` has freed `ip` again and holds nothing. -/
structure GivenBack (s s' : State P) (ip : Inum) : Prop where
  frame : Frame s s'
  book : Book s' [] []
  kept : Kept s' []
  free : (s'.inode ip).type = .free
  other : ∀ j, j ≠ ip → s'.inode j = s.inode j

variable {t : State P}

theorem Filling.edit (h : Filling s t dp ip) {x : Inode} (hx : x.type = (t.inode ip).type) :
    Filling s (t.setInode ip x) dp ip := by
  refine ⟨h.frame.trans frame_setInode, Book.edit h.book mem_cons_self hx, ?_, fun j hj => ?_⟩
  · show (update t.inode ip x ip).type ≠ .free
    rw [update_self, hx]; exact h.alloc
  · show update t.inode ip x j = s.inode j
    rw [update_of_ne hj, h.other j hj]

theorem Filling.kept (h : Filling s t dp ip) (hk : KeptBut s ip) : Kept t [ip, dp] := by
  intro j hj hn
  by_cases hji : j = ip
  · rw [hji, count_cons_self]; omega
  · rw [h.other j hji] at hj hn
    have := hk j hji hj hn
    rw [h.frame.holders]; omega

section
variable {E : Panic → Prop} (hE : ∀ e, usual e = true → E e) {major minor : BitVec 16}
variable (hne : ip ≠ dp) (h0 : holders s ip = 0) (hk : KeptBut s ip)
include hne h0 hk

theorem wp_createFail (h : Filling s t dp ip) :
    wp E (createFail dp ip) (fun r s' => r = none ∧ GivenBack s s' ip) t := by
  unfold createFail
  rw [wp_bind]
  set ip0 : Inode := { t.inode ip with nlink := 0 }
  have h1 : Filling s (t.setInode ip ip0) dp ip := h.edit rfl
  have hself : (t.setInode ip ip0).inode ip = ip0 := update_self _ _ _
  refine wp_seq (wp_iunlockput h1.book (h1.kept hk)) fun _ s2 h2 => ?_
  obtain ⟨hf2, hfree, hb2, hk2⟩ := h2
  have hm2 : s2.inode = update (t.setInode ip ip0).inode ip ip0.freed := by
    rcases hfree with hsame | ⟨-, -, hm⟩
    · -- the inode would be left without links and references
      have hpos := hk2 ip (by rw [hsame]; exact h1.alloc) (by rw [hsame, hself])
      rw [(h1.frame.trans hf2).holders, h0, List.count_cons_of_ne (Ne.symm hne)] at hpos
      exact absurd hpos (lt_irrefl 0)
    · rw [hm, hself]
  have hip : (s2.inode ip).type = .free := by rw [hm2, update_self]; rfl
  have hj2 : ∀ j, j ≠ ip → s2.inode j = s.inode j := by
    intro j hj
    rw [hm2, update_of_ne hj, h1.other j hj]
  have hk3 : Kept s2 [] := by
    intro j hj hn
    by_cases hji : j = ip
    · rw [hji] at hj; exact absurd hip hj
    · rw [hj2 j hji] at hj hn
      rw [(h1.frame.trans hf2).holders]; exact hk j hji hj hn
  refine wp_seq (wp_iunlockput_same hb2 hk3) fun _ s3 h3 => ?_
  obtain ⟨hs3, hb3⟩ := h3
  refine ⟨rfl, (h1.frame.trans hf2).trans hs3.toFrame, hb3, hk3.same hs3, ?_, fun j hj => ?_⟩
  · rw [hs3.inode, hip]
  · rw [hs3.inode, hj2 j hj]

include hE

theorem wp_createEntry {room : Bool} (h : Filling s t dp ip) :
    wp E (createEntry dp ip name type room) (fun r s' =>
      if linkable (s.inode dp).entries name room then
        r = some ip ∧ Frame s s' ∧ Book s' [ip] [ip] ∧ Kept s' [ip] ∧
          FreeStep (update t.inode dp (withEntry (s.inode dp) ⟨ip, name⟩ type)) s'.inode dp
      else r = none ∧ GivenBack s s' ip) t := by
  refine wp_seq (wp_dirlink hE h.book (h.kept hk) (by simp)) fun r s1 h1 => ?_
  obtain ⟨hf1, hb1, hr, hm1⟩ := h1
  rw [h.other dp (Ne.symm hne)] at hr hm1
  rw [← hr]
  have hf1 := h.frame.trans hf1
  cases r with
  | false =>
    replace hm1 : s1.inode = t.inode := hm1
    exact wp_createFail hne h0 hk ⟨hf1, hb1, by rw [hm1]; exact h.alloc, by rw [hm1]; exact h.other⟩
  | true =>
    replace hm1 : s1.inode = update t.inode dp
      { s.inode dp with entries := putEntry (s.inode dp).entries ⟨ip, name⟩ } := hm1
    have hself : s1.inode dp = { s.inode dp with entries := putEntry (s.inode dp).entries ⟨ip, name⟩ } := by
      rw [hm1, update_self]
    rw [if_pos rfl, wp_bind]
    set s2 := if type = .dir then s1.setInode dp { s1.inode dp with nlink := (s1.inode dp).nlink + 1 }
      else s1 with hs2
    -- with or without the link for `..`, only the directory has changed
    have hm2 : s2.inode = update t.inode dp (withEntry (s.inode dp) ⟨ip, name⟩ type) := by
      rw [hs2]
      unfold withEntry
      split_ifs with hd
      · show update s1.inode dp _ = _
        rw [hself, hm1, update_idem]
      · exact hm1
    have hf2 : Frame s1 s2 := by
      rw [hs2]
      split_ifs
      · exact frame_setInode
      · exact .refl s1
    have hb2 : Book s2 [ip, dp] [ip, dp] := by
      rw [hs2]
      split_ifs
      · exact Book.edit hb1 (by simp) rfl
      · exact hb1
    have hk2 : Kept s2 [dp, ip] := by
      intro j hj hn
      rw [(hf1.trans hf2).holders, ← h.frame.holders]
      by_cases hjd : j = dp
      · rw [hjd, count_cons_self]; omega
      · rw [hm2, update_of_ne hjd] at hj hn
        have hpos := h.kept hk j hj hn
        rw [(List.Perm.swap dp ip []).count_eq] at hpos; exact hpos
    refine wp_seq (wp_iunlockput (hb2.perm (.swap _ _ _) (.swap _ _ _)) hk2) fun _ s3 h3 => ?_
    obtain ⟨hf3, hfree, hb3, hk3⟩ := h3
    rw [hm2] at hfree; exact ⟨rfl, (hf1.trans hf2).trans hf3, hb3, hk3, hfree⟩

omit hne h0 in
/-- The first entries of a new directory are written to the inode `ip` itself. -/
theorem wp_dirlink_filling {room : Bool} {i : Inum} (h : Filling s t dp ip) :
    wp E (dirlink ip name i room) (fun r t' => Filling s t' dp ip ∧
      r = linkable (t.inode ip).entries name room ∧ t'.inode = if r then update t.inode ip
        { t.inode ip with entries := putEntry (t.inode ip).entries ⟨i, name⟩ } else t.inode) t := by
  refine wp_mono (wp_dirlink hE h.book (h.kept hk) mem_cons_self) fun r t' ht' => ?_
  obtain ⟨hf, hb, hr, hm⟩ := ht'
  refine ⟨⟨h.frame.trans hf, hb, ?_, fun j hj => ?_⟩, hr, hm⟩ <;> rw [hm] <;> split_ifs
  · rw [update_self]; exact h.alloc
  · exact h.alloc
  · rw [update_of_ne hj, h.other j hj]
  · exact h.other j hj

/-- The file or the directory fits: its entry in `d`, and for a directory its own `.` entry. -/
def Fits (d : Inode) (type : InodeType) (room : Room) : Prop :=
  (type = .dir → room.dot = true) ∧ hasRoom d.entries room.entry = true

/-- What `create` leaves behind from the `ilock` of the new inode on. -/
inductive NewEffect (s : State P) (dp ip : Inum) (name : Name) (type : InodeType) (major minor : BitVec 16)
    (room : Room) : Option Inum → State P → Prop
  | made {s' : State P} : Fits (s.inode dp) type room → Frame s s' → Book s' [ip] [ip] → Kept s' [ip] →
      FreeStep (created s.inode dp ip name type major minor) s'.inode dp →
      NewEffect s dp ip name type major minor room (some ip) s'
  | failed {s' : State P} : ¬ Fits (s.inode dp) type room → GivenBack s s' ip →
      NewEffect s dp ip name type major minor room none s'

theorem wp_createEntry_new (habsent : lookup name 0 (s.inode dp).entries = none) (h : Filling s t dp ip)
    (hm : t.inode = update s.inode ip (newInode type major minor dp ip)) (hdot : type = .dir → room.dot = true) :
    wp E (createEntry dp ip name type room.entry) (NewEffect s dp ip name type major minor room) t := by
  have hlink : linkable (s.inode dp).entries name room.entry = hasRoom (s.inode dp).entries room.entry := by
    unfold linkable
    rw [habsent]; rfl
  refine wp_mono (wp_createEntry hE hne h0 hk h) fun r s' hres => ?_
  rw [hlink, hm] at hres
  split_ifs at hres with hroom
  · obtain ⟨rfl, hf, hb, hk', hfree⟩ := hres
    exact .made ⟨hdot, hroom⟩ hf hb hk' hfree
  · obtain ⟨rfl, hback⟩ := hres; exact .failed (fun hall => hroom hall.2) hback

theorem wp_createNew (h : Book (s.setRef ip (s.ref ip) true) [ip, dp] [dp]) (hv : s.valid ip = false)
    (hz : ip ≠ 0) (ht : type ≠ .free) (hip : s.inode ip = { Inode.zero with type := type })
    (habsent : lookup name 0 (s.inode dp).entries = none) :
    wp E (createNew dp ip name type major minor room)
      (NewEffect s dp ip name type major minor room) s := by
  refine wp_seq (wp_ilock_new (fun _ => hE _ rfl) h mem_cons_self hv (by rw [hip]; exact ht)) fun _ s1 h1 => ?_
  obtain ⟨hs1, hb1⟩ := h1
  rw [wp_bind, wp_modify]
  have h1 : Filling s s1 dp ip := ⟨hs1.toFrame, hb1, by rw [hs1.inode, hip]; exact ht, fun j _ => by rw [hs1.inode]⟩
  set x : Inode := { s1.inode ip with major := major, minor := minor, nlink := 1 } with hx
  have hxe : x = ⟨type, major, minor, 1, [], []⟩ := by rw [hx, hs1.inode, hip]; rfl
  have h2 : Filling s (s1.setInode ip x) dp ip := h1.edit rfl
  have hm2 : (s1.setInode ip x).inode = update s.inode ip x := by rw [← hs1.inode]; rfl
  have hself2 : (s1.setInode ip x).inode ip = x := update_self _ _ _
  split_ifs with hd
  · refine wp_seq (wp_dirlink_filling hE hk h2) fun r s3 h3 => ?_
    obtain ⟨h3, hr, hm3⟩ := h3
    rw [hself2, hxe, linkable_nil] at hr
    cases r with
    | false =>
      refine wp_mono (wp_createFail hne h0 hk h3) fun r s4 h4 => ?_
      obtain ⟨rfl, hback⟩ := h4
      refine .failed (fun hall => ?_) hback
      have hdot := hall.1 hd
      rw [← hr] at hdot; cases hdot
    | true =>
      replace hm3 : s3.inode = update s.inode ip { x with entries := [⟨ip, dot⟩] } := by
        rw [hm3, if_pos rfl, hself2, hm2, update_idem, hxe, putEntry_nil]
      have hself3 : s3.inode ip = { x with entries := [⟨ip, dot⟩] } := by rw [hm3, update_self]
      refine wp_seq (wp_dirlink_filling hE hk h3) fun r s4 h4 => ?_
      obtain ⟨h4, hr4, hm4⟩ := h4
      rw [hself3, linkable_dot hz] at hr4
      obtain rfl := hr4
      refine wp_createEntry_new hE hne h0 hk habsent h4 ?_ fun _ => hr.symm
      rw [hm4, if_pos rfl, hself3, hm3, update_idem, putEntry_dot hz, hxe]
      unfold newInode
      rw [if_pos hd]
  · refine wp_createEntry_new hE hne h0 hk habsent h2 ?_ fun hdir => absurd hdir hd
    rw [hm2, hxe]
    unfold newInode
    rw [if_neg hd]

end

section
variable {E : Panic → Prop} (hE : ∀ e, usual e = true → E e) {major minor : BitVec 16}
variable (h : Book s [] []) (hk : Kept s []) (hfound : found s p path true = some (dp, name))
include hE hk hfound

theorem wp_createPresent {t : State P} {off : ℕ} (hT : Walkable E s p path) (hs : Same s t)
    (hb : Book t [ip, dp] [dp]) (hl : lookup name 0 (s.inode dp).entries = some (ip, off)) :
    wp E (createPresent dp ip type) (fun r s' => Frame s s' ∧ Book s' r.toList r.toList ∧
      Kept s' r.toList ∧ (∀ i, r = some i → (s'.inode i).type ≠ .free) ∧
      CreateEffect s p path type major minor room r s'.inode) t := by
  have hno : ∀ dp name ip, ¬ Creates s p path type room dp name ip := by
    rintro dp' name' ip' ⟨hparent, habsent, -⟩
    cases hfound.symm.trans hparent
    rw [habsent] at hl; cases hl
  refine wp_seq (wp_iunlockput_same (hb.perm (.swap _ _ _) (.refl _)) ((hk.same hs).cons ip)) fun _ s4 h4 => ?_
  have hs4 := hs.trans h4.1
  refine wp_seq (wp_ilock (fun _ => hE _ rfl) h4.2 mem_cons_self fun hf => ?_) fun _ s5 h5 => ?_
  · rw [hs4.inode] at hf
    exact hT ip hf (.inr (lookup_named (found_parent_dir hfound) hl))
  obtain ⟨hs5, hb5, -, ht5⟩ := h5
  replace hs5 := hs4.trans hs5
  rw [wp_bind, wp_get]
  split_ifs with hfile
  · refine ⟨hs5.toFrame, hb5, (hk.same hs5).cons ip, fun i hi => ?_, ?_⟩
    · rw [← Option.some.inj hi, hs5.inode, ← hs4.inode]; exact ht5
    · rw [hs5.inode]; exact .present ip hfile.1 hno
  · refine wp_seq (wp_iunlockput_same hb5 (hk.same hs5)) fun _ s6 h6 => ?_
    have hs6 := hs5.trans h6.1
    refine ⟨hs6.toFrame, h6.2, hk.same hs6, fun _ hi => (by cases hi), ?_⟩
    rw [hs6.inode]; exact .failed (.refl _) hno

include h

theorem wp_createAbsent {t : State P} (hs : Same s t) (hb : Book t [dp] [dp])
    (hl : lookup name 0 (s.inode dp).entries = none) (htype : type ≠ .free) :
    wp E (createAbsent dp name type major minor room) (fun r s' => Frame s s' ∧
      Book s' r.toList r.toList ∧ Kept s' r.toList ∧ (∀ i, r = some i → (s'.inode i).type ≠ .free) ∧
      CreateEffect s p path type major minor room r s'.inode) t := by
  refine wp_seq (wp_ialloc hE hb htype) fun r s4 h4 => ?_
  obtain ⟨hf4, hfree, hres4⟩ := h4
  have hfree' : r = s.freeInode := by
    rw [hfree]
    unfold State.freeInode
    rw [hs.inode]
  replace hf4 := hs.toFrame.trans hf4
  cases r with
  | none =>
    obtain ⟨hm4, hb4⟩ := hres4
    have hs4 : Same s s4 := ⟨hf4, hm4.trans hs.inode⟩
    refine wp_seq (wp_iunlockput_same hb4 (hk.same hs4)) fun _ s5 h5 => ?_
    have hs5 := hs4.trans h5.1
    refine ⟨hs5.toFrame, h5.2, hk.same hs5, fun _ hi => (by cases hi), ?_⟩
    rw [hs5.inode]
    refine .failed (.refl _) ?_
    rintro dp' name' ip' ⟨-, -, hf, -⟩
    rw [← hfree'] at hf; cases hf
  | some ip =>
    obtain ⟨h0, hfreeType⟩ := freeInode_eq_some hfree'.symm
    have hne : ip ≠ dp := by rintro rfl; rw [found_parent_dir hfound] at hfreeType; cases hfreeType
    obtain ⟨hm4, hnew⟩ := hres4
    obtain ⟨hv4, hb4⟩ := hnew (List.count_eq_zero.mpr (by simp [hne]))
    rw [hs.inode] at hm4
    have hdp4 : s4.inode dp = s.inode dp := by rw [hm4, update_of_ne (Ne.symm hne)]
    have hh0 : holders s4 ip = 0 := by rw [hf4.holders, h.alloc ip hfreeType]
    have hk4 : KeptBut s4 ip := by
      intro j hj htj hnj
      rw [hm4, update_of_ne hj] at htj hnj
      rw [hf4.holders]; exact hk j htj hnj
    refine wp_mono (wp_createNew hE hne hh0 hk4 hb4 hv4 h0 htype (by rw [hm4, update_self]) (by rw [hdp4, hl]))
      fun r s5 h5 => ?_
    rcases h5 with ⟨⟨hdot, hroom⟩, hf5, hb5, hk5, hfree5⟩ | ⟨hno, h5⟩
    · rw [hdp4] at hroom
      unfold created at hfree5
      rw [hdp4, hm4, update_idem] at hfree5
      refine ⟨hf4.trans hf5, hb5, hk5, fun i hi => ?_, .made ⟨hfound, hl, hfree'.symm, hroom, hdot⟩ hfree5⟩
      -- the new inode is not the one that `iput` may have freed
      rw [← Option.some.inj hi, hfree5.of_ne hne, update_of_ne hne, update_self]
      exact htype
    · refine ⟨hf4.trans h5.frame, h5.book, h5.kept, fun _ hi => (by cases hi), .failed (fun j => ?_) ?_⟩
      · by_cases hj : j = ip
        · rw [hj, h5.free, hfreeType]; exact ⟨rfl, fun hf => absurd rfl hf⟩
        · rw [h5.other j hj, hm4, update_of_ne hj]; exact ⟨rfl, fun _ => rfl⟩
      · rintro dp' name' ip' ⟨hparent, -, -, hfits, hdot⟩
        cases hfound.symm.trans hparent
        rw [hdp4] at hno; exact hno ⟨hdot, hfits⟩

end

theorem wp_create {E : Panic → Prop} (hE : ∀ e, usual e = true → E e) {major minor : BitVec 16}
    (h : Book s [] []) (hk : Kept s []) (hp : s.cwd p ≠ none) (hT : Walkable E s p path) (htype : type ≠ .free) :
    wp E (create p path type major minor room) (fun r s' => Frame s s' ∧ Book s' r.toList r.toList ∧
      Kept s' r.toList ∧ (∀ i, r = some i → (s'.inode i).type ≠ .free) ∧
      CreateEffect s p path type major minor room r s'.inode) s := by
  refine wp_seq (wp_namex (fun _ => hE _ rfl) h hk hp hT) fun r s1 h1 => ?_
  obtain ⟨hs1, hr, hb1⟩ := h1
  cases r with
  | none =>
    refine ⟨hs1.toFrame, hb1, hk.same hs1, fun _ hi => (by cases hi), .failed ?_ ?_⟩
    · rw [hs1.inode]; exact .refl _
    · rintro dp name ip ⟨hparent, -⟩; rw [← hr] at hparent; cases hparent
  | some r =>
    obtain ⟨dp, name⟩ := r
    refine wp_seq (wp_ilock (fun _ => hE _ rfl) hb1 mem_cons_self fun hf => ?_) fun _ s2 h2 => ?_
    · rw [hs1.inode, found_parent_dir hr.symm] at hf; cases hf
    obtain ⟨hs2, hb2, -, -⟩ := h2
    replace hs2 := hs1.trans hs2
    refine wp_seq (wp_dirlookup (fun _ => hE _ rfl) (fun _ => hE _ rfl) hb2 ((hk.same hs2).cons dp)) fun r s3 h3 => ?_
    obtain ⟨hs3, hl, hb3⟩ := h3
    rw [hs2.inode] at hl
    replace hs3 := hs2.trans hs3
    cases r with
    | some x => exact wp_createPresent hE hk hr.symm hT hs3 hb3 hl.symm
    | none => exact wp_createAbsent hE h hk hr.symm hs3 hb3 hl.symm htype

end Xv6.Syscall.Linking
