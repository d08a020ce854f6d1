import Xv6.Syscall.Linking

/-!
# System calls on directories

Specifications of `sys_link`, `sys_unlink`, `sys_mkdir`, `sys_mknod` and of `exec` as to inodes.  Every way
out leaves no inode locked or held and the transactions balanced.  What becomes of the inodes is `LinkEffect`,
`UnlinkEffect` and `CreateEffect`.
-/

namespace Xv6.Syscall.Links

open Lib.Stateful Syscall.Defs Syscall.Inodes Syscall.Linking Function List Option

variable {P : Type} {s s' : State P} {i dp ip : Inum} {held locks : List Inum} {name : Name} {p : P}

/-! ## Effects -/

def linked (m : Inum → Inode) (dp ip : Inum) (name : Name) : Inum → Inode :=
  update (update m ip { m ip with nlink := (m ip).nlink + 1 }) dp
    { m dp with entries := putEntry (m dp).entries ⟨ip, name⟩ }

inductive LinkEffect (s : State P) (p : P) (old new : Option Path) (room : Bool) : ℤ → (Inum → Inode) → Prop
  | failed : LinkEffect s p old new room (-1) s.inode
  | made {oldp newp : Path} {ip dp : Inum} {last name : Name} {m : Inum → Inode} :
      old = some oldp → new = some newp → found s p oldp false = some (ip, last) →
      (s.inode ip).type ≠ .dir → (s.inode ip).type ≠ .free → found s p newp true = some (dp, name) →
      lookup name 0 (s.inode dp).entries = none → hasRoom (s.inode dp).entries room = true →
      FreeStep (linked s.inode dp ip name) m ip → LinkEffect s p old new room 0 m

/-- The inodes when `sys_unlink` has removed the entry. -/
def removed (m : Inum → Inode) (dp ip : Inum) (off : ℕ) : Inum → Inode :=
  update m dp { m dp with
      entries := (m dp).entries.set off ⟨0, []⟩
      nlink := if (m ip).type = .dir then (m dp).nlink - 1 else (m dp).nlink }

def dropLink (m : Inum → Inode) (ip : Inum) : Inum → Inode :=
  update m ip { m ip with nlink := (m ip).nlink - 1 }

/-- When `sys_unlink` finds the entry `off` of the directory `dp` for the inode `ip`. -/
structure Finds (s : State P) (p : P) (path : Option Path) (dp ip : Inum) (name : Name) (off : ℕ) : Prop where
  parent : path.bind (fun path => found s p path true) = some (dp, name)
  ne_dot : name ≠ dot
  ne_dotdot : name ≠ dotdot
  entry : lookup name 0 (s.inode dp).entries = some (ip, off)

/-- What `sys_unlink` returns and makes of the inodes. -/
inductive UnlinkEffect (s : State P) (p : P) (path : Option Path) : ℤ → (Inum → Inode) → Prop
  | failed : UnlinkEffect s p path (-1) s.inode
  | made {dp ip : Inum} {name : Name} {off : ℕ} {m m' : Inum → Inode} : Finds s p path dp ip name off →
      ip ≠ dp → 1 ≤ (s.inode ip).nlink.toInt →
      ((s.inode ip).type = .dir → isdirempty (s.inode ip).entries = true) →
      FreeStep (removed s.inode dp ip off) m dp → FreeStep (dropLink m ip) m' ip →
      UnlinkEffect s p path 0 m'

theorem dropLink_add (m : Inum → Inode) (ip : Inum) :
    dropLink (update m ip { m ip with nlink := (m ip).nlink + 1 }) ip = m := by
  unfold dropLink
  rw [update_idem, update_self]
  rw [BitVec.add_sub_cancel]; exact update_eq_self _ _

theorem walk_congr {m m' : Inum → Inode} (h : ∀ i, (m' i).type = (m i).type ∧ (m' i).entries = (m i).entries)
    (parent : Bool) (names : List Name) (last : Name) (ip : Inum) :
    walk m' parent names last ip = walk m parent names last ip := by
  induction names generalizing last ip with
  | nil => rfl
  | cons n rest ih =>
    unfold walk
    rw [(h ip).1, (h ip).2]; simp only [ih]

variable {parent : Bool}

theorem walk_named {names : List Name} {last : Name} {r : Inum × Name}
    (h : walk s.inode parent names last ip = some r) : r.1 = ip ∨ Named s r.1 := by
  induction names generalizing last ip with
  | nil =>
    unfold walk at h
    split_ifs at h
    cases h; exact .inl rfl
  | cons n rest ih =>
    unfold walk at h
    split_ifs at h with hd hlast
    · cases h; exact .inl rfl
    · cases hl : lookup n 0 (s.inode ip).entries with
      | none => rw [hl] at h; cases h
      | some x =>
        rw [hl] at h
        rcases ih h with he | hn
        · rw [he]; exact .inr (lookup_named (not_not.mp hd) hl)
        · exact .inr hn

variable {path : Path} {E : Panic → Prop}

theorem walkable_found (hT : Walkable E s p path)
    (h : found s p path parent = some (i, name)) (hf : (s.inode i).type = .free) : E .ilockNoType := by
  obtain ⟨ip, hstart, hw⟩ := bind_eq_some_iff.mp h
  refine hT i hf ?_
  rcases walk_named hw with he | hn
  · exact .inl (hstart.trans (congrArg some he.symm))
  · exact .inr hn

def SameDirs (s s' : State P) : Prop :=
  ∀ i, (s'.inode i).type = (s.inode i).type ∧ (s'.inode i).entries = (s.inode i).entries

theorem found_congr (h : SameDirs s s') (hc : s'.cwd = s.cwd) : found s' p path parent = found s p path parent := by
  unfold found State.start
  rw [hc]
  congr 1
  funext ip; exact walk_congr h parent _ _ ip

theorem walkable_congr (h : SameDirs s s') (hc : s'.cwd = s.cwd)
    (hT : Walkable E s p path) : Walkable E s' p path := by
  intro i hf hor
  rw [(h i).1] at hf
  refine hT i hf ?_
  unfold State.start at hor ⊢
  rw [hc] at hor
  refine hor.imp_right ?_
  rintro ⟨d, hd, de, hde, hdi⟩
  rw [(h d).1] at hd
  rw [(h d).2] at hde; exact ⟨d, hd, de, hde, hdi⟩

variable [Fintype P]

/-! ## Transactions -/

structure Idle (s : State P) : Prop where
  book : Book s [] []
  kept : Kept s []

def State.inOp (s : State P) : State P := { s with ops := s.ops + 1 }

omit [Fintype P] in
theorem frame_endOp (h : Frame (State.inOp s) s') : Frame s { s' with ops := s'.ops - 1 } :=
  ⟨by rw [h.ops]; exact add_sub_cancel_right _ _, h.file, h.ofile, h.cwd, h.pipe, h.initproc⟩

theorem Book.op (h : Book s held locks) (n : ℤ) : Book { s with ops := n } held locks :=
  ⟨h.refs, h.lock, h.nodup, h.typed, h.valid, h.alloc, h.locked⟩

theorem Kept.op (h : Kept s held) (n : ℤ) : Kept { s with ops := n } held := h

theorem Idle.inOp (h : Idle s) : Idle (State.inOp s) := ⟨Book.op h.book _, Kept.op h.kept _⟩

section
variable (hE : ∀ e, usual e = true → E e)
include hE

omit hE in
theorem wp_endOp {r : ℤ} (hf : Frame (State.inOp s) s') (hb : Book s' [] []) (hk : Kept s' [])
    {Q : ℤ → (Inum → Inode) → Prop} (hQ : Q r s'.inode) :
    wp E (do endOp; return r) (fun r s' => Frame s s' ∧ Idle s' ∧ Q r s'.inode) s' :=
  ⟨frame_endOp hf, ⟨Book.op hb _, Kept.op hk _⟩, hQ⟩

omit hE in
theorem wp_putEnd {r : ℤ} (h : Book s' [i] [i]) (hs : Same (State.inOp s) s') (hidle : Idle s)
    {Q : ℤ → (Inum → Inode) → Prop} (hQ : Q r s.inode) :
    wp E (do iunlockput i; endOp; return r) (fun r s' => Frame s s' ∧ Idle s' ∧ Q r s'.inode) s' := by
  refine wp_seq (wp_iunlockput_same h (hidle.inOp.kept.same hs)) fun _ s1 h1 => ?_
  have hs1 := hs.trans h1.1
  refine wp_endOp hs1.toFrame h1.2 (hidle.inOp.kept.same hs1) ?_
  rw [hs1.inode]; exact hQ

theorem wp_lockFound (hs : Same s s') (hb : Book s' (i :: held) [])
    (hfound : found s p path parent = some (i, name)) (hT : Walkable E s p path) :
    wp E (ilock i) (fun _ t => Same s t ∧ Book t (i :: held) [i] ∧ (s.inode i).type ≠ .free) s' := by
  refine wp_mono (wp_ilock (fun _ => hE _ rfl) hb mem_cons_self fun hf => ?_) fun _ t ht => ?_
  · rw [hs.inode] at hf; exact walkable_found hT hfound hf
  · obtain ⟨hst, hbt, -, htype⟩ := ht
    rw [hs.inode] at htype; exact ⟨hs.trans hst, hbt, htype⟩

theorem wp_linkBad (h : Book s' [ip] []) (hf : Frame (State.inOp s) s') (ht : (s'.inode ip).type ≠ .free)
    (hs : Idle s) (hm : dropLink s'.inode ip = s.inode) {Q : ℤ → (Inum → Inode) → Prop}
    (hQ : Q (-1) s.inode) : wp E (linkBad ip) (fun r s' => Frame s s' ∧ Idle s' ∧ Q r s'.inode) s' := by
  refine wp_seq (wp_ilock (fun _ => hE _ rfl) h mem_cons_self fun hf => absurd hf ht) fun _ s1 h1 => ?_
  obtain ⟨hs1, hb1, -, -⟩ := h1
  rw [wp_bind]
  set s2 := s1.setInode ip { s1.inode ip with nlink := (s1.inode ip).nlink - 1 }
  have hm2 : s2.inode = s.inode := by rw [← hm]; rw [← hs1.inode]; rfl
  have hf2 : Frame (State.inOp s) s2 := hf.trans (hs1.toFrame.trans frame_setInode)
  have hk2 : Kept s2 [] := hs.inOp.kept.same ⟨hf2, hm2⟩
  have hb2 : Book s2 [ip] [ip] := Book.edit hb1 mem_cons_self rfl
  refine wp_seq (wp_iunlockput_same hb2 hk2) fun _ s3 h3 => ?_
  obtain ⟨hs3, hb3⟩ := h3
  refine wp_endOp (hf2.trans hs3.toFrame) hb3 (hk2.same hs3) ?_
  rw [hs3.inode, hm2]; exact hQ

theorem wp_sysLink {old new : Option Path} {room : Bool} (h : Idle s) (hp : s.cwd p ≠ none)
    (hT : ∀ path, Walkable E s p path) : wp E (sysLink p old new room) (fun r s' => Frame s s' ∧ Idle s' ∧
      LinkEffect s p old new room r s'.inode) s := by
  unfold sysLink
  cases old with
  | none => exact ⟨.refl s, h, .failed⟩
  | some old =>
  cases new with
  | none => exact ⟨.refl s, h, .failed⟩
  | some new =>
  rw [wp_bind]
  show wp E _ _ (State.inOp s)
  have hfail : LinkEffect s p (some old) (some new) room (-1) (State.inOp s).inode := .failed
  refine wp_seq (wp_namei (fun _ => hE _ rfl) h.inOp.book h.inOp.kept hp (hT old)) fun r s1 h1 => ?_
  obtain ⟨hs1, hr, hb1⟩ := h1
  cases r with
  | none =>
    refine wp_endOp hs1.toFrame hb1 (h.inOp.kept.same hs1) ?_
    rw [hs1.inode]; exact hfail
  | some ip =>
    obtain ⟨⟨ip', last⟩, hfound, rfl⟩ := map_eq_some_iff.mp hr.symm
    refine wp_seq (wp_lockFound hE hs1 hb1 hfound (hT old)) fun _ s2 h2 => ?_
    obtain ⟨hs2, hb2, ht2⟩ := h2
    rw [wp_bind, wp_get]
    split_ifs with hdir
    · exact wp_putEnd hb2 hs2 h hfail
    · rw [hs2.inode] at hdir
      rw [wp_bind]
      -- the link is counted before the entry is made
      set s3 := s2.setInode ip' { s2.inode ip' with nlink := (s2.inode ip').nlink + 1 } with hs3
      set x : Inode := { s.inode ip' with nlink := (s.inode ip').nlink + 1 } with hx
      have hm3 : s3.inode = update s.inode ip' x := by
        show update s2.inode ip' _ = _
        rw [hs2.inode]; rfl
      have hf3 : Frame (State.inOp s) s3 := hs2.toFrame.trans frame_setInode
      have hb3 : Book s3 [ip'] [ip'] := Book.edit hb2 mem_cons_self rfl
      have hk3 : Kept s3 [ip'] := Kept.edit ((h.inOp.kept.same hs2).cons ip') mem_cons_self _
      have hdirs : ∀ t : State P, t.inode = s3.inode → SameDirs s t := by
        intro t ht i
        rw [ht, hm3]
        by_cases hi : i = ip'
        · rw [hi, update_self]; exact ⟨rfl, rfl⟩
        · rw [update_of_ne hi]; exact ⟨rfl, rfl⟩
      have hback : ∀ m : Inum → Inode, m = s3.inode → dropLink m ip' = s.inode := by
        intro m hm
        rw [hm, hm3]; exact dropLink_add s.inode ip'
      have htype : ∀ t : State P, t.inode = s3.inode → (t.inode ip').type ≠ .free := by
        intro t ht
        rw [(hdirs t ht ip').1]; exact ht2
      refine wp_seq (wp_iunlock hb3) fun _ s4 h4 => ?_
      obtain ⟨hs4, hb4⟩ := h4
      have hf4 := hf3.trans hs4.toFrame
      have hp4 : s4.cwd p ≠ none := by rw [hf4.cwd]; exact hp
      refine wp_seq (wp_namex (fun _ => hE _ rfl) hb4 (hk3.same hs4) hp4
        (walkable_congr (hdirs s4 hs4.inode) hf4.cwd (hT new))) fun r s5 h5 => ?_
      obtain ⟨hs5, hr5, hb5⟩ := h5
      rw [found_congr (hdirs s4 hs4.inode) hf4.cwd] at hr5
      have hs5' := hs4.trans hs5
      have hf5 := hf3.trans hs5'.toFrame
      cases r with
      | none => exact wp_linkBad hE hb5 hf5 (htype s5 hs5'.inode) h (hback _ hs5'.inode) hfail
      | some r =>
        obtain ⟨dp, name⟩ := r
        have hdp := found_parent_dir hr5.symm
        refine wp_seq (wp_ilock (fun _ => hE _ rfl) hb5 mem_cons_self fun hf => ?_) fun _ s6 h6 => ?_
        · rw [(hdirs s5 hs5'.inode dp).1, hdp] at hf; cases hf
        obtain ⟨hs6, hb6, -, -⟩ := h6
        have hs6' := hs5'.trans hs6
        have hk6 : Kept s6 [ip'] := hk3.same hs6'
        refine wp_seq (wp_dirlink hE hb6 (hk6.cons dp) mem_cons_self) fun r s7 h7 => ?_
        obtain ⟨hf7, hb7, hr7, hm7⟩ := h7
        have hf7' := (hf3.trans hs6'.toFrame).trans hf7
        cases r with
        | false =>
          have hs7 : Same s3 s7 := ⟨hs6'.toFrame.trans hf7, (show s7.inode = s6.inode from hm7).trans hs6'.inode⟩
          refine wp_seq (wp_iunlockput_same hb7 (hk3.same hs7)) fun _ s8 h8 => ?_
          have hs8 := hs7.trans h8.1
          exact wp_linkBad hE h8.2 (hf3.trans hs8.toFrame) (htype s8 hs8.inode) h (hback _ hs8.inode) hfail
        | true =>
          have hk7 : Kept s7 [ip'] := Kept.fields hk6 hf7 hm7 rfl rfl
          replace hm7 : s7.inode = linked s.inode dp ip' name := by
            have hne : dp ≠ ip' := by rintro rfl; exact hdir hdp
            rw [hm7, if_pos rfl, hs6'.inode, hm3]
            unfold linked
            rw [update_of_ne hne]
          rw [(hdirs s6 hs6'.inode dp).2] at hr7
          obtain ⟨habsent, hroom⟩ := Bool.and_eq_true_iff.mp hr7.symm
          refine wp_seq (wp_iunlockput_same hb7 hk7) fun _ s8 h8 => ?_
          obtain ⟨hs8, hb8⟩ := h8
          refine wp_seq (wp_iput hb8 (hk7.same hs8) not_mem_nil) fun _ s9 h9 => ?_
          obtain ⟨hf9, hfree, hb9, hk9⟩ := h9
          rw [hs8.inode, hm7] at hfree
          refine wp_endOp ((hf7'.trans hs8.toFrame).trans hf9) hb9 hk9 ?_
          exact .made rfl rfl hfound hdir ht2 hr5.symm (isNone_iff_eq_none.mp habsent) hroom hfree

omit hE in
theorem wp_unlinkBad (h : Book s' [dp] [dp]) (hs : Same (State.inOp s) s') (hidle : Idle s) {path : Option Path} :
    wp E (unlinkBad dp) (fun r s' => Frame s s' ∧ Idle s' ∧ UnlinkEffect s p path r s'.inode) s' :=
  wp_putEnd h hs hidle .failed

omit hE in
/-- The entry goes, and with a directory the link of its `..`. -/
theorem wp_removed {α : Type} {x : K P α} {Q : α → State P → Prop} {off : ℕ} (hne : ip ≠ dp)
    (hb : Book s [ip, dp] [ip, dp]) (hk : Kept s [dp, ip])
    (hx : ∀ s', Frame s s' → Book s' [dp, ip] [dp, ip] → Kept s' [dp, ip] →
      s'.inode = removed s.inode dp ip off → wp E x Q s') :
    wp E (do
      modify fun s => s.setInode dp { s.inode dp with entries := (s.inode dp).entries.set off ⟨0, []⟩ }
      modify fun s =>
        if (s.inode ip).type = .dir then s.setInode dp { s.inode dp with nlink := (s.inode dp).nlink - 1 } else s
      x) Q s := by
  rw [wp_bind, wp_modify, wp_bind, wp_modify]
  set s1 := s.setInode dp { s.inode dp with entries := (s.inode dp).entries.set off ⟨0, []⟩ }
  have hb1 : Book s1 [dp, ip] [dp, ip] := Book.edit (hb.perm (.swap _ _ _) (.swap _ _ _)) mem_cons_self rfl
  have hk1 : Kept s1 [dp, ip] := Kept.edit hk mem_cons_self _
  have hself : s1.inode dp = { s.inode dp with entries := (s.inode dp).entries.set off ⟨0, []⟩ } := update_self _ _ _
  have hip : (s1.inode ip).type = (s.inode ip).type := congrArg Inode.type (update_of_ne hne _ _)
  split_ifs with hd
  · refine hx _ (frame_setInode.trans frame_setInode) (Book.edit hb1 mem_cons_self rfl) (Kept.edit hk1 mem_cons_self _) ?_
    unfold removed
    rw [if_pos (hip ▸ hd), hself]; exact update_idem _ _ _
  · refine hx _ frame_setInode hb1 hk1 ?_
    unfold removed
    rw [if_neg (hip ▸ hd)]; rfl

theorem wp_sysUnlink {path : Option Path} (h : Idle s) (hp : s.cwd p ≠ none) (hT : ∀ path, Walkable E s p path)
    (hN : ∀ dp ip name off, Finds s p path dp ip name off → (s.inode ip).nlink.toInt < 1 → E .unlinkNlink) :
    wp E (sysUnlink p path) (fun r s' => Frame s s' ∧ Idle s' ∧ UnlinkEffect s p path r s'.inode) s := by
  unfold sysUnlink
  cases path with
  | none => exact ⟨.refl s, h, .failed⟩
  | some path =>
  rw [wp_bind]
  show wp E _ _ (State.inOp s)
  refine wp_seq (wp_namex (fun _ => hE _ rfl) h.inOp.book h.inOp.kept hp (hT path)) fun r s1 h1 => ?_
  obtain ⟨hs1, hr, hb1⟩ := h1
  cases r with
  | none =>
    refine wp_endOp hs1.toFrame hb1 (h.inOp.kept.same hs1) ?_
    rw [hs1.inode]; exact .failed
  | some r =>
    obtain ⟨dp, name⟩ := r
    have hdp := found_parent_dir hr.symm
    refine wp_seq (wp_ilock (fun _ => hE _ rfl) hb1 mem_cons_self fun hf => ?_) fun _ s2 h2 => ?_
    · rw [hs1.inode, hdp] at hf; cases hf
    obtain ⟨hs2, hb2, -, -⟩ := h2
    replace hs2 := hs1.trans hs2
    split_ifs with hdots
    · exact wp_unlinkBad hb2 hs2 h
    rw [not_or] at hdots
    refine wp_seq (wp_dirlookup (fun _ => hE _ rfl) (fun _ => hE _ rfl) hb2 ((h.inOp.kept.same hs2).cons dp)) fun r s3 h3 => ?_
    obtain ⟨hs3, hl, hb3⟩ := h3
    rw [hs2.inode] at hl
    replace hs3 := hs2.trans hs3
    cases r with
    | none => exact wp_unlinkBad hb3 hs3 h
    | some x =>
      obtain ⟨ip, off⟩ := x
      have hfinds : Finds s p (some path) dp ip name off := ⟨hr.symm, hdots.1, hdots.2, hl.symm⟩
      refine wp_seq (wp_ilock (fun _ => hE _ rfl) hb3 mem_cons_self fun hf => ?_) fun _ s4 h4 => ?_
      · rw [hs3.inode] at hf
        exact hT path ip hf (.inr (lookup_named hdp hl.symm))
      obtain ⟨hs4, hb4, hni, ht4⟩ := h4
      have hne : ip ≠ dp := fun he => hni (by rw [he]; exact mem_cons_self)
      replace hs4 := hs3.trans hs4
      rw [wp_bind, wp_get, hs4.inode]
      split_ifs with hnlink hempty
      · exact hN dp ip name off hfinds hnlink
      · refine wp_seq (wp_iunlockput_same hb4 ((h.inOp.kept.same hs4).cons dp)) fun _ s5 h5 => ?_
        exact wp_unlinkBad h5.2 (hs4.trans h5.1) h
      · refine wp_removed hne hb4 (((h.inOp.kept.same hs4).cons ip).cons dp) fun s6 hf6 hb6 hk6 hm6 => ?_
        refine wp_seq (wp_iunlockput hb6 hk6) fun _ s7 h7 => ?_
        obtain ⟨hf7, hfree7, hb7, hk7⟩ := h7
        rw [hm6, hs4.inode] at hfree7
        rw [wp_bind]
        have hb8 : Book (s7.setInode ip { s7.inode ip with nlink := (s7.inode ip).nlink - 1 }) [ip] [ip] :=
          Book.edit hb7 mem_cons_self rfl
        refine wp_seq (wp_iunlockput hb8 (Kept.edit hk7 mem_cons_self _)) fun _ s9 h9 => ?_
        obtain ⟨hf9, hfree9, hb9, hk9⟩ := h9
        refine wp_endOp (((hs4.toFrame.trans hf6).trans hf7).trans (frame_setInode.trans hf9)) hb9 hk9 ?_
        refine .made hfinds hne ?_ (fun hd => ?_) hfree7 hfree9
        · exact not_lt.mp hnlink
        · by_contra hfull; exact hempty ⟨hd, Bool.eq_false_of_not_eq_true hfull⟩

/-- What `sys_mkdir` and `sys_mknod` make of the inodes. -/
inductive MakeEffect (s : State P) (p : P) (path : Option Path) (type : InodeType) (major minor : BitVec 16)
    (room : Room) : ℤ → (Inum → Inode) → Prop
  | failed {m : Inum → Inode} : Alike s.inode m → MakeEffect s p path type major minor room (-1) m
  | made {q : Path} {dp ip : Inum} {name : Name} {m : Inum → Inode} : path = some q →
      Creates s p q type room dp name ip → FreeStep (created s.inode dp ip name type major minor) m dp →
      MakeEffect s p path type major minor room 0 m

theorem wp_sysCreate {path : Option Path} {type : InodeType} {major minor : BitVec 16} {room : Room}
    (h : Idle s) (hp : s.cwd p ≠ none) (hT : ∀ path, Walkable E s p path) (htype : type ≠ .free)
    (hfile : type ≠ .file) : wp E (sysCreate p path type major minor room) (fun r s' => Frame s s' ∧ Idle s' ∧
      MakeEffect s p path type major minor room r s'.inode) s := by
  show wp E _ _ (State.inOp s)
  cases path with
  | none => exact wp_endOp (.refl _) h.inOp.book h.inOp.kept (.failed (.refl _))
  | some path =>
    refine wp_seq (wp_create hE h.inOp.book h.inOp.kept hp (hT path) htype) fun r s1 h1 => ?_
    obtain ⟨hf1, hb1, hk1, ht1, heff⟩ := h1
    generalize hm : s1.inode = m at heff
    cases heff with
    | failed halike hno =>
      refine wp_endOp hf1 hb1 hk1 ?_
      rw [hm]; exact .failed halike
    | present ip hf => exact absurd hf hfile
    | @made dp ip name m hcreates hfree =>
      refine wp_seq (wp_iunlockput hb1 hk1) fun _ s2 h2 => ?_
      obtain ⟨hf2, hfree2, hb2, hk2⟩ := h2
      refine wp_endOp (hf1.trans hf2) hb2 hk2 ?_
      -- the new inode has a link, so it stays
      have hne := hcreates.ip_ne
      have hip : (created s.inode dp ip name type major minor ip).nlink = 1 := by
        unfold created
        rw [update_of_ne hne, update_self]; rfl
      have hlink : (s1.inode ip).nlink = 1 := by rw [hm, hfree.of_ne hne]; exact hip
      rw [hfree2.of_nlink (by rw [hlink]; decide), hm]
      exact .made rfl ⟨hcreates.parent, hcreates.absent, hcreates.free, hcreates.fits, hcreates.fitsDot⟩ hfree

theorem wp_exec {e : ExecEnd} (h : Idle s) (hp : s.cwd p ≠ none) (hT : ∀ path, Walkable E s p path) :
    wp E (exec p path e) (fun _ s' => Frame s s' ∧ Idle s' ∧ s'.inode = s.inode) s := by
  unfold exec
  rw [wp_bind]
  refine wp_seq (wp_namei (fun _ => hE _ rfl) h.inOp.book h.inOp.kept hp (hT path)) fun r s1 h1 => ?_
  obtain ⟨hs1, hr, hb1⟩ := h1
  cases r with
  | none => exact wp_endOp hs1.toFrame hb1 (h.inOp.kept.same hs1) (Q := fun _ m => m = s.inode) hs1.inode
  | some ip =>
    obtain ⟨⟨ip', last⟩, hfound, rfl⟩ := map_eq_some_iff.mp hr.symm
    refine wp_seq (wp_lockFound hE hs1 hb1 hfound (hT path)) fun _ s2 h2 => ?_
    obtain ⟨hs2, hb2, -⟩ := h2
    -- all three ways on begin with the same `iunlockput`
    have hend : ∀ r : ℤ, wp E (do iunlockput ip'; endOp; return r)
        (fun _ s' => Frame s s' ∧ Idle s' ∧ s'.inode = s.inode) s2 := fun r =>
      wp_putEnd hb2 hs2 h (Q := fun _ m => m = s.inode) rfl
    cases e with
    | badImage | badStack => exact hend (-1)
    | ok argc => exact hend argc

end

end Xv6.Syscall.Links
