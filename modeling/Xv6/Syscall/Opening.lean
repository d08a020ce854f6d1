import Xv6.Syscall.Descriptors

/-!
# `sys_open` and `sys_chdir`

Specifications of the calls that pass the reference to an inode on to an open file or a current directory.
A `sys_open` that fails has changed nothing, but for one case: with `O_CREATE`, the file has been made when
the code finds that there is no `struct file` or no descriptor for it (`OpenEffect.leftover`).
-/

namespace Xv6.Syscall.Opening

open Lib.Stateful Lib.RefCount Param Syscall.Defs Syscall.Inodes Syscall.Linking Function
open Syscall.Links Syscall.Ftable Syscall.Descriptors

variable {P : Type} {s s' : State P} {p : P} {f : Fin NFILE} {ip : Inum} {held locks : List Inum}

def TruncStep (m m' : Inum → Inode) (ip : Inum) : Prop :=
  m' = m ∨ m' = update m ip { m ip with data := [] }

def Full (s : State P) (p : P) : Prop := s.freeFile = none ∨ s.freeFd p = none

def BadDevice (ip : Inode) : Prop := ip.type = .device ∧ (ip.major.toInt < 0 ∨ NDEV ≤ ip.major.toInt)

theorem full_frame (h : Frame s s') : Full s' p ↔ Full s p := by
  unfold Full State.freeFile State.freeFd
  rw [h.file, h.ofile]

/-- With `O_CREATE`, a file is made that cannot be opened. -/
def Leftover (s : State P) (p : P) (path : Option Path) (omode : Word) (room : Room) : Prop :=
  omode &&& O_CREATE ≠ 0 ∧ Full s p ∧ ∃ q dp name ip, path = some q ∧ Creates s p q .file room dp name ip

inductive OpenEffect (s : State P) (p : P) (path : Option Path) (omode : Word) (room : Room) :
    ℤ → State P → Prop
  | failed {s' : State P} : Frame s s' → Alike s.inode s'.inode → ¬ Leftover s p path omode room →
      OpenEffect s p path omode room (-1) s'
  | leftover {s' : State P} {q : Path} {dp ip : Inum} {name : Name} : path = some q →
      omode &&& O_CREATE ≠ 0 → Creates s p q .file room dp name ip → Full s p → Frame s s' →
      FreeStep (created s.inode dp ip name .file 0 0) s'.inode dp →
      OpenEffect s p path omode room (-1) s'
  | opened {s' : State P} {r : ℤ} {m : Inum → Inode} {ip : Inum} : 0 ≤ r → ¬ Full s p →
      (m = s.inode ∨ (omode &&& O_CREATE ≠ 0 ∧ ∃ q dp name, path = some q ∧
        Creates s p q .file room dp name ip ∧ FreeStep (created s.inode dp ip name .file 0 0) m dp)) →
      TruncStep m s'.inode ip → OpenEffect s p path omode room r s'

theorem wp_fileclose_undo {E : Panic → Prop} {Q : Unit → State P → Prop} (h0 : (s.file f).ref = 0)
    (ht : (s.file f).type = .none) (hQ : Q () s) :
    wp E (fileclose f) Q (s.setFile f { s.file f with ref := 1 }) := by
  have hself : (s.setFile f { s.file f with ref := 1 }).file f = { s.file f with ref := 1 } :=
    update_self _ _ _
  unfold fileclose
  rw [wp_bind, wp_get]
  rw [hself, if_neg (lt_irrefl 1), if_neg (show ¬ 0 < 1 - 1 from lt_irrefl 0), wp_bind, wp_modify]
  dsimp only
  rw [ht]
  have hback : (s.setFile f { s.file f with ref := 1, type := .none }).setFile f
      { s.file f with ref := 0, type := .none } = s := by
    unfold State.setFile
    rw [update_idem, ← h0, ← ht, update_eq_self]
  rw [hback]; exact hQ

variable [Fintype P]

omit [Fintype P] in
theorem frame_trunc {c : Prop} [Decidable c] :
    Frame s (if c then s.setInode ip { s.inode ip with data := [] } else s) := by
  split_ifs
  · exact frame_setInode
  · exact .refl s

theorem account_trunc {c : Prop} [Decidable c] (h : Account s held locks) (hi : ip ∈ locks) :
    Account (if c then s.setInode ip { s.inode ip with data := [] } else s) held locks := by
  split_ifs
  · exact ⟨Book.edit h.book hi rfl, Kept.fields h.kept frame_setInode rfl rfl rfl⟩
  · exact h

omit [Fintype P] in
theorem trunc_step {c : Prop} [Decidable c] {m : Inum → Inode} (hm : s.inode = m) :
    TruncStep m (if c then s.setInode ip { s.inode ip with data := [] } else s).inode ip := by
  split_ifs
  · refine .inr ?_
    show update s.inode ip _ = _
    rw [hm]
  · exact .inl hm

variable [DecidableEq P]

def OpenEnds (s : State P) (p : P) (ip : Inum) (r : ℤ) (s' : State P) : Prop :=
  Whole s' s'.ofile [] [] [] ∧ s'.ops = s.ops - 1 ∧
  s'.cwd = s.cwd ∧ (∀ q d, q ≠ p → s'.ofile (q, d) = s.ofile (q, d)) ∧
  ((r = -1 ∧ s'.file = s.file ∧ s'.ofile = s.ofile ∧ s'.pipe = s.pipe ∧ s'.initproc = s.initproc ∧
      FreeStep s.inode s'.inode ip ∧ (BadDevice (s.inode ip) ∨ Full s p)) ∨
    (0 ≤ r ∧ ¬ Full s p ∧ TruncStep s.inode s'.inode ip))

omit [DecidableEq P] in
theorem OpenEnds.ops_eq {t : State P} {r : ℤ} (h : OpenEnds t p ip r s') (hf : Frame (State.inOp s) t) :
    s'.ops = s.ops := by
  rw [h.2.1, hf.ops]; exact add_sub_cancel_right _ _

section
variable {E : Panic → Prop} {omode : Word}

omit [DecidableEq P] in
theorem wp_openFail (h : Whole s s.ofile [ip] [ip] []) (hwhy : BadDevice (s.inode ip) ∨ Full s p) :
    wp E (do iunlockput ip; endOp; return -1 : K P ℤ) (OpenEnds s p ip) s := by
  refine wp_seq (wp_iunlockput h.account.book h.account.kept) fun _ s1 h1 => ?_
  obtain ⟨hf1, hfree, hb1, hk1⟩ := h1
  refine ⟨⟨⟨Book.op hb1 _, Kept.op hk1 _⟩, ?_⟩, ?_, hf1.cwd, fun q d _ => ?_,
    .inl ⟨rfl, hf1.file, hf1.ofile, hf1.pipe, hf1.initproc, hfree, hwhy⟩⟩
  · rw [hf1.ofile]; exact h.files.congr hf1.file hf1.pipe
  · show s1.ops - 1 = _
    rw [hf1.ops]
  · rw [hf1.ofile]

theorem wp_openFile (h : Whole s s.ofile [ip] [ip] []) (ht : (s.inode ip).type ≠ .free) :
    wp E (openFile p ip omode) (OpenEnds s p ip) s := by
  unfold openFile
  rw [wp_bind, wp_get]
  split_ifs with hbad
  · exact wp_openFail h (.inl hbad)
  refine wp_seq (wp_filealloc h) fun r s1 h1 => ?_
  obtain ⟨hr, h1⟩ := h1
  cases r with
  | none => rw [h1]; exact wp_openFail h (.inr (.inl hr.symm))
  | some f =>
    obtain ⟨hs1, h0, ht0, hw1⟩ := h1
    refine wp_seq wp_fdalloc fun r s2 h2 => ?_
    obtain ⟨hr2, h2⟩ := h2
    cases r with
    | none =>
      rw [h2, hs1, wp_bind]
      refine wp_fileclose_undo h0 ht0 (wp_openFail h (.inr (.inr ?_)))
      rw [hr2, hs1]; rfl
    | some fd =>
      obtain ⟨hs2, hfree⟩ := h2
      rw [wp_bind, wp_modify]
      set y : File := { s2.file f with
        type := if (s2.inode ip).type = .device then .device else .inode
        major := if (s2.inode ip).type = .device then (s2.inode ip).major else (s2.file f).major
        off := if (s2.inode ip).type = .device then (s2.file f).off else 0
        ip := ip
        readable := decide (omode &&& O_WRONLY = 0)
        writable := decide (omode &&& O_WRONLY ≠ 0 ∨ omode &&& O_RDWR ≠ 0) } with hy
      have hw2 : Whole s2 s.ofile [ip] [ip] [f] := by rw [hs2]; exact whole_setOfile hw1
      have hm2 : s2.inode = s.inode := by rw [hs2, hs1]; rfl
      have hfile2 : s2.file f = { s.file f with ref := 1 } := by
        rw [hs2, hs1]; exact update_self _ _ _
      have hyt : y.type ≠ .pipe := by
        rw [hy]
        split_ifs <;> exact FdType.noConfusion
      have hyi : inumOf y = some ip := by
        rw [hy]
        split_ifs <;> rfl
      have hnone : holder s2 (.inr f) = none := by
        show inumOf (s2.file f) = none
        rw [hfile2]
        unfold inumOf
        rw [ht0]
      have hacc3 : Account (s2.setFile f y) [] [ip] := by
        refine hw2.account.adopt apart_setFile hnone ?_ (by rw [hm2]; exact ht)
        rw [holder_setFile_update, hyi]
      have hfiles3 : Files (s2.setFile f y) s.ofile [f] := by
        refine hw2.files.fill rfl ?_ ?_ hyt
        · rw [hfile2]; exact one_ne_zero
        · rw [hfile2]; rw [ht0]; exact FdType.noConfusion
      rw [wp_bind]
      set s4 := if omode &&& O_TRUNC ≠ 0 ∧ ((s2.setFile f y).inode ip).type = .file then
        (s2.setFile f y).setInode ip { (s2.setFile f y).inode ip with data := [] } else s2.setFile f y
      have hacc4 : Account s4 [] [ip] := account_trunc hacc3 List.mem_cons_self
      have hf4 : Frame (s2.setFile f y) s4 := frame_trunc
      have hm4 : TruncStep s.inode s4.inode ip := trunc_step hm2
      refine wp_seq (wp_iunlock hacc4.book) fun _ s5 h5 => ?_
      obtain ⟨hs5, hb5⟩ := h5
      have hf5 := hf4.trans hs5.toFrame
      have hofile : s5.ofile = update s.ofile (p, fd) (some f) := by
        rw [hf5.ofile]
        rw [hs2, hs1]; rfl
      have hd : s.ofile (p, fd) = none := by rw [hs1] at hfree; exact hfree
      have hops : s2.ops = s.ops ∧ s2.cwd = s.cwd := by rw [hs2, hs1]; exact ⟨rfl, rfl⟩
      refine ⟨⟨⟨Book.op hb5 _, Kept.op (hacc4.kept.same hs5) _⟩, ?_⟩, ?_, ?_, fun q d hq => ?_,
        .inr ⟨Int.natCast_nonneg _, ?_, ?_⟩⟩
      · rw [hofile]; exact (hfiles3.store hd).congr hf5.file hf5.pipe
      · show s5.ops - 1 = _
        rw [hf5.ops]; exact congrArg (· - 1) hops.1
      · exact hf5.cwd.trans hops.2
      · rw [hofile, update_of_ne fun he => hq (Prod.mk.inj he).1]
      · rintro (hfull | hfull)
        · rw [hfull] at hr; cases hr
        · rw [hs1] at hr2
          rw [show (s.setFile f { s.file f with ref := 1 }).freeFd p = s.freeFd p from rfl, hfull] at hr2
          cases hr2
      · rw [hs5.inode]; exact hm4

variable (hE : ∀ e, usual e = true → E e) {path : Option Path}
include hE

omit hE [DecidableEq P] in
theorem FreeStep.eq_of_kept (h : FreeStep s.inode s'.inode ip) (hk : Kept s []) (hf : Frame s s')
    (hb : Book s' [] []) : s'.inode = s.inode := by
  rcases h with hm | ⟨hn, ht, hm⟩
  · exact hm
  · have hpos := hk ip ht hn
    have h0 : holders s' ip = 0 := by
      refine hb.alloc ip ?_
      rw [hm, update_self]; rfl
    rw [hf.holders] at h0
    rw [h0] at hpos; exact absurd hpos (lt_irrefl 0)

/-- What `sys_open` has done when it returns. -/
def Opens (s : State P) (p : P) (path : Option Path) (omode : Word) (room : Room) (r : ℤ) (s' : State P) : Prop :=
  Good s' ∧ s'.ops = s.ops ∧ s'.cwd = s.cwd ∧ OpenEffect s p path omode room r s'

section
omit hE [DecidableEq P]

theorem good_frame (h : Good s) (hf : Frame s s') (hi : Idle s') : Good s' := by
  refine ⟨⟨⟨hi.book, hi.kept⟩, ?_⟩, fun q d hq => ?_⟩
  · rw [hf.ofile]; exact h.whole.files.frame hf
  · rw [hf.cwd] at hq; rw [hf.ofile]; exact h.dead q d hq

variable {room : Room} {t : State P} (h : Good s) (hf : Frame (State.inOp s) t)
include h hf

/-- The failures before the inode is passed to `openFile`. -/
theorem wp_sysOpen_failed (hb : Book t [] []) (hk : Kept t []) (halike : Alike s.inode t.inode)
    (hno : ¬ Leftover s p path omode room) :
    wp E (do endOp; return -1 : K P ℤ) (Opens s p path omode room) t :=
  have hf' := frame_endOp hf
  ⟨good_frame h hf' ⟨Book.op hb _, Kept.op hk _⟩, hf'.ops, hf'.cwd, .failed hf' halike hno⟩

/-- A file that was there: a failure of `openFile` leaves the inodes as they were. -/
theorem openEffect_present {r : ℤ} (hm : t.inode = s.inode) (hno : ¬ Leftover s p path omode room)
    (hend : OpenEnds t p ip r s') : OpenEffect s p path omode room r s' := by
  have hops := hend.ops_eq hf
  obtain ⟨hw, -, hcwd, -, ⟨rfl, hfile, hofile, hpipe, hinit, hfree, -⟩ | ⟨hr, hfull, htrunc⟩⟩ := hend
  · have hframe : Frame s s' := ⟨hops, hfile.trans hf.file, hofile.trans hf.ofile, hcwd.trans hf.cwd,
      hpipe.trans hf.pipe, hinit.trans hf.initproc⟩
    rw [hm] at hfree
    refine .failed hframe ?_ hno
    rw [FreeStep.eq_of_kept hfree h.whole.account.kept hframe hw.account.book]
    exact .refl _
  · exact .opened hr (fun hfull' => hfull ((full_frame hf).mpr hfull')) (.inl hm) htrunc

omit h in
/-- A file that `create` has made: a failure of `openFile` leaves it behind. -/
theorem openEffect_made {q : Path} {dp : Inum} {name : Name} {r : ℤ} (hq : path = some q)
    (hc : omode &&& O_CREATE ≠ 0) (hcreates : Creates s p q .file room dp name ip)
    (hmade : FreeStep (created s.inode dp ip name .file 0 0) t.inode dp) (hend : OpenEnds t p ip r s') :
    OpenEffect s p path omode room r s' := by
  have hops := hend.ops_eq hf
  obtain ⟨-, -, hcwd, -, ⟨rfl, hfile, hofile, hpipe, hinit, hfree, hwhy⟩ | ⟨hr, hfull, htrunc⟩⟩ := hend
  · have hip : t.inode ip = newInode .file 0 0 dp ip := by
      rw [hmade.of_ne hcreates.ip_ne]
      unfold created
      rw [update_of_ne hcreates.ip_ne, update_self]
    have hsame := hfree.of_nlink (by rw [hip]; exact (by decide : (1 : BitVec 16) ≠ 0))
    have hfull : Full s p := by
      rcases hwhy with ⟨hdev, -⟩ | hfull
      · rw [hip] at hdev; cases hdev
      · exact (full_frame hf).mp hfull
    refine .leftover hq hc hcreates hfull ⟨hops, hfile.trans hf.file, hofile.trans hf.ofile,
      hcwd.trans hf.cwd, hpipe.trans hf.pipe, hinit.trans hf.initproc⟩ ?_
    rw [hsame]; exact hmade
  · exact .opened hr (fun hfull' => hfull ((full_frame hf).mpr hfull')) (.inr ⟨hc, q, dp, name, hq, hcreates, hmade⟩)
      htrunc

end

omit hE in
/-- `openFile` with the inode locked, after `create` or `namei`. -/
theorem wp_sysOpen_locked {room : Room} {t : State P} (h : Good s) (hf : Frame (State.inOp s) t) (hp : s.cwd p ≠ none) (hb : Book t [ip] [ip]) (hk : Kept t [ip])
    (ht : (t.inode ip).type ≠ .free)
    (heff : ∀ r s', OpenEnds t p ip r s' → OpenEffect s p path omode room r s') :
    wp E (openFile p ip omode) (Opens s p path omode room) t := by
  have hw : Whole t t.ofile [ip] [ip] [] := by
    refine ⟨⟨hb, hk⟩, ?_⟩
    rw [hf.ofile]; exact h.whole.files.congr hf.file hf.pipe
  refine wp_mono (wp_openFile hw ht) fun r u hu => ?_
  have hops := hu.ops_eq hf
  have hres := heff r u hu
  obtain ⟨hw', -, hcwd, hothers, -⟩ := hu
  replace hcwd : u.cwd = s.cwd := hcwd.trans hf.cwd
  refine ⟨⟨hw', fun q d hq => ?_⟩, hops, hcwd, hres⟩
  rw [hcwd] at hq
  have hqp : q ≠ p := by rintro rfl; exact hp hq
  rw [hothers q d hqp, hf.ofile]; exact h.dead q d hq

theorem wp_sysOpen {room : Room} (h : Good s) (hp : s.cwd p ≠ none) (hT : ∀ path, Walkable E s p path) :
    wp E (sysOpen p path omode room) (Opens s p path omode room) s := by
  have hidle := h.idle
  unfold sysOpen
  cases path with
  | none =>
    refine ⟨h, rfl, rfl, .failed (.refl s) (.refl _) ?_⟩
    rintro ⟨-, -, q, dp, name, ip, hq, -⟩; cases hq
  | some path =>
    rw [wp_bind]
    split_ifs with hc
    · refine wp_seq (wp_create hE hidle.inOp.book hidle.inOp.kept hp (hT path) InodeType.noConfusion)
        fun r s1 h1 => ?_
      obtain ⟨hf1, hb1, hk1, ht1, heff⟩ := h1
      have hleft : (∀ dp name ip, ¬ Creates (State.inOp s) p path .file room dp name ip) →
          ¬ Leftover s p (some path) omode room := by
        rintro hno ⟨-, -, q, dp, name, ip, hq, hcr⟩
        cases hq
        exact hno dp name ip ⟨hcr.parent, hcr.absent, hcr.free, hcr.fits, hcr.fitsDot⟩
      generalize hm : s1.inode = m at heff
      cases heff with
      | failed halike hno =>
        refine wp_sysOpen_failed h hf1 hb1 hk1 ?_ (hleft hno)
        rw [hm]; exact halike
      | present ip hfile hno =>
        exact wp_sysOpen_locked h hf1 hp hb1 hk1 (ht1 ip rfl) fun r s' =>
          openEffect_present h hf1 hm (hleft hno)
      | @made dp ip name m hcr hfree =>
        refine wp_sysOpen_locked h hf1 hp hb1 hk1 (ht1 ip rfl) fun r s' => openEffect_made hf1 rfl hc
          ⟨hcr.parent, hcr.absent, hcr.free, hcr.fits, hcr.fitsDot⟩ ?_
        rw [hm]; exact hfree
    · have hno : ¬ Leftover s p (some path) omode room := fun hl => hc hl.1
      refine wp_seq (wp_namei (fun _ => hE _ rfl) hidle.inOp.book hidle.inOp.kept hp (hT path)) fun r s1 h1 => ?_
      obtain ⟨hs1, hr, hb1⟩ := h1
      have hfail : ∀ t : State P, Same (State.inOp s) t → Book t [] [] →
          wp E (do endOp; return -1 : K P ℤ) (Opens s p (some path) omode room) t := fun t hs hb =>
        wp_sysOpen_failed h hs.toFrame hb (hidle.inOp.kept.same hs) (by rw [hs.inode]; exact .refl _) hno
      cases r with
      | none => exact hfail s1 hs1 hb1
      | some ip =>
        obtain ⟨⟨ip', last⟩, hfound, rfl⟩ := Option.map_eq_some_iff.mp hr.symm
        refine wp_seq (wp_lockFound hE hs1 hb1 hfound (hT path)) fun _ s2 h2 => ?_
        obtain ⟨hs2, hb2, ht2⟩ := h2
        rw [wp_bind, wp_get]
        split_ifs with hdir
        · refine wp_seq (wp_iunlockput_same hb2 (hidle.inOp.kept.same hs2)) fun _ s3 h3 => ?_
          exact hfail s3 (hs2.trans h3.1) h3.2
        · refine wp_sysOpen_locked h hs2.toFrame hp hb2 ((hidle.inOp.kept.same hs2).cons ip') ?_ fun r s' =>
            openEffect_present h hs2.toFrame hs2.inode hno
          rw [hs2.inode]; exact ht2

inductive ChdirEffect (s : State P) : ℤ → State P → Prop
  | failed {s' : State P} : Frame s s' → s'.inode = s.inode → ChdirEffect s (-1) s'
  | moved {s' : State P} {i : Inum} : FreeStep s.inode s'.inode i → ChdirEffect s 0 s'

theorem wp_sysChdir (h : Good s) (hp : s.cwd p ≠ none) (hT : ∀ path, Walkable E s p path) :
    wp E (sysChdir p path) (fun r s' => Good s' ∧ s'.ops = s.ops ∧ ChdirEffect s r s') s := by
  have hidle := h.idle
  have hfail : ∀ t : State P, Same (State.inOp s) t → Book t [] [] → wp E (do endOp; return -1 : K P ℤ)
      (fun r s' => Good s' ∧ s'.ops = s.ops ∧ ChdirEffect s r s') t := by
    intro t hs hb
    have hf' := frame_endOp hs.toFrame
    exact ⟨good_frame h hf' ⟨Book.op hb _, Kept.op (hidle.inOp.kept.same hs) _⟩, hf'.ops, .failed hf' hs.inode⟩
  unfold sysChdir
  rw [wp_bind]
  cases path with
  | none => exact hfail _ (.refl _) hidle.inOp.book
  | some path =>
    refine wp_seq (wp_namei (fun _ => hE _ rfl) hidle.inOp.book hidle.inOp.kept hp (hT path)) fun r s1 h1 => ?_
    obtain ⟨hs1, hr, hb1⟩ := h1
    cases r with
    | none => exact hfail s1 hs1 hb1
    | some ip =>
      obtain ⟨⟨ip', last⟩, hfound, rfl⟩ := Option.map_eq_some_iff.mp hr.symm
      refine wp_seq (wp_lockFound hE hs1 hb1 hfound (hT path)) fun _ s2 h2 => ?_
      obtain ⟨hs2, hb2, ht2⟩ := h2
      rw [wp_bind, wp_get]
      split_ifs with hdir
      · refine wp_seq (wp_iunlockput_same hb2 (hidle.inOp.kept.same hs2)) fun _ s3 h3 => ?_
        exact hfail s3 (hs2.trans h3.1) h3.2
      · refine wp_seq (wp_iunlock hb2) fun _ s3 h3 => ?_
        obtain ⟨hs3, hb3⟩ := h3
        replace hs3 := hs2.trans hs3
        have hk3 : Kept s3 [ip'] := (hidle.inOp.kept.same hs3).cons ip'
        unfold putCwd
        rw [wp_bind, wp_bind, wp_get]
        cases hc : s3.cwd p with
        | none => rw [hs3.cwd] at hc; exact absurd hc hp
        | some old =>
          -- the new directory has its reference before the old one is given up
          have hrel : Account { s3 with cwd := update s3.cwd p none } [old, ip'] [] :=
            Account.release ⟨hb3, hk3⟩ ⟨rfl, rfl, rfl, rfl⟩ (x := .inl p) hc holder_cwd
          set c := update s3.cwd p (some ip') with hcdef
          have hadopt : Account { s3 with cwd := c } [old] [] := by
            have hswap : Account { s3 with cwd := update s3.cwd p none } [ip', old] [] :=
              ⟨hrel.book.perm (.swap _ _ _) (.refl _), fun j ht hn => by
                rw [(List.Perm.swap old ip' []).count_eq]
                exact hrel.kept j ht hn⟩
            refine hswap.adopt ⟨rfl, rfl, rfl, rfl⟩ (x := .inl p) ?_ ?_ ?_
            · exact update_self _ _ _
            · rw [holder_cwd, holder_cwd, update_idem]
            · rw [hs3.inode]; exact ht2
          refine wp_iput_cwd c (wp_mono (wp_iput hadopt.book hadopt.kept List.not_mem_nil) fun _ t1 h1 => ?_)
          obtain ⟨hf1, hfree, hbook1, hkept1⟩ := h1
          have hend : ∀ u : State P, u = { t1 with ops := t1.ops - 1 } →
              Good u ∧ u.ops = s.ops ∧ ChdirEffect s 0 u := by
            rintro u rfl
            have hofile : t1.ofile = s.ofile := hf1.ofile.trans hs3.ofile
            refine ⟨⟨⟨⟨Book.op hbook1 _, Kept.op hkept1 _⟩, ?_⟩, fun q d hq => ?_⟩, ?_, .moved (i := old) ?_⟩
            · rw [hofile]
              exact h.whole.files.congr (hf1.file.trans hs3.file) (hf1.pipe.trans hs3.pipe)
            · rw [hofile]
              replace hq : t1.cwd q = none := hq
              rw [hf1.cwd] at hq
              replace hq : update s3.cwd p (some ip') q = none := hq
              have hqp : q ≠ p := by rintro rfl; rw [update_self] at hq; cases hq
              rw [update_of_ne hqp, hs3.cwd] at hq; exact h.dead q d hq
            · rw [hf1.ops, hs3.ops]; exact add_sub_cancel_right _ _
            · have := hfree
              rw [show ({ s3 with cwd := c } : State P).inode = s.inode from hs3.inode] at this
              exact this
          refine hend _ ?_
          show ({ t1 with ops := t1.ops - 1, cwd := update s3.cwd p (some ip') } : State P) = _
          rw [← hcdef, ← show t1.cwd = c from hf1.cwd]

end

end Xv6.Syscall.Opening
