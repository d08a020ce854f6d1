import Mathlib.Logic.Relation
import Xv6.Syscall.Ftable

/-!
# Descriptors

Specifications of `sys_dup`, `sys_close`, `sys_pipe`, `fork` and `exit`: between calls the accounts of inodes
and files are in order (`Good`), and these calls keep them so on every way out.
-/

namespace Xv6.Syscall.Descriptors

open Lib.Stateful Lib.RefCount Param Syscall.Defs Syscall.Inodes Syscall.Linking Function List
open Syscall.Links Syscall.Ftable

variable {P : Type} {s s' : State P} {p np : P} {f : Fin NFILE} {fs : List (Fin NFILE)} {o : Slots P}

def Frees (m m' : Inum → Inode) : Prop := Relation.ReflTransGen (fun a b => ∃ i, FreeStep a b i) m m'

theorem Frees.refl (m : Inum → Inode) : Frees m m := Relation.ReflTransGen.refl

theorem Frees.tail {m m' m'' : Inum → Inode} (h : Frees m m') (h' : ∃ i, FreeStep m' m'' i) : Frees m m'' :=
  Relation.ReflTransGen.tail h h'

/-- A process that has exited, or has not begun, has no descriptors. -/
def Dead (s : State P) : Prop := ∀ p fd, s.cwd p = none → s.ofile (p, fd) = none

variable [Fintype P] [DecidableEq P]

structure Good (s : State P) : Prop where
  whole : Whole s s.ofile [] [] []
  dead : Dead s

omit [DecidableEq P] in
theorem Good.idle {s : State P} (h : Good s) : Idle s := ⟨h.whole.account.book, h.whole.account.kept⟩

structure Done (s s' : State P) : Prop where
  good : Good s'
  ops : s'.ops = s.ops
  frees : Frees s.inode s'.inode

omit [DecidableEq P] in
theorem Done.refl (h : Good s) : Done s s := ⟨h, rfl, .refl _⟩

variable {fd : Fin NOFILE} {r : Option (Fin NFILE)} {held locks : List Inum}

section
omit [Fintype P]

theorem Dead.store (h : Dead s) (hp : s.cwd p ≠ none) : Dead (s.setOfile p fd r) := by
  intro q d hq
  have hne : (q, d) ≠ (p, fd) := by intro he; rw [(Prod.mk.inj he).1] at hq; exact hp hq
  show update s.ofile (p, fd) r (q, d) = none
  rw [update_of_ne hne]; exact h q d hq

theorem Dead.clear (h : Dead s) : Dead (s.setOfile p fd none) := by
  intro q d hq
  show update s.ofile (p, fd) none (q, d) = none
  by_cases hqd : (q, d) = (p, fd)
  · rw [hqd, update_self]
  · rw [update_of_ne hqd]; exact h q d hq

end

section
omit [Fintype P] [DecidableEq P]

theorem Dead.beside (h : Dead s) (hb : Beside s s') : Dead s' := by
  intro q d hq
  rw [hb.cwd] at hq
  rw [hb.ofile]; exact h q d hq

theorem argfd_eq_some {fd : ℤ} {r : Fin NOFILE × Fin NFILE} (h : s.argfd p fd = some r) :
    s.ofile (p, r.1) = some r.2 := by
  unfold State.argfd at h
  split_ifs at h
  obtain ⟨g, hg, rfl⟩ := Option.map_eq_some_iff.mp h; exact hg

end

omit [DecidableEq P] in
theorem ref_pos (h : Whole s o held locks fs) {d : P × Fin NOFILE} (hd : o d = some f) : 0 < (s.file f).ref := by
  rw [h.files.refs f]
  have : 0 < fds o f := refs_pos.mpr ⟨d, hd⟩; omega

theorem whole_setOfile (h : Whole s o held locks fs) : Whole (s.setOfile p fd r) o held locks fs :=
  ⟨h.account.apart apart_setOfile rfl, h.files.congr rfl rfl⟩

section
variable {E : Panic → Prop}

theorem wp_sysDup {fd : ℤ} (h : Good s) (hp : s.cwd p ≠ none) : wp E (sysDup p fd) (fun _ s' => Done s s') s := by
  unfold sysDup
  rw [wp_bind, wp_get]
  cases ha : s.argfd p fd with
  | none => exact Done.refl h
  | some r =>
    obtain ⟨fd0, f⟩ := r
    have hfd0 := argfd_eq_some ha
    refine wp_seq wp_fdalloc fun r s1 h1 => ?_
    obtain ⟨-, h1⟩ := h1
    cases r with
    | none => rw [h1]; exact Done.refl h
    | some fd1 =>
      obtain ⟨rfl, hfree⟩ := h1
      have hw : Whole (s.setOfile p fd1 (some f)) _ _ _ _ := whole_setOfile h.whole
      refine wp_seq (wp_filedup hw (ref_pos hw hfd0)) fun _ s2 h2 => ?_
      obtain ⟨hw2, hb2, hm2⟩ := h2
      refine ⟨⟨⟨hw2.account, ?_⟩, (h.dead.store hp).beside hb2⟩, hb2.ops, ?_⟩
      · rw [hb2.ofile]; exact hw2.files.store hfree
      · rw [hm2]; exact .refl _

variable {page : Option ℕ}

theorem wp_sysClose {fd : ℤ} (h : Good s) : wp E (sysClose p fd) (fun _ s' => Done s s') s := by
  unfold sysClose
  rw [wp_bind, wp_get]
  cases ha : s.argfd p fd with
  | none => exact Done.refl h
  | some r =>
    obtain ⟨fd0, f⟩ := r
    rw [wp_bind]
    have hw : Whole (s.setOfile p fd0 none) (s.setOfile p fd0 none).ofile [] [] [f] :=
      ⟨(whole_setOfile h.whole).account, (h.whole.files.clear (argfd_eq_some ha)).congr rfl rfl⟩
    refine wp_seq (wp_fileclose hw fun _ _ => not_mem_nil) fun _ s2 h2 => ?_
    obtain ⟨hw2, hb2, hfree⟩ := h2
    refine ⟨⟨?_, h.dead.clear.beside hb2⟩, hb2.ops, (Frees.refl _).tail hfree⟩
    rw [hb2.ofile]; exact hw2

/-- The exits that close both files. -/
theorem wp_closeTwo {α : Type} {x : α} {f0 f1 : Fin NFILE} (h : Whole s o [] [] [f0, f1]) :
    wp E (do fileclose f0; fileclose f1; return x : K P α)
      (fun r s' => r = x ∧ Beside s s' ∧ Frees s.inode s'.inode ∧ Whole s' o [] [] []) s := by
  refine wp_seq (wp_fileclose h fun _ _ => not_mem_nil) fun _ s1 h1 => ?_
  obtain ⟨hw1, hb1, hfree1⟩ := h1
  refine wp_seq (wp_fileclose hw1 fun _ _ => not_mem_nil) fun _ s2 h2 => ?_
  obtain ⟨hw2, hb2, hfree2⟩ := h2
  exact ⟨rfl, hb1.trans hb2, ((Frees.refl _).tail hfree1).tail hfree2, hw2⟩

omit [DecidableEq P] in
/-- Two new files become the ends of a new pipe. -/
theorem whole_pipe {f0 f1 : Fin NFILE} {a : ℕ} {y0 y1 : File} (h : Whole s o [] [] [f0, f1]) (hne : f0 ≠ f1)
    (ha : s.pipe a = none) (h0 : (s.file f0).type = .none) (h1 : (s.file f1).type = .none)
    (hy0 : y0 = { s.file f0 with type := .pipe, readable := true, writable := false, pipe := some a })
    (hy1 : y1 = { s.file f1 with type := .pipe, readable := false, writable := true, pipe := some a }) :
    Whole { s with
      file := update (update s.file f0 y0) f1 y1
      pipe := update s.pipe a (some ⟨true, true⟩) } o [] [] [f0, f1] := by
  set file := update (update s.file f0 y0) f1 y1 with hfile
  have hends : ∀ g ∈ [f0, f1], (s.file g).type = .none ∧ (file g).type = .pipe ∧ (file g).ref = (s.file g).ref := by
    intro g hg
    rcases mem_pair.mp hg with rfl | rfl
    · rw [hfile, update_of_ne hne, update_self, hy0]; exact ⟨h0, rfl, rfl⟩
    · rw [hfile, update_self, hy1]; exact ⟨h1, rfl, rfl⟩
  have hrest : ∀ g ∉ [f0, f1], file g = s.file g := by
    intro g hg
    rw [mem_pair, not_or] at hg
    rw [hfile, update_of_ne hg.2, update_of_ne hg.1]
  have href : ∀ g, (file g).ref = (s.file g).ref := by
    intro g
    by_cases hg : g ∈ [f0, f1]
    · exact (hends g hg).2.2
    · rw [hrest g hg]
  refine ⟨h.account.apart ⟨rfl, rfl, rfl, rfl⟩ ?_, fun g => (href g).trans (h.files.refs g), fun g hg => ?_, ?_⟩
  · funext x
    cases x with
    | inl q => rfl
    | inr g =>
      show inumOf (file g) = inumOf (s.file g)
      by_cases hg : g ∈ [f0, f1]
      · unfold inumOf
        rw [(hends g hg).1, (hends g hg).2.1]
      · rw [hrest g hg]
  · replace hg : (s.file g).ref = 0 := (href g).symm.trans hg
    have hmem : g ∉ [f0, f1] := by
      intro hmem
      have := h.files.refs g
      have := count_pos_iff.mpr hmem; omega
    show (file g).type = _
    rw [hrest g hmem]; exact h.files.unused g hg
  · exact h.files.pipes.new ha hne (by rw [h0]; exact FdType.noConfusion) (by rw [h1]; exact FdType.noConfusion)
      (by rw [hy0]; exact ⟨rfl, rfl⟩) (by rw [hy1]; exact ⟨rfl, rfl⟩) (by rw [hy0]) (by rw [hy1])

theorem wp_pipealloc (h : Whole s o [] [] []) (hpage : ∀ a, page = some a → s.pipe a = none) :
    wp E (pipealloc page) (fun r s' => Beside s s' ∧ Frees s.inode s'.inode ∧ match r with
      | none => Whole s' o [] [] []
      | some (f0, f1) => Whole s' o [] [] [f0, f1]) s := by
  refine wp_seq (wp_filealloc h) fun r s1 h1 => ?_
  obtain ⟨-, h1⟩ := h1
  cases r with
  | none => rw [h1]; exact ⟨⟨rfl, rfl, rfl, rfl⟩, .refl _, h⟩
  | some f0 =>
    obtain ⟨hs1, h0, ht0, hw1⟩ := h1
    refine wp_seq (wp_filealloc hw1) fun r s2 h2 => ?_
    obtain ⟨-, h2⟩ := h2
    cases r with
    | none =>
      rw [h2]
      refine wp_seq (wp_fileclose hw1 fun _ _ => not_mem_nil) fun _ s3 h3 => ?_
      obtain ⟨hw3, hb3, hfree⟩ := h3
      rw [hs1] at hb3 hfree
      exact ⟨⟨hb3.ops, hb3.ofile, hb3.cwd, hb3.initproc⟩, (Frees.refl _).tail hfree, hw3⟩
    | some f1 =>
      obtain ⟨hs2, h1, ht1, hw2⟩ := h2
      have hself1 : s1.file f0 = { s.file f0 with ref := 1 } := by rw [hs1]; exact update_self _ _ _
      have hne : f0 ≠ f1 := by rintro rfl; rw [hself1] at h1; cases h1
      have hw2' : Whole s2 o [] [] [f0, f1] := ⟨hw2.account, hw2.files.perm (.swap _ _ _)⟩
      have hb2 : Beside s s2 := by rw [hs2, hs1]; exact ⟨rfl, rfl, rfl, rfl⟩
      have hm2 : s2.inode = s.inode := by rw [hs2, hs1]; rfl
      cases page with
      | none =>
        refine wp_mono (wp_closeTwo hw2') fun r s3 h3 => ?_
        obtain ⟨rfl, hb3, hfree, hw3⟩ := h3
        rw [hm2] at hfree; exact ⟨hb2.trans hb3, hfree, hw3⟩
      | some a =>
        have htype0 : (s2.file f0).type = .none := by
          rw [hs2]
          show (update s1.file f1 _ f0).type = _
          rw [update_of_ne hne, hself1]; exact ht0
        have htype1 : (s2.file f1).type = .none := by
          rw [hs2]
          show (update s1.file f1 _ f1).type = _
          rw [update_self]; exact ht1
        have hgoal := whole_pipe hw2' hne (by rw [hs2, hs1]; exact hpage a rfl) htype0 htype1 rfl rfl
        refine ⟨⟨hb2.ops, hb2.ofile, hb2.cwd, hb2.initproc⟩, ?_, ?_⟩
        · show Frees s.inode s2.inode
          rw [hm2]; exact .refl _
        · -- the second `setFile` reads the file of the write end past the first
          unfold State.setFile
          simp only [update_of_ne (Ne.symm hne)]; exact hgoal

section
omit [Fintype P]

theorem ofile_setOfile_ne {d : Fin NOFILE} {q : P} (h : (q, d) ≠ (p, fd)) :
    (s.setOfile p fd r).ofile (q, d) = s.ofile (q, d) := update_of_ne h _ _

theorem setOfile_back (h : s.ofile (p, fd) = none) : ((s.setOfile p fd r).setOfile p fd none).ofile = s.ofile := by
  show update (update s.ofile (p, fd) r) (p, fd) none = s.ofile
  rw [update_idem, ← h, update_eq_self]

end

theorem wp_closeBoth {f0 f1 : Fin NFILE} (hs : Good s) (h : Whole s' s.ofile [] [] [f0, f1])
    (ho : s'.ofile = s.ofile) (hc : s'.cwd = s.cwd) (hops : s'.ops = s.ops) (hm : Frees s.inode s'.inode) :
    wp E (do fileclose f0; fileclose f1; return -1 : K P ℤ) (fun _ s' => Done s s') s' := by
  refine wp_mono (wp_closeTwo h) fun _ s4 h4 => ?_
  obtain ⟨-, hb4, hfree4, hw4⟩ := h4
  have ho4 : s4.ofile = s.ofile := hb4.ofile.trans ho
  have hc4 : s4.cwd = s.cwd := hb4.cwd.trans hc
  refine ⟨⟨?_, fun q d hq => ?_⟩, hb4.ops.trans hops, Relation.ReflTransGen.trans hm hfree4⟩
  · rw [ho4]; exact hw4
  · rw [hc4] at hq; rw [ho4]; exact hs.dead q d hq

theorem wp_sysPipe {copied : Bool} (h : Good s) (hp : s.cwd p ≠ none)
    (hpage : ∀ a, page = some a → s.pipe a = none) : wp E (sysPipe p page copied) (fun _ s' => Done s s') s := by
  refine wp_seq (wp_pipealloc h.whole hpage) fun r s1 h1 => ?_
  obtain ⟨hb1, hm1, hw1⟩ := h1
  cases r with
  | none =>
    refine ⟨⟨?_, h.dead.beside hb1⟩, hb1.ops, hm1⟩
    rw [hb1.ofile]; exact hw1
  | some r =>
    obtain ⟨rf, wf⟩ := r
    replace hw1 : Whole s1 s.ofile [] [] [rf, wf] := hw1
    refine wp_seq wp_fdalloc fun r s2 h2 => ?_
    obtain ⟨-, h2⟩ := h2
    cases r with
    | none => rw [h2]; exact wp_closeBoth h hw1 hb1.ofile hb1.cwd hb1.ops hm1
    | some fd0 =>
      obtain ⟨rfl, hfree0⟩ := h2
      have hw2 : Whole (s1.setOfile p fd0 (some rf)) _ _ _ _ := whole_setOfile hw1
      refine wp_seq wp_fdalloc fun r s3 h3 => ?_
      obtain ⟨-, h3⟩ := h3
      cases r with
      | none =>
        rw [h3, wp_bind]
        exact wp_closeBoth h (whole_setOfile hw2) ((setOfile_back hfree0).trans hb1.ofile) hb1.cwd hb1.ops
          hm1
      | some fd1 =>
        obtain ⟨rfl, hfree1⟩ := h3
        have hne : (p, fd1) ≠ (p, fd0) := by
          intro he
          rw [(Prod.mk.inj he).2] at hfree1
          rw [show (s1.setOfile p fd0 (some rf)).ofile (p, fd0) = some rf from update_self _ _ _] at hfree1
          cases hfree1
        have hw3 : Whole ((s1.setOfile p fd0 (some rf)).setOfile p fd1 (some wf)) _ _ _ _ := whole_setOfile hw2
        split_ifs with hcopied
        · have hdead : Dead ((s1.setOfile p fd0 (some rf)).setOfile p fd1 (some wf)) := by
            have hp1 : s1.cwd p ≠ none := by rw [hb1.cwd]; exact hp
            exact ((h.dead.beside hb1).store hp1).store hp1
          refine ⟨⟨⟨hw3.account, ?_⟩, hdead⟩, hb1.ops, hm1⟩
          have h0 : s.ofile (p, fd0) = none := by rw [← hb1.ofile]; exact hfree0
          have h1 : update s.ofile (p, fd0) (some rf) (p, fd1) = none := by
            rw [← hb1.ofile]; exact hfree1
          have hstored := (hw3.files.store h0).store h1
          rw [← hb1.ofile] at hstored; exact hstored
        · refine wp_closeBoth h (whole_setOfile (whole_setOfile hw3)) ?_ hb1.cwd hb1.ops hm1
          rw [← hb1.ofile]
          funext d
          show update (update (update (update s1.ofile (p, fd0)
            (some rf)) (p, fd1) (some wf)) (p, fd0) none) (p, fd1) none d = s1.ofile d
          by_cases hd1 : d = (p, fd1)
          · rw [hd1, update_self, ← hfree1]; exact ofile_setOfile_ne hne
          · rw [update_of_ne hd1]
            by_cases hd0 : d = (p, fd0)
            · rw [hd0, update_self, hfree0]
            · rw [update_of_ne hd0, update_of_ne hd1, update_of_ne hd0]

omit [Fintype P] in
theorem holder_cwd {c : Option Inum} :
    holder { s with cwd := update s.cwd p c } = update (holder s) (.inl p) c := by
  funext x
  cases x with
  | inl q =>
    show update s.cwd p c q = _
    by_cases hq : q = p
    · rw [hq, update_self, update_self]
    · rw [update_of_ne hq, update_of_ne fun he => hq (Sum.inl_injective he)]
      rfl
  | inr g => rw [update_of_ne Sum.inr_ne_inl]; rfl

/-- What the loop of `fork` has done when the descriptors `l` are still to come. -/
structure Forking (s : State P) (np : P) (l : List (Fin NOFILE)) (t : State P) : Prop where
  whole : Whole t t.ofile [] [] []
  same : t.cwd = s.cwd ∧ t.inode = s.inode ∧ t.ops = s.ops
  others : ∀ q d, q ≠ np → t.ofile (q, d) = s.ofile (q, d)
  fresh : ∀ d ∈ l, t.ofile (np, d) = none
  nodup : l.Nodup

theorem wp_forkFd {l : List (Fin NOFILE)} {t : State P}
    (h : Forking s np (fd :: l) t) : wp E (forkFd p np fd) (fun _ => Forking s np l) t := by
  obtain ⟨hnl, hnodup⟩ := nodup_cons.mp h.nodup
  have hfresh : ∀ d ∈ l, t.ofile (np, d) = none := fun d hd => h.fresh d (mem_cons_of_mem fd hd)
  unfold forkFd
  rw [wp_bind, wp_get]
  cases hfd : t.ofile (p, fd) with
  | none => exact ⟨h.whole, h.same, h.others, hfresh, hnodup⟩
  | some f =>
    refine wp_seq (wp_filedup h.whole (ref_pos h.whole hfd)) fun _ t1 h1 => ?_
    obtain ⟨hw1, hb1, hm1⟩ := h1
    obtain ⟨hcwd, hinode, hops⟩ := h.same
    have hstored := hw1.files.store (h.fresh fd mem_cons_self)
    have hw2 : Whole (t1.setOfile np fd (some f)) (t1.setOfile np fd (some f)).ofile [] [] [] := by
      refine ⟨(whole_setOfile hw1).account, ?_⟩
      rw [← hb1.ofile] at hstored; exact hstored.congr rfl rfl
    refine ⟨hw2, ⟨hb1.cwd.trans hcwd, hm1.trans hinode, hb1.ops.trans hops⟩, fun q d hq => ?_, fun d hd => ?_,
      hnodup⟩
    · rw [ofile_setOfile_ne fun he => hq (Prod.mk.inj he).1, hb1.ofile]
      exact h.others q d hq
    · have hne : (np, d) ≠ (np, fd) := by intro he; rw [(Prod.mk.inj he).2] at hd; exact hnl hd
      rw [ofile_setOfile_ne hne, hb1.ofile]; exact hfresh d hd

theorem wp_forkFiles {ok : Bool} (h : Good s) (hp : s.cwd p ≠ none) (hnp : s.cwd np = none) :
    wp E (forkFiles p np ok) (fun _ s' => Done s s') s := by
  unfold forkFiles
  split_ifs with hok
  · have hstart : Forking s np (List.finRange NOFILE) s :=
      ⟨h.whole, ⟨rfl, rfl, rfl⟩, fun _ _ _ => rfl, fun d _ => h.dead np d hnp, nodup_finRange _⟩
    have hloop : wp E ((List.finRange NOFILE).forM (forkFd p np)) (fun _ => Forking s np []) s :=
      wp_forM (Forking s np) (fun _ _ _ => wp_forkFd) (fun _ ht => ht) hstart
    refine wp_seq hloop fun _ t ht => ?_
    obtain ⟨hcwd, hinode, hops⟩ := ht.same
    rw [wp_bind, wp_get]
    cases hi : t.cwd p with
    | none => rw [hcwd] at hi; exact absurd hi hp
    | some i =>
      have hholds : 0 < holders t i := refs_pos.mpr ⟨.inl p, hi⟩
      have hpos : 0 < t.ref i := by rw [ht.whole.account.book.refs i]; omega
      refine wp_seq (wp_idup ht.whole.account.book hpos) fun _ t1 h1 => ?_
      obtain ⟨hs1, hb1⟩ := h1
      set t2 : State P := { t1 with cwd := update t1.cwd np (some i) } with ht2
      have hnone : holder t1 (.inl np) = none := by
        show t1.cwd np = none
        rw [hs1.cwd, hcwd, hnp]
      have htype : (t1.inode i).type ≠ .free := by
        intro hf
        have h0 := hb1.alloc i hf
        rw [hs1.toFrame.holders] at h0; omega
      have hacc : Account t2 [] [] :=
        Account.adopt ⟨hb1, (ht.whole.account.kept.cons i).same hs1⟩ ⟨rfl, rfl, rfl, rfl⟩ hnone holder_cwd htype
      have hofile : t2.ofile = t.ofile := hs1.ofile
      refine ⟨⟨⟨hacc, ?_⟩, fun q d hq => ?_⟩, hs1.ops.trans hops, ?_⟩
      · rw [hofile]; exact ht.whole.files.congr hs1.file hs1.pipe
      · replace hq : update t1.cwd np (some i) q = none := hq
        have hqn : q ≠ np := by rintro rfl; rw [update_self] at hq; cases hq
        rw [update_of_ne hqn, hs1.cwd, hcwd] at hq
        rw [hofile, ht.others q d hqn]; exact h.dead q d hq
      · rw [hs1.inode, hinode]; exact .refl _
  · exact Done.refl h

/-- What the loop of `exit` has done when the descriptors `l` are still to come. -/
structure Exiting (s : State P) (p : P) (l : List (Fin NOFILE)) (t : State P) : Prop where
  whole : Whole t t.ofile [] [] []
  same : t.cwd = s.cwd ∧ t.ops = s.ops
  frees : Frees s.inode t.inode
  others : ∀ q d, q ≠ p → t.ofile (q, d) = s.ofile (q, d)
  closed : ∀ d, d ∉ l → t.ofile (p, d) = none

theorem wp_exitFd {l : List (Fin NOFILE)} {t : State P} (h : Exiting s p (fd :: l) t) :
    wp E (exitFd p fd) (fun _ => Exiting s p l) t := by
  unfold exitFd
  rw [wp_bind, wp_get]
  cases hfd : t.ofile (p, fd) with
  | none =>
    refine ⟨h.whole, h.same, h.frees, h.others, fun d hd => ?_⟩
    by_cases hdf : d = fd
    · rw [hdf, hfd]
    · exact h.closed d (by simp [hd, hdf])
  | some f =>
    -- the descriptor is counted no more when its file is closed
    have hw : Whole t (update t.ofile (p, fd) none) [] [] [f] :=
      ⟨h.whole.account, h.whole.files.clear hfd⟩
    refine wp_seq (wp_fileclose hw fun _ _ => not_mem_nil) fun _ t1 h1 => ?_
    obtain ⟨hw1, hb1, hfree⟩ := h1
    have hofile : (t1.setOfile p fd none).ofile = update t.ofile (p, fd) none := by
      rw [← hb1.ofile]; rfl
    refine ⟨?_, ⟨hb1.cwd.trans h.same.1, hb1.ops.trans h.same.2⟩, h.frees.tail hfree, fun q d hq => ?_,
      fun d hd => ?_⟩
    · rw [hofile]; exact whole_setOfile hw1
    · rw [hofile, update_of_ne fun he => hq (Prod.mk.inj he).1]
      exact h.others q d hq
    · rw [hofile]
      by_cases hdf : d = fd
      · rw [hdf, update_self]
      · rw [update_of_ne fun he => hdf (Prod.mk.inj he).2]
        exact h.closed d (by simp [hd, hdf])

omit [Fintype P] [DecidableEq P] in
theorem wp_iput_cwd {i : Inum} {Q : Unit → State P → Prop} (c : P → Option Inum)
    (h : wp E (iput i) (fun a t => Q a { t with cwd := s.cwd }) { s with cwd := c }) :
    wp E (iput i) Q s := by
  unfold iput at h ⊢
  rw [wp_bind, wp_get] at h ⊢
  split_ifs at h ⊢ <;> exact h

theorem wp_exit (h : Good s) (hp : s.cwd p ≠ none) (hinit : E .initExiting) :
    wp E (exit p) (fun _ s' => Done s s') s := by
  unfold exit
  rw [wp_bind, wp_get]
  split_ifs with hi
  · exact hinit
  have hstart : Exiting s p (List.finRange NOFILE) s :=
    ⟨h.whole, ⟨rfl, rfl⟩, .refl _, fun _ _ _ => rfl, fun d hd => absurd (mem_finRange d) hd⟩
  have hloop : wp E ((List.finRange NOFILE).forM (exitFd p)) (fun _ => Exiting s p []) s :=
    wp_forM (Exiting s p) (fun _ _ _ => wp_exitFd) (fun _ ht => ht) hstart
  refine wp_seq hloop fun _ t ht => ?_
  rw [wp_bind]
  show wp E _ _ (State.inOp t)
  unfold putCwd
  rw [wp_bind, wp_bind, wp_get]
  cases hc : t.cwd p with
  | none => rw [ht.same.1] at hc; exact absurd hc hp
  | some i =>
    rw [show (State.inOp t).cwd p = some i from hc]
    set c := update t.cwd p none with hcdef
    have hrel : Account { State.inOp t with cwd := c } [i] [] := by
      have hacc : Account (State.inOp t) [] [] :=
        ⟨Book.op ht.whole.account.book _, Kept.op ht.whole.account.kept _⟩
      exact hacc.release ⟨rfl, rfl, rfl, rfl⟩ (x := .inl p) hc (holder_cwd)
    refine wp_iput_cwd c (wp_mono (wp_iput hrel.book hrel.kept not_mem_nil) fun _ t1 h1 => ?_)
    obtain ⟨hf1, hfree, hb1, hk1⟩ := h1
    -- the state that `exit` ends in
    have hend : ∀ u : State P, u = { t1 with ops := t1.ops - 1 } → Done s u := by
      rintro u rfl
      have hofile : t1.ofile = t.ofile := hf1.ofile
      have hops : t1.ops - 1 = s.ops := by rw [hf1.ops, ← ht.same.2]; exact add_sub_cancel_right _ _
      refine ⟨⟨⟨⟨Book.op hb1 _, Kept.op hk1 _⟩, ?_⟩, fun q d hq => ?_⟩, hops, ht.frees.tail ⟨i, hfree⟩⟩
      · rw [hofile]; exact ht.whole.files.congr hf1.file hf1.pipe
      · rw [hofile]
        by_cases hq' : q = p
        · rw [hq']; exact ht.closed d not_mem_nil
        · rw [ht.others q d hq']
          refine h.dead q d ?_
          replace hq : t1.cwd q = none := hq
          rw [hf1.cwd] at hq
          replace hq : update t.cwd p none q = none := hq
          rwa [update_of_ne hq', ht.same.1] at hq
    refine hend _ ?_
    show ({ t1 with ops := t1.ops - 1, cwd := update t.cwd p none } : State P) = _
    rw [← hcdef, ← show t1.cwd = c from hf1.cwd]

end

end Xv6.Syscall.Descriptors
