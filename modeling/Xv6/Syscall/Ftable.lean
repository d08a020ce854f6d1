import Xv6.Syscall.Links

/-!
# Open files

The account of `struct file`s: `ref` is the number of descriptors that refer to a file, plus the references
that the code holds (`Files`), and each open end of a pipe belongs to one file (`Pipes`).  `filealloc`,
`fdalloc`, `filedup` and `fileclose` move references between the two.  A file that is closed for good gives
its inode up, or its end of a pipe, and the page of the pipe is freed with the second end.
-/

namespace Xv6.Syscall.Ftable

open Lib.Stateful Lib.RefCount Param Syscall.Defs Syscall.Inodes Syscall.Linking Function List
open Syscall.Links

variable {P : Type} {s s' : State P} {held locks : List Inum} {f : Fin NFILE} {fs : List (Fin NFILE)}

def isOpen (pi : Pipe) (writable : Bool) : Bool := if writable then pi.writeopen else pi.readopen

structure Pipes (file : Fin NFILE → File) (pipe : ℕ → Option Pipe) : Prop where
  live : ∀ f, (file f).type = .pipe → ∃ a pi, (file f).pipe = some a ∧ pipe a = some pi ∧
    isOpen pi (file f).writable = true
  alone : ∀ f g, (file f).type = .pipe → (file g).type = .pipe → (file f).pipe = (file g).pipe →
    (file f).writable = (file g).writable → f = g
  ends : ∀ a pi w, pipe a = some pi → isOpen pi w = true →
    ∃ f, (file f).type = .pipe ∧ (file f).pipe = some a ∧ (file f).writable = w
  used : ∀ a pi, pipe a = some pi → ∃ w, isOpen pi w = true

variable {file : Fin NFILE → File} {pipe : ℕ → Option Pipe} {x : File} {a : ℕ}

theorem Pipes.update (h : Pipes file pipe)
    (hf : (file f).type ≠ .pipe) (hx : x.type ≠ .pipe) : Pipes (Function.update file f x) pipe := by
  have hself : (Function.update file f x) f = x := update_self _ _ _
  have hne : ∀ g, (Function.update file f x g).type = .pipe → Function.update file f x g = file g := by
    intro g hg
    by_cases hgf : g = f
    · rw [hgf, hself] at hg; exact absurd hg hx
    · exact update_of_ne hgf _ _
  refine ⟨fun g hg => ?_, fun g g' hg hg' hp hw => ?_, fun a pi w ha hw => ?_, h.used⟩
  · have he := hne g hg; rw [he] at hg ⊢; exact h.live g hg
  · have he := hne g hg
    have he' := hne g' hg'
    rw [he] at hg hp hw
    rw [he'] at hg' hp hw; exact h.alone g g' hg hg' hp hw
  · obtain ⟨g, hg, hga, hgw⟩ := h.ends a pi w ha hw
    have hgf : g ≠ f := by rintro rfl; exact hf hg
    refine ⟨g, ?_⟩
    rw [update_of_ne hgf]; exact ⟨hg, hga, hgw⟩

theorem Pipes.setRef (h : Pipes file pipe) (n : ℕ) :
    Pipes (Function.update file f { file f with ref := n }) pipe := by
  have hg := (forall_update_iff file (b := { file f with ref := n }) fun g v => v.type = (file g).type ∧
    v.pipe = (file g).pipe ∧ v.writable = (file g).writable).mpr ⟨⟨rfl, rfl, rfl⟩, fun _ _ => ⟨rfl, rfl, rfl⟩⟩
  refine ⟨fun g => ?_, fun g g' => ?_, fun a pi w ha hw => ?_, h.used⟩
  · rw [(hg g).1, (hg g).2.1, (hg g).2.2]; exact h.live g
  · rw [(hg g).1, (hg g).2.1, (hg g).2.2, (hg g').1, (hg g').2.1, (hg g').2.2]
    exact h.alone g g'
  · obtain ⟨g, h1, h2, h3⟩ := h.ends a pi w ha hw
    refine ⟨g, ?_⟩
    rw [(hg g).1, (hg g).2.1, (hg g).2.2]; exact ⟨h1, h2, h3⟩

def closeEnd (pi : Pipe) (writable : Bool) : Pipe :=
  if writable then { pi with writeopen := false } else { pi with readopen := false }

theorem isOpen_closeEnd (pi : Pipe) (w w' : Bool) :
    isOpen (closeEnd pi w) w' = if w' = w then false else isOpen pi w' := by
  cases w <;> cases w' <;> rfl

theorem open_iff (pi : Pipe) : (pi.readopen = true ∨ pi.writeopen = true) ↔ ∃ w, isOpen pi w = true := by
  constructor
  · rintro (h | h)
    · exact ⟨false, h⟩
    · exact ⟨true, h⟩
  · rintro ⟨w, h⟩
    cases w
    · exact .inl h
    · exact .inr h

def closed (pi : Pipe) (writable : Bool) : Option Pipe :=
  if (closeEnd pi writable).readopen ∨ (closeEnd pi writable).writeopen then some (closeEnd pi writable) else none

theorem Pipes.close (h : Pipes file pipe) {pi : Pipe} (hf : (file f).type = .pipe) (ha : (file f).pipe = some a)
    (hpi : pipe a = some pi) (hx : x.type ≠ .pipe) :
    Pipes (Function.update file f x) (Function.update pipe a (closed pi (file f).writable)) := by
  set w := (file f).writable with hw
  have hself : (Function.update file f x) f = x := update_self _ _ _
  have hne : ∀ g, (Function.update file f x g).type = .pipe → g ≠ f := by
    rintro g hg rfl
    rw [hself] at hg; exact hx hg
  have hfile : ∀ g, g ≠ f → Function.update file f x g = file g := fun g hg => update_of_ne hg _ _
  have hsome : ∀ pi', closed pi w = some pi' → pi' = closeEnd pi w := by
    intro pi' hc
    unfold closed at hc
    split_ifs at hc; exact (Option.some.inj hc).symm
  refine ⟨fun g hg => ?_, fun g g' hg hg' hp hw' => ?_, fun b pi' w' hb hopen => ?_, fun b pi' hb => ?_⟩
  · have hgf := hne g hg
    rw [hfile g hgf] at hg ⊢
    obtain ⟨b, pi', hga, hb, hopen⟩ := h.live g hg
    by_cases hba : b = a
    · -- the other end of the same pipe
      have hpi' : pi' = pi := by rw [hba, hpi] at hb; exact (Option.some.inj hb).symm
      have hgw : (file g).writable ≠ w := fun he =>
        hgf (h.alone g f hg hf (by rw [hga, hba, ha]) he)
      have hstill : isOpen (closeEnd pi w) (file g).writable = true := by
        rw [isOpen_closeEnd, if_neg hgw, ← hpi']; exact hopen
      refine ⟨a, closeEnd pi w, by rw [hga, hba], ?_, hstill⟩
      rw [update_self]; exact if_pos ((open_iff _).mpr ⟨_, hstill⟩)
    · refine ⟨b, pi', hga, ?_, hopen⟩
      rw [update_of_ne hba]; exact hb
  · have he := hfile g (hne g hg)
    have he' := hfile g' (hne g' hg')
    rw [he] at hg hp hw'
    rw [he'] at hg' hp hw'; exact h.alone g g' hg hg' hp hw'
  · by_cases hba : b = a
    · rw [hba, update_self] at hb
      rw [hsome pi' hb, isOpen_closeEnd] at hopen
      split_ifs at hopen with hww
      obtain ⟨g, hg, hga, hgw⟩ := h.ends a pi w' hpi hopen
      have hgf : g ≠ f := by rintro rfl; exact hww (hgw.symm.trans hw.symm)
      refine ⟨g, ?_⟩
      rw [hfile g hgf, hba]; exact ⟨hg, hga, hgw⟩
    · rw [update_of_ne hba] at hb
      obtain ⟨g, hg, hga, hgw⟩ := h.ends b pi' w' hb hopen
      have hgf : g ≠ f := by rintro rfl; exact hba (Option.some.inj (hga.symm.trans ha))
      refine ⟨g, ?_⟩
      rw [hfile g hgf]; exact ⟨hg, hga, hgw⟩
  · by_cases hba : b = a
    · rw [hba, update_self] at hb
      rw [hsome pi' hb, ← open_iff]
      unfold closed at hb
      split_ifs at hb with hstill; exact hstill
    · rw [update_of_ne hba] at hb; exact h.used b pi' hb

theorem Pipes.new (h : Pipes file pipe) {f0 f1 : Fin NFILE}
    {x0 x1 : File} (ha : pipe a = none) (hne : f0 ≠ f1) (h0 : (file f0).type ≠ .pipe)
    (h1 : (file f1).type ≠ .pipe) (hx0 : x0.pipe = some a ∧ x0.writable = false)
    (hx1 : x1.pipe = some a ∧ x1.writable = true) (ht0 : x0.type = .pipe) (ht1 : x1.type = .pipe) :
    Pipes (Function.update (Function.update file f0 x0) f1 x1) (Function.update pipe a (some ⟨true, true⟩)) := by
  set file' := Function.update (Function.update file f0 x0) f1 x1 with hfile'
  have he1 : file' f1 = x1 := update_self _ _ _
  have he0 : file' f0 = x0 := by rw [hfile', update_of_ne hne, update_self]
  have heg : ∀ g, g ≠ f0 → g ≠ f1 → file' g = file g := by
    intro g hg0 hg1
    rw [hfile', update_of_ne hg1, update_of_ne hg0]
  -- an old end is not on the new page
  have hold : ∀ g, g ≠ f0 → g ≠ f1 → (file' g).type = .pipe → (file' g).pipe ≠ some a := by
    intro g hg0 hg1 ht hp
    rw [heg g hg0 hg1] at ht hp
    obtain ⟨b, pi, hb, hpi, -⟩ := h.live g ht
    rw [hp] at hb
    rw [← Option.some.inj hb, ha] at hpi; cases hpi
  have hnew : ∀ g, (file' g).pipe = some a → (file' g).type = .pipe →
      (g = f0 ∧ (file' g).writable = false) ∨ (g = f1 ∧ (file' g).writable = true) := by
    intro g hp ht
    by_cases hg0 : g = f0
    · rw [hg0, he0]; exact .inl ⟨rfl, hx0.2⟩
    · by_cases hg1 : g = f1
      · rw [hg1, he1]; exact .inr ⟨rfl, hx1.2⟩
      · exact absurd hp (hold g hg0 hg1 ht)
  refine ⟨fun g hg => ?_, fun g g' hg hg' hp hw => ?_, fun b pi w hb hopen => ?_, fun b pi hb => ?_⟩
  · by_cases hg0 : g = f0
    · rw [hg0, he0]
      refine ⟨a, ⟨true, true⟩, hx0.1, update_self _ _ _, ?_⟩
      rw [hx0.2]; rfl
    · by_cases hg1 : g = f1
      · rw [hg1, he1]
        refine ⟨a, ⟨true, true⟩, hx1.1, update_self _ _ _, ?_⟩
        rw [hx1.2]; rfl
      · rw [heg g hg0 hg1] at hg ⊢
        obtain ⟨b, pi, hb, hpi, hopen⟩ := h.live g hg
        have hba : b ≠ a := by rintro rfl; rw [ha] at hpi; cases hpi
        exact ⟨b, pi, hb, by rw [update_of_ne hba, hpi], hopen⟩
  · by_cases hpa : (file' g).pipe = some a
    · have hpa' : (file' g').pipe = some a := by rw [← hp, hpa]
      rcases hnew g hpa hg with ⟨hg0, hw0⟩ | ⟨hg1, hw1⟩ <;>
        rcases hnew g' hpa' hg' with ⟨hg0', hw0'⟩ | ⟨hg1', hw1'⟩
      · rw [hg0, hg0']
      · rw [hw0, hw1'] at hw; cases hw
      · rw [hw1, hw0'] at hw; cases hw
      · rw [hg1, hg1']
    · have hpa' : (file' g').pipe ≠ some a := by rw [← hp]; exact hpa
      have hin : ∀ k, (file' k).pipe ≠ some a → k ≠ f0 ∧ k ≠ f1 := by
        rintro k hk
        refine ⟨?_, ?_⟩ <;> rintro rfl
        · exact hk (by rw [he0]; exact hx0.1)
        · exact hk (by rw [he1]; exact hx1.1)
      obtain ⟨hg0, hg1⟩ := hin g hpa
      obtain ⟨hg0', hg1'⟩ := hin g' hpa'
      rw [heg g hg0 hg1] at hg hp hw
      rw [heg g' hg0' hg1'] at hg' hp hw; exact h.alone g g' hg hg' hp hw
  · by_cases hba : b = a
    · rw [hba]
      cases w with
      | false => exact ⟨f0, by rw [he0]; exact ht0, by rw [he0]; exact hx0.1, by rw [he0]; exact hx0.2⟩
      | true => exact ⟨f1, by rw [he1]; exact ht1, by rw [he1]; exact hx1.1, by rw [he1]; exact hx1.2⟩
    · rw [update_of_ne hba] at hb
      obtain ⟨g, hg, hga, hgw⟩ := h.ends b pi w hb hopen
      have hg0 : g ≠ f0 := by rintro rfl; exact h0 hg
      have hg1 : g ≠ f1 := by rintro rfl; exact h1 hg
      refine ⟨g, ?_⟩
      rw [heg g hg0 hg1]; exact ⟨hg, hga, hgw⟩
  · by_cases hba : b = a
    · rw [hba, update_self] at hb; rw [← Option.some.inj hb]; exact ⟨true, rfl⟩
    · rw [update_of_ne hba] at hb; exact h.used b pi hb

/-- Inodes and what `itable` says of them are the same. -/
structure Apart (s s' : State P) : Prop where
  inode : s'.inode = s.inode
  ref : s'.ref = s.ref
  valid : s'.valid = s.valid
  locked : s'.locked = s.locked

structure Beside (s s' : State P) : Prop where
  ops : s'.ops = s.ops
  ofile : s'.ofile = s.ofile
  cwd : s'.cwd = s.cwd
  initproc : s'.initproc = s.initproc

theorem Beside.trans {s'' : State P} (h : Beside s s') (h' : Beside s' s'') : Beside s s'' :=
  ⟨h'.ops.trans h.ops, h'.ofile.trans h.ofile, h'.cwd.trans h.cwd, h'.initproc.trans h.initproc⟩

variable [Fintype P] {held' : List Inum}

theorem Book.move (h : Book s held locks) (ha : Apart s s')
    (hsum : ∀ j, holders s' j + held'.count j = holders s j + held.count j)
    (halloc : ∀ j, (s.inode j).type = .free → holders s' j = 0) : Book s' held' locks := by
  refine ⟨fun j => ?_, fun j => ?_, h.nodup, fun j => ?_, fun j => ?_, fun j => ?_, fun j => ?_⟩
  · rw [ha.ref, h.refs j, hsum j]
  · rw [ha.locked]; exact h.lock j
  · rw [ha.valid, ha.ref, ha.inode]; exact h.typed j
  · rw [ha.valid, ha.ref, ha.inode]; exact h.valid j
  · rw [ha.inode]; exact halloc j
  · rw [ha.valid, ha.ref]; exact h.locked j

theorem Kept.move (h : Kept s held) (ha : Apart s s')
    (hsum : ∀ j, holders s' j + held'.count j = holders s j + held.count j) : Kept s' held' := by
  intro j ht hn
  rw [ha.inode] at ht hn
  rw [hsum j]; exact h j ht hn

structure Account (s : State P) (held locks : List Inum) : Prop where
  book : Book s held locks
  kept : Kept s held

theorem Account.apart (h : Account s held locks) (ha : Apart s s') (hh : holder s' = holder s) :
    Account s' held locks := by
  have hholders : ∀ i, holders s' i = holders s i := fun i => by
    unfold holders
    rw [hh]
  refine ⟨Book.move h.book ha (fun j => by rw [hholders]) fun j hj => ?_,
    Kept.move h.kept ha fun j => by rw [hholders]⟩
  rw [hholders, h.book.alloc j hj]

variable [DecidableEq P] {x : P ⊕ Fin NFILE} {i : Inum}

theorem count_cons_ite {α : Type} [DecidableEq α] (a b : α) (l : List α) :
    (a :: l).count b = l.count b + if b = a then 1 else 0 := by
  by_cases hb : b = a
  · rw [hb, count_cons_self, if_pos rfl]
  · rw [count_cons_of_ne (Ne.symm hb), if_neg hb, Nat.add_zero]

theorem Account.release (h : Account s held locks) (ha : Apart s s') (hx : holder s x = some i)
    (hh : holder s' = update (holder s) x none) : Account s' (i :: held) locks := by
  have hdrop : ∀ j, holders s j = holders s' j + if j = i then 1 else 0 := fun j => by
    unfold holders
    rw [hh]; exact refs_drop hx j
  have hsum : ∀ j, holders s' j + (i :: held).count j = holders s j + held.count j := fun j => by
    rw [hdrop j, count_cons_ite]; omega
  refine ⟨Book.move h.book ha hsum fun j hj => ?_, Kept.move h.kept ha hsum⟩
  have := hdrop j
  have := h.book.alloc j hj; omega

theorem Account.adopt (h : Account s (i :: held) locks) (ha : Apart s s') (hx : holder s x = none)
    (hh : holder s' = update (holder s) x (some i)) (ht : (s.inode i).type ≠ .free) : Account s' held locks := by
  have htake : ∀ j, holders s' j = holders s j + if j = i then 1 else 0 := fun j => by
    unfold holders
    rw [hh]; exact refs_take hx j
  have hsum : ∀ j, holders s' j + held.count j = holders s j + (i :: held).count j := fun j => by
    rw [htake j, count_cons_ite]; omega
  refine ⟨Book.move h.book ha hsum fun j hj => ?_, Kept.move h.kept ha hsum⟩
  have hji : j ≠ i := by rintro rfl; exact ht hj
  rw [htake j, if_neg hji, h.book.alloc j hj]

/-! ## The account of open files -/

abbrev Slots (P : Type) := P × Fin NOFILE → Option (Fin NFILE)

variable {o : Slots P}

def fds (o : Slots P) (f : Fin NFILE) : ℕ := refs o f

/-- The account of open files, where `o` are the descriptors that count and the code holds `fs`.  Between
calls `o` is what the processes have. -/
structure Files (s : State P) (o : Slots P) (fs : List (Fin NFILE)) : Prop where
  refs : ∀ f, (s.file f).ref = fds o f + fs.count f
  unused : ∀ f, (s.file f).ref = 0 → (s.file f).type = .none
  pipes : Pipes s.file s.pipe

variable {y : File} {fs' : List (Fin NFILE)} {d : P × Fin NOFILE}

section
omit [DecidableEq P]

theorem Files.fill (h : Files s o fs)
    (href : y.ref = (s.file f).ref) (hused : (s.file f).ref ≠ 0) (hold : (s.file f).type ≠ .pipe)
    (hnew : y.type ≠ .pipe) : Files (s.setFile f y) o fs := by
  have hself : (s.setFile f y).file f = y := update_self _ _ _
  have hother : ∀ g, g ≠ f → (s.setFile f y).file g = s.file g := fun g hg => update_of_ne hg _ _
  refine ⟨fun g => ?_, fun g hg => ?_, h.pipes.update hold hnew⟩
  · rw [← h.refs g]
    by_cases hgf : g = f
    · rw [hgf, hself, href]
    · rw [hother g hgf]
  · by_cases hgf : g = f
    · rw [hgf, hself, href] at hg; exact absurd hg hused
    · rw [hother g hgf] at hg ⊢; exact h.unused g hg

theorem Files.frame (h : Files s o fs) (hf : Frame s s') : Files s' o fs := by
  refine ⟨fun g => ?_, fun g => ?_, ?_⟩
  · rw [hf.file]; exact h.refs g
  · rw [hf.file]; exact h.unused g
  · rw [hf.file, hf.pipe]; exact h.pipes

theorem Files.setRef {n : ℕ} (h : Files s o fs) (hn : n = fds o f + fs'.count f)
    (hpos : 0 < n) (hne : ∀ g, g ≠ f → fs'.count g = fs.count g) :
    Files (s.setFile f { s.file f with ref := n }) o fs' := by
  have hself : (s.setFile f { s.file f with ref := n }).file f = { s.file f with ref := n } :=
    update_self _ _ _
  have hother : ∀ g, g ≠ f → (s.setFile f { s.file f with ref := n }).file g = s.file g := fun g hg =>
    update_of_ne hg _ _
  refine ⟨fun g => ?_, fun g hg => ?_, h.pipes.setRef n⟩
  · by_cases hgf : g = f
    · rw [hgf, hself]; exact hn
    · rw [hother g hgf, hne g hgf]; exact h.refs g
  · by_cases hgf : g = f
    · rw [hgf, hself] at hg; exact absurd hg hpos.ne'
    · rw [hother g hgf] at hg ⊢; exact h.unused g hg

end

theorem Files.store (h : Files s o (f :: fs)) (hd : o d = none) : Files s (update o d (some f)) fs := by
  refine ⟨fun g => ?_, h.unused, h.pipes⟩
  have ht : fds (update o d (some f)) g = fds o g + if g = f then 1 else 0 := refs_take hd g
  have hg := h.refs g
  rw [count_cons_ite] at hg; omega

theorem Files.clear (h : Files s o fs) (hd : o d = some f) : Files s (update o d none) (f :: fs) := by
  refine ⟨fun g => ?_, h.unused, h.pipes⟩
  have ht : fds o g = fds (update o d none) g + if g = f then 1 else 0 := refs_drop hd g
  have hg := h.refs g
  rw [count_cons_ite]; omega

section
omit [DecidableEq P]

theorem Files.perm (h : Files s o fs) (hp : fs.Perm fs') : Files s o fs' := by
  refine ⟨fun g => ?_, h.unused, h.pipes⟩
  rw [h.refs g, hp.count_eq]

theorem Files.congr (h : Files s o fs) (hf : s'.file = s.file) (hp : s'.pipe = s.pipe) : Files s' o fs := by
  refine ⟨fun g => ?_, fun g => ?_, ?_⟩
  · rw [hf]; exact h.refs g
  · rw [hf]; exact h.unused g
  · rw [hf, hp]; exact h.pipes

end

omit [Fintype P] [DecidableEq P] in
theorem holder_setFile (hy : inumOf y = inumOf (s.file f)) : holder (s.setFile f y) = holder s := by
  funext x
  cases x with
  | inl p => rfl
  | inr g =>
    show inumOf (update s.file f y g) = inumOf (s.file g)
    by_cases hg : g = f
    · rw [hg, update_self, hy]
    · rw [update_of_ne hg]

omit [Fintype P] in
theorem holder_setFile_update : holder (s.setFile f y) = update (holder s) (.inr f) (inumOf y) := by
  funext x
  cases x with
  | inl p => rw [update_of_ne Sum.inl_ne_inr]; rfl
  | inr g =>
    show inumOf (update s.file f y g) = _
    by_cases hg : g = f
    · rw [hg, update_self, update_self]
    · rw [update_of_ne hg, update_of_ne fun he => hg (Sum.inr_injective he)]
      rfl

omit [Fintype P] [DecidableEq P] in
theorem apart_setFile : Apart s (s.setFile f y) := ⟨rfl, rfl, rfl, rfl⟩

variable {p : P} {fd : Fin NOFILE}

omit [Fintype P] in
theorem apart_setOfile {r : Option (Fin NFILE)} : Apart s (s.setOfile p fd r) :=
  ⟨rfl, rfl, rfl, rfl⟩

section
omit [Fintype P] [DecidableEq P]

theorem freeFile_eq_some (h : s.freeFile = some f) : (s.file f).ref = 0 := by
  have hp := List.find?_some h; exact of_decide_eq_true hp

theorem freeFd_eq_some (h : s.freeFd p = some fd) : s.ofile (p, fd) = none := by
  have hp := List.find?_some h; exact of_decide_eq_true hp

end

structure Whole (s : State P) (o : Slots P) (held locks : List Inum) (fs : List (Fin NFILE)) : Prop where
  account : Account s held locks
  files : Files s o fs

section
variable {E : Panic → Prop}

omit [DecidableEq P] in
theorem wp_filealloc (h : Whole s o held locks fs) : wp E filealloc (fun r s' => r = s.freeFile ∧ match r with
      | none => s' = s
      | some f => s' = s.setFile f { s.file f with ref := 1 } ∧ (s.file f).ref = 0 ∧
          (s.file f).type = .none ∧ Whole s' o held locks (f :: fs)) s := by
  unfold filealloc
  rw [wp_bind, wp_get]
  cases hf : s.freeFile with
  | none => exact ⟨rfl, rfl⟩
  | some f =>
    have h0 := freeFile_eq_some hf
    have hr := h.files.refs f
    refine ⟨rfl, rfl, h0, h.files.unused f h0, ?_, ?_⟩
    · exact h.account.apart apart_setFile (holder_setFile rfl)
    · refine h.files.setRef ?_ Nat.one_pos fun g hg => ?_
      · rw [count_cons_self]; omega
      · exact count_cons_of_ne (Ne.symm hg)

omit [Fintype P] in
theorem wp_fdalloc : wp E (fdalloc p f) (fun r s' => r = s.freeFd p ∧ match r with
      | none => s' = s
      | some fd => s' = s.setOfile p fd (some f) ∧ s.ofile (p, fd) = none) s := by
  unfold fdalloc
  rw [wp_bind, wp_get]
  cases hfd : s.freeFd p with
  | none => exact ⟨rfl, rfl⟩
  | some fd => exact ⟨rfl, rfl, freeFd_eq_some hfd⟩

omit [DecidableEq P] in
theorem wp_filedup (h : Whole s o held locks fs) (hpos : 0 < (s.file f).ref) :
    wp E (filedup f) (fun _ s' => Whole s' o held locks (f :: fs) ∧ Beside s s' ∧ s'.inode = s.inode) s := by
  unfold filedup
  rw [wp_bind, wp_get, if_neg (by omega)]
  refine ⟨⟨h.account.apart apart_setFile (holder_setFile rfl), ?_⟩, ⟨rfl, rfl, rfl, rfl⟩, rfl⟩
  have hr := h.files.refs f
  refine h.files.setRef ?_ (Nat.succ_pos _) fun g hg => ?_
  · rw [count_cons_self]; omega
  · exact count_cons_of_ne (Ne.symm hg)

theorem wp_fileclose (h : Whole s o held locks (f :: fs)) (hl : ∀ i, inumOf (s.file f) = some i → i ∉ locks) :
    wp E (fileclose f) (fun _ s' => Whole s' o held locks fs ∧ Beside s s' ∧
      ∃ i, FreeStep s.inode s'.inode i) s := by
  have hr := h.files.refs f
  rw [count_cons_self] at hr
  unfold fileclose
  rw [wp_bind, wp_get]
  rw [if_neg (by omega)]
  split_ifs with hmore
  · refine ⟨⟨h.account.apart apart_setFile (holder_setFile rfl), ?_⟩, ⟨rfl, rfl, rfl, rfl⟩, 0, .inl rfl⟩
    refine h.files.setRef (by omega) hmore fun g hg => ?_
    exact (count_cons_of_ne (Ne.symm hg)).symm
  rw [wp_bind, wp_modify]
  set y : File := { s.file f with ref := 0, type := .none }
  -- the last reference goes
  have hfiles : ∀ pipe, Pipes (update s.file f y) pipe →
      Files { s.setFile f y with pipe := pipe } o fs := by
    intro pipe hpipes
    have hself : (s.setFile f y).file f = y := update_self _ _ _
    have hother : ∀ g, g ≠ f → (s.setFile f y).file g = s.file g := fun g hg =>
      update_of_ne hg _ _
    refine ⟨fun g => ?_, fun g hg => ?_, hpipes⟩
    · by_cases hgf : g = f
      · rw [hgf, hself]
        show 0 = _; omega
      · have hg := h.files.refs g
        rw [count_cons_of_ne (Ne.symm hgf)] at hg
        rw [hother g hgf, hg]
    · replace hg : ((s.setFile f y).file g).ref = 0 := hg
      by_cases hgf : g = f
      · rw [hgf, hself]
      · rw [hother g hgf] at hg ⊢; exact h.files.unused g hg
  have hput : (s.file f).type ≠ .pipe → inumOf (s.file f) = some (s.file f).ip →
      wp E (do beginOp; iput (s.file f).ip; endOp) (fun _ s' => Whole s' o held locks fs ∧ Beside s s' ∧
        ∃ i, FreeStep s.inode s'.inode i) (s.setFile f y) := by
    intro hnp hi
    have hrel : Account (s.setFile f y) ((s.file f).ip :: held) locks :=
      h.account.release apart_setFile (x := .inr f) hi holder_setFile_update
    have hfs : Files (s.setFile f y) o fs := hfiles s.pipe (h.files.pipes.update hnp FdType.noConfusion)
    rw [wp_bind]
    refine wp_seq (wp_iput (Book.op hrel.book _) (Kept.op hrel.kept _) (hl _ hi)) fun _ s2 h2 => ?_
    obtain ⟨hf2, hfree, hb2, hk2⟩ := h2
    have hf3 := frame_endOp hf2
    exact ⟨⟨⟨Book.op hb2 _, Kept.op hk2 _⟩, hfs.frame hf3⟩, ⟨hf3.ops, hf3.ofile, hf3.cwd, hf3.initproc⟩, _, hfree⟩
  cases htype : (s.file f).type with
  | none =>
    have hsame : inumOf y = inumOf (s.file f) := by unfold inumOf; rw [htype]
    refine ⟨⟨h.account.apart apart_setFile (holder_setFile hsame), ?_⟩, ⟨rfl, rfl, rfl, rfl⟩, 0, .inl rfl⟩
    exact hfiles s.pipe (h.files.pipes.update (by rw [htype]; exact FdType.noConfusion) FdType.noConfusion)
  | pipe =>
    obtain ⟨a, pi, ha, hpi, hopen⟩ := h.files.pipes.live f htype
    have hsame : inumOf y = inumOf (s.file f) := by unfold inumOf; rw [htype]
    have hpipes := h.files.pipes.close (x := y) htype ha hpi FdType.noConfusion
    unfold pipeclose
    rw [wp_bind, wp_get, ha]
    dsimp only
    rw [show (s.setFile f y).pipe a = some pi from hpi]
    refine ⟨⟨?_, hfiles _ hpipes⟩, ⟨rfl, rfl, rfl, rfl⟩, 0, .inl rfl⟩
    exact h.account.apart ⟨rfl, rfl, rfl, rfl⟩ (holder_setFile hsame)
  | inode | device => exact hput (by rw [htype]; exact FdType.noConfusion) (by unfold inumOf; rw [htype])

end

end Xv6.Syscall.Ftable
