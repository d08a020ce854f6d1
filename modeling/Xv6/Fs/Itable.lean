import Xv6.Fs.Truncate
import Xv6.Lib.Runs

/-!
# The inode table

The functions of `kernel/fs.c` that take and put references to inodes, and the calls of `writei`,
`itrunc`, `iput` and `ialloc`, in any order and on any inodes.  The table has copies of inodes; a copy
that is valid is that on the disk, and an inode is in the table once.  Hence each function finds its
inode as `Xv6.Fs.Ownership` and `Xv6.Fs.Truncate` need it, and in every run the bitmap and the addresses
agree.
-/

namespace Xv6.Fs.Itable

open Param Lib.Runs Lib.Programs Fs.Layout Fs.Files Fs.Store Option Function
open Fs.Ownership Fs.Truncate
open Fs.LogOps (Block BWORDS)

/-- `struct inode` without its lock.  There is one device. -/
structure Entry where
  inum : ℕ
  ref : ℕ
  valid : Bool
  copy : Dinode

def Entry.inode (e : Entry) : Inode := ⟨e.copy, e.inum⟩

structure State where
  store : Blocks
  table : Fin NINODE → Entry

def State.put (s : State) (i : Fin NINODE) (e : Entry) : State :=
  { s with table := Function.update s.table i e }

def call {α : Type} (s : State) (p : Code α) : Except Panic (α × State) :=
  match p.run handle s.store with
  | .ok (a, σ) => .ok (a, { s with store := σ })
  | .error e => .error e

def State.find (s : State) (inum : ℕ) : Option (Fin NINODE) :=
  (List.finRange NINODE).find? fun i => decide (0 < (s.table i).ref ∧ (s.table i).inum = inum)

def State.empty (s : State) : Option (Fin NINODE) :=
  (List.finRange NINODE).find? fun i => decide ((s.table i).ref = 0)

def idup (s : State) (i : Fin NINODE) : State :=
  s.put i { s.table i with ref := (s.table i).ref + 1 }

def iget (s : State) (inum : ℕ) : Except Panic (Fin NINODE × State) :=
  match s.find inum with
  | some i => .ok (i, idup s i)
  | none =>
    match s.empty with
    | some i => .ok (i, s.put i { s.table i with inum := inum, ref := 1, valid := false })
    | none => .error .igetNoInodes

variable (sb : Superblock)

/-- `ilock`, when nobody has the lock. -/
def ilock (s : State) (i : Fin NINODE) : Except Panic State :=
  if (s.table i).valid then .ok s
  else do
    let (ip, s) ← call s (ilockRead sb (s.table i).inum)
    return s.put i { s.table i with valid := true, copy := ip.toDinode }

def change (s : State) (i : Fin NINODE) (f : Inode → Code Inode) : Except Panic State := do
  let (ip, s) ← call s (f (s.table i).inode)
  return s.put i { s.table i with copy := ip.toDinode }

def iput (s : State) (i : Fin NINODE) : Except Panic State :=
  if (s.table i).ref = 1 ∧ (s.table i).valid ∧ (s.table i).copy.nlink = 0 then do
    let (ip, s) ← call s (iputFree sb (s.table i).inode)
    return s.put i { s.table i with ref := 0, valid := false, copy := ip.toDinode }
  else .ok (s.put i { s.table i with ref := (s.table i).ref - 1 })

def ialloc (s : State) (type : BitVec 16) : Except Panic State := do
  let (r, s) ← call s (Files.ialloc sb type)
  match r with
  | some inum =>
    let (_, s) ← iget s inum
    return s
  | none => return s

/-- The system calls change `ip->major`, `ip->minor` and `ip->nlink`, and call `iupdate`. -/
def setFields (major minor nlink : BitVec 16) (ip : Inode) : Code Inode := do
  let ip := { ip with major := major, minor := minor, nlink := nlink }
  iupdate sb ip
  return ip

inductive Op
  | iget (inum : ℕ)
  | idup (i : Fin NINODE)
  | ilock (i : Fin NINODE)
  | setFields (i : Fin NINODE) (major minor nlink : BitVec 16)
  | writei (i : Fin NINODE) (src : Src) (off n : Word)
  | itrunc (i : Fin NINODE)
  | iput (i : Fin NINODE)
  | ialloc (type : BitVec 16)

/-- A call, which may panic; `none` if it is not made: a caller has a reference to the inode, and has
read it with `ilock` before it changes it. -/
def exec (s : State) : Op → Option (Except Panic State)
  | .iget inum => if inum < sb.ninodes then some ((iget s inum).map Prod.snd) else none
  | .idup i => if 0 < (s.table i).ref then some (.ok (idup s i)) else none
  | .ilock i => if 0 < (s.table i).ref then some (ilock sb s i) else none
  | .setFields i major minor nlink =>
    if 0 < (s.table i).ref ∧ (s.table i).valid then some (change s i (setFields sb major minor nlink))
    else none
  | .writei i src off n =>
    if 0 < (s.table i).ref ∧ (s.table i).valid then
      some (change s i fun ip => do return (← writei sb ip src off n).1)
    else none
  | .itrunc i =>
    if 0 < (s.table i).ref ∧ (s.table i).valid then some (change s i (itrunc sb)) else none
  | .iput i => if 0 < (s.table i).ref then some (iput sb s i) else none
  | .ialloc type => some (ialloc sb s type)

def sys : Sys State Op where
  init s := Image sb s.store (dinode sb s.store) ∧ ∀ i, (s.table i).ref = 0
  step s o s' := exec sb s o = some (.ok s')

structure Inv (s : State) : Prop where
  image : Image sb s.store (dinode sb s.store)
  inum : ∀ i, 0 < (s.table i).ref → (s.table i).inum < sb.ninodes
  copy : ∀ i, 0 < (s.table i).ref → (s.table i).valid = true →
    (s.table i).copy = dinode sb s.store (s.table i).inum ∧ (s.table i).copy.type ≠ 0
  one : ∀ i j, 0 < (s.table i).ref → 0 < (s.table j).ref → (s.table i).inum = (s.table j).inum → i = j

/-- What a call keeps, and the panic that it does not reach. -/
def Sound (s : State) : Except Panic State → Prop
  | .ok s' => Inv sb s' ∧ (NoHoles sb s.store → NoHoles sb s'.store)
  | .error e => e ≠ .freeingFreeBlock

variable {sb} {s : State} {i : Fin NINODE} {e : Entry} {σ : Blocks} {α : Type} {Q : α → Blocks → Prop}
variable {p : Code α} {n : ℕ}

theorem put_self : (s.put i e).table i = e := update_self _ _ _

theorem put_ne {j : Fin NINODE} (h : j ≠ i) : (s.put i e).table j = s.table j :=
  update_of_ne h _ _

theorem put_put {e' : Entry} : (s.put i e).put i e' = s.put i e' := by
  unfold State.put
  rw [update_idem]

section
variable (h : Inv sb s) {inum : ℕ}
include h

theorem Inv.put (hr : 0 < (s.table i).ref) (hi : Image sb σ (dinode sb σ))
    (ho : Others sb (s.table i).inum s.store σ) (hinum : e.inum = (s.table i).inum)
    (hcopy : 0 < e.ref → e.valid = true → e.copy = dinode sb σ e.inum ∧ e.copy.type ≠ 0) :
    Inv sb (State.put { s with store := σ } i e) := by
  refine ⟨hi, fun j hj => ?_, fun j hj hv => ?_, fun j k hj hk hjk => ?_⟩
  · by_cases hji : j = i
    · rw [hji, put_self, hinum]; exact h.inum i hr
    · rw [put_ne hji] at hj ⊢; exact h.inum j hj
  · by_cases hji : j = i
    · rw [hji, put_self] at hj hv ⊢; exact hcopy hj hv
    · rw [put_ne hji] at hj hv ⊢
      obtain ⟨hc, ht⟩ := h.copy j hj hv
      have hne : (s.table j).inum ≠ (s.table i).inum := fun he => hji (h.one j i hj hr he)
      exact ⟨hc.trans (ho _ (h.inum j hj) hne).1.symm, ht⟩
  · have hold : ∀ m, 0 < ((State.put { s with store := σ } i e).table m).ref →
        0 < (s.table m).ref ∧ ((State.put { s with store := σ } i e).table m).inum = (s.table m).inum := by
      intro m hm
      by_cases hmi : m = i
      · rw [hmi, put_self]; exact ⟨hr, hinum⟩
      · rw [put_ne hmi] at hm ⊢; exact ⟨hm, rfl⟩
    obtain ⟨hj', hej⟩ := hold j hj
    obtain ⟨hk', hek⟩ := hold k hk
    rw [hej, hek] at hjk; exact h.one j k hj' hk' hjk

theorem Inv.synced (hr : 0 < (s.table i).ref) (hv : (s.table i).valid = true) :
    Synced sb s.store (s.table i).inode ∧ (s.table i).inode.type ≠ 0 := by
  obtain ⟨hc, ht⟩ := h.copy i hr hv; exact ⟨⟨h.image, h.inum i hr, hc.symm⟩, ht⟩

theorem Inv.sound : Sound sb s (.ok s) := ⟨h, id⟩

theorem Inv.idup (hr : 0 < (s.table i).ref) : Inv sb (idup s i) :=
  h.put hr h.image .refl rfl fun _ => h.copy i hr

theorem Inv.iget (hn : inum < sb.ninodes) {r : Except Panic (Fin NINODE × State)}
    (hg : iget s inum = r) : r = .error .igetNoInodes ∨
      ∃ i s', r = .ok (i, s') ∧ Inv sb s' ∧ s'.store = s.store := by
  subst hg
  unfold Itable.iget
  cases hf : s.find inum with
  | some i =>
    have hp := List.find?_some hf
    exact .inr ⟨i, _, rfl, h.idup (of_decide_eq_true hp).1, rfl⟩
  | none =>
    have hnot : ∀ j, 0 < (s.table j).ref → (s.table j).inum ≠ inum := by
      intro j hj he
      have := List.find?_eq_none.mp hf j (List.mem_finRange j)
      exact this (decide_eq_true ⟨hj, he⟩)
    cases he : s.empty with
    | none => exact .inl rfl
    | some i =>
      refine .inr ⟨i, _, rfl, ⟨h.image, fun j hj => ?_, fun j hj hv => ?_, fun j k hj hk hjk => ?_⟩, rfl⟩
      · by_cases hji : j = i
        · rw [hji, put_self]; exact hn
        · rw [put_ne hji] at hj ⊢; exact h.inum j hj
      · by_cases hji : j = i
        · rw [hji, put_self] at hv; cases hv
        · rw [put_ne hji] at hj hv ⊢; exact h.copy j hj hv
      · by_cases hji : j = i
        · by_cases hki : k = i
          · rw [hji, hki]
          · rw [hji, put_self, put_ne hki] at hjk
            rw [put_ne hki] at hk; exact absurd hjk.symm (hnot k hk)
        · rw [put_ne hji] at hj hjk
          by_cases hki : k = i
          · rw [hki, put_self] at hjk; exact absurd hjk (hnot j hj)
          · rw [put_ne hki] at hk hjk; exact h.one j k hj hk hjk

theorem Inv.drop (he : e.ref = 0) : Inv sb (s.put i e) := by
  have hold : ∀ j, 0 < ((s.put i e).table j).ref → (s.put i e).table j = s.table j := by
    intro j hj
    refine put_ne ?_
    rintro rfl
    rw [put_self, he] at hj; exact lt_irrefl 0 hj
  refine ⟨h.image, fun j hj => ?_, fun j hj hv => ?_, fun j k hj hk hjk => ?_⟩
  · have hj' := hold j hj; rw [hj'] at hj ⊢; exact h.inum j hj
  · have hj' := hold j hj; rw [hj'] at hj hv ⊢; exact h.copy j hj hv
  · have hj' := hold j hj
    have hk' := hold k hk
    rw [hj'] at hj hjk
    rw [hk'] at hk hjk; exact h.one j k hj hk hjk

theorem Inv.getPut {s1 : State} (hg : Itable.iget s inum = .ok (i, s1)) :
    ∃ s', iput sb s1 i = .ok s' ∧ Inv sb s' ∧ s'.store = s.store := by
  unfold Itable.iget at hg
  cases hf : s.find inum with
  | some j =>
    rw [hf] at hg
    obtain ⟨rfl, rfl⟩ := Prod.mk.inj (Except.ok.inj hg)
    have hp := List.find?_some hf
    have hr := (of_decide_eq_true hp).1
    have hr' : 0 < ((Itable.idup s j).table j).ref := by
      unfold Itable.idup
      rw [put_self]; exact Nat.succ_pos _
    refine ⟨_, if_neg fun hc => ?_, (h.idup hr).put hr' h.image .refl rfl fun _ => ?_, rfl⟩
    · have h1 := hc.1
      unfold Itable.idup at h1
      rw [put_self] at h1
      have h2 : (s.table j).ref + 1 = 1 := h1; omega
    · exact (h.idup hr).copy j hr'
  | none =>
    rw [hf] at hg
    cases he : s.empty with
    | none => rw [he] at hg; cases hg
    | some j =>
      rw [he] at hg
      obtain ⟨rfl, rfl⟩ := Prod.mk.inj (Except.ok.inj hg)
      refine ⟨_, if_neg fun hc => ?_, ?_, rfl⟩
      · have hv := hc.2.1; rw [put_self] at hv; cases hv
      · rw [put_put]
        refine h.drop ?_
        rw [put_self]; rfl

end

/-! ## The functions -/

theorem call_cases {bad : Panic → Prop} (h : wp (Meaning.of handle (fun _ => True) bad) p Q s.store) :
    (∃ e, call s p = .error e ∧ bad e) ∨ ∃ a σ, call s p = .ok (a, { s with store := σ }) ∧ Q a σ := by
  obtain ⟨-, hq, hb⟩ := wp_iff.mp h
  unfold call
  cases hr : p.run handle s.store with
  | error e => exact .inl ⟨e, rfl, hb e hr⟩
  | ok r => exact .inr ⟨r.1, r.2, rfl, hq r.1 r.2 hr⟩

theorem call_of_wp (h : wp seq p Q s.store) : ∃ a σ, call s p = .ok (a, { s with store := σ }) ∧ Q a σ := by
  rcases call_cases h with ⟨_, _, hb⟩ | h
  · exact hb.elim
  · exact h

theorem Inv.done (h : Inv sb s) (hr : 0 < (s.table i).ref) (hv : (s.table i).valid = true) {ip : Inode}
    (hd : Done sb s.store (s.table i).inode σ ip) (ht : ip.type = (s.table i).inode.type) :
    Sound sb s (.ok (State.put { s with store := σ } i { s.table i with copy := ip.toDinode })) := by
  obtain ⟨hc, h0⟩ := h.copy i hr hv
  have hcopy : dinode sb σ (s.table i).inum = ip.toDinode := by
    have := hd.synced.copy; rwa [hd.inum] at this
  have hne : ip.type ≠ 0 := by rw [ht]; exact h0
  refine ⟨h.put hr hd.synced.image hd.others rfl fun _ _ => ⟨hcopy.symm, hne⟩, fun hh => ?_⟩
  refine hh.others hd.others fun _ => ?_
  have hold := hh _ (h.inum i hr) (by rw [← hc]; exact h0)
  rw [← hc] at hold
  have hnew := hd.filled hold; rwa [← hcopy] at hnew

theorem Inv.change (h : Inv sb s) (hr : 0 < (s.table i).ref) (hv : (s.table i).valid = true)
    {f : Inode → Code Inode} (hf : ∀ σ ip, Synced sb σ ip → ip.type ≠ 0 →
      wp seq (f ip) (fun ip' σ' => Done sb σ ip σ' ip' ∧ ip'.type = ip.type) σ) : Sound sb s (change s i f) := by
  obtain ⟨hs, ht⟩ := h.synced hr hv
  obtain ⟨ip, σ, hc, hd, ht'⟩ := call_of_wp (hf _ _ hs ht)
  unfold Itable.change
  rw [hc]; exact h.done hr hv hd ht'

theorem wp_setFields {major minor nlink : BitVec 16} (σ : Blocks) (ip : Inode) (h : Synced sb σ ip)
    (ht : ip.type ≠ 0) : wp seq (setFields sb major minor nlink ip)
      (fun ip' σ' => Done sb σ ip σ' ip' ∧ ip'.type = ip.type) σ := by
  have hh : Holding sb σ { ip with major := major, minor := minor, nlink := nlink } :=
    (h.hold ht).fields rfl rfl rfl
  obtain ⟨hs, ho, hx⟩ := hh.update rfl
  refine .bind (wp_iupdate ⟨⟨hs, rfl, ho, fun hf => hf.congr fun x => ?_⟩, rfl⟩)
  exact (hx x).trans (get_congr rfl (fun _ => rfl) x)

section
variable (h : Inv sb s)
include h

theorem Inv.ilock (hr : 0 < (s.table i).ref) : Sound sb s (ilock sb s i) := by
  unfold Itable.ilock
  split_ifs with hv
  · exact h.sound
  · rcases call_cases (s := s) (wp_ilockRead (n := (s.table i).inum)
        (Q := fun ip σ => ip = ⟨dinode sb s.store (s.table i).inum, (s.table i).inum⟩ ∧
          ip.type ≠ 0 ∧ σ = s.store) fun h0 => ⟨rfl, h0, rfl⟩) with ⟨e, he, hb⟩ | ⟨ip, σ, hc, rfl, h0, rfl⟩
    · rw [he]; rw [hb]; exact Panic.noConfusion
    · rw [hc]; exact ⟨h.put hr h.image .refl rfl fun _ _ => ⟨rfl, h0⟩, id⟩

theorem Inv.iput (hr : 0 < (s.table i).ref) : Sound sb s (iput sb s i) := by
  unfold Itable.iput
  split_ifs with hf
  · obtain ⟨hs, ht⟩ := h.synced hr hf.2.1
    obtain ⟨ip, σ, hc, hi, ho, h0⟩ := call_of_wp
      (wp_iputFree hs ht (Q := fun _ σ => Image sb σ (dinode sb σ) ∧
        Others sb (s.table i).inum s.store σ ∧ (dinode sb σ (s.table i).inum).type = 0)
        fun _ _ hi ho h0 => ⟨hi, ho, h0⟩)
    rw [hc]
    exact ⟨h.put hr hi ho rfl fun h0 => absurd h0 (lt_irrefl 0),
      fun hh => hh.others ho fun ht => absurd h0 ht⟩
  · exact ⟨h.put hr h.image .refl rfl fun _ => h.copy i hr, id⟩

theorem Inv.taken (h0 : (dinode sb s.store n).type = 0)
    (hi : Image sb σ (dinode sb σ)) (ho : Others sb n s.store σ) : Inv sb { s with store := σ } := by
  refine ⟨hi, h.inum, fun j hj hv => ?_, h.one⟩
  obtain ⟨hc, ht⟩ := h.copy j hj hv
  have hne : (s.table j).inum ≠ n := by rintro rfl; exact ht (by rw [hc]; exact h0)
  exact ⟨hc.trans (ho _ (h.inum j hj) hne).1.symm, ht⟩

theorem Inv.ialloc (type : BitVec 16) : Sound sb s (ialloc sb s type) := by
  obtain ⟨r, σ, hc, hr⟩ := call_of_wp (wp_ialloc type h.image
    (Q := fun r σ => (r = none ∧ σ = s.store) ∨ ∃ n, r = some n ∧ n < sb.ninodes ∧
      Inv sb { s with store := σ } ∧ (NoHoles sb s.store → NoHoles sb σ)) (.inl ⟨rfl, rfl⟩)
    fun n σ hn h0 hi ho hself => .inr ⟨n, rfl, hn, h.taken h0 hi ho, fun hh => hh.others ho fun _ => by
      -- a new file is empty
      rw [hself]
      exact fun bn hbn => absurd hbn (Nat.not_lt_zero _)⟩)
  unfold Itable.ialloc
  rw [hc]
  rcases hr with ⟨rfl, rfl⟩ | ⟨n, rfl, hn, h', hh⟩
  · exact h.sound
  · rcases h'.iget hn rfl with hg | ⟨i, s', hg, hs', hst⟩
    · show Sound sb s ((Itable.iget { s with store := σ } n).bind _)
      rw [hg]; exact Panic.noConfusion
    · show Sound sb s ((Itable.iget { s with store := σ } n).bind _)
      rw [hg]
      refine ⟨hs', fun h0 => ?_⟩
      rw [hst]; exact hh h0

theorem Inv.exec {o : Op} {r : Except Panic State} (he : exec sb s o = some r) : Sound sb s r := by
  cases o with
  | iget inum =>
    obtain ⟨hn, he⟩ := ite_none_right_eq_some.mp he
    cases he
    rcases h.iget hn rfl with hg | ⟨i, s', hg, hs', hst⟩
    · rw [hg]; exact Panic.noConfusion
    · rw [hg]
      refine ⟨hs', fun h0 => ?_⟩
      rw [hst]; exact h0
  | idup i =>
    obtain ⟨hr, he⟩ := ite_none_right_eq_some.mp he
    cases he; exact ⟨h.idup hr, id⟩
  | ilock i =>
    obtain ⟨hr, he⟩ := ite_none_right_eq_some.mp he
    cases he; exact h.ilock hr
  | setFields i major minor nlink =>
    obtain ⟨hr, he⟩ := ite_none_right_eq_some.mp he
    cases he; exact h.change hr.1 hr.2 wp_setFields
  | writei i src off n =>
    obtain ⟨hr, he⟩ := ite_none_right_eq_some.mp he
    cases he
    exact h.change hr.1 hr.2 fun σ ip hs ht => .bind (wp_writei hs ht fun _ _ _ hd ht => ⟨hd, ht⟩)
  | itrunc i =>
    obtain ⟨hr, he⟩ := ite_none_right_eq_some.mp he
    cases he
    exact h.change hr.1 hr.2 fun σ ip hs ht => wp_itrunc hs ht fun _ _ hd ht _ => ⟨hd, ht⟩
  | iput i =>
    obtain ⟨hr, he⟩ := ite_none_right_eq_some.mp he
    cases he; exact h.iput hr
  | ialloc type =>
    cases he; exact h.ialloc type

end

theorem run_inv {hist : List (State × Op)} (hr : Run (sys sb) hist s) : Inv sb s := by
  refine hr.inv (fun s hs => ?_) fun s o s' h hs => (h.exec hs).1
  have hno : ∀ i, ¬ 0 < (s.table i).ref := fun i => by rw [hs.2 i]; exact lt_irrefl 0
  exact ⟨hs.1, fun i hi => absurd hi (hno i), fun i hi => absurd hi (hno i), fun i _ hi => absurd hi (hno i)⟩

/-- **The blocks and their owners.**  After any calls, the bit of a data block is set if and only if an
allocated inode has the block, no block is in two slots, and no call panics when it frees a block. -/
theorem blocks_owned {hist : List (State × Op)} (hr : Run (sys sb) hist s) :
    Image sb s.store (dinode sb s.store) ∧
    (∀ b, sb.IsData b → (used sb s.store b ↔ ∃ n < sb.ninodes, (dinode sb s.store n).type ≠ 0 ∧
      ∃ x : Slot, x.get s.store (dinode sb s.store n) = b)) ∧
    (∀ n < sb.ninodes, (dinode sb s.store n).type ≠ 0 → ∀ m < sb.ninodes,
      (dinode sb s.store m).type ≠ 0 → ∀ x y : Slot, x.get s.store (dinode sb s.store n) ≠ 0 →
      x.get s.store (dinode sb s.store n) = y.get s.store (dinode sb s.store m) → n = m ∧ x = y) ∧
    ∀ o, exec sb s o ≠ some (.error .freeingFreeBlock) := by
  have h := run_inv hr
  refine ⟨h.image, fun b hb => ?_, fun n hn htn m hm htm x y hx hxy => ?_, fun o ho => h.exec ho rfl⟩
  · rw [h.image.owned.used_iff b hb]
    constructor
    · rintro ⟨⟨n, x⟩, rfl⟩
      have h0 : addrOf sb s.store (dinode sb s.store) (n, x) ≠ 0 := hb.ne_zero
      obtain ⟨hn, ht⟩ := addrOf_allocated h0
      exact ⟨n, hn, ht, x, (addrOf_of_allocated hn ht x).symm⟩
    · rintro ⟨n, hn, ht, x, rfl⟩; exact ⟨(n, x), addrOf_of_allocated hn ht x⟩
  · rw [← addrOf_of_allocated hn htn] at hx hxy
    rw [← addrOf_of_allocated hm htm] at hxy
    exact Prod.mk.inj (h.image.owned.alone (n, x) (m, y) hx hxy)

def freshBitmap : Block := fun j => if j.val = 0 then 0xffffffff else if j.val = 1 then 0x3fff else 0

/-- The disk of `mkfs` before it makes the first inode, as the kernel sees it. -/
def freshStore : Blocks := fun b => if b = mkfsSb.BBLOCK 0 then freshBitmap else zeroBlock

def freshState : State := ⟨freshStore, fun _ => ⟨0, 0, false, Dinode.zero⟩⟩

theorem usedBit_freshStore (hn : n < mkfsSb.size) : usedBit mkfsSb freshStore n = decide (n < 46) := by
  have hs : mkfsSb.size = 2000 := rfl
  have hB : BPB = 8192 := rfl
  have h0 : mkfsSb.BBLOCK n = mkfsSb.BBLOCK 0 := by
    unfold Superblock.BBLOCK
    rw [Nat.div_eq_of_lt (by omega), Nat.zero_div]
  unfold usedBit freshStore
  rw [h0, if_pos rfl, Nat.mod_eq_of_lt (by omega)]
  by_cases hlow : n < 64
  · have hall : ∀ m : Fin 64, bit freshBitmap m = decide (m.val < 46) := by decide +kernel
    exact hall ⟨n, hlow⟩
  · have hw : freshBitmap.word (n / 32) = 0 := by
      have hW : BWORDS = 256 := rfl
      unfold Block.word freshBitmap
      rw [dif_pos (by omega)]
      dsimp only
      rw [if_neg (by omega), if_neg (by omega)]
    unfold bit
    rw [hw, decide_eq_false (by omega)]; exact BitVec.getLsbD_zero

theorem type_freshStore (hn : n < mkfsSb.ninodes) : (dinode mkfsSb freshStore n).type = 0 := by
  have hne : mkfsSb.IBLOCK n ≠ mkfsSb.BBLOCK 0 := Superblock.IBLOCK_ne_BBLOCK hn (by decide)
  unfold dinode freshStore getDinode
  rw [if_neg hne]
  rw [word_zeroBlock]; rfl

theorem image_freshStore : Image mkfsSb freshStore (dinode mkfsSb freshStore) := by
  have h0 : ∀ x, addrOf mkfsSb freshStore (dinode mkfsSb freshStore) x = 0 := fun x =>
    if_neg fun h => h.2 (type_freshStore h.1)
  have hlow : mkfsSb.size - mkfsSb.nblocks = 46 := rfl
  refine ⟨⟨by decide, fun x hx => absurd (h0 x) hx, fun x y hx => absurd (h0 x) hx, fun b hb => ?_⟩,
    fun n hn => ?_⟩
  · have h1 := hb.1
    unfold used
    rw [usedBit_freshStore hb.2, decide_eq_true_iff]
    constructor
    · intro hlt; omega
    · rintro ⟨x, rfl⟩; exact absurd (h0 x) hb.ne_zero
  · rw [usedBit_freshStore (by omega)]; exact decide_eq_true (by omega)

def firstFile : List Op :=
  [.ialloc 2, .ilock 0, .writei 0 (.kernel [1, 2, 3]) 0 3, .writei 0 (.user (fun _ => none) 0) 0 8]

/-- The block of the file is in use, and in a slot of an inode. -/
theorem blocks_owned_once : ∃ s, (∃ hist, Run (sys mkfsSb) hist s) ∧ used mkfsSb s.store 46 ∧
    (∃ n < mkfsSb.ninodes, (dinode mkfsSb s.store n).type ≠ 0 ∧
      ∃ x : Slot, x.get s.store (dinode mkfsSb s.store n) = 46) := by
  have h0 : (sys mkfsSb).init freshState := ⟨image_freshStore, fun _ => rfl⟩
  obtain ⟨s, hr, -, ht⟩ := exists_run (f := fun s o => okOf (exec mkfsSb s o))
    (fun _ _ _ h => okOf_eq_some h) h0 firstFile
    (fun s => decide (used mkfsSb s.store 46)) (by decide +kernel)
  have hu := of_decide_eq_true ht
  exact ⟨s, ⟨_, hr⟩, hu, ((blocks_owned hr).2.1 46 (by decide)).mp hu⟩

end Xv6.Fs.Itable
