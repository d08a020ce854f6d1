import Mathlib.Algebra.BigOperators.Ring.Finset
import Mathlib.Algebra.Order.BigOperators.Group.Finset
import Mathlib.Data.Finset.Card
import Mathlib.Data.Fintype.Basic
import Xv6.Lib.Runs
import Xv6.Param

/-!
# Group commit and the space of the log

`begin_op`, `log_write`, `end_op` and the end of `commit` of `kernel/log.c`, each the text under `log.lock`, run
by any number of processes in any order.  The log has the size `mkfs` gives it, `nlog = LOGSIZE`.

`begin_op` admits operations as long as the reservations of `MAXOPBLOCKS` blocks fit in `LOGSIZE`; `log_write`
panics when `log.size - 1` blocks are in the log, one less, and before it looks whether the block is there.
-/

namespace Xv6.Fs.GroupCommit

open Lib.Runs Param Finset Function

inductive Panic
  | tooBig | outsideTrans | committing
  deriving DecidableEq, Repr

/-- `struct log`; `blocks` is `lh.block[0 .. lh.n)`. -/
structure LogState where
  blocks : List Word
  size : ℕ
  outstanding : ℕ
  committing : Bool
  deriving DecidableEq

def beginOp (l : LogState) : Option LogState :=
  if l.committing then none
  else if LOGSIZE < l.blocks.length + (l.outstanding + 1) * MAXOPBLOCKS then none
  else some { l with outstanding := l.outstanding + 1 }

def logWrite (l : LogState) (blockno : Word) : Except Panic LogState :=
  if LOGSIZE ≤ l.blocks.length ∨ l.size - 1 ≤ l.blocks.length then .error .tooBig
  else if l.outstanding < 1 then .error .outsideTrans
  else .ok { l with blocks := if blockno ∈ l.blocks then l.blocks else l.blocks ++ [blockno] }

/-- `end_op` up to its first `release`, with `do_commit`. -/
def endOp (l : LogState) : Except Panic (Bool × LogState) :=
  let l := { l with outstanding := l.outstanding - 1 }
  if l.committing then .error .committing
  else if l.outstanding = 0 then .ok (true, { l with committing := true })
  else .ok (false, l)

/-- `commit`: the blocks are installed and the header is cleared. -/
def commit (l : LogState) : LogState := { l with blocks := [] }

def endCommit (l : LogState) : LogState := { l with committing := false }

/-- Where a process is: outside, between `begin_op` and `end_op` with the blocks it has logged, in
`commit`, or after it. -/
inductive Phase
  | idle
  | inOp (logged : Finset Word)
  | commit
  | committed
  deriving DecidableEq

structure State (P : Type) where
  log : LogState
  phase : P → Phase

inductive Ev (P : Type)
  | beginOp (p : P)
  | logWrite (p : P) (blockno : Word)
  | endOp (p : P)
  | commit (p : P)
  | endCommit (p : P)

variable {P : Type} [DecidableEq P]

/-- A step of the processes, each operation of which logs at most `m` distinct blocks; `none` if the
step is not taken or panics. -/
def exec (m : ℕ) (s : State P) : Ev P → Option (State P)
  | .beginOp p =>
    if s.phase p = .idle then
      (beginOp s.log).map fun l => ⟨l, update s.phase p (.inOp ∅)⟩
    else none
  | .logWrite p b =>
    match s.phase p with
    | .inOp U =>
      if (insert b U).card ≤ m then
        match logWrite s.log b with
        | .ok l => some ⟨l, update s.phase p (.inOp (insert b U))⟩
        | .error _ => none
      else none
    | _ => none
  | .endOp p =>
    match s.phase p with
    | .inOp _ =>
      match endOp s.log with
      | .ok (doCommit, l) =>
        some ⟨l, update s.phase p (if doCommit then .commit else .idle)⟩
      | .error _ => none
    | _ => none
  | .commit p =>
    if s.phase p = .commit then some ⟨commit s.log, update s.phase p .committed⟩ else none
  | .endCommit p =>
    if s.phase p = .committed then some ⟨endCommit s.log, update s.phase p .idle⟩ else none

/-- No operation, and an empty log of the size `mkfs` writes into the superblock. -/
def start (P : Type) : State P := ⟨⟨[], LOGSIZE, 0, false⟩, fun _ => .idle⟩

/-- The processes `P` with operations of at most `m` distinct blocks. -/
def sys (P : Type) [DecidableEq P] (m : ℕ) : Sys (State P) (Ev P) where
  init s := s = start P
  step s e s' := exec m s e = some s'

/-- A process in this phase may log block `b` as one of the `m` blocks of its operation. -/
def Phase.mayWrite (m : ℕ) (b : Word) : Phase → Bool
  | .inOp U => (insert b U).card ≤ m
  | _ => false

/-! ## The invariant -/

def Phase.op : Phase → ℕ
  | .inOp _ => 1
  | _ => 0

def Phase.com : Phase → ℕ
  | .commit => 1
  | .committed => 1
  | _ => 0

def Phase.rest (m : ℕ) : Phase → ℕ
  | .inOp U => m - U.card
  | _ => 0

@[simp] theorem op_idle : Phase.op .idle = 0 := rfl
@[simp] theorem op_inOp (U : Finset Word) : Phase.op (.inOp U) = 1 := rfl
@[simp] theorem op_commit : Phase.op .commit = 0 := rfl
@[simp] theorem op_committed : Phase.op .committed = 0 := rfl
@[simp] theorem com_idle : Phase.com .idle = 0 := rfl
@[simp] theorem com_inOp (U : Finset Word) : Phase.com (.inOp U) = 0 := rfl
@[simp] theorem com_commit : Phase.com .commit = 1 := rfl
@[simp] theorem com_committed : Phase.com .committed = 1 := rfl
@[simp] theorem rest_idle (m : ℕ) : Phase.rest m .idle = 0 := rfl
@[simp] theorem rest_inOp (m : ℕ) (U : Finset Word) : Phase.rest m (.inOp U) = m - U.card := rfl
@[simp] theorem rest_commit (m : ℕ) : Phase.rest m .commit = 0 := rfl
@[simp] theorem rest_committed (m : ℕ) : Phase.rest m .committed = 0 := rfl

variable {l l' : LogState}

theorem beginOp_some (h : beginOp l = some l') :
    l.committing = false ∧ l.blocks.length + (l.outstanding + 1) * MAXOPBLOCKS ≤ LOGSIZE ∧
    l' = { l with outstanding := l.outstanding + 1 } := by
  unfold beginOp at h
  split_ifs at h with hc hl
  exact ⟨by simpa using hc, by omega, (Option.some.inj h).symm⟩

variable {b : Word}

theorem logWrite_ok (h : logWrite l b = .ok l') :
    l' = { l with blocks := if b ∈ l.blocks then l.blocks else l.blocks ++ [b] } := by
  unfold logWrite at h
  by_cases hbig : LOGSIZE ≤ l.blocks.length ∨ l.size - 1 ≤ l.blocks.length
  · rw [if_pos hbig] at h; cases h
  · by_cases hout : l.outstanding < 1
    · rw [if_neg hbig, if_pos hout] at h; cases h
    · rw [if_neg hbig, if_neg hout] at h; exact (Except.ok.inj h).symm

theorem logWrite_room (h : logWrite l b = .ok l') : l.blocks.length < LOGSIZE ∧ 0 < l.outstanding := by
  unfold logWrite at h
  by_cases hbig : LOGSIZE ≤ l.blocks.length ∨ l.size - 1 ≤ l.blocks.length
  · rw [if_pos hbig] at h; cases h
  · rw [if_neg hbig] at h
    by_cases hout : l.outstanding < 1
    · rw [if_pos hout] at h; cases h
    · omega

theorem endOp_ok {c : Bool} (h : endOp l = .ok (c, l')) : l.committing = false ∧
    ((c = true ∧ l.outstanding ≤ 1 ∧ l' = { l with outstanding := 0, committing := true }) ∨
     (c = false ∧ 2 ≤ l.outstanding ∧ l' = { l with outstanding := l.outstanding - 1 })) := by
  unfold endOp at h
  by_cases hc : l.committing = true
  · rw [if_pos hc] at h; cases h
  · rw [if_neg hc] at h
    refine ⟨by simpa using hc, ?_⟩
    by_cases ho : l.outstanding - 1 = 0
    · rw [if_pos ho] at h; cases h; exact .inl ⟨rfl, by omega, by rw [ho]⟩
    · rw [if_neg ho] at h; cases h; exact .inr ⟨rfl, by omega, rfl⟩

variable {e : Ev P} {m : ℕ}

/-- What an event does, and when it is enabled. -/
inductive Executed (m : ℕ) (s : State P) : Ev P → State P → Prop
  | beginOp {p : P} (hp : s.phase p = .idle) (hc : s.log.committing = false)
    (hroom : s.log.blocks.length + (s.log.outstanding + 1) * MAXOPBLOCKS ≤ LOGSIZE) :
    Executed m s (.beginOp p)
      ⟨{ s.log with outstanding := s.log.outstanding + 1 }, update s.phase p (.inOp ∅)⟩
  | logWrite {p : P} {b : Word} {U : Finset Word} (hp : s.phase p = .inOp U) (hcard : (insert b U).card ≤ m) :
    Executed m s (.logWrite p b) ⟨{ s.log with
      blocks := if b ∈ s.log.blocks then s.log.blocks else s.log.blocks ++ [b] }, update s.phase p (.inOp (insert b U))⟩
  | endOp {p : P} {U : Finset Word} (hp : s.phase p = .inOp U) (hc : s.log.committing = false)
    (ho : 2 ≤ s.log.outstanding) :
    Executed m s (.endOp p) ⟨{ s.log with outstanding := s.log.outstanding - 1 }, update s.phase p .idle⟩
  | lastEndOp {p : P} {U : Finset Word} (hp : s.phase p = .inOp U) (hc : s.log.committing = false)
    (ho : s.log.outstanding ≤ 1) :
    Executed m s (.endOp p) ⟨{ s.log with outstanding := 0, committing := true }, update s.phase p .commit⟩
  | commit {p : P} (hp : s.phase p = .commit) :
    Executed m s (.commit p) ⟨{ s.log with blocks := [] }, update s.phase p .committed⟩
  | endCommit {p : P} (hp : s.phase p = .committed) :
    Executed m s (.endCommit p) ⟨{ s.log with committing := false }, update s.phase p .idle⟩

theorem exec_cases {s s' : State P} (h : exec m s e = some s') : Executed m s e s' := by
  cases e <;> simp only [exec] at h
  case beginOp p =>
    split_ifs at h with hp
    obtain ⟨l, hl, rfl⟩ := Option.map_eq_some_iff.mp h
    obtain ⟨hc, hroom, rfl⟩ := beginOp_some hl; exact .beginOp hp hc hroom
  case logWrite p b =>
    split at h
    · next U hU =>
      split_ifs at h with hm
      split at h
      · next l hl =>
        cases h
        rw [logWrite_ok hl]; exact .logWrite hU hm
      · cases h
    · cases h
  case endOp p =>
    split at h
    · next U hU =>
      split at h
      · next c l hl =>
        cases h
        obtain ⟨hc, ⟨rfl, ho, rfl⟩ | ⟨rfl, ho, rfl⟩⟩ := endOp_ok hl
        · exact .lastEndOp hU hc ho
        · exact .endOp hU hc ho
      · cases h
    · cases h
  case commit p =>
    split_ifs at h with hp
    cases h; exact .commit hp
  case endCommit p =>
    split_ifs at h with hp
    cases h; exact .endCommit hp

variable {p q : P}

theorem phase_update {ph : P → Phase} {x y : Phase} (h : update ph p x q = y) :
    (q = p ∧ x = y) ∨ (q ≠ p ∧ ph q = y) := by
  by_cases hq : q = p
  · subst hq; exact .inl ⟨rfl, by rwa [update_self] at h⟩
  · exact .inr ⟨hq, by rwa [update_of_ne hq] at h⟩

variable [Fintype P] {α : Type*}

theorem sum_update (f : α → ℕ) (ph : P → α) (p : P) (x : α) :
    (∑ q, f (update ph p x q)) + f (ph p) = (∑ q, f (ph q)) + f x := by
  have h1 := add_sum_erase Finset.univ (fun q => f (update ph p x q)) (mem_univ p)
  have h2 := add_sum_erase Finset.univ (fun q => f (ph q)) (mem_univ p)
  have h3 : ∑ q ∈ Finset.univ.erase p, f (update ph p x q) = ∑ q ∈ Finset.univ.erase p, f (ph q) := by
    refine sum_congr rfl fun q hq => ?_
    rw [update_of_ne (ne_of_mem_erase hq)]
  simp only [update_self] at h1; omega

theorem le_sum (f : α → ℕ) (ph : P → α) (p : P) : f (ph p) ≤ ∑ q, f (ph q) := by
  have h := add_sum_erase Finset.univ (fun q => f (ph q)) (mem_univ p)
  omega

/-- What holds whatever the limit on the operations is: `outstanding` counts the operations in
progress, one process commits if `committing` is set and then nobody is in an operation, the blocks of
an operation in progress are in the log, and the log is empty when nobody is in an operation or
commits. -/
structure Inv (m : ℕ) (s : State P) : Prop where
  size : s.log.size = LOGSIZE
  outstanding : s.log.outstanding = ∑ p, (s.phase p).op
  committing : s.log.committing.toNat = ∑ p, (s.phase p).com
  alone : s.log.committing = true → s.log.outstanding = 0
  logged : ∀ p U, s.phase p = .inOp U → U.card ≤ m ∧ ∀ b ∈ U, b ∈ s.log.blocks
  empty : s.log.outstanding = 0 → s.log.committing = false → s.log.blocks = []
  cleared : ∀ p, s.phase p = .committed → s.log.blocks = []

omit [DecidableEq P] in
theorem Inv.start (m : ℕ) : Inv m (start P) := by
  refine ⟨rfl, ?_, ?_, fun h => ?_, fun p U h => ?_, fun _ _ => rfl, fun _ _ => rfl⟩
  · simp [GroupCommit.start]
  · simp [GroupCommit.start]
  · cases h
  · cases h

variable {s s' : State P}

section
variable (hi : Inv m s) {ph : Phase}
include hi

theorem Inv.outstanding_pos {U : Finset Word} (hp : s.phase p = .inOp U) : 0 < s.log.outstanding := by
  have h := le_sum Phase.op s.phase p
  have ho := hi.outstanding
  rw [hp, op_inOp] at h; omega

section
variable (hp : (s.phase p).com = 1)
include hp

theorem Inv.outstanding_zero : s.log.outstanding = 0 := by
  have h := le_sum Phase.com s.phase p
  have hc := hi.committing
  refine hi.alone ?_
  rcases hb : s.log.committing with _ | _
  · rw [hb, Bool.toNat_false] at hc; omega
  · rfl

theorem Inv.no_op {U : Finset Word} : s.phase q ≠ .inOp U := by
  intro hq
  have h0 := hi.outstanding_zero hp
  have hpos := hi.outstanding_pos hq; omega

theorem Inv.one_committer (hq : (s.phase q).com = 1) : q = p := by
  by_contra hne
  have h1 := add_sum_erase Finset.univ (fun r => (s.phase r).com) (mem_univ p)
  have h2 := add_sum_erase (Finset.univ.erase p) (fun r => (s.phase r).com)
    (mem_erase.mpr ⟨hne, mem_univ q⟩)
  have h3 := hi.committing
  have h4 := Bool.toNat_le s.log.committing; omega

end

theorem Inv.logged_update {V : Finset Word}
    (hph : ∀ U, ph ≠ .inOp U) (hq : update s.phase p ph q = .inOp V) : V.card ≤ m ∧ ∀ b ∈ V, b ∈ s.log.blocks := by
  rcases phase_update hq with ⟨-, hV⟩ | ⟨-, hq⟩
  · exact absurd hV (hph V)
  · exact hi.logged q V hq

theorem Inv.cleared_update (hph : ph ≠ .committed)
    (hq : update s.phase p ph q = .committed) : s.log.blocks = [] := by
  rcases phase_update hq with ⟨-, hV⟩ | ⟨-, hq⟩
  · exact absurd hV hph
  · exact hi.cleared q hq

theorem Inv.exec (h : exec m s e = some s') : Inv m s' := by
  have hout := hi.outstanding
  have hcom := hi.committing
  obtain @⟨p, hp, hc, -⟩ | @⟨p, b, U, hp, hm⟩ | @⟨p, U, hp, hc, ho⟩ | @⟨p, U, hp, hc, ho⟩ | @⟨p, hp⟩ | @⟨p, hp⟩ :=
    exec_cases h
  · -- `begin_op`
    have h1 := sum_update Phase.op s.phase p (.inOp ∅)
    have h2 := sum_update Phase.com s.phase p (.inOp ∅)
    rw [hp, op_idle, op_inOp] at h1
    rw [hp, com_idle, com_inOp] at h2
    refine ⟨hi.size, by dsimp only; omega, by dsimp only; omega, fun hc' => ?_, fun q V hq => ?_,
      fun h0 => ?_, fun q hq => ?_⟩
    · rw [hc] at hc'; cases hc'
    · rcases phase_update hq with ⟨-, hV⟩ | ⟨-, hq⟩
      · cases hV; simp
      · exact hi.logged q V hq
    · dsimp only at h0; omega
    · exact hi.cleared_update (by simp) hq
  · -- `log_write`
    have h1 := sum_update Phase.op s.phase p (.inOp (insert b U))
    have h2 := sum_update Phase.com s.phase p (.inOp (insert b U))
    rw [hp, op_inOp, op_inOp] at h1
    rw [hp, com_inOp, com_inOp] at h2
    have hpos := hi.outstanding_pos hp
    have hmem : ∀ x, x ∈ s.log.blocks ∨ x = b →
        x ∈ (if b ∈ s.log.blocks then s.log.blocks else s.log.blocks ++ [b]) := by
      intro x hx
      split_ifs with hb
      · rcases hx with hx | rfl
        · exact hx
        · exact hb
      · simpa using hx
    refine ⟨hi.size, by dsimp only; omega, by dsimp only; omega, hi.alone, fun q V hq => ?_,
      fun h0 => ?_, fun q hq => ?_⟩
    · rcases phase_update hq with ⟨-, hV⟩ | ⟨-, hq⟩
      · cases hV
        refine ⟨hm, fun x hx => hmem x ?_⟩
        rcases mem_insert.mp hx with rfl | hx
        · exact .inr rfl
        · exact .inl ((hi.logged p U hp).2 x hx)
      · exact ⟨(hi.logged q V hq).1, fun x hx => hmem x (.inl ((hi.logged q V hq).2 x hx))⟩
    · dsimp only at h0; omega
    · rcases phase_update hq with ⟨-, hV⟩ | ⟨-, hq⟩
      · cases hV
      · exact absurd hp (hi.no_op (p := q) (by rw [hq, com_committed]))
  · -- `end_op` with other operations in progress
    have h1 := sum_update Phase.op s.phase p .idle
    have h2 := sum_update Phase.com s.phase p .idle
    rw [hp, op_inOp, op_idle] at h1
    rw [hp, com_inOp, com_idle] at h2
    refine ⟨hi.size, by dsimp only; omega, by dsimp only; omega, fun hc' => ?_, fun q V hq => ?_,
      fun h0 => ?_, fun q hq => ?_⟩
    · rw [hc] at hc'; cases hc'
    · exact hi.logged_update (by simp) hq
    · dsimp only at h0; omega
    · exact hi.cleared_update (by simp) hq
  · -- the last `end_op`
    have h1 := sum_update Phase.op s.phase p .commit
    have h2 := sum_update Phase.com s.phase p .commit
    rw [hp, op_inOp, op_commit] at h1
    rw [hp, com_inOp, com_commit] at h2
    rw [hc, Bool.toNat_false] at hcom
    refine ⟨hi.size, by dsimp only; omega, ?_, fun _ => rfl, fun q V hq => ?_,
      fun _ hc' => ?_, fun q hq => ?_⟩
    · rw [Bool.toNat_true]; dsimp only; omega
    · exact hi.logged_update (by simp) hq
    · cases hc'
    · exact hi.cleared_update (by simp) hq
  · -- `commit`
    have h1 := sum_update Phase.op s.phase p .committed
    have h2 := sum_update Phase.com s.phase p .committed
    rw [hp, op_commit, op_committed] at h1
    rw [hp, com_commit, com_committed] at h2
    refine ⟨hi.size, by dsimp only; omega, by dsimp only; omega, hi.alone, fun q V hq => ?_,
      fun _ _ => rfl, fun _ _ => rfl⟩
    rcases phase_update hq with ⟨-, hV⟩ | ⟨-, hq⟩
    · cases hV
    · exact absurd hq (hi.no_op (p := p) (by rw [hp, com_commit]))
  · -- `committing = 0`
    have h1 := sum_update Phase.op s.phase p .idle
    have h2 := sum_update Phase.com s.phase p .idle
    have h3 := Bool.toNat_le s.log.committing
    have h4 := hi.cleared p hp
    rw [hp, op_committed, op_idle] at h1
    rw [hp, com_committed, com_idle] at h2
    refine ⟨hi.size, by dsimp only; omega, ?_, fun hc' => ?_, fun q V hq => ?_, fun _ _ => h4, fun _ _ => h4⟩
    · rw [Bool.toNat_false]; dsimp only; omega
    · cases hc'
    · exact hi.logged_update (by simp) hq

end

def Room (m : ℕ) (s : State P) : Prop :=
  0 < s.log.outstanding → s.log.blocks.length + (∑ p, (s.phase p).rest m) + 2 ≤ LOGSIZE

omit [DecidableEq P] in
theorem Inv.sum_rest_le (hi : Inv m s) : ∑ p, (s.phase p).rest m ≤ s.log.outstanding * m := by
  rw [hi.outstanding, sum_mul]
  refine sum_le_sum fun p _ => ?_
  cases s.phase p with
  | inOp U => rw [op_inOp, Nat.one_mul]; exact Nat.sub_le _ _
  | idle | commit | committed => exact Nat.zero_le _

theorem Room.exec (hm : m < MAXOPBLOCKS) (hi : Inv m s) (hr : Room m s) (h : exec m s e = some s') : Room m s' := by
  have hmax : MAXOPBLOCKS = 10 := rfl
  have hsize : LOGSIZE = 30 := rfl
  obtain @⟨p, hp, hc, hroom⟩ | @⟨p, b, U, hp, hcard⟩ | @⟨p, U, hp, hc, ho⟩ | @⟨p, U, hp, hc, ho⟩ | @⟨p, hp⟩ |
    @⟨p, hp⟩ := exec_cases h
  · -- the new reservation is smaller than the `MAXOPBLOCKS` asked for, and so are the others
    intro _
    rw [hmax] at hroom
    have h1 := sum_update (Phase.rest m) s.phase p (.inOp ∅)
    rw [hp, rest_idle, rest_inOp, card_empty] at h1
    have h2 := hi.sum_rest_le
    have h3 : s.log.outstanding * m ≤ s.log.outstanding * 9 := Nat.mul_le_mul_left _ (by omega)
    dsimp only
    by_cases h0 : s.log.outstanding = 0
    · have hempty := hi.empty h0 hc
      rw [h0] at h2
      rw [hempty, List.length_nil]; omega
    · omega
  · intro hpos
    have h1 := sum_update (Phase.rest m) s.phase p (.inOp (insert b U))
    rw [hp, rest_inOp, rest_inOp] at h1
    have hold := hr hpos
    have hle := card_le_card (subset_insert b U)
    dsimp only
    split_ifs with hb
    · omega
    · have hbU : b ∉ U := fun hbU => hb ((hi.logged p U hp).2 b hbU)
      rw [card_insert_of_notMem hbU] at h1 hcard
      rw [List.length_append, List.length_singleton]; omega
  · intro _
    have h1 := sum_update (Phase.rest m) s.phase p .idle
    rw [hp, rest_inOp, rest_idle] at h1
    have hold := hr (by omega)
    dsimp only; omega
  · intro hpos; exact absurd hpos (Nat.lt_irrefl 0)
  · intro hpos
    have h0 := hi.outstanding_zero (p := p) (by rw [hp, com_commit])
    dsimp only at hpos; omega
  · intro hpos
    have h0 := hi.outstanding_zero (p := p) (by rw [hp, com_committed])
    dsimp only at hpos; omega

theorem logWrite_fits (hm : m < MAXOPBLOCKS) (hr : Reachable (sys P m) s)
    (hp : (s.phase p).mayWrite m b = true) : logWrite s.log b ≠ .error .tooBig := by
  have key : Inv m s ∧ Room m s := by
    refine hr.inv (I := fun s => Inv m s ∧ Room m s) (fun s h0 => ?_) fun s e s' hi hs =>
      ⟨hi.1.exec hs, hi.2.exec hm hi.1 hs⟩
    rw [show s = start P from h0]
    exact ⟨Inv.start m, fun h => absurd h (Nat.lt_irrefl 0)⟩
  have hop : ∃ U, s.phase p = .inOp U := by
    cases hph : s.phase p with
    | inOp U => exact ⟨U, rfl⟩
    | _ => rw [hph] at hp; cases hp
  obtain ⟨U, hU⟩ := hop
  have hpos := key.1.outstanding_pos hU
  have hroom := key.2 hpos
  have hnot : ¬ (LOGSIZE ≤ s.log.blocks.length ∨ s.log.size - 1 ≤ s.log.blocks.length) := by
    rw [key.1.size]; omega
  unfold logWrite
  rw [if_neg hnot, if_neg (by omega)]; exact fun h => by cases h

omit [Fintype P] in
theorem exec_mono {m m' : ℕ} (hm : m ≤ m') {s s' : State P} (h : exec m s e = some s') : exec m' s e = some s' := by
  cases e with
  | logWrite p b =>
    simp only [exec] at h ⊢
    split at h
    · split_ifs at h with hc; rw [if_pos (hc.trans hm)]; exact h
    · cases h
  | _ => exact h

def threeOps : List (Ev (Fin 3)) :=
  [.beginOp 0, .beginOp 1, .beginOp 2] ++
    (List.range 29).map fun i => .logWrite (Fin.ofNat 3 (i / 10)) (BitVec.ofNat 32 (100 + i))

theorem run_threeOps (hm : MAXOPBLOCKS ≤ m) : ∃ h s, Run (sys (Fin 3) m) h s ∧
    h.map Prod.snd = threeOps ∧ (s.phase 2).mayWrite MAXOPBLOCKS 129 = true ∧
    logWrite s.log 129 = .error .tooBig := by
  obtain ⟨s, hr, hev, ht⟩ := exists_run (T := sys (Fin 3) m) (f := exec MAXOPBLOCKS)
    (fun _ _ _ h => exec_mono hm h) (rfl : start (Fin 3) = start (Fin 3)) threeOps
    (fun s => (s.phase 2).mayWrite MAXOPBLOCKS 129 = true ∧ s.log.blocks.length = 29 ∧
      s.log.size = 30) (by decide +kernel)
  obtain ⟨h1, h2, h3⟩ := of_decide_eq_true ht
  refine ⟨_, s, hr, hev, h1, ?_⟩
  unfold logWrite
  rw [if_pos]; omega

/-- **When the reservations of `begin_op` suffice.**  If every operation logs at most `m` distinct
blocks, `log_write` does not reach the panic `too big a transaction`, whatever the processes and their
interleaving, exactly if `m` is less than `MAXOPBLOCKS`. -/
theorem logWrite_fits_iff (m : ℕ) :
    (∀ (P : Type) [DecidableEq P] [Fintype P] (s : State P), Reachable (sys P m) s →
      ∀ p b, (s.phase p).mayWrite m b = true → logWrite s.log b ≠ .error .tooBig) ↔ m < MAXOPBLOCKS := by
  constructor
  · intro h
    by_contra hm
    obtain ⟨hist, s, hr, -, hw, hbig⟩ := run_threeOps (Nat.le_of_not_lt hm)
    refine h (Fin 3) s ⟨hist, hr⟩ 2 129 ?_ hbig
    cases hph : s.phase 2 with
    | inOp U =>
      rw [hph] at hw
      have hc : (insert 129 U).card ≤ MAXOPBLOCKS := of_decide_eq_true hw
      exact decide_eq_true (hc.trans (Nat.le_of_not_lt hm))
    | _ => rw [hph] at hw; cases hw
  · intro hm P _ _ s hr p b hp; exact logWrite_fits hm hr hp

/-- Three operations of `MAXOPBLOCKS` distinct blocks: `log_write` panics. -/
theorem threeOps_tooBig : ∃ h s, Run (sys (Fin 3) MAXOPBLOCKS) h s ∧ h.map Prod.snd = threeOps ∧
    (s.phase 2).mayWrite MAXOPBLOCKS 129 = true ∧ logWrite s.log 129 = .error .tooBig :=
  run_threeOps (Nat.le_refl _)

end Xv6.Fs.GroupCommit
