import Mathlib.Data.List.DropRight
import Xv6.Lib.Counters
import Xv6.Lib.Runs
import Xv6.Param
import Xv6.Vm.Copy

/-!
# The input of the console

`consoleintr` and `consoleread` of `kernel/console.c`.  A step is what runs under `cons.lock`: an interrupt, or
a reader up to its next `sleep` or its end; any number of processes read.  The echo and `procdump` are left out,
and the destination of a read is valid.

`Tty` says what the input is for, without indices: a line that is edited at its end, and the lines committed.
The arrays represent it (`Rel`); 128 divides 2^32, so the indices may wrap.
-/

namespace Xv6.Dev.Console

open Lib.Runs Lib.Counters Param List Function Nat
open Vm.Copy (Byte)

/-! ## The functions -/

def INPUT_BUF_SIZE : ℕ := 128

def C (x : Char) : Word := BitVec.ofNat 32 (x.toNat - 64)

def delete : Word := 127

def newline : Word := 10

def carriageReturn : Word := 13

/-- `cons` without its lock. -/
structure Cons where
  buf : ℕ → Byte
  r : Word
  w : Word
  e : Word

/-- The loop of control-U, with `k` rounds at most; it returns `cons.e`. -/
def killLoop (buf : ℕ → Byte) (w : Word) : ℕ → Word → Word
  | 0, e => e
  | k + 1, e =>
    if e ≠ w ∧ buf ((e - 1).toNat % INPUT_BUF_SIZE) ≠ newline.setWidth 8 then killLoop buf w k (e - 1) else e

def typed (s : Cons) (c : Word) : Cons :=
  if c ≠ 0 ∧ (s.e - s.r).toNat < INPUT_BUF_SIZE then
    let c := if c = carriageReturn then newline else c
    let s := { s with buf := update s.buf (s.e.toNat % INPUT_BUF_SIZE) (c.setWidth 8), e := s.e + 1 }
    if c = newline ∨ c = C 'D' ∨ s.e - s.r = BitVec.ofNat 32 INPUT_BUF_SIZE then { s with w := s.e } else s
  else s

def consoleintr (s : Cons) (c : Word) : Cons :=
  if c = C 'P' then s
  else if c = C 'U' then { s with e := killLoop s.buf s.w (s.e - s.w).toNat s.e }
  else if c = C 'H' ∨ c = delete then if s.e ≠ s.w then { s with e := s.e - 1 } else s
  else typed s c

/-- How a step of `consoleread` ends: in `sleep`, with `n` bytes still wanted, or with a result. -/
inductive Stop
  | sleep (n : ℕ)
  | ret (v : ℤ)
  deriving DecidableEq

/-- What a step of `consoleread` has done: the bytes it has copied, whether it has removed a control-D, and how
it ends. -/
structure Out where
  bytes : List Byte
  eof : Bool
  stop : Stop
  deriving DecidableEq

def readLoop (killed : Bool) (target : ℕ) : ℕ → Cons → Cons × Out
  | 0, s => (s, ⟨[], false, .ret target⟩)
  | n + 1, s =>
    if s.r = s.w then (s, ⟨[], false, if killed then .ret (-1) else .sleep (n + 1)⟩)
    else
      let c := s.buf (s.r.toNat % INPUT_BUF_SIZE)
      let s := { s with r := s.r + 1 }
      if c = (C 'D').setWidth 8 then
        -- a control-D behind other bytes is left for the next call
        if n + 1 < target then ({ s with r := s.r - 1 }, ⟨[], false, .ret (target - (n + 1))⟩)
        else (s, ⟨[], true, .ret (target - (n + 1))⟩)
      else if c = newline.setWidth 8 then (s, ⟨[c], false, .ret (target - n)⟩)
      else
        let (s, o) := readLoop killed target n s
        (s, { o with bytes := c :: o.bytes })

structure Reader where
  n : ℕ
  target : ℕ
  deriving DecidableEq

structure State (P : Type) where
  cons : Cons
  reader : P → Option Reader

/-- An interrupt, a call of `consoleread`, or the end of a `sleep` in it. -/
inductive Ev (P : Type)
  | intr (c : Word)
  | read (p : P) (n : ℤ) (killed : Bool)
  | wake (p : P) (killed : Bool)

variable {P : Type} [DecidableEq P]

/-- A process goes round the loop of `consoleread` and sleeps or returns. -/
def State.run (s : State P) (p : P) (killed : Bool) (target n : ℕ) : State P × Out :=
  let x := readLoop killed target n s.cons
  let reader := match x.2.stop with
    | .sleep n => some ⟨n, target⟩
    | .ret _ => none
  (⟨x.1, update s.reader p reader⟩, x.2)

/-- A step and what it gives to the reader.  A call with `n ≤ 0` returns 0 at once. -/
def exec (s : State P) : Ev P → Option (State P × Option Out)
  | .intr c => some ({ s with cons := consoleintr s.cons c }, none)
  | .read p n killed =>
    match s.reader p with
    | none => some ((s.run p killed n.toNat n.toNat).map id some)
    | some _ => none
  | .wake p killed =>
    match s.reader p with
    | none => none
    | some t => some ((s.run p killed t.target t.n).map id some)

def boot (P : Type) : State P := ⟨⟨fun _ => 0, 0, 0, 0⟩, fun _ => none⟩

def sys (P : Type) [DecidableEq P] : Sys (State P) (Ev P × Option Out) where
  init s := s = boot P
  step s x s' := exec s x.1 = some (s', x.2)

structure Tty where
  committed : List Byte
  taken : ℕ
  line : List Byte

def Tty.waiting (t : Tty) : ℕ := t.committed.length - t.taken + t.line.length

/-- A key: control-U removes the end of the line up to a newline, backspace and delete the last byte; other
keys are accepted if there is room, and the end of a line, control-D and a full buffer commit the line. -/
def Tty.intr (t : Tty) (c : Word) : Tty :=
  if c = C 'P' then t
  else if c = C 'U' then { t with line := t.line.rdropWhile (· ≠ newline.setWidth 8) }
  else if c = C 'H' ∨ c = delete then { t with line := t.line.dropLast }
  else if c ≠ 0 ∧ t.waiting < INPUT_BUF_SIZE then
    let c := if c = carriageReturn then newline else c
    let line := t.line ++ [c.setWidth 8]
    if c = newline ∨ c = C 'D' ∨ t.waiting + 1 = INPUT_BUF_SIZE then
      { t with committed := t.committed ++ line, line := [] }
    else { t with line := line }
  else t

def Out.consumed (o : Out) : List Byte := o.bytes ++ if o.eof then [(C 'D').setWidth 8] else []

def Tty.step (t : Tty) : Ev P × Option Out → Tty
  | (.intr c, _) => t.intr c
  | (_, some o) => { t with taken := t.taken + o.consumed.length }
  | (_, none) => t

def ttyOf (h : List (State P × (Ev P × Option Out))) : Tty :=
  h.foldl (fun t x => t.step x.2) ⟨[], 0, []⟩

def consumed (h : List (State P × (Ev P × Option Out))) : List Byte :=
  h.flatMap fun x => x.2.2.elim [] Out.consumed

def delivered (h : List (State P × (Ev P × Option Out))) : List Byte :=
  h.flatMap fun x => x.2.2.elim [] Out.bytes

/-! ## The buffer holds the input -/

def Cons.queue (s : Cons) : Queue Byte 32 := ⟨s.buf, s.r, s.e⟩

def Cons.pending (s : Cons) : List Byte := Queue.contents INPUT_BUF_SIZE (⟨s.buf, s.r, s.w⟩ : Queue Byte 32)

/-- The buffer holds the bytes `pending` from `r` to `w` and `line` from `w` to `e`, and if it is full the
line is empty. -/
structure Rel (s : Cons) (pending line : List Byte) : Prop where
  contents : s.queue.contents INPUT_BUF_SIZE = pending ++ line
  split : (s.w - s.r).toNat = pending.length
  bound : s.queue.count ≤ INPUT_BUF_SIZE
  full : s.queue.count = INPUT_BUF_SIZE → line = []

variable {s : Cons} {pending line : List Byte} {b : Byte} {c : Word}

theorem size_dvd : INPUT_BUF_SIZE ∣ 2 ^ 32 := by decide

section
variable (h : Rel s pending line)
include h

theorem Rel.count : s.queue.count = pending.length + line.length := by
  have hlen := congrArg List.length h.contents
  unfold Queue.contents at hlen
  rwa [length_map, length_range, length_append] at hlen

theorem Rel.edited_iff : s.e = s.w ↔ line = [] := by
  have hcount := h.count
  have hsplit := h.split
  constructor
  · intro he
    have h1 : s.queue.count = (s.w - s.r).toNat := by rw [← he]; rfl
    exact eq_nil_of_length_eq_zero (by omega)
  · rintro rfl
    have h1 : (s.e - s.r).toNat = (s.w - s.r).toNat := by rw [hsplit]; exact hcount
    exact sub_left_injective (BitVec.eq_of_toNat_eq h1)

theorem Rel.length_line : (s.e - s.w).toNat = line.length := by
  have hcount : (s.e - s.r).toNat = pending.length + line.length := h.count
  have hsplit := h.split
  have hle : s.w - s.r ≤ s.e - s.r := by rw [BitVec.le_def]; omega
  have he : s.e - s.w = s.e - s.r - (s.w - s.r) := (sub_sub_sub_cancel_right _ _ _).symm
  rw [he, BitVec.toNat_sub_of_le hle]; omega

theorem Rel.read_iff : s.r = s.w ↔ pending = [] := by
  have hzero : (⟨s.buf, s.r, s.w⟩ : Queue Byte 32).count = 0 ↔ s.r = s.w := count_eq_zero
  rw [← hzero, ← length_eq_zero_iff, ← h.split]; rfl

theorem Rel.pending_eq : s.pending = pending := by
  have hcount := h.count
  have hw : (⟨s.buf, s.r, s.w⟩ : Queue Byte 32).count = pending.length := h.split
  have hcontents := congrArg (List.take pending.length) h.contents
  rw [take_left] at hcontents
  rw [← hcontents]
  unfold Cons.pending Queue.contents
  rw [hw, hcount, ← map_take, take_range, min_eq_left (le_add_right _ _)]; rfl

end

theorem Rel.back (h : Rel s pending (line ++ [b])) :
    s.buf ((s.e - 1).toNat % INPUT_BUF_SIZE) = b ∧ Rel { s with e := s.e - 1 } pending line := by
  have hcount := h.count
  rw [length_append, length_singleton] at hcount
  have hback := contents_back size_dvd (q := s.queue) (by omega)
  rw [h.contents, ← append_assoc] at hback
  obtain ⟨h1, h2⟩ := append_inj' hback rfl
  have hc : s.queue.back.count = s.queue.count - 1 := count_back (by omega)
  have hb := h.bound
  refine ⟨(head_eq_of_cons_eq h2).symm, ⟨h1.symm, h.split, ?_, fun hfull => ?_⟩⟩
  · show s.queue.back.count ≤ INPUT_BUF_SIZE; omega
  · have : s.queue.back.count = INPUT_BUF_SIZE := hfull; omega

section
variable (h : Rel s pending line)
include h

theorem Rel.erase : Rel (if s.e ≠ s.w then { s with e := s.e - 1 } else s) pending line.dropLast := by
  rcases eq_nil_or_concat line with rfl | ⟨line, b, rfl⟩
  · rw [if_neg (not_not.mpr (h.edited_iff.mpr rfl))]; exact h
  · rw [concat_eq_append] at h ⊢
    have hne : s.e ≠ s.w := fun he => by
      have := h.edited_iff.mp he; simp at this
    rw [if_pos hne, dropLast_concat]; exact h.back.2

theorem Rel.kill {k : ℕ} (hk : line.length ≤ k) :
    Rel { s with e := killLoop s.buf s.w k s.e } pending (line.rdropWhile (· ≠ newline.setWidth 8)) := by
  induction k generalizing s line with
  | zero => obtain rfl := eq_nil_of_length_eq_zero (le_zero.mp hk); exact h
  | succ k ih =>
    rcases eq_nil_or_concat line with rfl | ⟨line, b, rfl⟩
    · have he := h.edited_iff.mpr rfl
      unfold killLoop
      rw [if_neg (fun hne => hne.1 he)]
      exact h
    · rw [concat_eq_append] at h hk ⊢
      rw [length_append, length_singleton] at hk
      obtain ⟨hlast, hback⟩ := h.back
      have hne : s.e ≠ s.w := fun he => by
        have := h.edited_iff.mp he; simp at this
      unfold killLoop
      rw [hlast, rdropWhile_concat]
      by_cases hb : b = newline.setWidth 8
      · rw [if_neg (fun hn => hn.2 hb), if_neg (by simpa using hb)]
        exact h
      · rw [if_pos ⟨hne, hb⟩, if_pos (by simpa using hb)]
        exact ih hback (by omega)

theorem Rel.grown (hroom : s.queue.count < INPUT_BUF_SIZE) (b : Byte) :
    (s.queue.push INPUT_BUF_SIZE b).contents INPUT_BUF_SIZE = pending ++ (line ++ [b]) ∧
    (s.queue.push INPUT_BUF_SIZE b).count = s.queue.count + 1 := by
  have hlt : INPUT_BUF_SIZE < 2 ^ 32 := by decide
  rw [← append_assoc, ← h.contents]
  exact ⟨contents_push size_dvd hroom b hlt, count_push b (by omega)⟩

theorem Rel.push (hroom : s.queue.count < INPUT_BUF_SIZE) (b : Byte) (hfull : s.queue.count + 1 ≠ INPUT_BUF_SIZE) :
    Rel { s with buf := update s.buf (s.e.toNat % INPUT_BUF_SIZE) b, e := s.e + 1 } pending
      (line ++ [b]) := by
  obtain ⟨hpush, hc⟩ := h.grown hroom b
  exact ⟨hpush, h.split, (le_of_eq hc).trans hroom, fun hf => absurd (hc.symm.trans hf) hfull⟩

theorem Rel.commit (hroom : s.queue.count < INPUT_BUF_SIZE) (b : Byte) :
    Rel { s with buf := update s.buf (s.e.toNat % INPUT_BUF_SIZE) b, e := s.e + 1, w := s.e + 1 }
      (pending ++ (line ++ [b])) [] := by
  obtain ⟨hpush, hc⟩ := h.grown hroom b
  have hcount := h.count
  refine ⟨?_, ?_, (le_of_eq hc).trans hroom, fun _ => rfl⟩
  · rw [append_nil]; exact hpush
  · rw [length_append, length_append, length_singleton]
    exact hc.trans (by omega)

end

theorem Rel.pop (h : Rel s (b :: pending) line) :
    s.buf (s.r.toNat % INPUT_BUF_SIZE) = b ∧ Rel { s with r := s.r + 1 } pending line := by
  have hcount := h.count
  rw [length_cons] at hcount
  have hpos : 0 < s.queue.count := by omega
  have hpop := contents_pop size_dvd hpos
  rw [h.contents] at hpop
  obtain ⟨h1, h2⟩ := cons_eq_cons.mp hpop
  have hc : s.queue.pop.count = s.queue.count - 1 := count_pop hpos
  have hb := h.bound
  have hw : 0 < (⟨s.buf, s.r, s.w⟩ : Queue Byte 32).count := by
    show 0 < (s.w - s.r).toNat
    rw [h.split]; exact succ_pos _
  have hwpop := count_pop hw
  refine ⟨h1.symm, ⟨h2.symm, ?_, ?_, fun hfull => ?_⟩⟩
  · have hsplit : (⟨s.buf, s.r, s.w⟩ : Queue Byte 32).count = pending.length + 1 := h.split
    rw [hsplit] at hwpop; exact hwpop
  · show s.queue.pop.count ≤ INPUT_BUF_SIZE; omega
  · have : s.queue.pop.count = INPUT_BUF_SIZE := hfull; omega

structure Sim (s : Cons) (t : Tty) : Prop where
  rel : Rel s (t.committed.drop t.taken) t.line
  taken : t.taken ≤ t.committed.length

variable {t : Tty} {target n : ℕ} {o : Out}

theorem Sim.waiting (h : Sim s t) : s.queue.count = t.waiting := by
  rw [h.rel.count, length_drop]; rfl

theorem Sim.typed (h : Sim s t) (hc : c ≠ 0 ∧ t.waiting < INPUT_BUF_SIZE) {k : Word} : Sim (let s := { s with
        buf := update s.buf (s.e.toNat % INPUT_BUF_SIZE) (k.setWidth 8)
        e := s.e + 1 }
       if k = newline ∨ k = C 'D' ∨ s.e - s.r = BitVec.ofNat 32 INPUT_BUF_SIZE then { s with w := s.e } else s)
      (if k = newline ∨ k = C 'D' ∨ t.waiting + 1 = INPUT_BUF_SIZE then
        { t with committed := t.committed ++ (t.line ++ [k.setWidth 8]), line := [] }
       else { t with line := t.line ++ [k.setWidth 8] }) := by
  have hw := h.waiting
  have hroom : s.queue.count < INPUT_BUF_SIZE := by rw [hw]; exact hc.2
  have hlt : INPUT_BUF_SIZE < 2 ^ 32 := by decide
  have hpush : (s.queue.push INPUT_BUF_SIZE (k.setWidth 8)).count = s.queue.count + 1 :=
    count_push _ (by omega)
  -- the code compares the difference of the indices, as a C `uint`
  have hfull : s.e + 1 - s.r = BitVec.ofNat 32 INPUT_BUF_SIZE ↔ t.waiting + 1 = INPUT_BUF_SIZE := by
    rw [← hw, ← hpush, ← BitVec.toNat_inj, BitVec.toNat_ofNat]; rfl
  have htaken := h.taken
  simp only [hfull]
  split_ifs with hcommit
  · refine ⟨?_, ?_⟩
    · have hrel := h.rel.commit hroom (k.setWidth 8)
      rw [← drop_append_of_le_length htaken] at hrel; exact hrel
    · rw [length_append]; exact le_add_right_of_le htaken
  · refine ⟨h.rel.push hroom _ ?_, htaken⟩
    rw [hw]; exact fun he => hcommit (.inr (.inr he))

theorem Sim.intr (h : Sim s t) (c : Word) : Sim (consoleintr s c) (t.intr c) := by
  unfold consoleintr Tty.intr
  by_cases hP : c = C 'P'
  · rw [if_pos hP, if_pos hP]; exact h
  rw [if_neg hP, if_neg hP]
  by_cases hU : c = C 'U'
  · rw [if_pos hU, if_pos hU]; exact ⟨h.rel.kill h.rel.length_line.ge, h.taken⟩
  rw [if_neg hU, if_neg hU]
  by_cases hH : c = C 'H' ∨ c = delete
  · rw [if_pos hH, if_pos hH]; exact ⟨h.rel.erase, h.taken⟩
  rw [if_neg hH, if_neg hH]
  have hw : (s.e - s.r).toNat = t.waiting := h.waiting
  unfold Console.typed
  rw [hw]
  by_cases hc : c ≠ 0 ∧ t.waiting < INPUT_BUF_SIZE
  · rw [if_pos hc, if_pos hc]; exact h.typed hc
  · rw [if_neg hc, if_neg hc]; exact h

/-- What a step of a reader takes: the bytes it gives, none of them a control-D, and the control-D it removes,
which is the first byte that the call finds and makes it return 0. -/
structure Takes (target n : ℕ) (o : Out) (pending rest : List Byte) : Prop where
  split : pending = o.consumed ++ rest
  plain : (C 'D').setWidth 8 ∉ o.bytes
  eof : o.eof = true → n = target ∧ o.bytes = [] ∧ o.stop = .ret 0
  asleep : ∀ k, o.stop = .sleep k → k ≤ n

theorem Takes.cons {rest : List Byte} (h : Takes target n o pending rest)
    (hn : n < target) (hb : b ≠ (C 'D').setWidth 8) :
    Takes target (n + 1) { o with bytes := b :: o.bytes } (b :: pending) rest := by
  refine ⟨?_, ?_, fun he => ?_, fun k hk => le_succ_of_le (h.asleep k hk)⟩
  · rw [h.split]; rfl
  · rw [mem_cons, not_or]; exact ⟨hb.symm, h.plain⟩
  · have := (h.eof he).1; omega

theorem Rel.read (killed : Bool) (target : ℕ) (hn : n ≤ target) (h : Rel s pending line) :
    ∃ rest, Rel (readLoop killed target n s).1 rest line ∧
      Takes target n (readLoop killed target n s).2 pending rest := by
  induction n generalizing s pending with
  | zero => exact ⟨pending, h, ⟨rfl, not_mem_nil, fun he => (by cases he), fun k hk => (by cases hk)⟩⟩
  | succ n ih =>
    unfold readLoop
    cases pending with
    | nil =>
      rw [if_pos (h.read_iff.mpr rfl)]
      refine ⟨[], h, ⟨rfl, not_mem_nil, fun he => (by cases he), fun k hk => ?_⟩⟩
      cases killed with
      | true => cases hk
      | false => exact (Stop.sleep.inj hk).ge
    | cons b pending =>
      obtain ⟨hb, hpop⟩ := h.pop
      rw [if_neg (fun he => cons_ne_nil _ _ (h.read_iff.mp he))]
      dsimp only
      rw [hb]
      split_ifs with hD hlt hnl
      · -- the control-D is left in the buffer
        have hback : s.r + 1 - 1 = s.r := add_sub_cancel_right _ _
        rw [hback]
        exact ⟨b :: pending, h, ⟨rfl, not_mem_nil, fun he => (by cases he), fun k hk => (by cases hk)⟩⟩
      · have hval : (target : ℤ) - (n + 1) = 0 := by omega
        refine ⟨pending, hpop, ⟨by rw [hD]; rfl, not_mem_nil, fun _ => ⟨by omega, rfl, ?_⟩,
          fun k hk => (by cases hk)⟩⟩
        rw [hval]
      · refine ⟨pending, hpop, ⟨rfl, ?_, fun he => (by cases he), fun k hk => (by cases hk)⟩⟩
        rw [mem_singleton]; exact Ne.symm hD
      · obtain ⟨rest, hrel, ht⟩ := ih (by omega) hpop
        exact ⟨rest, hrel, ht.cons (by omega) hD⟩

/-! ## Runs -/

variable {S S' : State P} {x : Ev P × Option Out} {taken : List Byte}

/-- The input is in the buffer, what has been read is its front, and a reader that sleeps wants no more than it
asked for. -/
structure Inv (S : State P) (t : Tty) (taken : List Byte) : Prop where
  sim : Sim S.cons t
  front : t.committed.take t.taken = taken
  readers : ∀ p r, S.reader p = some r → r.n ≤ r.target

/-- What a step gives to a reader: no control-D among the bytes, and a control-D that is removed ends a read
that has given nothing. -/
def Good (o : Out) : Prop :=
  (C 'D').setWidth 8 ∉ o.bytes ∧ (o.eof = true → o.bytes = [] ∧ o.stop = .ret 0)

theorem Inv.run (h : Inv S t taken) (p : P) (killed : Bool) (hn : n ≤ target) :
    Inv (S.run p killed target n).1 { t with taken := t.taken + (S.run p killed target n).2.consumed.length }
      (taken ++ (S.run p killed target n).2.consumed) ∧ Good (S.run p killed target n).2 := by
  obtain ⟨rest, hrel, ht⟩ := h.sim.rel.read killed target hn
  have hsplit : t.committed.drop t.taken = (S.run p killed target n).2.consumed ++ rest := ht.split
  have hdrop : t.committed.drop (t.taken + (S.run p killed target n).2.consumed.length) = rest := by
    rw [← drop_drop, hsplit, drop_left]
  have hlen := congrArg List.length hsplit
  rw [length_drop, length_append] at hlen
  refine ⟨⟨⟨?_, ?_⟩, ?_, fun q r hq => ?_⟩, ht.plain, fun he => (ht.eof he).2⟩
  · rw [hdrop]; exact hrel
  · have := h.sim.taken
    show t.taken + (S.run p killed target n).2.consumed.length ≤ t.committed.length
    omega
  · rw [take_add, hsplit, take_left, h.front]
  · have hq : update S.reader p (match (S.run p killed target n).2.stop with
        | .sleep n => some ⟨n, target⟩
        | .ret _ => none) q = some r := hq
    by_cases hqp : q = p
    · subst hqp
      rw [update_self] at hq
      split at hq
      · next k hk =>
        cases hq; exact (ht.asleep k hk).trans hn
      · cases hq
    · rw [update_of_ne hqp] at hq; exact h.readers q r hq

theorem Tty.intr_committed (t : Tty) (c : Word) :
    ∃ l, (t.intr c).committed = t.committed ++ l ∧ (t.intr c).taken = t.taken := by
  unfold Tty.intr
  dsimp only
  split_ifs
  all_goals first
    | exact ⟨[], (append_nil _).symm, rfl⟩
    | exact ⟨_, rfl, rfl⟩

theorem Inv.step (h : Inv S t taken) (hs : (sys P).step S x S') :
    Inv S' (t.step x) (taken ++ x.2.elim [] Out.consumed) ∧ ∀ o, x.2 = some o → Good o := by
  obtain ⟨e, o⟩ := x
  have hs : exec S e = some (S', o) := hs
  cases e with
  | intr c =>
    cases hs
    refine ⟨⟨h.sim.intr c, ?_, h.readers⟩, fun o ho => by cases ho⟩
    obtain ⟨l, hcommitted, htaken⟩ := t.intr_committed c
    show (t.intr c).committed.take (t.intr c).taken = taken ++ []
    rw [hcommitted, htaken, append_nil, take_append_of_le_length h.sim.taken]
    exact h.front
  | read p n killed =>
    simp only [exec] at hs
    split at hs
    · cases hs
      obtain ⟨hi, hg⟩ := h.run p killed (le_refl n.toNat)
      exact ⟨hi, fun o ho => Option.some.inj ho ▸ hg⟩
    · cases hs
  | wake p killed =>
    simp only [exec] at hs
    split at hs
    · cases hs
    · next r hr =>
      cases hs
      obtain ⟨hi, hg⟩ := h.run p killed (h.readers p r hr)
      exact ⟨hi, fun o ho => Option.some.inj ho ▸ hg⟩

theorem inv_run {h : List (State P × (Ev P × Option Out))} (hr : Run (sys P) h S) :
    Inv S (ttyOf h) (consumed h) ∧ ∀ x ∈ h, ∀ o, x.2.2 = some o → Good o := by
  induction hr with
  | start h0 =>
    obtain rfl : _ = boot P := h0
    have h0 : ((0 : Word) - 0).toNat = 0 := by decide
    have hc : Queue.contents INPUT_BUF_SIZE (boot P).cons.queue = [] :=
      map_eq_nil_iff.mpr (range_eq_nil.mpr h0)
    refine ⟨⟨⟨⟨hc, h0, ?_, fun _ => rfl⟩, le_rfl⟩, rfl, fun p r hp => by cases hp⟩, fun x hx => by cases hx⟩
    exact h0.le.trans (by decide)
  | @next h s s' e hr hs ih =>
    obtain ⟨hi, hg⟩ := ih.1.step hs
    refine ⟨?_, fun x hx => ?_⟩
    · have ht : ttyOf (h ++ [(s, e)]) = (ttyOf h).step e := by unfold ttyOf; rw [foldl_append]; rfl
      have hc : consumed (h ++ [(s, e)]) = consumed h ++ e.2.elim [] Out.consumed := by
        unfold consumed
        rw [flatMap_append, flatMap_singleton]
      rw [ht, hc]; exact hi
    · rcases mem_append.mp hx with hx | hx
      · exact ih.2 x hx
      · obtain rfl := mem_singleton.mp hx; exact hg

theorem Good.bytes (ho : Good o) : o.bytes = o.consumed.filter (· ≠ (C 'D').setWidth 8) := by
  have hplain : o.bytes.filter (· ≠ (C 'D').setWidth 8) = o.bytes := by
    refine filter_eq_self.mpr fun b hb => decide_eq_true fun he => ho.1 (he ▸ hb)
  unfold Out.consumed
  rw [filter_append, hplain]
  split_ifs
  · simp
  · rw [filter_nil, append_nil]

omit [DecidableEq P] in
theorem delivered_eq {h : List (State P × (Ev P × Option Out))} (hg : ∀ x ∈ h, ∀ o, x.2.2 = some o → Good o) :
    delivered h = (consumed h).filter (· ≠ (C 'D').setWidth 8) := by
  unfold delivered consumed
  rw [filter_flatMap]
  refine flatMap_congr fun x hx => ?_
  cases ho : x.2.2 with
  | none => rfl
  | some o => exact (hg x hx o ho).bytes

theorem intr_edits (s : Cons) (hc : c = C 'U' ∨ c = C 'H' ∨ c = delete) :
    ∃ e, consoleintr s c = { s with e := e } := by
  have hP : c ≠ C 'P' := by rcases hc with rfl | rfl | rfl <;> decide
  unfold consoleintr
  rw [if_neg hP]
  by_cases hU : c = C 'U'
  · rw [if_pos hU]; exact ⟨_, rfl⟩
  · rw [if_pos (hc.resolve_left hU)]
    split_ifs
    · exact ⟨_, rfl⟩
    · exact ⟨s.e, rfl⟩

/-- **The input of the console.**  After every run the indices are in order and a full buffer is committed; the
keys that edit leave `w` and the bytes below it; the bytes committed are those that readers have taken
followed by those from `r` to `w`; the bytes given to readers are the ones taken, in their order, without
control-D; and a control-D that is removed ends a read that returns 0. -/
theorem input_in_order {h : List (State P × (Ev P × Option Out))} (hr : Run (sys P) h S) :
    ((S.cons.w - S.cons.r).toNat ≤ (S.cons.e - S.cons.r).toNat ∧
      (S.cons.e - S.cons.r).toNat ≤ INPUT_BUF_SIZE ∧
      ((S.cons.e - S.cons.r).toNat = INPUT_BUF_SIZE → S.cons.w = S.cons.e)) ∧
    (∀ c, c = C 'U' ∨ c = C 'H' ∨ c = delete →
      (consoleintr S.cons c).w = S.cons.w ∧ (consoleintr S.cons c).r = S.cons.r ∧
      (consoleintr S.cons c).pending = S.cons.pending ∧
      (S.cons.w - S.cons.r).toNat ≤ ((consoleintr S.cons c).e - S.cons.r).toNat) ∧
    (ttyOf h).committed = consumed h ++ S.cons.pending ∧
    delivered h = (consumed h).filter (· ≠ (C 'D').setWidth 8) ∧
    ∀ x ∈ h, ∀ o, x.2.2 = some o → o.eof = true → o.bytes = [] ∧ o.stop = .ret 0 := by
  obtain ⟨hi, hg⟩ := inv_run hr
  have hrel := hi.sim.rel
  have hcount : (S.cons.e - S.cons.r).toNat = _ := hrel.count
  have hsplit := hrel.split
  refine ⟨⟨by omega, hrel.bound, fun hfull => ?_⟩, fun c hc => ?_, ?_, delivered_eq hg, fun x hx o ho =>
    (hg x hx o ho).2⟩
  · exact (hrel.edited_iff.mpr (hrel.full hfull)).symm
  · have hrel' := (hi.sim.intr c).rel
    have hcount' : ((consoleintr S.cons c).e - (consoleintr S.cons c).r).toNat = _ := hrel'.count
    have hsplit' := hrel'.split
    obtain ⟨e, he⟩ := intr_edits S.cons hc
    rw [he] at hcount' hsplit' ⊢
    exact ⟨rfl, rfl, rfl, by dsimp only at hcount' hsplit' ⊢; omega⟩
  · rw [hrel.pending_eq, ← hi.front, take_append_drop]

def follow (S : State P) (x : Ev P × Option Out) : Option (State P) :=
  (exec S x.1).bind fun y => if y.2 = x.2 then some y.1 else none

theorem step_of_follow (h : follow S x = some S') : (sys P).step S x S' := by
  obtain ⟨y, hy, h⟩ := Option.bind_eq_some_iff.mp h
  split_ifs at h with ho
  cases h
  show exec S x.1 = some (y.1, x.2)
  rw [hy, ← ho]

/-- A reader waits for a byte; `abx`, backspace, newline and control-D are typed; then two calls read `b` and the
newline, and the end of the file. -/
def oneLine {P : Type} (p : P) : List (Ev P × Option Out) :=
  [(.read p 1 false, some ⟨[], false, .sleep 1⟩), (.intr 97, none), (.intr 98, none), (.intr 120, none),
    (.intr (C 'H'), none), (.intr newline, none), (.intr (C 'D'), none),
    (.wake p false, some ⟨[97], false, .ret 1⟩), (.read p 5 false, some ⟨[98, 10], false, .ret 2⟩),
    (.read p 5 false, some ⟨[], true, .ret 0⟩)]

theorem input_in_order_line : ∃ (h : List (State (Fin 1) × (Ev (Fin 1) × Option Out))) (S : State (Fin 1)),
    Run (sys (Fin 1)) h S ∧ h.map Prod.snd = oneLine 0 ∧ (ttyOf h).committed = [97, 98, 10, 4] ++ S.cons.pending ∧
    delivered h = [97, 98, 10] := by
  obtain ⟨S, hr, hmap, -⟩ := exists_run (T := sys (Fin 1)) (f := follow) (fun _ _ _ h => step_of_follow h) rfl
    (oneLine 0) (fun _ => true) (by decide +kernel)
  obtain ⟨-, -, hcommitted, hdelivered, -⟩ := input_in_order hr
  have hconsumed : consumed (stepsOf follow (boot (Fin 1)) (oneLine 0)) = [97, 98, 10, 4] := by decide +kernel
  rw [hconsumed] at hcommitted hdelivered
  exact ⟨_, S, hr, hmap, hcommitted, hdelivered⟩

end Xv6.Dev.Console
