import Xv6.Ipc.Pipe

/-!
# Who sleeps on a pipe

Whenever the lock of a pipe is free, a reader should sleep only while the pipe is empty and a writer only
while it is full.  `pipewrite` gives this up on one path: a writer that has stored bytes and then finds
itself killed returns without a `wakeup(&pi->nread)` (`reader_left_asleep`).  On all other paths it holds
(`sleepers_wait`).
-/

namespace Xv6.Ipc.Sleepers

open Vm.Copy Lib.Runs Lib.Counters Ipc.Pipe Function

variable {P : Type}

def Waits (s : State P) (p : P) (chan : Chan) : Prop :=
  (s.thread p).rest = .dozing chan ∨ (s.thread p).rest = .sleeping chan

def Quiet (s : State P) : Chan → Prop
  | .nread => s.ring.head = s.ring.tail ∧ s.writeopen = true
  | .nwrite => s.ring.tail = s.ring.head + BitVec.ofNat 32 PIPESIZE ∧ s.readopen = true

/-- A process at this point calls `wakeup` on the channel before it releases the lock, unless it is
killed. -/
def Owes (readopen : Bool) : Chan → Pc → Prop
  | .nread, .writeLoop _ i => 0 < i ∧ readopen = true
  | .nread, .writeFull _ _ | .nread, .writeWake | .nread, .closeWake true
  | .nwrite, .readLoop _ _ | .nwrite, .readWake | .nwrite, .closeWake false => True
  | _, _ => False

def sleepsOn : Pc → Option Chan
  | .writeFull _ _ | .writeSleep _ _ => some .nwrite
  | .readSleep _ => some .nread
  | _ => none

variable {pc : Pc} {chan : Chan}

theorem holds_of_sleepsOn (h : sleepsOn pc = some chan) : holds pc = true := by
  unfold sleepsOn at h
  split at h <;> first | rfl | cases h

theorem owes_of_wakes {c : Chan} {readopen : Bool} (h : wakes pc = some chan)
    (hc : Owes readopen c pc) : c = chan := by
  unfold wakes at h
  split at h <;> cases h <;> cases c <;> first | rfl | exact hc.elim

structure Inv (s : State P) : Prop where
  lock : ∀ p, holds (s.thread p).pc = true ↔ s.lock = some p
  waits : ∀ q chan, Waits s q chan →
    Quiet s chan ∨ ∃ p, s.lock = some p ∧ Owes s.readopen chan (s.thread p).pc
  sleeps : ∀ p chan, sleepsOn (s.thread p).pc = some chan → Quiet s chan

variable {s s' : State P} {p : P}
variable {q : P}

section
variable (h : Inv s)
include h

theorem Inv.quiet (hfree : s.lock = none) (hq : Waits s q chan) : Quiet s chan := by
  rcases h.waits q chan hq with hquiet | ⟨p, hp, -⟩
  · exact hquiet
  · rw [hfree] at hp; cases hp

theorem Inv.holder (hp : s.lock = some p) (hq : Waits s q chan) :
    Quiet s chan ∨ Owes s.readopen chan (s.thread p).pc := by
  rcases h.waits q chan hq with hquiet | ⟨p', hp', howes⟩
  · exact .inl hquiet
  · obtain rfl : p = p' := Option.some.inj (hp.symm.trans hp'); exact .inr howes

theorem Inv.hold (hp : s.lock = some p) (hlock : s'.lock = some p)
    (hothers : ∀ q, q ≠ p → (s'.thread q).pc = (s.thread q).pc) (hheld : holds (s'.thread p).pc = true)
    (hwaits : ∀ q chan, Waits s' q chan → Waits s q chan ∧ (Quiet s chan ∨ Owes s.readopen chan (s.thread p).pc →
        Quiet s' chan ∨ Owes s'.readopen chan (s'.thread p).pc))
    (hsleeps : ∀ chan, sleepsOn (s'.thread p).pc = some chan → Quiet s' chan) : Inv s' := by
  refine ⟨fun q => ?_, fun q chan hq => ?_, fun q chan hq => ?_⟩
  · by_cases hqp : q = p
    · rw [hqp, hheld, hlock]; simp
    · rw [hothers q hqp, h.lock q, hp, hlock]
  · obtain ⟨hq, hkeep⟩ := hwaits q chan hq
    rcases hkeep (h.holder hp hq) with hquiet | howes
    · exact .inl hquiet
    · exact .inr ⟨p, hlock, howes⟩
  · by_cases hqp : q = p
    · rw [hqp] at hq; exact hsleeps chan hq
    · -- another process at such a point would have the lock too
      rw [hothers q hqp] at hq
      have hq' := (h.lock q).mp (holds_of_sleepsOn hq)
      exact absurd (Option.some.inj (hq'.symm.trans hp)) hqp

theorem Inv.letGo (hp : s.lock = some p)
    (howes : ∀ chan, ¬ Owes s.readopen chan (s.thread p).pc) (hlock : s'.lock = none)
    (hothers : ∀ q, q ≠ p → (s'.thread q).pc = (s.thread q).pc)
    (hheld : holds (s'.thread p).pc = false) (hquiet : ∀ chan, Quiet s chan → Quiet s' chan)
    (hwaits : ∀ q chan, Waits s' q chan → Waits s q chan ∨ Quiet s chan) : Inv s' := by
  have hfree : ∀ q, holds (s'.thread q).pc = false := by
    intro q
    by_cases hqp : q = p
    · rw [hqp, hheld]
    · rw [hothers q hqp]
      refine Bool.eq_false_iff.mpr fun hq => hqp ?_
      exact Option.some.inj (((h.lock q).mp hq).symm.trans hp)
  refine ⟨fun q => ?_, fun q chan hq => .inl (hquiet chan ?_), fun q chan hq => ?_⟩
  · rw [hfree q, hlock]; simp
  · rcases hwaits q chan hq with hq | hquiet
    · exact (h.holder hp hq).resolve_right (howes chan)
    · exact hquiet
  · exact absurd (holds_of_sleepsOn hq) (Bool.eq_false_iff.mp (hfree q))

theorem Inv.aside (hlock : s'.lock = s.lock) (hquiet : ∀ chan, Quiet s chan ↔ Quiet s' chan)
    (hopen : s'.readopen = s.readopen) (hpcs : ∀ q, (s'.thread q).pc = (s.thread q).pc ∨
      (holds (s.thread q).pc = false ∧ holds (s'.thread q).pc = false))
    (hwaits : ∀ q chan, Waits s' q chan → Waits s q chan) : Inv s' := by
  have hholds : ∀ q, holds (s'.thread q).pc = holds (s.thread q).pc := by
    intro q
    rcases hpcs q with he | ⟨h1, h2⟩
    · rw [he]
    · rw [h1, h2]
  have hsame : ∀ q, holds (s'.thread q).pc = true → (s'.thread q).pc = (s.thread q).pc := by
    intro q hq
    rcases hpcs q with he | ⟨-, h2⟩
    · exact he
    · rw [h2] at hq; cases hq
  refine ⟨fun q => ?_, fun q chan hq => ?_, fun q chan hq => ?_⟩
  · rw [hholds q, hlock]; exact h.lock q
  · rcases h.waits q chan (hwaits q chan hq) with hc | ⟨p, hp, howes⟩
    · exact .inl ((hquiet chan).mp hc)
    · have hpc := hsame p ((hholds p).trans ((h.lock p).mpr hp))
      refine .inr ⟨p, hlock.trans hp, ?_⟩
      rw [hpc, hopen]; exact howes
  · rw [hsame q (holds_of_sleepsOn hq)] at hq
    exact (hquiet chan).mp (h.sleeps q chan hq)

end

variable [DecidableEq P]

theorem pc_goto (s : State P) (p : P) (pc : Pc) : ((s.goto p pc).thread p).pc = pc := by
  show (update s.thread p _ p).pc = pc
  rw [update_self]

theorem thread_goto_ne (h : q ≠ p) (s : State P) (pc : Pc) :
    (s.goto p pc).thread q = s.thread q := update_of_ne h _ _

theorem waits_goto : Waits (s.goto p pc) q chan ↔ Waits s q chan := by
  unfold Waits
  by_cases hq : q = p
  · have h : ((s.goto p pc).thread q).rest = (s.thread q).rest := by
      show (update s.thread p _ q).rest = _
      rw [hq, update_self]
    rw [h]
  · rw [thread_goto_ne hq]

theorem Inv.inside (h : Inv s) (hp : s.lock = some p) (pc : Pc) (hheld : holds pc = true)
    (hs : s'.thread = (s.goto p pc).thread) (hlock : s'.lock = s.lock)
    (hkeep : ∀ chan, Quiet s chan ∨ Owes s.readopen chan (s.thread p).pc → Quiet s' chan ∨ Owes s'.readopen chan pc)
    (hsleeps : ∀ chan, sleepsOn pc = some chan → Quiet s' chan) : Inv s' := by
  have hpc : (s'.thread p).pc = pc := by rw [hs, pc_goto]
  have hwaits : ∀ q chan, Waits s' q chan ↔ Waits s q chan := by
    intro q chan
    have hgo : Waits (s.goto p pc) q chan ↔ Waits s q chan := waits_goto
    rw [← hgo]
    unfold Waits
    rw [hs]
  refine h.hold hp (hlock.trans hp) (fun q hq => ?_) ?_ (fun q chan hq => ?_) fun chan hc => ?_
  · rw [hs, thread_goto_ne hq]
  · rw [hpc, hheld]
  · rw [hpc]; exact ⟨(hwaits q chan).mp hq, hkeep chan⟩
  · rw [hpc] at hc; exact hsleeps chan hc

def Spared (s : State P) : Ev P → Prop
  | .step p _ _ => ∀ n i, (s.thread p).pc = .writeLoop n i → 0 < i → (i : ℤ) < n → (s.thread p).killed = false
  | _ => True

variable {n : ℤ}

section
variable (h : Inv s)
include h

section
variable (hp : s.lock = some p) {i : ℕ}
include hp

theorem Inv.writeLoop (hpc : (s.thread p).pc = .writeLoop n i)
    (hok : 0 < i → (i : ℤ) < n → (s.thread p).killed = false) (ch : Option Byte) : Inv (writeLoop s p n i ch) := by
  have hwake : Inv (s.goto p .writeWake) := by
    refine h.inside hp .writeWake rfl rfl rfl (fun chan hq => ?_) (fun _ hc => by cases hc)
    cases chan with
    | nread => exact .inr trivial
    | nwrite => rw [hpc] at hq; exact hq
  unfold Pipe.writeLoop
  split_ifs with hn hout hfull
  · refine h.inside hp .unlock rfl rfl rfl (fun chan hq => ?_) (fun _ hc => by cases hc)
    rw [hpc] at hq
    refine hq.imp_right fun howes => ?_
    cases chan with
    | nread =>
      obtain ⟨hi, hopen⟩ := howes
      rcases hout with hout | hout
      · rw [hopen] at hout; cases hout
      · rw [hok hi hn] at hout; cases hout
    | nwrite => exact howes
  · have hopen : s.readopen = true := Bool.eq_true_of_not_eq_false (not_or.mp hout).1
    refine h.inside hp (.writeFull n i) rfl rfl rfl (fun chan hq => ?_) fun chan hc => ?_
    · cases chan with
      | nread => exact .inr trivial
      | nwrite => exact .inl ⟨hfull, hopen⟩
    · cases hc; exact ⟨hfull, hopen⟩
  · cases ch with
    | some ch =>
      have hopen : s.readopen = true := Bool.eq_true_of_not_eq_false (not_or.mp hout).1
      refine h.inside hp (.writeLoop n (i + 1)) rfl rfl rfl (fun chan hq => ?_) (fun _ hc => by cases hc)
      cases chan with
      | nread => exact .inr ⟨Nat.succ_pos i, hopen⟩
      | nwrite =>
        -- no writer sleeps, as the pipe is not full
        rw [hpc] at hq
        rcases hq with ⟨hf, -⟩ | howes
        · exact absurd hf hfull
        · exact howes.elim
    | none => exact hwake
  · exact hwake

theorem Inv.readTop (hpc : (s.thread p).pc = .readTop n) : Inv (readTop s p n) := by
  have hkeep : ∀ pc chan, Quiet s chan ∨ Owes s.readopen chan (s.thread p).pc →
      Quiet s chan ∨ Owes s.readopen chan pc := by
    intro pc chan hq
    rw [hpc] at hq
    cases chan <;> exact hq.imp_right False.elim
  unfold Pipe.readTop
  split_ifs with hempty hk
  · exact h.inside hp .unlock rfl rfl rfl (hkeep .unlock) (fun _ hc => by cases hc)
  · refine h.inside hp (.readSleep n) rfl rfl rfl (hkeep (.readSleep n)) fun chan hc => ?_
    cases hc; exact hempty
  · exact h.inside hp (.readLoop n 0) rfl rfl rfl (hkeep (.readLoop n 0)) (fun _ hc => by cases hc)

theorem Inv.readLoop (hpc : (s.thread p).pc = .readLoop n i) (ok : Bool) : Inv (readLoop s p n i ok) := by
  unfold Pipe.readLoop
  split_ifs with hmore hok
  · refine h.inside hp (.readLoop n (i + 1)) rfl rfl rfl (fun chan hq => ?_) (fun _ hc => by cases hc)
    rw [hpc] at hq
    cases chan with
    | nread => exact absurd (hq.resolve_right id).1 hmore.2
    | nwrite => exact .inr trivial
  · refine h.inside hp .readWake rfl rfl rfl (fun chan hq => ?_) (fun _ hc => by cases hc)
    rw [hpc] at hq
    cases chan with
    | nread => exact absurd (hq.resolve_right id).1 hmore.2
    | nwrite => exact .inr trivial
  · refine h.inside hp .readWake rfl rfl rfl (fun chan hq => ?_) (fun _ hc => by cases hc)
    rw [hpc] at hq
    cases chan with
    | nread => exact hq
    | nwrite => exact .inr trivial

theorem Inv.closeSet {w : Bool} (hpc : (s.thread p).pc = .closeSet w) : Inv (closeSet s p w) := by
  cases w with
  | true =>
    refine h.inside hp (.closeWake true) rfl rfl rfl (fun chan hq => ?_) (fun _ hc => by cases hc)
    rw [hpc] at hq
    cases chan with
    | nread => exact .inr trivial
    | nwrite => exact hq
  | false =>
    refine h.inside hp (.closeWake false) rfl rfl rfl (fun chan hq => ?_) (fun _ hc => by cases hc)
    rw [hpc] at hq
    cases chan with
    | nread => exact hq
    | nwrite => exact .inr trivial

theorem Inv.wakeup
    (hat : wakes (s.thread p).pc = some chan) (hdoze : ∀ q, (s.thread q).rest.isDozing = false) (pc : Pc)
    (hheld : holds pc = true)
    (hsleeps : ∀ c, sleepsOn pc = some c → Quiet s c) : Inv ((s.wakeup chan).goto p pc) := by
  refine h.hold hp hp (fun q hq => ?_) ?_ (fun q c hq => ?_) fun c hc => ?_
  · rw [thread_goto_ne hq]; rfl
  · rw [pc_goto, hheld]
  · rw [waits_goto] at hq
    have hrest : (s.thread q).rest = .sleeping c ∧ c ≠ chan := by
      have hq' : (if (s.thread q).rest = .sleeping chan then .awake else (s.thread q).rest) = .dozing c ∨
          (if (s.thread q).rest = .sleeping chan then .awake else (s.thread q).rest) = .sleeping c := hq
      have hd := hdoze q
      split_ifs at hq' with hr
      · rcases hq' with hq' | hq' <;> cases hq'
      · rcases hq' with hq' | hq'
        · rw [hq'] at hd; cases hd
        · refine ⟨hq', fun hcc => hr ?_⟩
          rw [hq', hcc]
    refine ⟨.inr hrest.1, fun hquiet => .inl ?_⟩
    exact hquiet.resolve_right fun howes => hrest.2 (owes_of_wakes hat howes)
  · rw [pc_goto] at hc; exact hsleeps c hc

theorem Inv.doze (pc : Pc)
    (hat : sleepsOn (s.thread p).pc = some chan) (howes : ∀ c, ¬ Owes s.readopen c (s.thread p).pc)
    (hheld : holds pc = false) : Inv (s.doze p chan pc) := by
  have hself : (s.doze p chan pc).thread p = { s.thread p with pc := pc, rest := .dozing chan } :=
    update_self _ _ _
  have hne : ∀ q, q ≠ p → (s.doze p chan pc).thread q = s.thread q := fun q hq =>
    update_of_ne hq _ _
  refine h.letGo hp howes rfl (fun q hq => ?_) ?_ (fun _ hq => hq) fun q c hq => ?_
  · rw [hne q hq]
  · rw [hself]; exact hheld
  · unfold Waits at hq
    by_cases hqp : q = p
    · rw [hqp, hself] at hq
      rcases hq with hq | hq
      · cases hq; exact .inr (h.sleeps p chan hat)
      · cases hq
    · rw [hne q hqp] at hq; exact .inl hq

theorem Inv.unlock (hpc : (s.thread p).pc = .unlock) : Inv { s.goto p .idle with lock := none } := by
  refine h.letGo hp (fun c hc => ?_) rfl (fun q hq => ?_) ?_ (fun _ hq => hq) fun q c hq => ?_
  · rw [hpc] at hc
    cases c <;> exact hc
  · exact congrArg Thread.pc (thread_goto_ne hq s .idle)
  · exact congrArg holds (pc_goto s p .idle)
  · exact .inl (waits_goto.mp hq)

end

theorem Inv.step (ch : Option Byte) (ok : Bool) (hok : Spared s (.step p ch ok))
    (hen : Enabled s (.step p ch ok)) : Inv (exec s (.step p ch ok)) := by
  obtain ⟨hholds, hwake⟩ := hen
  have hp := (h.lock p).mp hholds
  show Inv (stepPc s p ch ok (s.thread p).pc)
  have hwakeup : ∀ {chan : Chan}, wakes (s.thread p).pc = some chan → ∀ pc, holds pc = true →
      (∀ c, sleepsOn pc = some c → Quiet s c) → Inv ((s.wakeup chan).goto p pc) := by
    intro chan hat pc hheld hsleeps
    exact h.wakeup hp hat (hwake (by rw [hat]; rfl)) pc hheld hsleeps
  cases hpc : (s.thread p).pc with
  | writeLoop n i => exact h.writeLoop hp hpc (fun hi hn => hok n i hpc hi hn) ch
  | writeFull n i =>
    refine hwakeup (by rw [hpc]; rfl) (.writeSleep n i) rfl fun c hc => h.sleeps p c ?_
    rw [hpc]; exact hc
  | writeSleep n i | readSleep n =>
    refine h.doze hp _ (by rw [hpc]; rfl) (fun c hc => ?_) rfl
    rw [hpc] at hc
    cases c <;> exact hc
  | writeWake | readWake => exact hwakeup (by rw [hpc]; rfl) .unlock rfl fun _ hc => by cases hc
  | readTop n => exact h.readTop hp hpc
  | readLoop n i => exact h.readLoop hp hpc ok
  | closeSet w => exact h.closeSet hp hpc
  | closeWake w =>
    cases w with
    | true | false => exact hwakeup (by rw [hpc]; rfl) .unlock rfl fun _ hc => by cases hc
  | unlock => exact h.unlock hp hpc
  | _ => rw [hpc] at hholds; cases hholds

/-! ## The steps outside the lock -/

theorem Inv.acquire (hfree : s.lock = none)
    (hpc : locked (s.thread p).pc = some pc) : Inv { s.goto p pc with lock := some p } := by
  have hnew : holds pc = true ∧ sleepsOn pc = none := by
    unfold locked at hpc
    split at hpc <;> cases hpc <;> exact ⟨rfl, rfl⟩
  have hold : ∀ q, holds (s.thread q).pc = false := by
    intro q
    refine Bool.eq_false_iff.mpr fun hq => ?_
    rw [h.lock q, hfree] at hq; cases hq
  refine ⟨fun q => ?_, fun q chan hq => .inl (h.quiet hfree (waits_goto.mp hq)), fun q chan hq => ?_⟩
  · by_cases hqp : q = p
    · rw [hqp, pc_goto]; simp [hnew.1]
    · rw [thread_goto_ne hqp, hold q]; simp [Ne.symm hqp]
  · replace hq : sleepsOn ((s.goto p pc).thread q).pc = some chan := hq
    by_cases hqp : q = p
    · rw [hqp, pc_goto, hnew.2] at hq; cases hq
    · rw [thread_goto_ne hqp] at hq; exact h.sleeps q chan hq

theorem Inv.call (hidle : (s.thread p).pc = .idle) (hpc : holds pc = false) : Inv (s.goto p pc) := by
  refine h.aside rfl (fun _ => Iff.rfl) rfl (fun q => ?_) fun q chan hq => waits_goto.mp hq
  by_cases hqp : q = p
  · rw [hqp, hidle, pc_goto]; exact .inr ⟨rfl, hpc⟩
  · rw [thread_goto_ne hqp]; exact .inl rfl

theorem Inv.rest {t : Thread} (hpc : t.pc = (s.thread p).pc)
    (hrest : ∀ chan, t.rest = .dozing chan ∨ t.rest = .sleeping chan → Waits s p chan) : Inv (s.setThread p t) := by
  have hself : (s.setThread p t).thread p = t := update_self _ _ _
  have hne : ∀ q, q ≠ p → (s.setThread p t).thread q = s.thread q := fun q hq =>
    update_of_ne hq _ _
  refine h.aside rfl (fun _ => Iff.rfl) rfl (fun q => .inl ?_) fun q chan hq => ?_
  · by_cases hqp : q = p
    · rw [hqp, hself, hpc]
    · rw [hne q hqp]
  · unfold Waits at hq
    by_cases hqp : q = p
    · rw [hqp] at hq ⊢; rw [hself] at hq; exact hrest chan hq
    · rw [hne q hqp] at hq; exact hq

theorem Inv.settle : Inv (exec s (.settle p)) := by
  refine h.rest rfl fun chan hq => ?_
  unfold Waits
  revert hq
  cases (s.thread p).rest with
  | awake | sleeping c => exact id
  | dozing c =>
    rintro (hq | hq)
    · cases hq
    · cases hq; exact .inl rfl

theorem Inv.kill : Inv (exec s (.kill p)) := by
  refine h.rest rfl fun chan hq => ?_
  unfold Waits
  unfold Thread.kill at hq
  revert hq
  cases (s.thread p).rest with
  | awake | dozing c => exact id
  | sleeping c =>
    rintro (hq | hq)
    · cases hq
    · cases hq

theorem Inv.exec {e : Ev P} (hok : Spared s e) (hen : Enabled s e) : Inv (exec s e) := by
  cases e with
  | write p n | read p n | close p w => exact h.call hen rfl
  | acquire p =>
    obtain ⟨hfree, -, hpc⟩ := hen
    obtain ⟨pc, hpc⟩ := Option.isSome_iff_exists.mp hpc
    show Inv { s.goto p ((locked (s.thread p).pc).getD .idle) with lock := some p }
    rw [hpc]; exact h.acquire hfree hpc
  | step p ch ok => exact h.step ch ok hok hen
  | settle p => exact h.settle
  | kill p => exact h.kill

end

omit [DecidableEq P] in
theorem inv_fresh (h : Fresh s) : Inv s := by
  obtain ⟨-, -, -, -, hlock, hidle⟩ := h
  refine ⟨fun q => ?_, fun q chan hq => ?_, fun q chan hq => ?_⟩
  · rw [(hidle q).1, hlock]; simp [holds]
  · unfold Waits at hq
    rw [(hidle q).2] at hq
    rcases hq with hq | hq <;> cases hq
  · rw [(hidle q).1] at hq; cases hq

/-- **Who sleeps on a pipe.**  In every run in which no writer finds itself killed after it has stored a
byte, a process that sleeps while the lock is free has a reason to. -/
theorem sleepers_wait {h : List (State P × Ev P)} (hr : Run (sys P) h s)
    (hok : ∀ x ∈ h, Spared x.1 x.2) (hfree : s.lock = none) (p : P) :
    ((s.thread p).rest = .sleeping .nread → s.ring.head = s.ring.tail ∧ s.writeopen = true) ∧
    ((s.thread p).rest = .sleeping .nwrite →
      s.ring.tail = s.ring.head + BitVec.ofNat 32 PIPESIZE ∧ s.readopen = true) := by
  have hinv : Inv s := by
    refine hr.inv_of_ok (fun _ => inv_fresh) (fun t e t' hi hC hs => ?_) hok
    rw [hs.2]; exact hi.exec hC hs.1
  exact ⟨fun hp => hinv.quiet hfree (.inr hp), fun hp => hinv.quiet hfree (.inr hp)⟩

omit [DecidableEq P] in
theorem spared_of_alive {e : Ev P} (h : ∀ p, (s.thread p).killed = false) : Spared s e := by
  cases e with
  | step p ch ok => exact fun _ _ _ _ _ => h p
  | _ => trivial

/-- A reader sleeps on the empty pipe. -/
theorem sleepers_wait_once : ∃ s : State Bool, (s.thread false).rest = .sleeping .nread ∧
    s.ring.head = s.ring.tail ∧ s.writeopen = true := by
  obtain ⟨s, hr, hmap, ht⟩ := exists_run (f := next) sys_next fresh_newPipe
    [.read false 1, .acquire false, .step false none true, .step false none true, .settle false]
    (fun s => decide (s.lock = none ∧ (s.thread false).rest = .sleeping .nread)) (by decide +kernel)
  obtain ⟨hfree, hrest⟩ := of_decide_eq_true ht
  have hlive : ∀ x ∈ stepsOf next newPipe [.read false 1, .acquire false, .step false none true,
      .step false none true, .settle false], ∀ p, (x.1.thread p).killed = false := by decide +kernel
  have hok := fun x hx => spared_of_alive (e := x.2) (hlive x hx)
  exact ⟨s, hrest, (sleepers_wait hr hok hfree false).1 hrest⟩

/-- A reader sleeps, a writer stores a byte, is killed and returns: the lock is free and the reader
sleeps on, with a byte in the pipe. -/
theorem reader_left_asleep : ∃ s : State Bool, Reachable (sys Bool) s ∧ s.lock = none ∧
    (s.thread false).rest = .sleeping .nread ∧ s.ring.head ≠ s.ring.tail := by
  obtain ⟨s, hr, -, ht⟩ := exists_run (f := next) sys_next fresh_newPipe
    [.read false 1, .acquire false, .step false none true, .step false none true, .settle false,
      .write true 2, .acquire true, .step true (some 7) true, .kill true, .step true (some 8) true,
      .step true none true]
    (fun s => decide (s.lock = none ∧ (s.thread false).rest = .sleeping .nread ∧
      s.ring.head ≠ s.ring.tail)) (by decide +kernel)
  exact ⟨s, ⟨_, hr⟩, of_decide_eq_true ht⟩

end Xv6.Ipc.Sleepers
