import Xv6.Fs.GroupCommit

/-!
# Operations are committed whole

`commit` runs without `log.lock`: `install_trans` reads `log.lh.n` and `log.lh.block[tail]` in every round and
writes that block home, then the header is cleared, and between any two of these steps other processes may take
steps of `Xv6.Fs.GroupCommit`.

A history variable numbers the commits, and notes the blocks each writes home and, for every operation that has
ended, the blocks it logged and the commit that was to come next.
-/

namespace Xv6.Fs.WholeOps

open Lib.Runs Param List Function Option
open Fs.GroupCommit (LogState Phase Inv logWrite endOp beginOp phase_update exec_cases com_commit)

/-- The log and the processes, with the local variable `tail` of `install_trans` of each process. -/
structure State (P : Type) where
  core : GroupCommit.State P
  tail : P → ℕ

/-- A step under `log.lock` or the clearing of the header, or a round of `install_trans`. -/
inductive Ev (P : Type)
  | log (e : GroupCommit.Ev P)
  | install (p : P)

variable {P : Type} [DecidableEq P] {s s' : State P} {m : ℕ} {e : GroupCommit.Ev P}

/-- A step of the processes, each operation of which logs at most `m` distinct blocks.  The loop of
`install_trans` starts after `end_op`, and the header is cleared when it is over. -/
def exec (m : ℕ) (s : State P) : Ev P → Option (State P)
  | .log (.endOp p) =>
    (GroupCommit.exec m s.core (.endOp p)).map fun c => ⟨c, update s.tail p 0⟩
  | .log (.commit p) =>
    if s.tail p < s.core.log.blocks.length then none
    else (GroupCommit.exec m s.core (.commit p)).map fun c => ⟨c, s.tail⟩
  | .log e => (GroupCommit.exec m s.core e).map fun c => ⟨c, s.tail⟩
  | .install p =>
    if s.core.phase p = .commit ∧ s.tail p < s.core.log.blocks.length then
      some { s with tail := update s.tail p (s.tail p + 1) }
    else none

def start (P : Type) : State P := ⟨GroupCommit.start P, fun _ => 0⟩

/-- An operation that has ended: the blocks it logged, how many blocks had been written home when it
began and when it ended, and the number of the commit that was to come next. -/
structure Op where
  logged : Finset Word
  began : ℕ
  ended : ℕ
  commit : ℕ

/-- The commits that have cleared the header, the blocks written home with the number of the commit
that wrote them, how many they were when a process last began an operation, and the operations that
have ended. -/
structure Past (P : Type) where
  commits : ℕ
  homed : List (ℕ × Word)
  began : P → ℕ
  ended : List Op

def note (s : State P) (e : Ev P) (g : Past P) : Past P :=
  match e with
  | .log (.beginOp p) => { g with began := update g.began p g.homed.length }
  | .log (.endOp p) =>
    match s.core.phase p with
    | .inOp U => { g with ended := ⟨U, g.began p, g.homed.length, g.commits⟩ :: g.ended }
    | _ => g
  | .log (.commit _) => { g with commits := g.commits + 1 }
  | .install p =>
    { g with homed := g.homed ++ (s.core.log.blocks[s.tail p]?.map (g.commits, ·)).toList }
  | .log _ => g

/-- The processes `P` with operations of at most `m` distinct blocks, and their past. -/
def sys (P : Type) [DecidableEq P] (m : ℕ) : Sys (State P × Past P) (Ev P) :=
  Sys.hist ⟨(· = start P), fun s e s' => exec m s e = some s'⟩ ⟨0, [], fun _ => 0, []⟩ fun s e _ => note s e

/-! ## The invariant -/

/-- The blocks of `o` are in the log until the commit that comes next after `o` is over, and that
commit writes them home; those before it wrote before `o` began, and nothing is written home while `o`
is in progress. -/
structure Whole (blocks : List Word) (g : Past P) (o : Op) : Prop where
  quiet : o.began = o.ended
  next : o.commit ≤ g.commits
  before : ∀ x ∈ g.homed.take o.began, x.1 < o.commit
  after : ∀ x ∈ g.homed.drop o.ended, o.commit ≤ x.1
  pending : o.commit = g.commits → ∀ b ∈ o.logged, b ∈ blocks
  homed : o.commit < g.commits → ∀ b ∈ o.logged, (o.commit, b) ∈ g.homed

/-- The past and the log agree: only a commit that is going on has the next number, nothing goes home
during an operation, the loop of `install_trans` has written home what it has passed, and operations
that have ended are committed whole. -/
structure Kept (x : State P × Past P) : Prop where
  numbers : ∀ y ∈ x.2.homed, y.1 ≤ x.2.commits
  current : ∀ y ∈ x.2.homed, y.1 = x.2.commits → ∃ p, x.1.core.phase p = .commit
  quiet : ∀ p U, x.1.core.phase p = .inOp U → x.2.began p = x.2.homed.length
  passed : ∀ p, x.1.core.phase p = .commit →
    ∀ b ∈ x.1.core.log.blocks.take (x.1.tail p), (x.2.commits, b) ∈ x.2.homed
  ops : ∀ o ∈ x.2.ended, Whole x.1.core.log.blocks x.2 o ∧ o.ended ≤ x.2.homed.length

theorem exec_core (h : exec m s (.log e) = some s') : GroupCommit.exec m s.core e = some s'.core := by
  cases e with
  | commit p =>
    simp only [exec] at h
    split_ifs at h
    obtain ⟨c, hc, rfl⟩ := map_eq_some_iff.mp h; exact hc
  | _ =>
    obtain ⟨c, hc, rfl⟩ := map_eq_some_iff.mp h; exact hc

theorem exec_tail (h : exec m s (.log e) = some s') : (∃ p, e = .endOp p ∧ s'.tail = update s.tail p 0) ∨
    (∃ p, e = .commit p ∧ s.core.log.blocks.length ≤ s.tail p ∧ s'.tail = s.tail) ∨
    ((∀ p, e ≠ .endOp p ∧ e ≠ .commit p) ∧ s'.tail = s.tail) := by
  cases e with
  | endOp p =>
    obtain ⟨c, -, rfl⟩ := map_eq_some_iff.mp h; exact .inl ⟨p, rfl, rfl⟩
  | commit p =>
    simp only [exec] at h
    split_ifs at h with ht
    obtain ⟨c, -, rfl⟩ := map_eq_some_iff.mp h
    exact .inr (.inl ⟨p, rfl, by omega, rfl⟩)
  | _ =>
    obtain ⟨c, -, rfl⟩ := map_eq_some_iff.mp h
    exact .inr (.inr ⟨fun p => ⟨by simp, by simp⟩, rfl⟩)

variable {p : P}

theorem exec_install (h : exec m s (.install p) = some s') :
    s.core.phase p = .commit ∧ s.tail p < s.core.log.blocks.length ∧
    s' = { s with tail := update s.tail p (s.tail p + 1) } := by
  simp only [exec] at h
  split_ifs at h with hp; exact ⟨hp.1, hp.2, (Option.some.inj h).symm⟩

variable {o : Op}

omit [DecidableEq P] in
theorem Whole.mono {blocks blocks' : List Word} {g g' : Past P} (h : Whole blocks g o)
    (hb : ∀ b ∈ blocks, b ∈ blocks') (hc : g'.commits = g.commits) (hh : g'.homed = g.homed) :
    Whole blocks' g' o := by
  refine ⟨h.quiet, ?_, ?_, ?_, ?_, ?_⟩
  · rw [hc]; exact h.next
  · rw [hh]; exact h.before
  · rw [hh]; exact h.after
  · intro ho b hbo; exact hb b (h.pending (ho.trans hc) b hbo)
  · rw [hc, hh]; exact h.homed

variable [Fintype P] {g : Past P}
variable {U : Finset Word}

theorem Kept.earlier (hk : Kept (s, g)) (hi : Inv m s.core)
    (hp : s.core.phase p = .inOp U) : ∀ y ∈ g.homed, y.1 < g.commits := by
  intro y hy
  refine lt_of_le_of_ne (hk.numbers y hy) fun he => ?_
  obtain ⟨q, hq⟩ := hk.current y hy he
  exact hi.no_op (by rw [hq, com_commit]) hp

omit [DecidableEq P] [Fintype P] in
theorem Whole.clear (ho : Whole s.core.log.blocks g o) (hk : Kept (s, g))
    (hp : s.core.phase p = .commit) (ht : s.core.log.blocks.length ≤ s.tail p) :
    Whole [] { g with commits := g.commits + 1 } o := by
  have hall : ∀ b ∈ s.core.log.blocks, (g.commits, b) ∈ g.homed := by
    intro b hb
    refine hk.passed p hp b ?_
    rwa [take_of_length_le ht]
  have hle := ho.next
  refine ⟨ho.quiet, Nat.le_succ_of_le hle, ho.before, ho.after, fun he => ?_, fun hlt b hb => ?_⟩
  · dsimp only at he; omega
  · by_cases he : o.commit = g.commits
    · rw [he]; exact hall b (ho.pending he b hb)
    · exact ho.homed (by omega) b hb

omit [DecidableEq P] [Fintype P] in
theorem Whole.install {blocks : List Word} (ho : Whole blocks g o) (hle : o.ended ≤ g.homed.length) (b : Word) :
    Whole blocks { g with homed := g.homed ++ [(g.commits, b)] } o := by
  have hq := ho.quiet
  refine ⟨hq, ho.next, fun x hx => ?_, fun x hx => ?_, ho.pending, fun hlt b hb => ?_⟩
  · rw [take_append_of_le_length (by omega)] at hx; exact ho.before x hx
  · rw [drop_append_of_le_length hle] at hx
    rcases mem_append.mp hx with hx | hx
    · exact ho.after x hx
    · rw [mem_singleton.mp hx]; exact ho.next
  · exact mem_append_left _ (ho.homed hlt b hb)

theorem Whole.ended (hk : Kept (s, g)) (hi : Inv m s.core) (hp : s.core.phase p = .inOp U) :
    Whole s.core.log.blocks g ⟨U, g.began p, g.homed.length, g.commits⟩ := by
  have hb : g.began p = g.homed.length := hk.quiet p U hp
  refine ⟨hb, le_rfl, fun x hx => ?_, fun x hx => ?_, fun _ => (hi.logged p U hp).2, fun hlt => ?_⟩
  · exact hk.earlier hi hp x (mem_of_mem_take hx)
  · rw [drop_length] at hx; cases hx
  · exact absurd hlt (Nat.lt_irrefl _)

theorem Kept.endOp (hk : Kept (s, g)) (hi : Inv m s.core) {ph : Phase}
    (hp : s.core.phase p = .inOp U) (hphase : s'.core.phase = update s.core.phase p ph)
    (hph : ∀ V, ph ≠ .inOp V) (hblocks : s'.core.log.blocks = s.core.log.blocks)
    (htail : s'.tail = update s.tail p 0) : Kept (s', note s (.log (.endOp p)) g) := by
  have hnote : note s (.log (.endOp p)) g =
      { g with ended := ⟨U, g.began p, g.homed.length, g.commits⟩ :: g.ended } := by
    simp [note, hp]
  have hold := hk.earlier hi hp
  rw [hnote]
  refine ⟨hk.numbers, fun y hy he => absurd he (hold y hy).ne, fun q V hq => ?_,
    fun q hq b hb => ?_, fun o ho => ?_⟩
  · rw [hphase] at hq
    rcases phase_update hq with ⟨-, hq⟩ | ⟨-, hq⟩
    · exact absurd hq (hph V)
    · exact hk.quiet q V hq
  · rw [hphase] at hq
    rcases phase_update hq with ⟨rfl, -⟩ | ⟨-, hq⟩
    · -- the loop of `install_trans` has not started
      rw [htail, update_self] at hb; cases hb
    · exact absurd hp (hi.no_op (by rw [hq, com_commit]))
  · rw [hblocks]
    rcases mem_cons.mp ho with rfl | ho
    · exact ⟨(Whole.ended hk hi hp).mono (fun _ => id) rfl rfl, le_rfl⟩
    · exact ⟨(hk.ops o ho).1.mono (fun _ => id) rfl rfl, (hk.ops o ho).2⟩

omit [Fintype P] in
theorem Kept.rephase (hk : Kept (s, g)) {ph : Phase} {g' : Past P} (hp : s.core.phase p ≠ .commit)
    (hph : ph ≠ .commit) (hphase : s'.core.phase = update s.core.phase p ph)
    (hblocks : s'.core.log.blocks = s.core.log.blocks) (htail : s'.tail = s.tail)
    (hc : g'.commits = g.commits) (hh : g'.homed = g.homed) (he : g'.ended = g.ended)
    (hquiet : ∀ q U, s'.core.phase q = .inOp U → g'.began q = g'.homed.length) : Kept (s', g') := by
  refine ⟨fun y hy => ?_, fun y hy hy' => ?_, hquiet, fun q hq => ?_, fun o ho => ?_⟩
  · rw [hh] at hy; rw [hc]; exact hk.numbers y hy
  · rw [hh] at hy
    rw [hc] at hy'
    obtain ⟨q, hq⟩ := hk.current y hy hy'
    have hne : q ≠ p := by rintro rfl; exact hp hq
    refine ⟨q, ?_⟩
    rw [hphase, update_of_ne hne]; exact hq
  · rw [hphase] at hq
    rw [hblocks, htail, hc, hh]
    rcases phase_update hq with ⟨-, hq⟩ | ⟨-, hq⟩
    · exact absurd hq hph
    · exact hk.passed q hq
  · rw [he] at ho
    rw [hblocks, hh]
    exact ⟨(hk.ops o ho).1.mono (fun _ => id) hc hh, (hk.ops o ho).2⟩

theorem Kept.step (hk : Kept (s, g)) (hi : Inv m s.core) {e : Ev P} (h : exec m s e = some s') :
    Kept (s', note s e g) := by
  cases e with
  | install p =>
    obtain ⟨hp, ht, rfl⟩ := exec_install h
    have hcom : (s.core.phase p).com = 1 := by rw [hp, com_commit]
    have hnote : note s (.install p) g =
        { g with homed := g.homed ++ [(g.commits, s.core.log.blocks[s.tail p])] } := by
      simp [note]
    rw [hnote]
    refine ⟨fun y hy => ?_, fun _ _ _ => ⟨p, hp⟩, fun q U hq => absurd hq (hi.no_op hcom),
      fun q hq b hb => ?_, fun o ho => ?_⟩
    · rcases mem_append.mp hy with hy | hy
      · exact hk.numbers y hy
      · rw [mem_singleton.mp hy]
    · obtain rfl : q = p := hi.one_committer hcom (by rw [hq, com_commit])
      dsimp only at hb
      rw [update_self, take_succ_eq_append_getElem ht] at hb
      rcases mem_append.mp hb with hb | hb
      · exact mem_append_left _ (hk.passed q hp b hb)
      · rw [mem_singleton.mp hb]
        exact mem_append_right _ (mem_singleton_self _)
    · obtain ⟨hw, hle⟩ := hk.ops o ho
      refine ⟨hw.install hle _, hle.trans ?_⟩
      dsimp only
      rw [length_append]; omega
  | log e =>
    have htail := exec_tail h
    have hcore := exec_core h
    generalize hs : s'.core = core at hcore
    obtain @⟨p, hp, hc, -⟩ | @⟨p, b, U, hp, -⟩ | @⟨p, U, hp, hc, -⟩ | @⟨p, U, hp, hc, -⟩ | @⟨p, hp⟩ | @⟨p, hp⟩ :=
      exec_cases hcore
    · -- `begin_op`
      have ht : s'.tail = s.tail := by simpa using htail
      refine hk.rephase (by simp [hp]) (by simp) (congrArg (·.phase) hs) (by rw [hs]) ht rfl rfl rfl
        fun q U hq => ?_
      show update g.began p g.homed.length q = g.homed.length
      rw [hs] at hq
      rcases phase_update hq with ⟨rfl, -⟩ | ⟨hne, hq⟩
      · rw [update_self]
      · rw [update_of_ne hne]; exact hk.quiet q U hq
    · -- `log_write`
      have hold := hk.earlier hi hp
      refine ⟨hk.numbers, fun y hy he => absurd he (hold y hy).ne, fun q V hq => ?_,
        fun q hq => ?_, fun o ho => ?_⟩
      · rw [hs] at hq
        rcases phase_update hq with ⟨rfl, -⟩ | ⟨-, hq⟩
        · exact hk.quiet q U hp
        · exact hk.quiet q V hq
      · rw [hs] at hq
        rcases phase_update hq with ⟨-, hq⟩ | ⟨-, hq⟩
        · cases hq
        · exact absurd hp (hi.no_op (by rw [hq, com_commit]))
      · rw [hs]
        refine ⟨(hk.ops o ho).1.mono (fun x hx => ?_) rfl rfl, (hk.ops o ho).2⟩
        split_ifs
        · exact hx
        · exact mem_append_left _ hx
    · exact hk.endOp hi hp (congrArg (·.phase) hs) (by simp) (by rw [hs]) (by simpa using htail)
    · exact hk.endOp hi hp (congrArg (·.phase) hs) (by simp) (by rw [hs]) (by simpa using htail)
    · -- `log.lh.n = 0`
      have ht : s.core.log.blocks.length ≤ s.tail p := by
        have h2 : s.core.log.blocks.length ≤ s.tail p ∧ s'.tail = s.tail := by simpa using htail
        exact h2.1
      have hcom : (s.core.phase p).com = 1 := by rw [hp, com_commit]
      refine ⟨fun y hy => Nat.le_succ_of_le (hk.numbers y hy), fun y hy he => ?_, fun q U hq => ?_,
        fun q hq => ?_, fun o ho => ?_⟩
      · have hle := hk.numbers y hy; dsimp only [note] at he hle; omega
      · rw [hs] at hq
        rcases phase_update hq with ⟨-, hq⟩ | ⟨-, hq⟩
        · cases hq
        · exact absurd hq (hi.no_op hcom)
      · rw [hs] at hq
        rcases phase_update hq with ⟨-, hq⟩ | ⟨hne, hq⟩
        · cases hq
        · exact absurd (hi.one_committer hcom (by rw [hq, com_commit])) hne
      · rw [hs]; exact ⟨(hk.ops o ho).1.clear hk hp ht, (hk.ops o ho).2⟩
    · -- `log.committing = 0`
      have ht : s'.tail = s.tail := by simpa using htail
      refine hk.rephase (by simp [hp]) (by simp) (congrArg (·.phase) hs) (by rw [hs]) ht rfl rfl rfl
        fun q U hq => ?_
      rw [hs] at hq
      rcases phase_update hq with ⟨-, hq⟩ | ⟨-, hq⟩
      · cases hq
      · exact hk.quiet q U hq

theorem run_kept {h : List ((State P × Past P) × Ev P)} {x : State P × Past P}
    (hr : Run (sys P m) h x) : Inv m x.1.core ∧ Kept x := by
  refine hr.inv (I := fun x => Inv m x.1.core ∧ Kept x) ?_ ?_
  · rintro ⟨s, g⟩ ⟨h0, hg⟩
    have h0 : s = start P := h0
    have hg : g = ⟨0, [], fun _ => 0, []⟩ := hg
    rw [h0, hg]
    refine ⟨GroupCommit.Inv.start m, ⟨?_, ?_, fun p U hp => ?_, fun p hp => ?_, ?_⟩⟩
    · simp
    · simp
    · cases hp
    · cases hp
    · simp
  · rintro ⟨s, g⟩ e ⟨s', g'⟩ ⟨hi, hk⟩ ⟨hs, hg⟩
    have hg : g' = note s e g := hg
    rw [hg]
    refine ⟨?_, hk.step hi hs⟩
    cases e with
    | log e => exact hi.exec (exec_core hs)
    | install p =>
      obtain ⟨-, -, rfl⟩ := exec_install hs; exact hi

theorem endOp_isOk {s : GroupCommit.State P} (hi : Inv m s)
    (hp : s.phase p = .inOp U) : ∃ r, endOp s.log = .ok r := by
  have hpos := hi.outstanding_pos hp
  have hc : ¬ s.log.committing = true := by
    intro hc
    have h0 := hi.alone hc; omega
  unfold endOp
  rw [if_neg hc]
  split_ifs
  · exact ⟨_, rfl⟩
  · exact ⟨_, rfl⟩

theorem logWrite_inside {s : GroupCommit.State P} (hi : Inv m s)
    (hp : s.phase p = .inOp U) (b : Word) : logWrite s.log b ≠ .error .outsideTrans := by
  have hpos := hi.outstanding_pos hp
  unfold logWrite
  by_cases hbig : LOGSIZE ≤ s.log.blocks.length ∨ s.log.size - 1 ≤ s.log.blocks.length
  · rw [if_pos hbig]; exact fun h => by cases h
  · rw [if_neg hbig, if_neg (by omega)]; exact fun h => by cases h

/-- **Operations are committed whole.**  In every run of any processes with operations of any size:
while `log.committing` is set, `log.outstanding` is zero; in an operation neither `end_op` nor
`log_write` can find the log in another state than the code expects; nothing goes home during an
operation; and of an operation that has ended, all the blocks are in the log until the commit that
comes next after its `end_op` is over, and that one commit has then written all of them home.  Before
the operation only earlier commits have written, and after it only that one and later ones. -/
theorem op_whole (P : Type) [DecidableEq P] [Fintype P] (m : ℕ)
    (h : List ((State P × Past P) × Ev P)) (s : State P) (g : Past P) (hr : Run (sys P m) h (s, g)) :
    (s.core.log.committing = true → s.core.log.outstanding = 0) ∧ (∀ p U, s.core.phase p = .inOp U →
      (∃ r, endOp s.core.log = .ok r) ∧ (∀ b, logWrite s.core.log b ≠ .error .outsideTrans) ∧
      g.began p = g.homed.length ∧ ∀ b ∈ U, b ∈ s.core.log.blocks) ∧ ∀ o ∈ g.ended, o.began = o.ended ∧
      (∀ x ∈ g.homed.take o.began, x.1 < o.commit) ∧ (∀ x ∈ g.homed.drop o.ended, o.commit ≤ x.1) ∧
      ((o.commit = g.commits ∧ ∀ b ∈ o.logged, b ∈ s.core.log.blocks) ∨
       (o.commit < g.commits ∧ ∀ b ∈ o.logged, (o.commit, b) ∈ g.homed)) := by
  obtain ⟨hi, hk⟩ := run_kept hr
  refine ⟨hi.alone, fun p U hp => ?_, fun o ho => ?_⟩
  · exact ⟨endOp_isOk hi hp, logWrite_inside hi hp, hk.quiet p U hp, (hi.logged p U hp).2⟩
  · obtain ⟨hw, -⟩ := hk.ops o ho
    refine ⟨hw.quiet, hw.before, hw.after, ?_⟩
    rcases Nat.lt_or_eq_of_le hw.next with hlt | he
    · exact .inr ⟨hlt, hw.homed hlt⟩
    · exact .inl ⟨he, hw.pending he⟩

/-- Two operations log a block each, the second one ends while the first is in progress, and the commit
of the first writes both blocks home. -/
theorem op_whole_two : ∃ s : State (Fin 2), ∃ g : Past (Fin 2),
    g.ended.map (fun o => (o.logged, o.commit)) = [({5}, 0), ({6}, 0)] ∧ g.homed = [(0, 5), (0, 6)] ∧
    ∀ o ∈ g.ended, o.began = o.ended ∧
      (∀ x ∈ g.homed.take o.began, x.1 < o.commit) ∧ (∀ x ∈ g.homed.drop o.ended, o.commit ≤ x.1) ∧
      ((o.commit = g.commits ∧ ∀ b ∈ o.logged, b ∈ s.core.log.blocks) ∨
       (o.commit < g.commits ∧ ∀ b ∈ o.logged, (o.commit, b) ∈ g.homed)) := by
  obtain ⟨⟨s, g⟩, hr, -, ht⟩ := exists_run_hist (f := exec 1)
    (T := ⟨(· = start (Fin 2)), fun s e s' => exec 1 s e = some s'⟩) (fun _ _ _ h => h) rfl
    (⟨0, [], fun _ => 0, []⟩ : Past (Fin 2)) (fun s e _ => note s e)
    [.log (.beginOp 0), .log (.logWrite 0 5), .log (.beginOp 1), .log (.logWrite 1 6),
      .log (.endOp 1), .log (.endOp 0), .install 0, .install 0, .log (.commit 0), .log (.endCommit 0)]
    (fun x => x.2.ended.map (fun o => (o.logged, o.commit)) = [({5}, 0), ({6}, 0)] ∧
      x.2.homed = [(0, 5), (0, 6)]) (by decide +kernel)
  obtain ⟨h1, h2⟩ := of_decide_eq_true ht
  exact ⟨s, g, h1, h2, (op_whole (Fin 2) 1 _ s g hr).2.2⟩

end Xv6.Fs.WholeOps
