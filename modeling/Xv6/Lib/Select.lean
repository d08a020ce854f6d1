import Mathlib.Data.List.Induction
import Mathlib.Data.List.Nodup
import Mathlib.Order.Lattice
import Mathlib.Tactic.Common

/-!
# Selection in one pass

A loop over a list keeps a candidate: an element that passes `ok` becomes the candidate if there is
none yet, or if it beats the one there is.  Nothing is assumed of `beats`.

`select_eq_some_iff` says what comes out for any test.  If `beats` compares keys in a linear order, this is the
first element of least key (`select_eq_some_iff_first`; in general, `select_first_iff`).
-/

namespace Xv6.Lib.Select

open List

variable {α κ : Type*} {ok : α → Prop} {beats : α → α → Bool}

def step (ok : α → Prop) [DecidablePred ok] (beats : α → α → Bool) (c : Option α) (x : α) : Option α :=
  if ok x ∧ c.all (beats x) = true then some x else c

def select (ok : α → Prop) [DecidablePred ok] (beats : α → α → Bool) (l : List α) : Option α :=
  l.foldl (step ok beats) none

section Pass
variable [DecidablePred ok] {l : List α} {c : Option α} {w : α}

theorem step_eq_some {x w : α} : step ok beats c x = some w ↔
      (x = w ∧ ok w ∧ c.all (beats w) = true) ∨ (c = some w ∧ (ok x → beats x w = false)) := by
  unfold step
  split_ifs with h
  · constructor
    · intro hw; cases hw; exact .inl ⟨rfl, h⟩
    · rintro (⟨rfl, -⟩ | ⟨rfl, hx⟩)
      · rfl
      · exact absurd (hx h.1) (by simpa using h.2)
  · constructor
    · rintro rfl
      refine .inr ⟨rfl, fun hx => ?_⟩
      by_contra hb; exact h ⟨hx, by simpa using hb⟩
    · rintro (⟨rfl, hw⟩ | ⟨rfl, -⟩)
      · exact absurd hw h
      · rfl

theorem step_eq_none {x : α} : step ok beats c x = none ↔ c = none ∧ ¬ ok x := by
  unfold step
  split_ifs with h
  · simp [h.1]
  · refine ⟨fun hc => ⟨hc, fun hx => h ⟨hx, by simp [hc]⟩⟩, fun hc => hc.1⟩

theorem select_concat (l : List α) (x : α) : select ok beats (l ++ [x]) = step ok beats (select ok beats l) x := by
  simp [select]

theorem select_eq_none : select ok beats l = none ↔ ∀ x ∈ l, ¬ ok x := by
  induction l using List.reverseRecOn with
  | nil => simp [select]
  | append_singleton l x ih =>
    rw [select_concat, step_eq_none, ih]; simp [or_imp, forall_and]

theorem select_eq_some_iff : select ok beats l = some w ↔ ∃ l1 l2, l = l1 ++ w :: l2 ∧ ok w ∧
      (∀ c, select ok beats l1 = some c → beats w c = true) ∧ ∀ x ∈ l2, ok x → beats x w = false := by
  induction l using List.reverseRecOn with
  | nil => simp [select]
  | append_singleton l y ih =>
    rw [select_concat, step_eq_some]
    constructor
    · rintro (⟨rfl, hw, hc⟩ | ⟨hc, hy⟩)
      · refine ⟨l, [], rfl, hw, fun c hl => ?_, by simp⟩
        simpa [hl] using hc
      · obtain ⟨l1, l2, rfl, hw, hb, ha⟩ := ih.mp hc
        refine ⟨l1, l2 ++ [y], by simp, hw, hb, fun x hx => ?_⟩
        rcases mem_append.mp hx with hx | hx
        · exact ha x hx
        · obtain rfl := mem_singleton.mp hx; exact hy
    · rintro ⟨l1, l2, hl, hw, hb, ha⟩
      rcases eq_nil_or_concat l2 with rfl | ⟨l2', z, rfl⟩
      · obtain ⟨rfl, hy⟩ := append_inj' hl rfl
        cases hy
        refine .inl ⟨rfl, hw, ?_⟩
        rcases hs : select ok beats l with _ | c
        · rfl
        · exact hb c hs
      · have hl' : l ++ [y] = (l1 ++ w :: l2') ++ [z] := by rw [hl]; simp
        obtain ⟨rfl, hy⟩ := append_inj' hl' rfl
        cases hy
        exact .inr ⟨ih.mpr ⟨l1, l2', rfl, hw, hb, fun x hx => ha x (by simp [hx])⟩, ha y (by simp)⟩

theorem mem_of_select (h : select ok beats l = some w) : w ∈ l ∧ ok w := by
  obtain ⟨l1, l2, rfl, hw, -⟩ := select_eq_some_iff.mp h; exact ⟨by simp, hw⟩

end Pass

theorem split_unique {l1 l2 m1 m2 : List α} {w : α} (hl : (l1 ++ w :: l2).Nodup)
    (h : l1 ++ w :: l2 = m1 ++ w :: m2) : l1 = m1 ∧ l2 = m2 := by
  have hn : w ∉ l1 ++ l2 := (nodup_middle.mp hl).notMem
  rw [mem_append, not_or] at hn
  obtain ⟨h1, -, h2⟩ := (append_cons_inj_of_notMem hn.1 hn.2).mp h
  exact ⟨h1, h2⟩

section Key
variable [LinearOrder κ] {key : α → κ} {l : List α} {w : α}

/-- `w` is the first element of least key among those of `l` that pass. -/
def First (ok : α → Prop) (key : α → κ) (l : List α) (w : α) : Prop :=
  ∃ l₁ l₂, l = l₁ ++ w :: l₂ ∧ ok w ∧ (∀ x ∈ l₁, ok x → key w < key x) ∧ ∀ x ∈ l₂, ok x → key w ≤ key x

theorem First.mem (h : First ok key l w) : w ∈ l ∧ ok w := by
  obtain ⟨l1, l2, rfl, hw, -⟩ := h; exact ⟨by simp, hw⟩

theorem First.le {w x : α} (h : First ok key l w) (hx : x ∈ l) (hok : ok x) : key w ≤ key x := by
  obtain ⟨l1, l2, rfl, hw, hlt, hle⟩ := h
  rcases mem_append.mp hx with hx | hx
  · exact (hlt x hx hok).le
  · rcases mem_cons.mp hx with rfl | hx
    · exact le_rfl
    · exact hle x hx hok

variable [DecidablePred ok]

def Compared (ok : α → Prop) [DecidablePred ok] (beats : α → α → Bool) (l : List α) (x c : α) : Prop :=
  ∃ l₁ l₂, l = l₁ ++ x :: l₂ ∧ ok x ∧ select ok beats l₁ = some c

/-- The first element of least key is selected if the comparisons made with it are those of the keys. -/
theorem select_of_first (h : First ok key l w)
    (hb : ∀ x c, Compared ok beats l x c → x = w ∨ c = w → (beats x c = true ↔ key x < key c)) :
    select ok beats l = some w := by
  obtain ⟨l1, l2, rfl, hw, hlt, hle⟩ := h
  -- `w` is the candidate from its own round on
  have hm : ∀ m m', l2 = m ++ m' → select ok beats (l1 ++ w :: m) = some w := by
    intro m
    induction m using List.reverseRecOn with
    | nil =>
      rintro m' rfl
      refine select_eq_some_iff.mpr ⟨l1, [], rfl, hw, fun c hc => ?_, by simp⟩
      obtain ⟨hc1, hc2⟩ := mem_of_select hc
      exact (hb w c ⟨l1, _, rfl, hw, hc⟩ (.inl rfl)).mpr (hlt c hc1 hc2)
    | append_singleton m x ih =>
      rintro m' rfl
      have hs := ih ([x] ++ m') (by simp)
      rw [← cons_append, ← append_assoc, select_concat, hs, step_eq_some]
      refine .inr ⟨rfl, fun hx => ?_⟩
      have hkey := hle x (by simp) hx
      have hcmp := hb x w ⟨l1 ++ w :: m, m', by simp, hx, hs⟩ (.inr rfl)
      rw [← Bool.not_eq_true, hcmp]; exact hkey.not_gt
  exact hm l2 [] (by simp)

theorem select_eq_some_iff_first (hb : ∀ x c, ok x → ok c → (beats x c = true ↔ key x < key c))
    : select ok beats l = some w ↔ First ok key l w := by
  have hf : ∀ {x c}, ok x → ok c → (beats x c = false ↔ key c ≤ key x) := by
    intro x c hx hc
    rw [← not_lt, ← hb x c hx hc, Bool.not_eq_true]
  constructor
  · intro h
    -- by induction on the length: the candidate of the part before `w` is least there
    induction hn : l.length using Nat.strongRecOn generalizing l w with
    | _ n ih =>
      obtain ⟨l1, l2, rfl, hw, hc, ha⟩ := select_eq_some_iff.mp h
      refine ⟨l1, l2, rfl, hw, fun x hx hok => ?_, fun x hx hok => (hf hok hw).mp (ha x hx hok)⟩
      rcases hs : select ok beats l1 with _ | c
      · exact absurd hok (select_eq_none.mp hs x hx)
      · have hwc := (hb w c hw (mem_of_select hs).2).mp (hc c hs)
        have hfc := ih l1.length (by subst hn; simp) hs rfl
        exact hwc.trans_le (hfc.le hx hok)
  · intro h
    refine select_of_first h fun x c ⟨l1, l2, _, hx, hc⟩ _ => ?_
    exact hb x c hx (mem_of_select hc).2

theorem First.unique {w w' : α} (h : First ok key l w) (h' : First ok key l w') : w = w' := by
  classical
  have hb : ∀ x c, ok x → ok c → (decide (key x < key c) = true ↔ key x < key c) := by simp
  exact Option.some.inj ((select_eq_some_iff_first hb).mpr h ▸ (select_eq_some_iff_first hb).mpr h')

theorem exists_first (h : ∃ x ∈ l, ok x) : ∃ w, First ok key l w := by
  classical
  have hb : ∀ x c, ok x → ok c → (decide (key x < key c) = true ↔ key x < key c) := by simp
  obtain ⟨x, hx, hok⟩ := h
  rcases hs : select ok (fun x c => decide (key x < key c)) l with _ | w
  · exact absurd hok (select_eq_none.mp hs x hx)
  · exact ⟨w, (select_eq_some_iff_first hb).mp hs⟩

/-- For a list without repetitions: the first element of least key is selected exactly if the
comparisons made with it come out as those of the keys. -/
theorem select_first_iff (hl : l.Nodup) (h : First ok key l w) : select ok beats l = some w ↔
      ∀ x c, Compared ok beats l x c → x = w ∨ c = w → (beats x c = true ↔ key x < key c) := by
  refine ⟨fun hs => ?_, select_of_first h⟩
  obtain ⟨l1, l2, rfl, hw, hlt, hle⟩ := h
  obtain ⟨k1, k2, hk, -, hbef, haft⟩ := select_eq_some_iff.mp hs
  obtain ⟨rfl, rfl⟩ := split_unique hl hk
  rintro x c ⟨m1, m2, hm, hx, hc⟩ (rfl | rfl)
  · obtain ⟨rfl, rfl⟩ := split_unique hl hm
    obtain ⟨hc1, hc2⟩ := mem_of_select hc
    exact iff_of_true (hbef c hc) (hlt c hc1 hc2)
  · obtain ⟨s, t, rfl⟩ := append_of_mem (mem_of_select hc).1
    have hsplit : l1 ++ c :: l2 = s ++ c :: (t ++ x :: m2) := by rw [hm]; simp
    obtain ⟨rfl, rfl⟩ := split_unique hl hsplit
    refine iff_of_false ?_ (hle x (by simp) hx).not_gt
    simp [haft x (by simp) hx]

end Key

end Xv6.Lib.Select
