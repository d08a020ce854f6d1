import Mathlib.Data.List.Infix
import Mathlib.Data.List.TakeWhile
import Xv6.Vm.Copy

/-!
# grep

The matcher of `user/grep.c`, and its loop over the lines of its input.  A string is the list of its characters
before the 0, and a pointer into it the list of those that are left.

`read` returns as much as it likes, but at least a character and at most what it is asked for, if it is asked for
one and there is one.  `buf` has 1024 bytes: with 1023 in it and no newline, `grep` asks for none and takes the
answer for the end of the file.
-/

namespace Xv6.User.Grep

open Vm.Copy List

/-- A character of a string. -/
abbrev Ch := { c : Byte // c ≠ 0 }

def star : Ch := ⟨42, by decide⟩
def dot : Ch := ⟨46, by decide⟩
def caret : Ch := ⟨94, by decide⟩
def dollar : Ch := ⟨36, by decide⟩
def nl : Ch := ⟨10, by decide⟩

/-! ## The matcher -/

/-- The test of a character of the pattern against one of the text. -/
def fits (c t : Ch) : Bool := c = dot || c = t

/-- `matchstar`, where `here` is `matchhere` with the rest of the pattern. -/
def matchstar (here : List Ch → Bool) (c : Ch) : List Ch → Bool
  | [] => here []
  | t :: text => here (t :: text) || fits c t && matchstar here c text

def matchhere : List Ch → List Ch → Bool
  | [], _ => true
  | [c], text =>
    if c = dollar then text.isEmpty
    else
      match text with
      | [] => false
      | t :: _ => fits c t
  | c :: d :: re, text =>
    if d = star then matchstar (fun text => matchhere re text) c text
    else
      match text with
      | [] => false
      | t :: text => fits c t && matchhere (d :: re) text

/-- The loop of `match`. -/
def matchFrom (re : List Ch) : List Ch → Bool
  | [] => matchhere re []
  | t :: text => matchhere re (t :: text) || matchFrom re text

/-- `match`. -/
def grepMatch (re text : List Ch) : Bool :=
  match re with
  | [] => matchFrom [] text
  | c :: re => if c = caret then matchhere re text else matchFrom (c :: re) text

/-- A pattern matches at the beginning of a text. -/
inductive Here : List Ch → List Ch → Prop
  | nil (text) : Here [] text
  | star {c re run text} (hrun : ∀ t ∈ run, c = dot ∨ c = t) (h : Here re text) : Here (c :: star :: re) (run ++ text)
  | dollar : Here [Grep.dollar] []
  | one {c re t text} (hstar : re.head? ≠ some Grep.star) (hend : ¬ (c = dollar ∧ re = []))
    (hc : c = dot ∨ c = t) (h : Here re text) : Here (c :: re) (t :: text)

/-- A pattern matches in a text: at its beginning if it is anchored there, or else anywhere. -/
def Matches (re text : List Ch) : Prop :=
  (∃ re', re = caret :: re' ∧ Here re' text) ∨
    re.head? ≠ some caret ∧ ∃ part, part <:+ text ∧ Here re part

variable {c d t : Ch} {re text : List Ch}

theorem fits_iff : fits c t = true ↔ c = dot ∨ c = t := by
  simp [fits]

theorem matchstar_iff {here : List Ch → Bool} : matchstar here c text = true ↔
    ∃ run rest, text = run ++ rest ∧ (∀ t ∈ run, c = dot ∨ c = t) ∧ here rest = true := by
  induction text with
  | nil =>
    constructor
    · intro h; exact ⟨[], [], rfl, by simp, h⟩
    · rintro ⟨run, rest, hr, -, h⟩
      obtain ⟨-, rfl⟩ := append_eq_nil_iff.mp hr.symm; exact h
  | cons t text ih =>
    unfold matchstar
    rw [Bool.or_eq_true, Bool.and_eq_true, fits_iff, ih]
    constructor
    · rintro (h | ⟨hc, run, rest, rfl, hrun, h⟩)
      · exact ⟨[], t :: text, rfl, by simp, h⟩
      · exact ⟨t :: run, rest, rfl, forall_mem_cons.mpr ⟨hc, hrun⟩, h⟩
    · rintro ⟨run, rest, hr, hrun, h⟩
      cases run with
      | nil => obtain rfl : t :: text = rest := hr; exact .inl h
      | cons u run =>
        obtain ⟨rfl, rfl⟩ := cons.inj hr
        exact .inr ⟨hrun _ mem_cons_self, run, rest, rfl, fun x hx => hrun x (mem_cons_of_mem _ hx), h⟩

theorem here_star_iff : Here (c :: star :: re) text ↔
    ∃ run rest, text = run ++ rest ∧ (∀ t ∈ run, c = dot ∨ c = t) ∧ Here re rest := by
  constructor
  · intro h
    cases h with
    | star hrun h => exact ⟨_, _, rfl, hrun, h⟩
    | one hstar => exact absurd rfl hstar
  · rintro ⟨run, rest, rfl, hrun, h⟩; exact .star hrun h

theorem here_one_iff (hstar : re.head? ≠ some star) (hend : ¬ (c = dollar ∧ re = [])) :
    Here (c :: re) text ↔ ∃ t rest, text = t :: rest ∧ (c = dot ∨ c = t) ∧ Here re rest := by
  constructor
  · intro h
    cases h with
    | star => exact absurd rfl hstar
    | dollar => exact absurd ⟨rfl, rfl⟩ hend
    | one _ _ hc h => exact ⟨_, _, rfl, hc, h⟩
  · rintro ⟨t, rest, rfl, hc, h⟩; exact .one hstar hend hc h

theorem here_dollar_iff : Here [dollar] text ↔ text = [] := by
  constructor
  · intro h
    cases h with
    | dollar => rfl
    | one _ hend => exact absurd ⟨rfl, rfl⟩ hend
  · rintro rfl; exact .dollar

theorem matchhere_iff : matchhere re text = true ↔ Here re text := by
  induction re, text using matchhere.induct with
  | case1 text => exact ⟨fun _ => .nil text, fun _ => rfl⟩
  | case2 text =>
    unfold matchhere
    rw [here_dollar_iff, if_pos rfl, List.isEmpty_iff]
  | case3 c hc => rw [here_one_iff (by simp) (by simp [hc]), matchhere, if_neg hc]; simp
  | case4 c hc t text =>
    rw [here_one_iff (by simp) (by simp [hc]), matchhere, if_neg hc, fits_iff]
    constructor
    · intro h; exact ⟨t, text, rfl, h, .nil text⟩
    · rintro ⟨_, _, h, hfit, -⟩
      obtain ⟨rfl, rfl⟩ := List.cons.inj h; exact hfit
  | case5 text c re ih =>
    unfold matchhere
    rw [here_star_iff, if_pos rfl, matchstar_iff]; simp only [ih]
  | case6 c d re hd =>
    rw [here_one_iff (by simpa using hd) (by simp), matchhere, if_neg hd]; simp
  | case7 c d re hd t text ih =>
    rw [here_one_iff (by simpa using hd) (by simp), matchhere, if_neg hd, Bool.and_eq_true, fits_iff, ih]
    constructor
    · intro h; exact ⟨t, text, rfl, h⟩
    · rintro ⟨_, _, h, hfit⟩; obtain ⟨rfl, rfl⟩ := List.cons.inj h; exact hfit

theorem matchFrom_iff : matchFrom re text = true ↔ ∃ part, part <:+ text ∧ Here re part := by
  induction text with
  | nil =>
    unfold matchFrom
    rw [matchhere_iff]; simp [suffix_nil]
  | cons t text ih =>
    unfold matchFrom
    rw [Bool.or_eq_true, matchhere_iff, ih]
    simp only [suffix_cons_iff, or_and_right, exists_or, exists_eq_left]

/-- **The matcher decides its regular expressions.** -/
theorem grepMatch_iff (re text : List Ch) : grepMatch re text = true ↔ Matches re text := by
  unfold Matches
  cases re with
  | nil =>
    have hno : ¬ ∃ re', ([] : List Ch) = caret :: re' ∧ Here re' text := by simp
    show matchFrom [] text = true ↔ _
    rw [matchFrom_iff, or_iff_right hno]; exact (and_iff_right (by simp)).symm
  | cons c re =>
    by_cases hc : c = caret
    · subst hc; rw [grepMatch, if_pos rfl, matchhere_iff]; simp
    · rw [grepMatch, if_neg hc, matchFrom_iff]; simp [hc]

/-- `$*` is any number of dollars, and a star after `^` or at the beginning is a star. -/
example : grepMatch [dollar, star, dollar] [dollar, dollar] ∧ grepMatch [caret, star] [star, nl] ∧
    ¬ grepMatch [star, nl] [nl] := by decide

/-! ## Lines -/

def BUFSIZE : ℕ := 1024

/-- The loop over the lines in `buf`, where `strchr` has gone through `line` since `p`: what is written, and what
is left from `p` on. -/
def bufLines (pattern : List Ch) : List Ch → List Ch → List Ch × List Ch
  | line, [] => ([], line)
  | line, c :: rest =>
    if c = nl then
      let r := bufLines pattern [] rest
      ((if grepMatch pattern line then line ++ [nl] else []) ++ r.1, r.2)
    else bufLines pattern (line ++ [c]) rest

/-- `read` of `n` characters at most: `want` more than one, if it can. -/
def read (want n : ℕ) (input : List Ch) : List Ch × List Ch := input.splitAt (min n (want + 1))

/-- The loop of `grep`, with a bound on its rounds; `want` says what `read` returns in each round. -/
def grepLoop (pattern : List Ch) (want : ℕ → ℕ) : ℕ → List Ch → List Ch → List Ch
  | 0, _, _ => []
  | rounds + 1, buf, input =>
    let r := read (want rounds) (BUFSIZE - buf.length - 1) input
    if r.1 = [] then []
    else
      let l := bufLines pattern [] (buf ++ r.1)
      l.1 ++ grepLoop pattern want rounds l.2 r.2

/-- `grep`: what it writes.  Every round but the last reads a character at least. -/
def grep (pattern : List Ch) (want : ℕ → ℕ) (input : List Ch) : List Ch :=
  grepLoop pattern want (input.length + 1) [] input

/-- The text with these lines. -/
def unlines (lines : List (List Ch)) : List Ch := (lines.map (· ++ [nl])).flatten

/-- A line that fits in `buf` with its newline. -/
def short (line : List Ch) : Bool := line.length < BUFSIZE - 1

variable {pattern line buf input : List Ch} {lines : List (List Ch)}

@[simp] theorem unlines_cons : unlines (line :: lines) = line ++ nl :: unlines lines := by
  simp [unlines]

@[simp] theorem unlines_append (l l' : List (List Ch)) : unlines (l ++ l') = unlines l ++ unlines l' := by
  simp [unlines]

theorem unlines_eq_nil : unlines lines = [] ↔ lines = [] := by
  cases lines with
  | nil => simp [unlines]
  | cons => simp

/-- The first line, if a beginning without a newline is known. -/
theorem unlines_split (hbuf : nl ∉ buf) (hl : ∀ l ∈ lines, nl ∉ l) (h : buf ++ input = unlines lines) :
    (buf = [] ∧ input = [] ∧ lines = []) ∨
      ∃ more ls, lines = (buf ++ more) :: ls ∧ input = more ++ nl :: unlines ls := by
  cases lines with
  | nil =>
    obtain ⟨rfl, rfl⟩ := append_eq_nil_iff.mp h; exact .inl ⟨rfl, rfl, rfl⟩
  | cons line ls =>
    rw [unlines_cons] at h
    right
    rcases append_eq_append_iff.mp h with ⟨more, hline, hrest⟩ | ⟨more, hbuf', hrest⟩
    · exact ⟨more, ls, by rw [hline], hrest⟩
    · cases more with
      | nil =>
        rw [append_nil] at hbuf'
        exact ⟨[], ls, by rw [hbuf', append_nil], hrest.symm⟩
      | cons c more =>
        obtain ⟨rfl, -⟩ := cons.inj hrest; exact absurd (hbuf' ▸ by simp) hbuf

/-- One pass over `buf`: the lines that are complete are written, if they match. -/
theorem bufLines_spec (pattern : List Ch) {rest : List Ch} (hline : nl ∉ line) (hl : ∀ l ∈ lines, nl ∉ l)
    (h : line ++ (rest ++ input) = unlines lines) :
    ∃ done todo, lines = done ++ todo ∧ (∀ l ∈ done, l.length < line.length + rest.length) ∧
      (bufLines pattern line rest).1 = unlines (done.filter (grepMatch pattern ·)) ∧
      (bufLines pattern line rest).2 ++ input = unlines todo ∧ nl ∉ (bufLines pattern line rest).2 ∧
      (bufLines pattern line rest).2.length ≤ line.length + rest.length := by
  induction rest generalizing line lines with
  | nil => exact ⟨[], lines, rfl, by simp, by simp [bufLines, unlines], h, hline, by simp [bufLines]⟩
  | cons c rest ih =>
    unfold bufLines
    by_cases hc : c = nl
    · subst hc
      rw [if_pos rfl]
      obtain ⟨-, hno, -⟩ | ⟨more, ls, rfl, hinput⟩ := unlines_split hline hl h
      · cases hno
      -- nothing comes before this newline
      have hmore : more = [] := by
        cases more with
        | nil => rfl
        | cons d more =>
          obtain ⟨rfl, -⟩ := cons.inj hinput
          exact absurd (by simp) (hl _ mem_cons_self)
      subst hmore
      have hrest : [] ++ (rest ++ input) = unlines ls := (cons.inj hinput).2
      obtain ⟨done, todo, rfl, hlen, hout, htodo, hnl, hleft⟩ :=
        ih not_mem_nil (fun l hm => hl l (mem_cons_of_mem _ hm)) hrest
      rw [append_nil] at hl ⊢
      refine ⟨line :: done, todo, rfl, ?_, ?_, htodo, hnl, ?_⟩
      · refine forall_mem_cons.mpr ⟨by simp, fun l hm => ?_⟩
        have := hlen l hm; simp at this ⊢; omega
      · dsimp only
        rw [hout, filter_cons]
        split_ifs <;> simp
      · simp at hleft ⊢; omega
    · rw [if_neg hc]
      have hline' : nl ∉ line ++ [c] := by simpa [hline] using fun h => hc h.symm
      obtain ⟨done, todo, hd, hlen, hout, htodo, hnl, hleft⟩ := ih hline' hl (by simpa using h)
      have hsum : (line ++ [c]).length + rest.length = line.length + (c :: rest).length := by
        simp; omega
      rw [hsum] at hlen hleft
      exact ⟨done, todo, hd, hlen, hout, htodo, hnl, hleft⟩

theorem grepLoop_eq {want : ℕ → ℕ} {rounds : ℕ} (hr : input.length < rounds) (hb : buf.length < BUFSIZE)
    (hbuf : nl ∉ buf) (hl : ∀ l ∈ lines, nl ∉ l) (h : buf ++ input = unlines lines) :
    grepLoop pattern want rounds buf input = unlines ((lines.takeWhile short).filter (grepMatch pattern ·)) := by
  induction rounds generalizing buf input lines with
  | zero => omega
  | succ rounds ih =>
    unfold grepLoop read
    rw [splitAt_eq]
    dsimp only
    set n := min (BUFSIZE - buf.length - 1) (want rounds + 1)
    by_cases hp : input.take n = []
    · rw [if_pos hp]
      -- the end of the file, or a full buffer that begins the next line
      obtain ⟨-, -, rfl⟩ | ⟨more, ls, rfl, rfl⟩ := unlines_split hbuf hl h
      · rfl
      · have hlong : ¬ short (buf ++ more) := by
          rcases take_eq_nil_iff.mp hp with h0 | h0
          · unfold short; rw [decide_eq_true_iff, length_append]; omega
          · simp at h0
        rw [takeWhile_cons_of_neg hlong]; rfl
    · rw [if_neg hp]
      have hn0 : 0 < n ∧ input ≠ [] := by
        refine ⟨Nat.pos_of_ne_zero fun h0 => hp (by rw [h0, take_zero]), fun h0 => hp (by rw [h0, take_nil])⟩
      have hlen : (buf ++ input.take n).length < BUFSIZE := by
        rw [length_append, length_take]; omega
      have hinput : input.length ≠ 0 := fun h0 => hn0.2 (length_eq_zero_iff.mp h0)
      have htext : [] ++ ((buf ++ input.take n) ++ input.drop n) = unlines lines := by
        rw [nil_append, append_assoc, take_append_drop, h]
      obtain ⟨done, todo, rfl, hdone, hout, htodo, hnl, hleft⟩ :=
        bufLines_spec pattern not_mem_nil hl htext
      rw [length_nil, Nat.zero_add] at hdone hleft
      have hshort : ∀ l ∈ done, short l := fun l hm =>
        decide_eq_true (show l.length < BUFSIZE - 1 by have := hdone l hm; omega)
      rw [hout, ih (by rw [length_drop]; omega) (by omega) hnl (fun l hm => hl l (by simp [hm])) htodo,
        takeWhile_append_of_pos hshort, filter_append, unlines_append]

theorem grep_eq (want : ℕ → ℕ) (hl : ∀ l ∈ lines, nl ∉ l) : grep pattern want (unlines lines) =
    unlines ((lines.takeWhile short).filter (grepMatch pattern ·)) :=
  grepLoop_eq (Nat.lt_succ_self _) (by decide) (by simp) hl rfl

/-- **`grep` prints the matching lines**, however its input is cut, up to the first line that does not fit in
`buf`; so it prints exactly those if no line from there on matches. -/
theorem grep_prints_iff (pattern : List Ch) (want : ℕ → ℕ) (lines : List (List Ch)) (hl : ∀ l ∈ lines, nl ∉ l) :
    grep pattern want (unlines lines) = unlines (lines.filter (grepMatch pattern ·)) ↔
      ∀ l ∈ lines.dropWhile short, grepMatch pattern l = false := by
  have hsplit : unlines (lines.filter (grepMatch pattern ·)) =
      unlines ((lines.takeWhile short).filter (grepMatch pattern ·)) ++
        unlines ((lines.dropWhile short).filter (grepMatch pattern ·)) := by
    rw [← unlines_append, ← filter_append, takeWhile_append_dropWhile]
  rw [grep_eq want hl, hsplit, self_eq_append_right, unlines_eq_nil, filter_eq_nil_iff]
  simp

theorem grep_prints_iff_two : grep [star] id (unlines [[star], [dot]]) = unlines [[star]] :=
  (grep_prints_iff [star] id [[star], [dot]] (by decide)).mpr (by decide)

/-- A line that matches is lost after one of 1023 characters. -/
theorem grep_loses_line : grepMatch [star] [star] = true ∧
    grep [star] id (unlines [replicate 1023 dot, [star]]) = [] := by
  refine ⟨by decide, ?_⟩
  have hl : ∀ l ∈ [replicate 1023 dot, [star]], nl ∉ l := by
    simp only [mem_cons, not_mem_nil, or_false, forall_eq_or_imp, forall_eq, mem_replicate]
    decide
  have hlong : ¬ short (replicate 1023 dot) := by unfold short; rw [length_replicate]; decide
  rw [grep_eq id hl, takeWhile_cons_of_neg hlong]; rfl

end Xv6.User.Grep
