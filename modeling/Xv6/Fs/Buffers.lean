import Mathlib.Data.Fintype.Card
import Xv6.Fs.LogOps
import Xv6.Lib.Ring
import Xv6.Lib.Runs

/-!
# The buffer cache

`binit`, `bget`, `brelse`, `bpin` and `bunpin` of `kernel/bio.c` on the array of buffers and the pointers that
link them, each the text under `bcache.lock`.  The head of the list is the node `none` of a ring; the two loops
of `bget` get `NBUF` rounds, which suffice (`bget_eq`).  What `bread` does with the buffer it gets is a step of
its own, under the lock of the buffer.
-/

namespace Xv6.Fs.Buffers

open Lib.Runs Lib.Ring Param List Function
open Fs.LogOps (Block)

/-! ## The functions -/

abbrev BufId := Fin NBUF

/-- `struct buf` without its lock and its pointers; `valid` is the C truth value. -/
structure Buf where
  valid : Bool
  dev : Word
  blockno : Word
  refcnt : Word
  data : Block

structure Bcache where
  buf : BufId → Buf
  links : Links BufId

def Bcache.setBuf (c : Bcache) (b : BufId) (v : Buf) : Bcache :=
  { c with buf := update c.buf b v }

@[simp] theorem setBuf_buf (c : Bcache) (b : BufId) (v : Buf) : (c.setBuf b v).buf = update c.buf b v := rfl

variable {b : BufId} {v : Buf} {c : Bcache}

theorem setBuf_cases {R : BufId → Buf → Prop} (hb : R b v)
    (ha : ∀ a, a ≠ b → R a (c.buf a)) (a : BufId) : R a ((c.setBuf b v).buf a) :=
  (forall_update_iff c.buf R).mpr ⟨hb, ha⟩ a

theorem setBuf_ne {a : BufId} (h : a ≠ b) : (c.setBuf b v).buf a = c.buf a := update_of_ne h _ _

theorem setBuf_self : (c.setBuf b v).buf b = v := update_self _ _ _

/-- `binit`.  The buffers are zero at the start, and no pointer of a buffer is read before it is
written. -/
def binit : Bcache :=
  ⟨fun _ => ⟨false, 0, 0, 0, fun _ => 0⟩,
    (List.finRange NBUF).foldl Links.pushFront ⟨fun _ => none, fun _ => none⟩⟩

def Buf.holds (v : Buf) (dev blockno : Word) : Bool := v.dev == dev && v.blockno == blockno

/-- `bget` up to its `release`; `none` is the panic `bget: no buffers`. -/
def bget (c : Bcache) (dev blockno : Word) : Option (BufId × Bcache) :=
  match seek c.links.next (fun b => (c.buf b).holds dev blockno) NBUF (c.links.next none) with
  | some b => some (b, c.setBuf b { c.buf b with refcnt := (c.buf b).refcnt + 1 })
  | none =>
    match seek c.links.prev (fun b => (c.buf b).refcnt == 0) NBUF (c.links.prev none) with
    | some b =>
      some (b, c.setBuf b { c.buf b with dev := dev, blockno := blockno, valid := false, refcnt := 1 })
    | none => none

def brelse (c : Bcache) (b : BufId) : Bcache :=
  let c := c.setBuf b { c.buf b with refcnt := (c.buf b).refcnt - 1 }
  if (c.buf b).refcnt = 0 then { c with links := (c.links.unlink b).pushFront b } else c

def bpin (c : Bcache) (b : BufId) : Bcache :=
  c.setBuf b { c.buf b with refcnt := (c.buf b).refcnt + 1 }

def bunpin (c : Bcache) (b : BufId) : Bcache :=
  c.setBuf b { c.buf b with refcnt := (c.buf b).refcnt - 1 }

def fill (c : Bcache) (b : BufId) (data : Block) : Bcache :=
  c.setBuf b { c.buf b with valid := true, data := data }

def store (c : Bcache) (b : BufId) (data : Block) : Bcache := c.setBuf b { c.buf b with data := data }

/-! ## The representation -/

/-- The buffers are linked in the order `l`, each once, and no block of a device has two of them. -/
structure Rep (c : Bcache) (l : List BufId) : Prop where
  ring : IsRing c.links l
  all : ∀ b, b ∈ l
  unique : ∀ a b, (c.buf a).dev ≠ 0 → (c.buf a).dev = (c.buf b).dev →
    (c.buf a).blockno = (c.buf b).blockno → a = b

variable {c' : Bcache} {l : List BufId} {dev blockno : Word}

theorem Rep.length (h : Rep c l) : l.length ≤ NBUF := by
  have hle := List.Nodup.length_le_card h.ring.nodup
  rwa [Fintype.card_fin] at hle

theorem holds_iff (v : Buf) (dev blockno : Word) :
    v.holds dev blockno = true ↔ v.dev = dev ∧ v.blockno = blockno := by
  unfold Buf.holds
  rw [Bool.and_eq_true, beq_iff_eq, beq_iff_eq]

theorem bget_eq (h : Rep c l) (dev blockno : Word) : bget c dev blockno =
      match l.find? fun b => (c.buf b).holds dev blockno with
      | some b => some (b, c.setBuf b { c.buf b with refcnt := (c.buf b).refcnt + 1 })
      | none =>
        (l.reverse.find? fun b => (c.buf b).refcnt == 0).map fun b => (b, c.setBuf b
          { c.buf b with dev := dev, blockno := blockno, valid := false, refcnt := 1 }) := by
  unfold bget
  rw [h.ring.seek_next _ h.length, h.ring.seek_prev _ h.length]
  cases l.find? fun b => (c.buf b).holds dev blockno with
  | some b => rfl
  | none =>
    cases l.reverse.find? fun b => (c.buf b).refcnt == 0 with
    | some b | none => rfl

/-- **What `bget` does:** it refers once more to the buffer of the block, or, if there is none, to a
buffer that nobody refers to and that now is to hold the block. -/
theorem bget_cases (h : Rep c l) (hb : bget c dev blockno = some (b, c')) :
    ((c.buf b).dev = dev ∧ (c.buf b).blockno = blockno ∧
      c' = c.setBuf b { c.buf b with refcnt := (c.buf b).refcnt + 1 }) ∨
    ((∀ a, ¬ ((c.buf a).dev = dev ∧ (c.buf a).blockno = blockno)) ∧ (c.buf b).refcnt = 0 ∧ c' = c.setBuf b
        { c.buf b with dev := dev, blockno := blockno, valid := false, refcnt := 1 }) := by
  rw [bget_eq h] at hb
  cases hf : l.find? fun b => (c.buf b).holds dev blockno with
  | some a =>
    rw [hf] at hb
    cases hb
    have hh := List.find?_some hf
    obtain ⟨h1, h2⟩ := (holds_iff _ _ _).mp hh; exact .inl ⟨h1, h2, rfl⟩
  | none =>
    rw [hf] at hb
    obtain ⟨a, ha, hab⟩ := Option.map_eq_some_iff.mp hb
    cases hab
    have hz := List.find?_some ha
    refine .inr ⟨fun x hx => ?_, by simpa using hz, rfl⟩
    have hnot := List.find?_eq_none.mp hf x (h.all x)
    exact hnot ((holds_iff _ _ _).mpr hx)

theorem Rep.binit : Rep binit (List.finRange NBUF).reverse := by
  have hnil : IsRing (⟨fun _ => none, fun _ => none⟩ : Links BufId) [] := IsRing.nil rfl rfl
  have hnd : (List.finRange NBUF ++ []).Nodup := by rw [append_nil]; exact nodup_finRange NBUF
  have hring := hnil.foldl_pushFront hnd
  rw [append_nil] at hring
  refine ⟨hring, fun b => ?_, fun a b ha => absurd rfl ha⟩
  rw [mem_reverse]; exact mem_finRange b

theorem Rep.setBuf (h : Rep c l) (hd : v.dev = (c.buf b).dev)
    (hn : v.blockno = (c.buf b).blockno) : Rep (c.setBuf b v) l := by
  have hkey := setBuf_cases (c := c) (R := fun a w => w.dev = (c.buf a).dev ∧ w.blockno = (c.buf a).blockno)
    ⟨hd, hn⟩ fun _ _ => ⟨rfl, rfl⟩
  refine ⟨h.ring, h.all, fun a a' => ?_⟩
  rw [(hkey a).1, (hkey a').1, (hkey a).2, (hkey a').2]; exact h.unique a a'

theorem Rep.recycle (h : Rep c l) (hnew : ∀ a, ¬ ((c.buf a).dev = v.dev ∧ (c.buf a).blockno = v.blockno)) :
    Rep (c.setBuf b v) l := by
  refine ⟨h.ring, h.all, fun a a' hdev hd hn => ?_⟩
  rw [setBuf_buf] at hdev hd hn
  by_cases ha : a = b
  · by_cases ha' : a' = b
    · rw [ha, ha']
    · rw [ha, update_self, update_of_ne ha'] at hd hn
      exact absurd ⟨hd.symm, hn.symm⟩ (hnew a')
  · by_cases ha' : a' = b
    · rw [ha', update_self, update_of_ne ha] at hd hn
      exact absurd ⟨hd, hn⟩ (hnew a)
    · rw [update_of_ne ha, update_of_ne ha'] at hd hn
      rw [update_of_ne ha] at hdev; exact h.unique a a' hdev hd hn

theorem Rep.bget (h : Rep c l) (hb : bget c dev blockno = some (b, c')) : Rep c' l := by
  rcases bget_cases h hb with ⟨-, -, rfl⟩ | ⟨hnew, -, rfl⟩
  · exact h.setBuf rfl rfl
  · exact h.recycle hnew

theorem brelse_buf (c : Bcache) (b : BufId) : (brelse c b).buf =
    update c.buf b { c.buf b with refcnt := (c.buf b).refcnt - 1 } := by
  unfold brelse
  dsimp only
  split_ifs
  · rfl
  · rfl

theorem Rep.brelse (h : Rep c l) (b : BufId) : ∃ l', Rep (brelse c b) l' := by
  have hset : Rep (c.setBuf b { c.buf b with refcnt := (c.buf b).refcnt - 1 }) l := h.setBuf rfl rfl
  unfold Buffers.brelse
  dsimp only
  split_ifs
  · obtain ⟨l1, l2, rfl⟩ := append_of_mem (h.all b)
    have hb : b ∉ l1 ++ l2 := (nodup_middle.mp h.ring.nodup).notMem
    refine ⟨b :: (l1 ++ l2), h.ring.unlink.pushFront hb, fun a => ?_, hset.unique⟩
    have ha := h.all a
    rw [mem_append, mem_cons] at ha
    rw [mem_cons, mem_append]
    tauto
  · exact ⟨l, hset⟩

/-- The cache, the references that `bget` has given out and that have not been released, and the pins
that have been set and not taken back. -/
structure State where
  cache : Bcache
  held : List BufId
  pins : List BufId

inductive Ev
  | bget (dev blockno : Word)
  | fill (b : BufId) (data : Block)
  | store (b : BufId) (data : Block)
  | brelse (b : BufId)
  | bpin (b : BufId)
  | bunpin (b : BufId)

/-- A step: data is changed and `brelse` is called by a process that has the buffer, `bunpin` is called
after `bpin`. -/
def exec (s : State) : Ev → Option State
  | .bget dev blockno =>
    (bget s.cache dev blockno).map fun r => { s with cache := r.2, held := r.1 :: s.held }
  | .fill b data => if b ∈ s.held then some { s with cache := fill s.cache b data } else none
  | .store b data => if b ∈ s.held then some { s with cache := store s.cache b data } else none
  | .brelse b =>
    if b ∈ s.held then some { s with cache := brelse s.cache b, held := s.held.erase b } else none
  | .bpin b => some { s with cache := bpin s.cache b, pins := b :: s.pins }
  | .bunpin b =>
    if b ∈ s.pins then some { s with cache := bunpin s.cache b, pins := s.pins.erase b } else none

/-- The calls after `binit`, in any order. -/
def sys : Sys State Ev where
  init s := s = ⟨binit, [], []⟩
  step s e s' := exec s e = some s'

theorem Rep.step {s s' : State} (h : Rep s.cache l) {e : Ev} (hs : exec s e = some s') : ∃ l', Rep s'.cache l' := by
  cases e with
  | bget dev blockno =>
    obtain ⟨⟨b, c'⟩, hb, rfl⟩ := Option.map_eq_some_iff.mp hs
    exact ⟨l, h.bget hb⟩
  | fill b data | store b data | bunpin b =>
    simp only [exec] at hs
    split_ifs at hs
    cases hs; exact ⟨l, h.setBuf rfl rfl⟩
  | brelse b =>
    simp only [exec] at hs
    split_ifs at hs
    cases hs; exact h.brelse b
  | bpin b =>
    cases hs; exact ⟨l, h.setBuf rfl rfl⟩

/-- **The representation of the buffer cache.**  After any calls the pointers form one ring through the
head that contains every buffer exactly once, a block of a device other than 0 has at most one buffer,
and `bget` changes which block a buffer holds only if nobody refers to the buffer. -/
theorem bcache_rep {s : State} (hr : Reachable sys s) : (∃ l, IsRing s.cache.links l ∧ ∀ b, b ∈ l) ∧
    (∀ a b, (s.cache.buf a).dev ≠ 0 → (s.cache.buf a).dev = (s.cache.buf b).dev →
      (s.cache.buf a).blockno = (s.cache.buf b).blockno → a = b) ∧
    ∀ dev blockno b c', bget s.cache dev blockno = some (b, c') →
      ∀ a, ((c'.buf a).dev, (c'.buf a).blockno) ≠ ((s.cache.buf a).dev, (s.cache.buf a).blockno) →
        (s.cache.buf a).refcnt = 0 := by
  obtain ⟨l, hl⟩ : ∃ l, Rep s.cache l := by
    refine hr.inv (I := fun s => ∃ l, Rep s.cache l) (fun s h0 => ?_) ?_
    · rw [show s = ⟨binit, [], []⟩ from h0]; exact ⟨_, Rep.binit⟩
    · rintro s e s' ⟨l, hl⟩ hs; exact hl.step hs
  refine ⟨⟨l, hl.ring, hl.all⟩, hl.unique, fun dev blockno b c' hb a hne => ?_⟩
  have hab : a = b := by
    by_contra hab
    apply hne
    rcases bget_cases hl hb with ⟨-, -, rfl⟩ | ⟨-, -, rfl⟩
    · rw [setBuf_buf, update_of_ne hab]
    · rw [setBuf_buf, update_of_ne hab]
  subst hab
  rcases bget_cases hl hb with ⟨-, -, rfl⟩ | ⟨-, hz, -⟩
  · rw [setBuf_buf, update_self] at hne; exact absurd rfl hne
  · exact hz

/-- A block is read and released, so that its buffer is now in front, and another block is read. -/
theorem bcache_rep_two : ∃ s, Reachable sys s ∧ s.cache.links.next none = some 0 ∧
    (s.cache.buf 0).blockno = 5 ∧ (s.cache.buf 1).blockno = 6 ∧ (s.cache.buf 1).refcnt = 1 ∧
    ∃ l, IsRing s.cache.links l ∧ ∀ b, b ∈ l := by
  obtain ⟨s, hr, -, ht⟩ := exists_run (T := sys) (f := exec) (fun _ _ _ h => h) rfl
    [.bget 1 5, .fill 0 (fun _ => 7), .brelse 0, .bget 1 6]
    (fun s => s.cache.links.next none = some 0 ∧ (s.cache.buf 0).blockno = 5 ∧
      (s.cache.buf 1).blockno = 6 ∧ (s.cache.buf 1).refcnt = 1) (by decide +kernel)
  obtain ⟨h1, h2, h3, h4⟩ := of_decide_eq_true ht
  exact ⟨s, ⟨_, hr⟩, h1, h2, h3, h4, (bcache_rep ⟨_, hr⟩).1⟩

end Xv6.Fs.Buffers
