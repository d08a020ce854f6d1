import Mathlib.Data.List.Basic
import Mathlib.Data.Set.Insert
import Mathlib.Tactic.Common

/-!
# Linked lists and blocks in an arena

What an allocator with a free list is made of.

`Path next l e`: the links `next` lead from each element of `l` to the one after it and from the last
one to `e`.

`Arena lo hi len B`: the blocks that start at the addresses `B`, of lengths `len`, lie between `lo` and
`hi` and do not overlap.
-/

namespace Xv6.Lib.FreeList

section Path
variable {α : Type*} {next next' : α → α} {l l₁ l₂ : List α} {a e : α}

def Path (next : α → α) : List α → α → Prop
  | [], _ => True
  | a :: l, e => next a = l.headD e ∧ Path next l e

theorem headD_append (l₁ l₂ : List α) (e : α) : (l₁ ++ l₂).headD e = l₁.headD (l₂.headD e) := by
  cases l₁ <;> rfl

theorem path_append : Path next (l₁ ++ l₂) e ↔ Path next l₁ (l₂.headD e) ∧ Path next l₂ e := by
  induction l₁ with
  | nil => simp [Path]
  | cons a l₁ ih =>
    simp only [List.cons_append, Path, headD_append, ih, and_assoc]

theorem Path.congr (h : Path next l e) (hn : ∀ a ∈ l, next' a = next a) : Path next' l e := by
  induction l with
  | nil => trivial
  | cons a l ih =>
    exact ⟨(hn a (by simp)).trans h.1, ih h.2 fun b hb => hn b (by simp [hb])⟩

theorem Path.next_mem (h : Path next l e) (ha : a ∈ l) : next a ∈ l ∨ next a = e := by
  induction l with
  | nil => cases ha
  | cons b l ih =>
    rcases List.mem_cons.mp ha with rfl | ha
    · rw [h.1]
      rcases l with _ | ⟨c, l⟩
      · exact .inr rfl
      · exact .inl (by simp)
    · exact (ih h.2 ha).imp_left fun h => by simp [h]

end Path

structure Arena (lo hi : ℕ) (len : ℕ → ℕ) (B : Set ℕ) : Prop where
  inside : ∀ a ∈ B, lo ≤ a ∧ a + len a ≤ hi
  apart : ∀ a ∈ B, ∀ b ∈ B, a < b → a + len a ≤ b

namespace Arena

variable {lo hi hi' : ℕ} {len len' : ℕ → ℕ} {B B' : Set ℕ} {a b n : ℕ}

section
variable (h : Arena lo hi len B) {c : ℕ}
include h

theorem mono (hB : B' ⊆ B) (hlen : ∀ a ∈ B', len' a ≤ len a) : Arena lo hi len' B' := by
  refine ⟨fun a ha => ?_, fun a ha b hb hab => ?_⟩
  · have h1 := h.inside a (hB ha); have h2 := hlen a ha; omega
  · have h1 := h.apart a (hB ha) b (hB hb) hab; have h2 := hlen a ha; omega

theorem join (ha : a ∈ B) (hb : b ∈ B) (hab : a < b) (hadj : a + len a = b)
    (hlen : len' a ≤ len a + len b) (hrest : ∀ x ∈ B, x ≠ a → len' x ≤ len x) : Arena lo hi len' (B \ {b}) := by
  have hbi := h.inside b hb
  refine ⟨fun x hx => ?_, fun x hx y hy hxy => ?_⟩
  · have hxi := h.inside x hx.1
    by_cases hxa : x = a
    · subst hxa; omega
    · have := hrest x hx.1 hxa; omega
  · have hxy' := h.apart x hx.1 y hy.1 hxy
    by_cases hxa : x = a
    · subst hxa
      -- `y` is behind `a`, so behind `b`
      have hby : b < y := by have hne : y ≠ b := hy.2; omega
      have := h.apart b hb y hy.1 hby
      omega
    · have := hrest x hx.1 hxa; omega

theorem split (ha : a ∈ B) (hac : a < c) (hc : c + len' c ≤ a + len a)
    (hlen : a + len' a ≤ c) (hpos : 0 < len' c) (hrest : ∀ x ∈ B, x ≠ a → len' x ≤ len x) :
    Arena lo hi len' (insert c B) := by
  have hai := h.inside a ha
  refine ⟨?_, ?_⟩
  · rintro x (rfl | hx)
    · omega
    · have hxi := h.inside x hx
      by_cases hxa : x = a
      · subst hxa; omega
      · have := hrest x hx hxa; omega
  · rintro x hx y hy hxy
    rcases hx with rfl | hx
    · rcases hy with rfl | hy
      · omega
      · have := h.apart a ha y hy (by omega); omega
    · rcases hy with rfl | hy
      · by_cases hxa : x = a
        · subst hxa; exact hlen
        · have h1 := hrest x hx hxa
          rcases Nat.lt_or_gt_of_ne hxa with hlt | hgt
          · have := h.apart x hx a ha hlt; omega
          · have := h.apart a ha x hx hgt; omega
      · have hxy' := h.apart x hx y hy hxy
        by_cases hxa : x = a
        · subst hxa; omega
        · have := hrest x hx hxa; omega

theorem extend (hlo : lo ≤ c) (hc : hi ≤ c) (hc' : c + len' c ≤ hi')
    (hrest : ∀ x ∈ B, len' x ≤ len x) : Arena lo hi' len' (insert c B) := by
  refine ⟨?_, ?_⟩
  · rintro x (rfl | hx)
    · exact ⟨hlo, hc'⟩
    · have h1 := h.inside x hx; have h2 := hrest x hx; omega
  · rintro x hx y hy hxy
    rcases hx with rfl | hx
    · rcases hy with rfl | hy
      · omega
      · have := h.inside y hy; omega
    · have hxi := h.inside x hx
      have hxl := hrest x hx
      rcases hy with rfl | hy
      · omega
      · have := h.apart x hx y hy hxy; omega

end

end Arena

end Xv6.Lib.FreeList
