import Mathlib.Logic.Function.Basic
import Mathlib.Tactic.Common

/-!
# Owners

Places `i : ι` hold addresses, `nil` where they hold none.  In order, no address is held twice, what is
held is one of the addresses that can be given out (`data`), and of those exactly the ones held are
marked as used.  Taking an unused address to an empty place, or giving one back, keeps this.
-/

namespace Xv6.Lib.Owners

variable {ι β : Type*} {nil : β} {data used used' : β → Prop} {addr addr' : ι → β}

/-- Each used address of `data` is held by one place, and no other address is held. -/
structure Owned (nil : β) (data used : β → Prop) (addr : ι → β) : Prop where
  nil_free : ¬ data nil
  isData : ∀ i, addr i ≠ nil → data (addr i)
  alone : ∀ i j, addr i ≠ nil → addr i = addr j → i = j
  used_iff : ∀ b, data b → (used b ↔ ∃ i, addr i = b)

section
variable (h : Owned nil data used addr) {b : β}
include h

theorem Owned.ne_nil (hb : data b) : b ≠ nil := by
  rintro rfl; exact h.nil_free hb

theorem Owned.used_addr {i : ι} (hi : addr i ≠ nil) : used (addr i) :=
  (h.used_iff _ (h.isData i hi)).mpr ⟨i, rfl⟩

theorem Owned.addr_ne (hd : data b) (hb : ¬ used b) (i : ι) : addr i ≠ b :=
  fun hi => hb ((h.used_iff b hd).mpr ⟨i, hi⟩)

theorem Owned.congr (ha : ∀ i, addr' i = addr i)
    (hu : ∀ b, data b → (used' b ↔ used b)) : Owned nil data used' addr' := by
  obtain rfl : addr' = addr := funext ha
  exact ⟨h.nil_free, h.isData, h.alone, fun b hb => (hu b hb).trans (h.used_iff b hb)⟩

end

variable {i : ι} {b : β}

/-- **An unused address is taken** to an empty place. -/
theorem Owned.take (h : Owned nil data used addr) (hi : addr i = nil) (hd : data b)
    (hb : ¬ used b) (hself : addr' i = b) (hne : ∀ j, j ≠ i → addr' j = addr j)
    (hu : ∀ c, data c → (used' c ↔ used c ∨ c = b)) : Owned nil data used' addr' := by
  have hold : ∀ j, addr j ≠ b := h.addr_ne hd hb
  refine ⟨h.nil_free, fun j hj => ?_, fun j k hj hjk => ?_, fun c hc => ?_⟩
  · by_cases hji : j = i
    · rw [hji, hself]; exact hd
    · rw [hne j hji] at hj ⊢; exact h.isData j hj
  · by_cases hji : j = i
    · by_cases hki : k = i
      · rw [hji, hki]
      · rw [hji, hself, hne k hki] at hjk; exact absurd hjk.symm (hold k)
    · rw [hne j hji] at hj hjk
      by_cases hki : k = i
      · rw [hki, hself] at hjk; exact absurd hjk (hold j)
      · rw [hne k hki] at hjk; exact h.alone j k hj hjk
  · rw [hu c hc, h.used_iff c hc]
    constructor
    · rintro (⟨j, hj⟩ | rfl)
      · refine ⟨j, ?_⟩
        rw [hne j ?_]
        · exact hj
        · rintro rfl; rw [hi] at hj; exact h.ne_nil hc hj.symm
      · exact ⟨i, hself⟩
    · rintro ⟨j, hj⟩
      by_cases hji : j = i
      · rw [hji, hself] at hj; exact .inr hj.symm
      · rw [hne j hji] at hj; exact .inl ⟨j, hj⟩

/-- **An address is given back.** -/
theorem Owned.give (h : Owned nil data used addr) (hi : addr i ≠ nil) (hself : addr' i = nil)
    (hne : ∀ j, j ≠ i → addr' j = addr j) (hu : ∀ c, data c → (used' c ↔ used c ∧ c ≠ addr i)) :
    Owned nil data used' addr' := by
  have hsub : ∀ j, addr' j ≠ nil → j ≠ i ∧ addr' j = addr j := by
    intro j hj
    have hji : j ≠ i := by rintro rfl; exact hj hself
    exact ⟨hji, hne j hji⟩
  refine ⟨h.nil_free, fun j hj => ?_, fun j k hj hjk => ?_, fun c hc => ?_⟩
  · have he := (hsub j hj).2; rw [he] at hj ⊢; exact h.isData j hj
  · have hk := (hsub k (by rw [← hjk]; exact hj)).2
    have he := (hsub j hj).2
    rw [he] at hj hjk; exact h.alone j k hj (hjk.trans hk)
  · rw [hu c hc, h.used_iff c hc]
    constructor
    · rintro ⟨⟨j, rfl⟩, hji⟩; exact ⟨j, hne j fun hj => hji (by rw [hj])⟩
    · rintro ⟨j, rfl⟩
      obtain ⟨hji, hj⟩ := hsub j (h.ne_nil hc)
      rw [hj]
      refine ⟨⟨j, rfl⟩, fun heq => hji ?_⟩
      exact h.alone j i (by rw [← hj]; exact h.ne_nil hc) heq

end Xv6.Lib.Owners
