import Xv6.Fs.Store

/-!
# Who has which block

The places that hold block addresses are the slots of the allocated inodes: the direct addresses, the
address of the indirect block and its entries.  `Image` says that the bitmap and the slots agree in the
sense of `Xv6.Lib.Owners`.  While a function works on an inode, the copy in memory stands for the one on
the disk (`Holding`); `bmap` only fills empty slots of this inode (`Grows`), and `writei` ends with the
inode on the disk again (`Done`).
-/

namespace Xv6.Fs.Ownership

open Param Lib.Programs Lib.Owners Fs.Layout Fs.Files Fs.Store Function
open Fs.LogOps (Block BWORDS)

/-! ## Slots -/

/-- A place of an inode for the address of a block: `ip->addrs[i]`, or an entry of the indirect block. -/
inductive Slot
  | addr (i : Fin (NDIRECT + 1))
  | entry (j : Fin NINDIRECT)
  deriving DecidableEq

def indirect : Slot := .addr (Fin.last NDIRECT)

def Slot.get (σ : Blocks) (d : Dinode) : Slot → Word
  | .addr i => d.addrs i
  | .entry j =>
    if d.addrs (Fin.last NDIRECT) = 0 then 0 else (σ (d.addrs (Fin.last NDIRECT))).word j

variable (sb : Superblock)

/-- The address in a slot of an inode, where `T` says what the inodes are; 0 if it is not allocated. -/
def addrOf (σ : Blocks) (T : ℕ → Dinode) (x : ℕ × Slot) : Word :=
  if x.1 < sb.ninodes ∧ (T x.1).type ≠ 0 then x.2.get σ (T x.1) else 0

/-- A data block is in use if and only if it is in a slot of an allocated inode, it is in one only, and
there are no other addresses in slots; the blocks before the data are in use. -/
structure Image (σ : Blocks) (T : ℕ → Dinode) : Prop where
  owned : Owned 0 sb.IsData (used sb σ) (addrOf sb σ T)
  before : MetaUsed sb σ

def view (σ : Blocks) (ip : Inode) : ℕ → Dinode := update (dinode sb σ) ip.inum ip.toDinode

structure Holding (σ : Blocks) (ip : Inode) : Prop where
  image : Image sb σ (view sb σ ip)
  inum : ip.inum < sb.ninodes
  type : ip.type ≠ 0

structure Grows (σ : Blocks) (ip : Inode) (σ' : Blocks) (ip' : Inode) : Prop where
  same : ip' = { ip with addrs := ip'.addrs }
  dinode : ∀ n < sb.ninodes, dinode sb σ' n = dinode sb σ n
  keep : ∀ x : Slot, x.get σ ip.toDinode ≠ 0 → x.get σ' ip'.toDinode = x.get σ ip.toDinode
  other : ∀ n, n ≠ ip.inum → ∀ x,
    addrOf sb σ' (Store.dinode sb σ') (n, x) = addrOf sb σ (Store.dinode sb σ) (n, x)

def Spares (σ : Blocks) (ip : Inode) (σ' : Blocks) : Prop :=
  ∀ y, y ≠ (ip.inum, indirect) → addrOf sb σ (view sb σ ip) y ≠ 0 →
    σ' (addrOf sb σ (view sb σ ip) y) = σ (addrOf sb σ (view sb σ ip) y)

variable {sb} {σ σ' : Blocks} {ip ip' : Inode} {T T' : ℕ → Dinode} {d d' : Dinode} {b : Word}
variable {i : Fin (NDIRECT + 1)}

theorem setAddr_self : (ip.setAddr i b).addrs i = b :=
  update_self _ _ _

theorem setAddr_ne {j : Fin (NDIRECT + 1)} (h : j ≠ i) : (ip.setAddr i b).addrs j = ip.addrs j :=
  update_of_ne h _ _

variable {j : Fin NINDIRECT} {n : ℕ}

theorem get_entry_of_zero (h : indirect.get σ d = 0) : (Slot.entry j).get σ d = 0 := if_pos h

theorem get_entry (h : indirect.get σ d ≠ 0) : (Slot.entry j).get σ d = (σ (indirect.get σ d)).word j := if_neg h

theorem entry_congr (hind : indirect.get σ' d' = indirect.get σ d)
    (hσ : indirect.get σ d ≠ 0 → σ' (indirect.get σ d) = σ (indirect.get σ d)) :
    (Slot.entry j).get σ' d' = (Slot.entry j).get σ d := by
  by_cases h0 : indirect.get σ d = 0
  · rw [get_entry_of_zero h0, get_entry_of_zero (hind.trans h0)]
  · rw [get_entry h0, get_entry (by rw [hind]; exact h0), hind, hσ h0]

theorem get_congr (hd : d'.addrs = d.addrs)
    (hσ : indirect.get σ d ≠ 0 → σ' (indirect.get σ d) = σ (indirect.get σ d)) (x : Slot) :
    x.get σ' d' = x.get σ d := by
  cases x with
  | addr i => exact congrFun hd i
  | entry j => exact entry_congr (congrFun hd _) hσ

theorem addrOf_of_allocated (hn : n < sb.ninodes) (ht : (T n).type ≠ 0) (x : Slot) :
    addrOf sb σ T (n, x) = x.get σ (T n) :=
  if_pos ⟨hn, ht⟩

variable {x : Slot} {y : Slot}

theorem addrOf_allocated (h : addrOf sb σ T (n, x) ≠ 0) : n < sb.ninodes ∧ (T n).type ≠ 0 := by
  by_contra hn; exact h (if_neg hn)

theorem addrOf_congr (hT : n < sb.ninodes → T' n = T n) (hσ : addrOf sb σ T (n, indirect) ≠ 0 →
      σ' (addrOf sb σ T (n, indirect)) = σ (addrOf sb σ T (n, indirect))) (x : Slot) :
    addrOf sb σ' T' (n, x) = addrOf sb σ T (n, x) := by
  unfold addrOf at hσ ⊢
  by_cases hn : n < sb.ninodes
  · rw [hT hn]
    by_cases ht : (T n).type ≠ 0
    · rw [if_pos ⟨hn, ht⟩] at hσ ⊢
      rw [if_pos ⟨hn, ht⟩]; exact get_congr rfl hσ x
    · rw [if_neg (fun h => ht h.2), if_neg (fun h => ht h.2)]
  · rw [if_neg (fun h => hn h.1), if_neg (fun h => hn h.1)]

theorem view_self : view sb σ ip ip.inum = ip.toDinode := update_self _ _ _

theorem view_ne (h : n ≠ ip.inum) : view sb σ ip n = dinode sb σ n :=
  update_of_ne h _ _

theorem addrOf_view_ne (h : n ≠ ip.inum) (x : Slot) :
    addrOf sb σ (view sb σ ip) (n, x) = addrOf sb σ (dinode sb σ) (n, x) := by
  unfold addrOf
  rw [view_ne h]

theorem Holding.addrOf_self (h : Holding sb σ ip) (x : Slot) :
    addrOf sb σ (view sb σ ip) (ip.inum, x) = x.get σ ip.toDinode := by
  rw [addrOf_of_allocated h.inum (by rw [view_self]; exact h.type), view_self]

theorem Holding.get_ne_zero (h : Holding sb σ ip) (hx : x.get σ ip.toDinode ≠ 0) :
    sb.IsData (x.get σ ip.toDinode) ∧ used sb σ (x.get σ ip.toDinode) := by
  rw [← h.addrOf_self] at hx ⊢
  exact ⟨h.image.owned.isData _ hx, h.image.owned.used_addr hx⟩

theorem Image.hold (h : Image sb σ (dinode sb σ)) (hn : n < sb.ninodes)
    (ht : (dinode sb σ n).type ≠ 0) : Holding sb σ ⟨dinode sb σ n, n⟩ := by
  have hv : view sb σ ⟨dinode sb σ n, n⟩ = dinode sb σ := update_eq_self _ _
  exact ⟨by rw [hv]; exact h, hn, ht⟩

section
variable (h : Holding sb σ ip)
include h

theorem Holding.other_ne (hn : n ≠ ip.inum) (hx : addrOf sb σ (dinode sb σ) (n, x) ≠ 0) :
    addrOf sb σ (dinode sb σ) (n, x) ≠ y.get σ ip.toDinode := by
  intro heq
  rw [← addrOf_view_ne hn] at hx heq
  rw [← h.addrOf_self] at heq
  exact hn (congrArg Prod.fst (h.image.owned.alone _ _ hx heq))

theorem Holding.slot_ne (hx : x.get σ ip.toDinode ≠ 0) (hne : x ≠ y) :
    x.get σ ip.toDinode ≠ y.get σ ip.toDinode := by
  intro heq
  rw [← h.addrOf_self] at hx
  rw [← h.addrOf_self, ← h.addrOf_self] at heq
  exact hne (congrArg Prod.snd (h.image.owned.alone _ _ hx heq))

theorem Holding.other_data (hn : n ≠ ip.inum)
    (hx : addrOf sb σ (dinode sb σ) (n, x) ≠ 0) : sb.IsData (addrOf sb σ (dinode sb σ) (n, x)) := by
  rw [← addrOf_view_ne hn] at hx ⊢; exact h.image.owned.isData _ hx

variable (hd : sb.IsData b) (hb : ¬ used sb σ b)
include hd hb

theorem Holding.other_ne_free (hn : n ≠ ip.inum) : addrOf sb σ (dinode sb σ) (n, x) ≠ b := by
  rw [← addrOf_view_ne hn]; exact h.image.owned.addr_ne hd hb _

theorem Holding.get_ne_free (x : Slot) : x.get σ ip.toDinode ≠ b := by
  rw [← h.addrOf_self]; exact h.image.owned.addr_ne hd hb _

end

/-- Nothing but slot `y` of the held inode has changed. -/
structure SlotOnly (sb : Superblock) (σ : Blocks) (ip : Inode) (σ' : Blocks) (ip' : Inode) (y : Slot) : Prop where
  inum : ip'.inum = ip.inum
  type : ip'.type = ip.type
  rest : ∀ x, x ≠ y → x.get σ' ip'.toDinode = x.get σ ip.toDinode
  other : ∀ n, n ≠ ip.inum → ∀ x, addrOf sb σ' (dinode sb σ') (n, x) = addrOf sb σ (dinode sb σ) (n, x)

section
variable (hc : SlotOnly sb σ ip σ' ip' y) (h : Holding sb σ ip)
include hc h

theorem SlotOnly.addrOf_self (x : Slot) :
    addrOf sb σ' (view sb σ' ip') (ip.inum, x) = x.get σ' ip'.toDinode := by
  have ht : ip'.type ≠ 0 := hc.type ▸ h.type
  rw [← hc.inum, addrOf_of_allocated (hc.inum ▸ h.inum) (by rw [view_self]; exact ht), view_self]

theorem SlotOnly.addrOf_ne {x : ℕ × Slot} (hx : x ≠ (ip.inum, y)) :
    addrOf sb σ' (view sb σ' ip') x = addrOf sb σ (view sb σ ip) x := by
  obtain ⟨n, x⟩ := x
  by_cases hn : n = ip.inum
  · subst hn
    rw [h.addrOf_self, hc.addrOf_self h, hc.rest x fun hxy => hx (by rw [hxy])]
  · rw [addrOf_view_ne hn, addrOf_view_ne (by rw [hc.inum]; exact hn), hc.other n hn]

end

theorem used_setBit {v : Bool} {c : Word} (hc : c.toNat < sb.size)
    (hbit : ∀ n < sb.size, usedBit sb σ' n = if n = b.toNat then v else usedBit sb σ n) :
    used sb σ' c ↔ if c = b then v = true else used sb σ c := by
  unfold used
  rw [hbit _ hc]
  by_cases hcb : c = b
  · simp [hcb]
  · rw [if_neg (fun he => hcb (BitVec.eq_of_toNat_eq he)), if_neg hcb]

theorem Holding.take (h : Holding sb σ ip) (hc : SlotOnly sb σ ip σ' ip' y) (hd : sb.IsData b)
    (hb : ¬ used sb σ b) (hy : y.get σ ip.toDinode = 0) (hself : y.get σ' ip'.toDinode = b)
    (hbit : ∀ n < sb.size, usedBit sb σ' n = if n = b.toNat then true else usedBit sb σ n) : Holding sb σ' ip' := by
  refine ⟨⟨h.image.owned.take ((h.addrOf_self y).trans hy) hd hb ((hc.addrOf_self h y).trans hself)
    (fun x => hc.addrOf_ne h) fun c hd => ?_, fun n hn => ?_⟩, hc.inum ▸ h.inum, hc.type ▸ h.type⟩
  · rw [used_setBit hd.2 hbit]
    split_ifs with hcb <;> simp [hcb]
  · rw [hbit n (by omega), h.image.before n hn]
    split_ifs <;> rfl

theorem Holding.give (h : Holding sb σ ip) (hc : SlotOnly sb σ ip σ' ip' y) (hy : y.get σ ip.toDinode ≠ 0)
    (hself : y.get σ' ip'.toDinode = 0) (hbit : ∀ n < sb.size, usedBit sb σ' n =
      if n = (y.get σ ip.toDinode).toNat then false else usedBit sb σ n) : Holding sb σ' ip' := by
  have hlow := (h.get_ne_zero hy).1.1
  refine ⟨⟨h.image.owned.give (by rwa [h.addrOf_self]) ((hc.addrOf_self h y).trans hself)
    (fun x => hc.addrOf_ne h) fun c hd => ?_, fun n hn => ?_⟩, hc.inum ▸ h.inum, hc.type ▸ h.type⟩
  · rw [used_setBit hd.2 hbit, h.addrOf_self]
    split_ifs with hcb <;> simp [hcb]
  · rw [hbit n (by omega), if_neg (by omega)]; exact h.image.before n hn

/-! ## The blocks of a file -/

theorem Grows.refl : Grows sb σ ip σ ip :=
  ⟨rfl, fun _ _ => rfl, fun _ _ => rfl, fun _ _ _ => rfl⟩

section
variable (h : Grows sb σ ip σ' ip')
include h

theorem Grows.inum : ip'.inum = ip.inum := by rw [h.same]

theorem Grows.type : ip'.type = ip.type := by rw [h.same]

theorem Grows.size : ip'.size = ip.size := by rw [h.same]

end

variable {σ'' : Blocks}

theorem Grows.trans {ip'' : Inode} (h : Grows sb σ ip σ' ip')
    (h' : Grows sb σ' ip' σ'' ip'') : Grows sb σ ip σ'' ip'' := by
  refine ⟨?_, fun n hn => (h'.dinode n hn).trans (h.dinode n hn), fun x hx => ?_, fun n hn x => ?_⟩
  · rw [h'.same, h.same]
  · have hk := h.keep x hx
    rw [h'.keep x (by rw [hk]; exact hx), hk]
  · rw [h'.other n (by rw [h.inum]; exact hn), h.other n hn]

theorem Spares.refl : Spares sb σ ip σ := fun _ _ _ => rfl

theorem Grows.addrOf_view (g : Grows sb σ ip σ' ip') (h : Holding sb σ ip) (h' : Holding sb σ' ip')
    {y : ℕ × Slot} (hy : addrOf sb σ (view sb σ ip) y ≠ 0) :
    addrOf sb σ' (view sb σ' ip') y = addrOf sb σ (view sb σ ip) y := by
  obtain ⟨n, x⟩ := y
  by_cases hn : n = ip.inum
  · rw [hn, h.addrOf_self] at hy ⊢
    rw [← g.inum, h'.addrOf_self]; exact g.keep x hy
  · rw [addrOf_view_ne hn, addrOf_view_ne (by rw [g.inum]; exact hn)]
    exact g.other n hn x

theorem Spares.trans (k : Spares sb σ ip σ') (g : Grows sb σ ip σ' ip') (h : Holding sb σ ip)
    (h' : Holding sb σ' ip') (k' : Spares sb σ' ip' σ'') : Spares sb σ ip σ'' := by
  intro y hy h0
  have heq := g.addrOf_view h h' h0
  have hk := k' y (by rw [g.inum]; exact hy) (by rw [heq]; exact h0)
  rw [heq] at hk; exact hk.trans (k y hy h0)

section
variable (h : Holding sb σ ip)
include h

theorem Holding.spares_allocate (hd : sb.IsData b) (hb : ¬ used sb σ b) :
    Spares sb σ ip (allocate sb σ b) := fun y _ h0 =>
  allocate_data hd (h.image.owned.isData y h0) (h.image.owned.addr_ne hd hb y)

theorem Holding.other_allocate (hd : sb.IsData b) (hb : ¬ used sb σ b) (hn : n ≠ ip.inum) (x : Slot) :
    addrOf sb (allocate sb σ b) (dinode sb (allocate sb σ b)) (n, x) = addrOf sb σ (dinode sb σ) (n, x) :=
  addrOf_congr (fun hlt => dinode_allocate hd hlt)
    (fun h0 => allocate_data hd (h.other_data hn h0) (h.other_ne_free hd hb hn)) x

theorem Holding.setAddr (hd : sb.IsData b) (hb : ¬ used sb σ b) (hi : ip.addrs i = 0) :
    Holding sb (allocate sb σ b) (ip.setAddr i b) ∧
      Grows sb σ ip (allocate sb σ b) (ip.setAddr i b) ∧ ∀ x, x ≠ Slot.addr i →
        x.get (allocate sb σ b) (ip.setAddr i b).toDinode = x.get σ ip.toDinode := by
  have hself : (Slot.addr i).get (allocate sb σ b) (ip.setAddr i b).toDinode = b := setAddr_self
  have hne : ∀ x, x ≠ Slot.addr i →
      x.get (allocate sb σ b) (ip.setAddr i b).toDinode = x.get σ ip.toDinode := by
    intro x hx
    cases x with
    | addr j => exact setAddr_ne fun hj => hx (by rw [hj])
    | entry j =>
      by_cases hl : i = Fin.last NDIRECT
      · subst hl
        -- a new indirect block has no entries
        have h0 : indirect.get σ ip.toDinode = 0 := hi
        have hb0 : indirect.get (allocate sb σ b) (ip.setAddr (Fin.last NDIRECT) b).toDinode = b :=
          hself
        rw [get_entry_of_zero h0, get_entry (by rw [hb0]; exact hd.ne_zero), hb0, allocate_self,
          word_zeroBlock]
      · refine entry_congr (setAddr_ne (Ne.symm hl)) fun h0 => ?_
        exact allocate_data hd (h.get_ne_zero h0).1 (h.get_ne_free hd hb indirect)
  have hother := fun n hn x => h.other_allocate hd hb (n := n) hn x
  have hy : (Slot.addr i).get σ ip.toDinode = 0 := hi
  refine ⟨h.take ⟨rfl, rfl, hne, hother⟩ hd hb hy hself fun n hn => usedBit_allocate hd hn, ⟨rfl,
    fun n hn => dinode_allocate hd hn, fun x hx => hne x ?_, hother⟩, hne⟩
  rintro rfl; exact hx hi

theorem wp_mapAddr (i : Fin (NDIRECT + 1)) {Q : Word × Inode → Blocks → Prop}
    (hQ : ∀ addr ip' σ', Holding sb σ' ip' → Grows sb σ ip σ' ip' → Spares sb σ ip σ' →
      (addr ≠ 0 → ip'.addrs i = addr) → Q (addr, ip') σ') : wp seq (mapAddr sb ip i) Q σ := by
  unfold mapAddr
  split_ifs with hi
  · refine .bind (wp_balloc h.image.before ?_ fun b hd hb => ?_)
    · exact hQ 0 ip σ h .refl .refl fun h0 => absurd rfl h0
    · rw [if_neg hd.ne_zero]
      obtain ⟨hh, hg, -⟩ := h.setAddr hd hb hi
      exact hQ b _ _ hh hg (h.spares_allocate hd hb) fun _ => setAddr_self
  · exact hQ _ ip σ h .refl .refl fun _ => rfl

theorem Holding.setEntry (hd : sb.IsData b) (hb : ¬ used sb σ b)
    (hind : indirect.get σ ip.toDinode ≠ 0) (hj : (σ (indirect.get σ ip.toDinode)).word j = 0)
    (hσ' : σ' = update (allocate sb σ b) (indirect.get σ ip.toDinode)
      ((σ (indirect.get σ ip.toDinode)).setWord j b)) :
    Holding sb σ' ip ∧ Grows sb σ ip σ' ip ∧ (Slot.entry j).get σ' ip.toDinode = b ∧
      ∀ x, x ≠ Slot.entry j → x.get σ' ip.toDinode = x.get σ ip.toDinode := by
  obtain ⟨hda, -⟩ := h.get_ne_zero hind
  have hjw : j.val < BWORDS := j.isLt
  have hat : σ' (indirect.get σ ip.toDinode) = (σ (indirect.get σ ip.toDinode)).setWord j b := by
    rw [hσ']; exact update_self _ _ _
  have hy : (Slot.entry j).get σ ip.toDinode = 0 := (get_entry hind).trans hj
  have hself : (Slot.entry j).get σ' ip.toDinode = b := by
    have hind' : indirect.get σ' ip.toDinode ≠ 0 := hind
    rw [get_entry hind', show indirect.get σ' ip.toDinode = indirect.get σ ip.toDinode from rfl, hat,
      word_setWord hjw, if_pos rfl]
  have hne : ∀ x, x ≠ Slot.entry j → x.get σ' ip.toDinode = x.get σ ip.toDinode := by
    intro x hx
    cases x with
    | addr i => rfl
    | entry k =>
      have hkj : k.val ≠ j.val := fun hk => hx (by rw [Fin.ext hk])
      rw [get_entry hind, get_entry (show indirect.get σ' ip.toDinode ≠ 0 from hind),
        show indirect.get σ' ip.toDinode = indirect.get σ ip.toDinode from rfl, hat, word_setWord hjw, if_neg hkj]
  have hdin : ∀ n < sb.ninodes, dinode sb σ' n = dinode sb σ n := by
    intro n hn
    rw [hσ', dinode_data hda hn, dinode_allocate hd hn]
  have hother : ∀ n, n ≠ ip.inum → ∀ x,
      addrOf sb σ' (dinode sb σ') (n, x) = addrOf sb σ (dinode sb σ) (n, x) := by
    intro n hn x
    refine addrOf_congr (hdin n) (fun h0 => ?_) x
    rw [hσ', update_of_ne (h.other_ne hn h0)]
    exact allocate_data hd (h.other_data hn h0) (h.other_ne_free hd hb hn)
  refine ⟨h.take ⟨rfl, rfl, hne, hother⟩ hd hb hy hself fun n hn => ?_, ⟨rfl, hdin, fun x hx => hne x ?_,
    hother⟩, hself, hne⟩
  · rw [hσ', usedBit_data hda hn, usedBit_allocate hd hn]
  · rintro rfl; exact hx hy

theorem Holding.ne_slot {y : ℕ × Slot} (hy : y ≠ (ip.inum, x))
    (h0 : addrOf sb σ (view sb σ ip) y ≠ 0) : addrOf sb σ (view sb σ ip) y ≠ x.get σ ip.toDinode := by
  intro heq
  rw [← h.addrOf_self] at heq; exact hy (h.image.owned.alone _ _ h0 heq)

theorem Holding.spares_entry (hd : sb.IsData b) (hb : ¬ used sb σ b) {v : Block} :
    Spares sb σ ip (update (allocate sb σ b) (indirect.get σ ip.toDinode) v) := by
  intro y hy h0
  rw [update_of_ne (h.ne_slot hy h0)]; exact h.spares_allocate hd hb y hy h0

theorem wp_mapEntry (hind : indirect.get σ ip.toDinode ≠ 0) (j : Fin NINDIRECT) {Q : Word → Blocks → Prop}
    (hQ : ∀ e σ', Holding sb σ' ip → Grows sb σ ip σ' ip → Spares sb σ ip σ' →
      (e ≠ 0 → (Slot.entry j).get σ' ip.toDinode = e) → Q e σ') :
    wp seq (mapEntry sb (indirect.get σ ip.toDinode) j) Q σ := by
  refine .bind (wp_bread.mpr ?_)
  split_ifs with hj
  · refine .bind (wp_balloc h.image.before ?_ fun b hd hb => ?_)
    · exact .bind (wp_brelse.mpr (hQ 0 σ h .refl .refl fun h0 => absurd rfl h0))
    · rw [if_neg hd.ne_zero]
      obtain ⟨hh, hg, he, -⟩ := h.setEntry hd hb hind hj rfl
      exact .bind (wp_putBack.mpr (hQ b _ hh hg (h.spares_entry hd hb) fun _ => he))
  · exact .bind (wp_brelse.mpr (hQ _ σ h .refl .refl fun _ => get_entry hind))

end

variable {bn : ℕ}

theorem sub_lt_of_maxfile (h : bn < MAXFILE) (hd : ¬ bn < NDIRECT) : bn - NDIRECT < NINDIRECT := by
  unfold MAXFILE at h; omega

def fileSlot (bn : ℕ) (h : bn < MAXFILE) : Slot :=
  if hd : bn < NDIRECT then .addr ⟨bn, Nat.lt_succ_of_lt hd⟩
  else .entry ⟨bn - NDIRECT, sub_lt_of_maxfile h hd⟩

def fileAddr (σ : Blocks) (d : Dinode) (bn : ℕ) : Word :=
  if h : bn < MAXFILE then (fileSlot bn h).get σ d else 0

theorem fileSlot_ne_indirect (h : bn < MAXFILE) : fileSlot bn h ≠ indirect := by
  unfold fileSlot indirect
  split_ifs with hd
  · intro he
    have := congrArg Fin.val (Slot.addr.inj he)
    simp only [Fin.val_last] at this; omega
  · exact Slot.noConfusion

variable {k tot off : ℕ}

theorem fileSlot_inj {k' : ℕ} {hk : k < MAXFILE} {hk' : k' < MAXFILE}
    (h : fileSlot k hk = fileSlot k' hk') : k = k' := by
  unfold fileSlot at h
  split_ifs at h with h1 h2 h2
  · exact congrArg Fin.val (Slot.addr.inj h)
  · have := congrArg Fin.val (Slot.entry.inj h); dsimp only at this; omega

theorem wp_bmap (h : Holding sb σ ip) (hbn : bn < MAXFILE) {Q : Word × Inode → Blocks → Prop}
    (hQ : ∀ addr ip' σ', Holding sb σ' ip' → Grows sb σ ip σ' ip' → Spares sb σ ip σ' →
      (addr ≠ 0 → (fileSlot bn hbn).get σ' ip'.toDinode = addr) → Q (addr, ip') σ') :
    wp seq (bmap sb ip bn) Q σ := by
  unfold bmap
  unfold fileSlot at hQ
  by_cases hd : bn < NDIRECT
  · rw [dif_pos hd]; rw [dif_pos hd] at hQ; exact wp_mapAddr h _ hQ
  · rw [dif_neg hd]
    rw [dif_neg hd] at hQ
    have hlt : bn - NDIRECT < NINDIRECT := by unfold MAXFILE at hbn; omega
    rw [if_pos hlt]
    refine .bind (wp_mapAddr h _ fun addr ip1 σ1 h1 g1 k1 ha => ?_)
    dsimp only
    split_ifs with h0
    · exact hQ _ _ _ h1 g1 k1 fun h => absurd rfl h
    · obtain rfl : indirect.get σ1 ip1.toDinode = addr := ha h0
      refine .bind (wp_mapEntry h1 h0 ⟨bn - NDIRECT, hlt⟩ fun e σ2 h2 g2 k2 he => ?_)
      exact hQ _ _ _ h2 (g1.trans g2) (k1.trans g1 h h1 k2) he

/-! ## Writing -/

def Filled (σ : Blocks) (d : Dinode) (k : ℕ) : Prop := ∀ bn, bn * BSIZE < k → fileAddr σ d bn ≠ 0

theorem fileAddr_eq (h : bn < MAXFILE) : fileAddr σ d bn = (fileSlot bn h).get σ d := dif_pos h

theorem lt_of_fileAddr (h : fileAddr σ d bn ≠ 0) : bn < MAXFILE := by
  by_contra hn; exact h (dif_neg hn)

theorem Filled.grows (h : Filled σ ip.toDinode k) (hg : Grows sb σ ip σ' ip') : Filled σ' ip'.toDinode k := by
  intro bn hbn
  have h0 := h bn hbn
  have hlt := lt_of_fileAddr h0
  rw [fileAddr_eq hlt] at h0 ⊢
  rw [hg.keep _ h0]; exact h0

theorem Filled.extend {off m : ℕ} (h : Filled σ d k) (hoff : off ≤ k)
    (hm : m ≤ BSIZE - off % BSIZE) (ha : fileAddr σ d (off / BSIZE) ≠ 0) : Filled σ d (max k (off + m)) := by
  intro bn hbn
  by_cases hk : bn * BSIZE < k
  · exact h bn hk
  · have hB : BSIZE = 1024 := rfl
    have heq : bn = off / BSIZE := by rw [hB] at hbn hm hk ⊢; omega
    rw [heq]; exact ha

theorem Holding.write (h : Holding sb σ ip) (hbn : bn < MAXFILE)
    (ha : (fileSlot bn hbn).get σ ip.toDinode ≠ 0) (data : Block)
    (hσ' : σ' = update σ ((fileSlot bn hbn).get σ ip.toDinode) data) : Holding sb σ' ip ∧ Grows sb σ ip σ' ip := by
  have hd := (h.get_ne_zero ha).1
  have hself : ∀ x : Slot, x.get σ' ip.toDinode = x.get σ ip.toDinode := by
    refine get_congr rfl fun h0 => ?_
    rw [hσ']
    -- the indirect block is in another slot
    exact update_of_ne (h.slot_ne h0 (fileSlot_ne_indirect hbn).symm) _ _
  have hdin : ∀ n < sb.ninodes, dinode sb σ' n = dinode sb σ n := by
    intro n hn
    rw [hσ', dinode_data hd hn]
  have hother : ∀ n, n ≠ ip.inum → ∀ x,
      addrOf sb σ' (dinode sb σ') (n, x) = addrOf sb σ (dinode sb σ) (n, x) := by
    intro n hn x
    refine addrOf_congr (hdin n) (fun h0 => ?_) x
    rw [hσ', update_of_ne (h.other_ne hn h0)]
  have hbit : ∀ n < sb.size, usedBit sb σ' n = usedBit sb σ n := by
    intro n hn
    rw [hσ', usedBit_data hd hn]
  refine ⟨⟨⟨h.image.owned.congr (fun x => ?_) fun c hc => ?_, fun n hn => ?_⟩, h.inum, h.type⟩, rfl,
    hdin, fun x _ => hself x, hother⟩
  · obtain ⟨n, x⟩ := x
    by_cases hn : n = ip.inum
    · rw [hn, h.addrOf_self, addrOf_of_allocated h.inum (by rw [view_self]; exact h.type), view_self, hself]
    · rw [addrOf_view_ne hn, addrOf_view_ne hn, hother n hn]
  · unfold used
    rw [hbit _ hc.2]
  · rw [hbit n (by omega)]; exact h.image.before n hn

theorem wp_storeChunk (h : Holding sb σ ip) (hbn : bn < MAXFILE)
    (ha : (fileSlot bn hbn).get σ ip.toDinode ≠ 0) {data : Block} {bytes : List Vm.Copy.Byte}
    {Q : Unit → Blocks → Prop} (hQ : ∀ σ', Holding sb σ' ip → Grows sb σ ip σ' ip → σ' = (if bytes = [] then σ else
        update σ ((fileSlot bn hbn).get σ ip.toDinode) (setBytes data (off % BSIZE) bytes)) → Q () σ') :
    wp seq (storeChunk ((fileSlot bn hbn).get σ ip.toDinode) data off bytes) Q σ := by
  unfold storeChunk
  by_cases hnil : bytes = []
  · rw [if_pos hnil]; exact hQ σ h .refl (if_pos hnil).symm
  · rw [if_neg hnil]
    obtain ⟨hh, hg⟩ := h.write hbn ha (setBytes data (off % BSIZE) bytes) rfl
    exact ⟨trivial, hQ _ hh hg (if_neg hnil).symm⟩

theorem chunk_le : chunk n tot off ≤ n - tot := Nat.min_le_left _ _

theorem chunk_le_block : chunk n tot off ≤ BSIZE - off % BSIZE := Nat.min_le_right _ _

/-- What the loop of `writei` does from `tot` to `tot'`, from place `off` of the file on. -/
structure Wrote (sb : Superblock) (n : ℕ) (σ : Blocks) (ip : Inode) (tot off : ℕ) (σ' : Blocks)
    (ip' : Inode) (tot' : ℕ) : Prop where
  holding : Holding sb σ' ip'
  grows : Grows sb σ ip σ' ip'
  le : tot ≤ tot'
  le_max : tot' ≤ max tot n
  filled : ∀ k, off ≤ k → Filled σ ip.toDinode k → Filled σ' ip'.toDinode (max k (off + (tot' - tot)))

variable {tot' i : ℕ} {src : Src}

theorem Wrote.stop (h : Holding sb σ' ip') (g : Grows sb σ ip σ' ip') : Wrote sb n σ ip tot off σ' ip' tot := by
  refine ⟨h, g, le_rfl, Nat.le_max_left _ _, fun k hk hf => ?_⟩
  rw [Nat.sub_self, Nat.add_zero, Nat.max_eq_left hk]; exact hf.grows g

theorem Wrote.round {σ1 : Blocks} {ip1 : Inode} (ht : tot < n) (g : Grows sb σ ip σ1 ip1)
    (ha : fileAddr σ1 ip1.toDinode (off / BSIZE) ≠ 0)
    (h : Wrote sb n σ1 ip1 (tot + chunk n tot off) (off + chunk n tot off) σ' ip' tot') :
    Wrote sb n σ ip tot off σ' ip' tot' := by
  have hle := h.le
  have hmax := h.le_max
  have hc : chunk n tot off ≤ n - tot := chunk_le
  refine ⟨h.holding, g.trans h.grows, by omega, by omega, fun k hk hf => ?_⟩
  have hf' := h.filled _ (Nat.le_max_right _ _) ((hf.grows g).extend hk chunk_le_block ha)
  have hsum : max (max k (off + chunk n tot off))
      (off + chunk n tot off + (tot' - (tot + chunk n tot off))) = max k (off + (tot' - tot)) := by
    omega
  rwa [hsum] at hf'

theorem wp_writeLoop (rounds : ℕ) (h : Holding sb σ ip)
    (hend : off + (n - tot) ≤ MAXFILE * BSIZE) {Q : Inode × ℕ → Blocks → Prop}
    (hQ : ∀ ip' tot' σ', Wrote sb n σ ip tot off σ' ip' tot' → Q (ip', tot') σ') :
    wp seq (writeLoop sb src n rounds ip tot off) Q σ := by
  induction rounds generalizing ip σ tot off with
  | zero => exact hQ _ _ _ (.stop h .refl)
  | succ rounds ih =>
    unfold writeLoop
    by_cases ht : tot < n
    · rw [if_pos ht]
      have hB : BSIZE = 1024 := rfl
      have hbn : off / BSIZE < MAXFILE := by rw [hB] at hend ⊢; omega
      refine .bind (wp_bmap h hbn fun addr ip1 σ1 h1 g1 _ ha => ?_)
      dsimp only
      by_cases h0 : addr = 0
      · rw [if_pos h0]; exact hQ _ _ _ (.stop h1 g1)
      · rw [if_neg h0]
        obtain rfl := ha h0
        refine .bind (wp_bread.mpr (.bind (wp_storeChunk h1 hbn h0 fun σ2 h2 g2 _ => ?_)))
        by_cases hok : (eitherCopyin src tot (chunk n tot off)).2 = true
        · rw [if_pos hok]
          have hc : chunk n tot off ≤ n - tot := chunk_le
          refine .bind ⟨trivial, .bind (wp_brelse.mpr (ih h2 (by omega) ?_))⟩
          intro ip' tot' σ' hw
          refine hQ _ _ _ (hw.round ht (g1.trans g2) ?_)
          rw [fileAddr_eq hbn, g2.keep _ h0]; exact h0
        · rw [if_neg hok]
          exact .bind (wp_brelse.mpr (hQ _ _ _ (.stop h2 (g1.trans g2))))
    · rw [if_neg ht]; exact hQ _ _ _ (.stop h .refl)

/-! ## The inode goes back to the disk -/

structure Synced (sb : Superblock) (σ : Blocks) (ip : Inode) : Prop where
  image : Image sb σ (dinode sb σ)
  inum : ip.inum < sb.ninodes
  copy : dinode sb σ ip.inum = ip.toDinode

def Others (sb : Superblock) (i : ℕ) (σ σ' : Blocks) : Prop :=
  ∀ n < sb.ninodes, n ≠ i → dinode sb σ' n = dinode sb σ n ∧
    ∀ x, addrOf sb σ' (dinode sb σ') (n, x) = addrOf sb σ (dinode sb σ) (n, x)

theorem Others.refl : Others sb i σ σ := fun _ _ _ => ⟨rfl, fun _ => rfl⟩

theorem Others.trans (h : Others sb i σ σ') (h' : Others sb i σ' σ'') : Others sb i σ σ'' := fun n hn hi =>
  ⟨(h' n hn hi).1.trans (h n hn hi).1, fun x => ((h' n hn hi).2 x).trans ((h n hn hi).2 x)⟩

theorem Grows.others (h : Grows sb σ ip σ' ip') : Others sb ip.inum σ σ' :=
  fun n hn hi => ⟨h.dinode n hn, h.other n hi⟩

theorem Synced.hold (h : Synced sb σ ip) (ht : ip.type ≠ 0) : Holding sb σ ip := by
  have hi := h.image.hold h.inum (by rw [h.copy]; exact ht)
  rw [h.copy] at hi; exact hi

theorem Holding.fields (h : Holding sb σ ip) (ha : ip'.addrs = ip.addrs) (hi : ip'.inum = ip.inum)
    (ht : ip'.type = ip.type) : Holding sb σ ip' := by
  have htype : ip'.type ≠ 0 := by rw [ht]; exact h.type
  refine ⟨⟨h.image.owned.congr (fun x => ?_) fun _ _ => Iff.rfl, h.image.before⟩, hi ▸ h.inum, htype⟩
  obtain ⟨n, x⟩ := x
  by_cases hn : n = ip.inum
  · rw [hn, h.addrOf_self, ← hi, addrOf_of_allocated (hi ▸ h.inum) (by rw [view_self]; exact htype),
      view_self]
    exact get_congr ha (fun _ => rfl) x
  · rw [addrOf_view_ne hn, addrOf_view_ne (by rw [hi]; exact hn)]

theorem Image.setInode_congr (h : Image sb σ T) (hi : i < sb.ninodes)
    (hT : ∀ n < sb.ninodes, ∀ x, addrOf sb (setInode sb σ i d) (dinode sb (setInode sb σ i d)) (n, x) =
      addrOf sb σ T (n, x)) : Image sb (setInode sb σ i d) (dinode sb (setInode sb σ i d)) := by
  refine ⟨h.owned.congr (fun x => ?_) fun c hc => ?_, fun n hn => ?_⟩
  · obtain ⟨n, x⟩ := x
    by_cases hn : n < sb.ninodes
    · exact hT n hn x
    · exact (if_neg fun h => hn h.1).trans (if_neg fun h => hn h.1).symm
  · unfold used
    rw [usedBit_setInode hi hc.2]
  · rw [usedBit_setInode hi (by omega)]; exact h.before n hn

theorem Holding.update (h : Holding sb σ ip) (hσ' : σ' = setInode sb σ ip.inum ip.toDinode) :
    Synced sb σ' ip ∧ Others sb ip.inum σ σ' ∧ ∀ x : Slot, x.get σ' ip.toDinode = x.get σ ip.toDinode := by
  have hdin : ∀ n < sb.ninodes, dinode sb σ' n = view sb σ ip n := by
    intro n hn
    rw [hσ', dinode_setInode h.inum hn]
    by_cases hi : n = ip.inum
    · rw [if_pos hi, hi, view_self]
    · rw [if_neg hi, view_ne hi]
  have hdata : ∀ c, sb.IsData c → σ' c = σ c := by
    intro c hc
    rw [hσ']; exact setInode_data h.inum hc
  have haddr : ∀ n x, addrOf sb σ' (dinode sb σ') (n, x) = addrOf sb σ (view sb σ ip) (n, x) :=
    fun n x => addrOf_congr (hdin n) (fun h0 => hdata _ (h.image.owned.isData _ h0)) x
  refine ⟨⟨?_, h.inum, by rw [hdin _ h.inum, view_self]⟩, fun n hn hi => ⟨?_, fun x => ?_⟩, ?_⟩
  · rw [hσ']
    refine h.image.setInode_congr h.inum fun n _ x => ?_
    rw [← hσ']; exact haddr n x
  · rw [hdin n hn, view_ne hi]
  · rw [haddr, addrOf_view_ne hi]
  · exact get_congr rfl fun h0 => hdata _ (h.get_ne_zero h0).1

theorem Filled.congr (h : Filled σ d k) (hx : ∀ x : Slot, x.get σ' d' = x.get σ d) : Filled σ' d' k := by
  intro bn hbn
  have h0 := h bn hbn
  have hlt := lt_of_fileAddr h0
  rw [fileAddr_eq hlt] at h0 ⊢
  rw [hx]; exact h0

/-- What a whole function does to its inode: it goes back to the disk, other inodes stay, and if there
were no holes there are none. -/
structure Done (sb : Superblock) (σ : Blocks) (ip : Inode) (σ' : Blocks) (ip' : Inode) : Prop where
  synced : Synced sb σ' ip'
  inum : ip'.inum = ip.inum
  others : Others sb ip.inum σ σ'
  filled : Filled σ ip.toDinode ip.size.toNat → Filled σ' ip'.toDinode ip'.size.toNat

theorem toNat_add_of_le {x y : Word} (h : ¬ x + y < x) : (x + y).toNat = x.toNat + y.toNat := by
  rw [BitVec.lt_def, BitVec.toNat_add] at h
  rw [BitVec.toNat_add]; omega

theorem toNat_size_extend (hk : k ≤ MAXFILE * BSIZE) : (ip.extend k).size.toNat = max ip.size.toNat k := by
  have hM : MAXFILE * BSIZE = 274432 := rfl
  unfold Inode.extend
  split_ifs with hlt
  · rw [BitVec.toNat_ofNat]; omega
  · omega

theorem extend_fields (ip : Inode) (k : ℕ) : (ip.extend k).addrs = ip.addrs ∧ (ip.extend k).inum = ip.inum ∧
    (ip.extend k).type = ip.type := by
  unfold Inode.extend
  split_ifs
  · exact ⟨rfl, rfl, rfl⟩
  · exact ⟨rfl, rfl, rfl⟩

theorem wp_writei {off n : Word} (h : Synced sb σ ip) (ht : ip.type ≠ 0)
    {Q : Inode × ℤ → Blocks → Prop} (hQ : ∀ ip' r σ', Done sb σ ip σ' ip' → ip'.type = ip.type → Q (ip', r) σ') :
    wp seq (writei sb ip src off n) Q σ := by
  have hdone : Done sb σ ip σ ip := ⟨h, rfl, .refl, id⟩
  unfold writei
  by_cases h1 : ip.size < off ∨ off + n < off
  · rw [if_pos h1]; exact hQ _ _ _ hdone rfl
  rw [if_neg h1]
  by_cases h2 : MAXFILE * BSIZE < (off + n).toNat
  · rw [if_pos h2]; exact hQ _ _ _ hdone rfl
  rw [if_neg h2]
  rw [not_or] at h1
  rw [toNat_add_of_le h1.2] at h2
  have hoff : off.toNat ≤ ip.size.toNat := by have := h1.1; rw [BitVec.lt_def] at this; omega
  refine .bind (wp_writeLoop _ (h.hold ht) (by omega) fun ip1 tot σ1 hw => ?_)
  have hle := hw.le_max
  obtain ⟨ha, hi, htype⟩ := extend_fields ip1 (off.toNat + tot)
  have hh := hw.holding.fields ha hi htype
  obtain ⟨hs, ho, hx⟩ := hh.update rfl
  refine .bind (wp_iupdate (hQ _ _ _ ⟨hs, hi.trans hw.grows.inum, ?_, fun hf => ?_⟩ ?_))
  · refine hw.grows.others.trans ?_
    rw [← hi.trans hw.grows.inum]; exact ho
  · rw [toNat_size_extend (by omega), hw.grows.size]
    have hf' := hw.filled _ hoff hf
    exact hf'.congr fun x => (hx x).trans (get_congr ha (fun _ => rfl) x)
  · rw [htype, hw.grows.type]

/-- **No file has a hole**: an allocated inode has an address for each block up to its size. -/
def NoHoles (sb : Superblock) (σ : Blocks) : Prop := ∀ n < sb.ninodes, (dinode sb σ n).type ≠ 0 →
  Filled σ (dinode sb σ n) (dinode sb σ n).size.toNat

theorem NoHoles.others (h : NoHoles sb σ) (ho : Others sb i σ σ')
    (hi : (dinode sb σ' i).type ≠ 0 → Filled σ' (dinode sb σ' i) (dinode sb σ' i).size.toNat) : NoHoles sb σ' := by
  intro n hn ht
  by_cases hni : n = i
  · rw [hni] at ht ⊢; exact hi ht
  · obtain ⟨hd, ha⟩ := ho n hn hni
    have ht' : (dinode sb σ n).type ≠ 0 := by rwa [hd] at ht
    rw [hd]
    refine (h n hn ht').congr fun x => ?_
    have hx := ha x
    rw [addrOf_of_allocated hn ht, addrOf_of_allocated hn ht', hd] at hx
    exact hx

end Xv6.Fs.Ownership
