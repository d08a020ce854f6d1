import Xv6.Fs.Ownership

/-!
# Blocks are given back

`itrunc` frees the direct blocks one after another, then those that the indirect block names, while they
still stand there, and then the indirect block.  An inode without addresses can be freed (`iputFree`) or
taken (`ialloc`) without a change of the bitmap.
-/

namespace Xv6.Fs.Truncate

open Param Lib.Programs Lib.Owners Fs.Layout Fs.Files Fs.Store List
open Fs.Ownership Fin
open Fs.LogOps (Block)

variable {sb : Superblock} {σ σ' : Blocks} {ip : Inode} {d : Dinode} {b : Word} {n : ℕ}

theorem other_setUsed (h : Holding sb σ ip) (hb : b.toNat < sb.size) {v : Bool} (hn : n ≠ ip.inum) (x : Slot) :
    addrOf sb (setUsed sb σ b v) (dinode sb (setUsed sb σ b v)) (n, x) = addrOf sb σ (dinode sb σ) (n, x) :=
  addrOf_congr (fun hlt => dinode_setUsed hb hlt) (fun h0 => setUsed_data hb (h.other_data hn h0)) x

theorem holding_freeAddr (h : Holding sb σ ip) {i : Fin NDIRECT} (hi : ip.addrs i.castSucc ≠ 0) :
    Holding sb (setUsed sb σ (ip.addrs i.castSucc) false) (ip.setAddr i.castSucc 0) := by
  have hy : (Slot.addr i.castSucc).get σ ip.toDinode ≠ 0 := hi
  have hlt := (h.get_ne_zero hy).1.2
  refine h.give ⟨rfl, rfl, fun x hx => ?_, fun n hn x => other_setUsed h hlt hn x⟩ hy setAddr_self
    fun n hn => usedBit_setUsed hn hlt
  cases x with
  | addr j => exact setAddr_ne fun hj => hx (by rw [hj])
  | entry j =>
    refine entry_congr (setAddr_ne (castSucc_lt_last i).ne') fun h0 => ?_
    exact setUsed_data hlt (h.get_ne_zero h0).1

variable {Q : Inode → Blocks → Prop}

theorem wp_truncAddrs (h : Holding sb σ ip)
    (hQ : ∀ ip' σ', Holding sb σ' ip' → ip'.inum = ip.inum → ip'.type = ip.type →
      (∀ i : Fin NDIRECT, ip'.addrs i.castSucc = 0) → Others sb ip.inum σ σ' → Q ip' σ') :
    wp seq ((List.finRange NDIRECT).foldlM (truncAddr sb) ip) Q σ := by
  refine wp_foldlM (fun l ip' σ' => Holding sb σ' ip' ∧ ip'.inum = ip.inum ∧ ip'.type = ip.type ∧
    (∀ i : Fin NDIRECT, i ∉ l → ip'.addrs i.castSucc = 0) ∧ Others sb ip.inum σ σ') ?_ ?_ ?_
  · rintro i l ip' σ' ⟨hh, hi, ht, h0, ho⟩
    have hrest : ∀ j : Fin NDIRECT, j ∉ l → j ≠ i → ip'.addrs j.castSucc = 0 := fun j hj hji =>
      h0 j fun hmem => (mem_cons.mp hmem).elim hji hj
    unfold truncAddr
    split_ifs with hz
    · refine ⟨hh, hi, ht, fun j hj => ?_, ho⟩
      by_cases hji : j = i
      · rw [hji]; exact hz
      · exact hrest j hj hji
    · have hy : (Slot.addr i.castSucc).get σ' ip'.toDinode ≠ 0 := hz
      obtain ⟨hd, hu⟩ := hh.get_ne_zero hy
      refine .bind (wp_bfree hu ⟨holding_freeAddr hh hz, hi, ht, fun j hj => ?_, ho.trans fun n hn hne =>
        ⟨dinode_setUsed hd.2 hn, fun x => other_setUsed hh hd.2 (by rw [hi]; exact hne) x⟩⟩)
      by_cases hji : j = i
      · rw [hji]; exact setAddr_self
      · rw [← hrest j hj hji]
        exact setAddr_ne fun h => hji (castSucc_injective _ h)
  · rintro ip' σ' ⟨hh, hi, ht, h0, ho⟩
    exact hQ ip' σ' hh hi ht (fun i => h0 i not_mem_nil) ho
  · exact ⟨h, rfl, rfl, fun i hi => absurd (mem_finRange i) hi, .refl⟩

/-! ## The indirect block -/

/-- The addresses `A` without the entries of inode `i` that are not in `l`. -/
def pruned (A : ℕ × Slot → Word) (i : ℕ) (l : List ℕ) : ℕ × Slot → Word
  | (n, .entry j) => if n = i ∧ j.val ∉ l then 0 else A (n, .entry j)
  | (n, .addr k) => A (n, .addr k)

/-- The second loop of `itrunc` has freed the entries that are not in `l`, but they still stand in the
indirect block. -/
structure Pruned (sb : Superblock) (A : ℕ × Slot → Word) (i : ℕ) (σ : Blocks) (l : List ℕ)
    (σ' : Blocks) : Prop where
  owned : Owned 0 sb.IsData (used sb σ') (pruned A i l)
  before : MetaUsed sb σ'
  data : ∀ c, sb.IsData c → σ' c = σ c
  inodes : ∀ n < sb.ninodes, dinode sb σ' n = dinode sb σ n
  nodup : l.Nodup
  lt : ∀ j ∈ l, j < NINDIRECT

variable {A : ℕ × Slot → Word} {i j : ℕ} {l : List ℕ}

theorem pruned_ne {x : ℕ × Slot} (hx : ∀ hj : j < NINDIRECT, x ≠ (i, .entry ⟨j, hj⟩)) :
    pruned A i l x = pruned A i (j :: l) x := by
  obtain ⟨n, x⟩ := x
  cases x with
  | addr k => rfl
  | entry k =>
    show (if n = i ∧ k.val ∉ l then 0 else A (n, .entry k)) =
      if n = i ∧ k.val ∉ j :: l then 0 else A (n, .entry k)
    by_cases hn : n = i
    · have hkj : k.val ≠ j := by rintro rfl; exact hx k.isLt (by rw [hn])
      have hmem : k.val ∉ j :: l ↔ k.val ∉ l := by simp [hkj]
      simp only [hmem]
    · rw [if_neg (fun h => hn h.1), if_neg (fun h => hn h.1)]

theorem pruned_head (hj : j < NINDIRECT) : pruned A i (j :: l) (i, .entry ⟨j, hj⟩) = A (i, .entry ⟨j, hj⟩) :=
  if_neg fun h => h.2 mem_cons_self

theorem pruned_out {k : Fin NINDIRECT} (hk : k.val ∉ l) : pruned A i l (i, .entry k) = 0 :=
  if_pos ⟨rfl, hk⟩

theorem metaUsed_setUsed (h : MetaUsed sb σ) (hd : sb.IsData b) : MetaUsed sb (setUsed sb σ b false) := by
  intro n hn
  have := hd.1
  rw [usedBit_setUsed (by omega) hd.2, if_neg (by omega)]; exact h n hn

theorem used_setUsed {c : Word} (hc : sb.IsData c) (hb : b.toNat < sb.size) :
    used sb (setUsed sb σ b false) c ↔ used sb σ c ∧ c ≠ b := by
  unfold used
  rw [usedBit_setUsed hc.2 hb]
  by_cases hcb : c = b
  · simp [hcb]
  · rw [if_neg fun he => hcb (BitVec.eq_of_toNat_eq he)]
    simp [hcb]

theorem Pruned.round {a : Block} (ha : ∀ k : Fin NINDIRECT, A (i, .entry k) = a.word k)
    (h : Pruned sb A i σ (j :: l) σ') : wp seq (truncEntry sb a () j) (fun _ σ'' => Pruned sb A i σ l σ'') σ' := by
  have hj := h.lt j mem_cons_self
  obtain ⟨hjl, hnodup⟩ := nodup_cons.mp h.nodup
  have hlt : ∀ k ∈ l, k < NINDIRECT := fun k hk => h.lt k (mem_cons_of_mem _ hk)
  have hhead : pruned A i (j :: l) (i, .entry ⟨j, hj⟩) = a.word j := (pruned_head hj).trans (ha _)
  have hgone : pruned A i l (i, .entry ⟨j, hj⟩) = 0 := pruned_out hjl
  unfold truncEntry
  split_ifs with h0
  · refine ⟨h.owned.congr (fun x => ?_) fun _ _ => Iff.rfl, h.before, h.data, h.inodes, hnodup, hlt⟩
    by_cases hx : x = (i, .entry ⟨j, hj⟩)
    · rw [hx, hhead, hgone, h0]
    · exact pruned_ne fun _ => hx
  · have hne : pruned A i (j :: l) (i, .entry ⟨j, hj⟩) ≠ 0 := by rw [hhead]; exact h0
    have hd := h.owned.isData _ hne
    have hu := h.owned.used_addr hne
    rw [hhead] at hd hu
    refine wp_bfree hu ⟨h.owned.give hne hgone (fun x hx => pruned_ne fun _ => hx) fun c hc => ?_,
      metaUsed_setUsed h.before hd, fun c hc => ?_, fun n hn => ?_, hnodup, hlt⟩
    · rw [hhead]; exact used_setUsed hc hd.2
    · rw [setUsed_data hd.2 hc]; exact h.data c hc
    · rw [dinode_setUsed hd.2 hn]; exact h.inodes n hn

section
variable (h : Holding sb σ ip)
include h

theorem Pruned.start : Pruned sb (addrOf sb σ (view sb σ ip)) ip.inum σ (List.range NINDIRECT) σ := by
  refine ⟨h.image.owned.congr (fun x => ?_) fun _ _ => Iff.rfl, h.image.before, fun _ _ => rfl,
    fun _ _ => rfl, nodup_range, fun j => mem_range.mp⟩
  obtain ⟨n, x⟩ := x
  cases x with
  | addr k => rfl
  | entry k => exact if_neg fun hk => hk.2 (mem_range.mpr k.isLt)

theorem Pruned.finish (hind : indirect.get σ ip.toDinode ≠ 0)
    (hp : Pruned sb (addrOf sb σ (view sb σ ip)) ip.inum σ [] σ') : used sb σ' (indirect.get σ ip.toDinode) ∧
    Holding sb (setUsed sb σ' (indirect.get σ ip.toDinode) false) (ip.setAddr (last NDIRECT) 0) ∧
    Others sb ip.inum σ (setUsed sb σ' (indirect.get σ ip.toDinode) false) := by
  have hself : pruned (addrOf sb σ (view sb σ ip)) ip.inum [] (ip.inum, indirect) =
      indirect.get σ ip.toDinode := h.addrOf_self indirect
  have hne : pruned (addrOf sb σ (view sb σ ip)) ip.inum [] (ip.inum, indirect) ≠ 0 := by
    rw [hself]; exact hind
  have hd := (h.get_ne_zero hind).1
  have hu := hp.owned.used_addr hne
  rw [hself] at hu
  generalize hσ : setUsed sb σ' (indirect.get σ ip.toDinode) false = σ1
  have hdata : ∀ c, sb.IsData c → σ1 c = σ c := by
    intro c hc
    rw [← hσ, setUsed_data hd.2 hc, hp.data c hc]
  have hdin : ∀ n < sb.ninodes, dinode sb σ1 n = dinode sb σ n := by
    intro n hn
    rw [← hσ, dinode_setUsed hd.2 hn, hp.inodes n hn]
  have hother : ∀ n, n ≠ ip.inum → ∀ x,
      addrOf sb σ1 (dinode sb σ1) (n, x) = addrOf sb σ (dinode sb σ) (n, x) := fun n hn x =>
    addrOf_congr (hdin n) (fun h0 => hdata _ (h.other_data hn h0)) x
  have hmine : ∀ x, addrOf sb σ1 (view sb σ1 (ip.setAddr (last NDIRECT) 0)) (ip.inum, x) =
      x.get σ1 (ip.setAddr (last NDIRECT) 0).toDinode := by
    intro x
    have hv : view sb σ1 (ip.setAddr (last NDIRECT) 0) ip.inum =
        (ip.setAddr (last NDIRECT) 0).toDinode := Function.update_self _ _ _
    rw [addrOf_of_allocated h.inum (by rw [hv]; exact h.type), hv]
  have hzero : indirect.get σ1 (ip.setAddr (last NDIRECT) 0).toDinode = 0 := setAddr_self
  refine ⟨hu, ⟨⟨hp.owned.give hne ?_ (fun x hx => ?_) fun c hc => ?_, ?_⟩, h.inum, h.type⟩,
    fun n hn hi => ⟨hdin n hn, hother n hi⟩⟩
  · rw [hmine, hzero]
  · obtain ⟨n, x⟩ := x
    by_cases hn : n = ip.inum
    · subst hn
      rw [hmine]
      cases x with
      | addr k =>
        have hk : k ≠ last NDIRECT := fun hk => hx (by rw [hk]; rfl)
        exact (setAddr_ne hk).trans (h.addrOf_self (.addr k)).symm
      | entry k => rw [get_entry_of_zero hzero, pruned_out not_mem_nil]
    · have hp' : pruned (addrOf sb σ (view sb σ ip)) ip.inum [] (n, x) =
          addrOf sb σ (view sb σ ip) (n, x) := by
        cases x with
        | addr k => rfl
        | entry k => exact if_neg fun hk => hn hk.1
      have hn' : n ≠ (ip.setAddr (last NDIRECT) 0).inum := hn
      rw [hp', addrOf_view_ne hn, addrOf_view_ne hn', hother n hn]
  · rw [hself, ← hσ]; exact used_setUsed hc hd.2
  · rw [← hσ]; exact metaUsed_setUsed hp.before hd

theorem wp_truncIndirect (hQ : ∀ σ', Holding sb σ' (ip.setAddr (last NDIRECT) 0) → Others sb ip.inum σ σ' →
      Q (ip.setAddr (last NDIRECT) 0) σ') : wp seq (truncIndirect sb ip) Q σ := by
  unfold truncIndirect
  split_ifs with h0
  · have hself : ip.setAddr (last NDIRECT) 0 = ip := by
      unfold Inode.setAddr
      rw [← h0, Function.update_eq_self]
    rw [hself] at hQ; exact hQ σ h .refl
  · have hind : indirect.get σ ip.toDinode ≠ 0 := h0
    refine .bind (wp_bread.mpr (.bind ?_))
    refine wp_foldlM (fun l _ σ' => Pruned sb (addrOf sb σ (view sb σ ip)) ip.inum σ l σ') ?_ ?_
      (Pruned.start h)
    · intro j l _ σ' hp
      refine Pruned.round (fun k => ?_) hp
      rw [h.addrOf_self, get_entry hind]; rfl
    · intro _ σ' hp
      obtain ⟨hu, hh, ho⟩ := hp.finish h hind
      exact .bind (wp_brelse.mpr (.bind (wp_bfree hu (hQ _ hh ho))))

end

theorem wp_itrunc (h : Synced sb σ ip) (ht : ip.type ≠ 0)
    (hQ : ∀ ip' σ', Done sb σ ip σ' ip' → ip'.type = ip.type → (∀ k, ip'.addrs k = 0) → Q ip' σ') :
    wp seq (itrunc sb ip) Q σ := by
  refine .bind (wp_truncAddrs (h.hold ht) fun ip1 σ1 h1 hi1 ht1 h0 ho1 => ?_)
  refine .bind (wp_truncIndirect h1 fun σ2 h2 ho2 => ?_)
  have h3 : Holding sb σ2 { ip1.setAddr (last NDIRECT) 0 with size := 0 } := h2.fields rfl rfl rfl
  obtain ⟨hs, ho, -⟩ := h3.update rfl
  refine .bind (wp_iupdate (hQ _ _ ⟨hs, hi1, ?_, fun _ bn hbn => ?_⟩ ht1 fun k => ?_))
  · rw [← hi1] at ho1 ⊢; exact (ho1.trans ho2).trans ho
  · exact absurd hbn (Nat.not_lt_zero _)
  · rcases eq_castSucc_or_eq_last k with ⟨j, rfl⟩ | rfl
    · exact (setAddr_ne (castSucc_lt_last j).ne).trans (h0 j)
    · show (ip1.setAddr (last NDIRECT) 0).addrs (last NDIRECT) = 0
      exact setAddr_self

theorem replace (h : Image sb σ (dinode sb σ)) (hn : n < sb.ninodes)
    (hold : ∀ x, addrOf sb σ (dinode sb σ) (n, x) = 0) (hnew : d.type = 0 ∨ ∀ k, d.addrs k = 0)
    (hσ' : σ' = setInode sb σ n d) : Image sb σ' (dinode sb σ') ∧ Others sb n σ σ' ∧ dinode sb σ' n = d := by
  have hdin : ∀ m < sb.ninodes, dinode sb σ' m = if m = n then d else dinode sb σ m := by
    intro m hm
    rw [hσ', dinode_setInode hn hm]
  have hself : dinode sb σ' n = d := by rw [hdin n hn, if_pos rfl]
  have hzero : ∀ x, addrOf sb σ' (dinode sb σ') (n, x) = 0 := by
    intro x
    rcases hnew with h0 | h0
    · exact if_neg fun hx => hx.2 (by rw [hself]; exact h0)
    · unfold addrOf
      rw [hself]
      split_ifs
      · cases x with
        | addr k => exact h0 k
        | entry j => exact get_entry_of_zero (h0 _)
      · rfl
  have hother : ∀ m < sb.ninodes, m ≠ n → ∀ x,
      addrOf sb σ' (dinode sb σ') (m, x) = addrOf sb σ (dinode sb σ) (m, x) := by
    intro m hm hmn x
    refine addrOf_congr (fun _ => by rw [hdin m hm, if_neg hmn]) (fun h0 => ?_) x
    rw [hσ']; exact setInode_data hn (h.owned.isData _ h0)
  refine ⟨?_, fun m hm hmn => ⟨by rw [hdin m hm, if_neg hmn], hother m hm hmn⟩, hself⟩
  rw [hσ']
  refine h.setInode_congr hn fun m hm x => ?_
  rw [← hσ']
  by_cases hmn : m = n
  · rw [hmn, hzero, hold]
  · exact hother m hm hmn x

theorem wp_iputFree (h : Synced sb σ ip) (ht : ip.type ≠ 0)
    (hQ : ∀ ip' σ', Image sb σ' (dinode sb σ') → Others sb ip.inum σ σ' →
      (dinode sb σ' ip.inum).type = 0 → Q ip' σ') : wp seq (iputFree sb ip) Q σ := by
  refine .bind (wp_itrunc h ht fun ip1 σ1 hd ht1 h0 => ?_)
  have hold : ∀ x, addrOf sb σ1 (dinode sb σ1) (ip1.inum, x) = 0 := by
    intro x
    rw [addrOf_of_allocated hd.synced.inum (by rw [hd.synced.copy, ht1]; exact ht), hd.synced.copy]
    cases x with
    | addr k => exact h0 k
    | entry j => exact get_entry_of_zero (h0 _)
  obtain ⟨hi, ho, hself⟩ := replace (d := { ip1.toDinode with type := 0 }) hd.synced.image
    hd.synced.inum hold (.inl rfl) rfl
  rw [hd.inum] at ho hself
  refine .bind (wp_iupdate (hQ _ _ ?_ (hd.others.trans ?_) ?_))
  · exact hi
  · rw [hd.inum]; exact ho
  · rw [hd.inum, hself]

theorem wp_iallocLoop {type : BitVec 16} (h : Image sb σ (dinode sb σ)) {Q : Option ℕ → Blocks → Prop}
    (hnone : Q none σ) (hsome : ∀ n σ', n < sb.ninodes → (dinode sb σ n).type = 0 →
      Image sb σ' (dinode sb σ') → Others sb n σ σ' →
      dinode sb σ' n = { Dinode.zero with type := type } → Q (some n) σ') {inums : List ℕ}
    (hlt : ∀ n ∈ inums, n < sb.ninodes) : wp seq (iallocLoop sb type inums) Q σ := by
  induction inums with
  | nil => exact hnone
  | cons n inums ih =>
    have hn := hlt n mem_cons_self
    refine .bind (wp_bread.mpr ?_)
    split_ifs with h0
    · have hold : ∀ x, addrOf sb σ (dinode sb σ) (n, x) = 0 := fun x => if_neg fun hx => hx.2 h0
      obtain ⟨hi, ho, hself⟩ := replace (d := { Dinode.zero with type := type }) h hn hold
        (.inr fun _ => rfl) rfl
      exact .bind (wp_putBack.mpr (hsome n _ hn h0 hi ho hself))
    · refine .bind (wp_brelse.mpr (ih fun m hm => hlt m (mem_cons_of_mem _ hm)))

theorem wp_ialloc (type : BitVec 16) (h : Image sb σ (dinode sb σ)) {Q : Option ℕ → Blocks → Prop}
    (hnone : Q none σ) (hsome : ∀ n σ', n < sb.ninodes → (dinode sb σ n).type = 0 →
      Image sb σ' (dinode sb σ') → Others sb n σ σ' →
      dinode sb σ' n = { Dinode.zero with type := type } → Q (some n) σ') :
    wp seq (ialloc sb type) Q σ := by
  refine wp_iallocLoop h hnone hsome fun n hn => ?_
  have := mem_range'_1.mp hn; omega

end Xv6.Fs.Truncate
