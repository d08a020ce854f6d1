import Xv6.Fs.Itable

/-!
# Writers that share a file

Processes that have one `struct file`, from `fork` or `dup`, and write to it with `filewrite`, in chunks.  Their
steps are interleaved in every way, and in between others may change the disk, but not this file.

`contents` are the bytes of a file, up to its size, read through the blocks of the inode.  A `writei` at the end
of the file appends what it says it has written (`wp_writei_append`).
-/

namespace Xv6.Fs.Writers

open Param Vm.Copy Lib.Programs Lib.Runs Fs.Layout Fs.Files Fs.Store Function
open Fs.Ownership List
open Fs.LogOps (Block)

/-! ## The bytes of a file -/

def fileByte (σ : Blocks) (d : Dinode) (k : ℕ) : Byte := byte (σ (fileAddr σ d (k / BSIZE))) (k % BSIZE)

def firstBytes (σ : Blocks) (d : Dinode) (k : ℕ) : List Byte := (range k).map (fileByte σ d)

def contents (σ : Blocks) (d : Dinode) : List Byte := firstBytes σ d d.size.toNat

variable {sb : Superblock} {σ σ' : Blocks} {ip ip' : Inode} {d d' : Dinode} {k n tot off : ℕ}
  {mem : UserMem} {va : ℕ} {j : ℕ}

theorem length_firstBytes : (firstBytes σ d k).length = k := by
  rw [firstBytes, length_map, length_range]

theorem firstBytes_congr (h : ∀ j < k, fileByte σ' d' j = fileByte σ d j) : firstBytes σ' d' k = firstBytes σ d k :=
  map_congr_left fun j hj => h j (mem_range.mp hj)

theorem firstBytes_add {m : ℕ} :
    firstBytes σ d (k + m) = firstBytes σ d k ++ (range m).map fun j => fileByte σ d (k + j) := by
  unfold firstBytes
  rw [range_add, map_append, map_map]; rfl

theorem filled_addr (hf : Filled σ d k) (hj : j < k) : fileAddr σ d (j / BSIZE) ≠ 0 :=
  hf _ ((Nat.div_mul_le_self j BSIZE).trans_lt hj)

theorem fileByte_spares (h : Holding sb σ ip) (g : Grows sb σ ip σ' ip') (hs : Spares sb σ ip σ')
    (hj : fileAddr σ ip.toDinode (j / BSIZE) ≠ 0) : fileByte σ' ip'.toDinode j = fileByte σ ip.toDinode j := by
  have hlt := lt_of_fileAddr hj
  rw [fileAddr_eq hlt] at hj
  unfold fileByte
  rw [fileAddr_eq hlt, fileAddr_eq hlt, g.keep _ hj]
  have hne : (ip.inum, fileSlot (j / BSIZE) hlt) ≠ (ip.inum, indirect) :=
    fun he => fileSlot_ne_indirect hlt (congrArg Prod.snd he)
  have hsame := hs _ hne (by rw [h.addrOf_self]; exact hj)
  rw [h.addrOf_self] at hsame
  rw [hsame]

theorem fileByte_store (h : Holding sb σ ip) (hbn : off / BSIZE < MAXFILE) {bytes : List Byte}
    (g : Grows sb σ ip σ' ip)
    (hσ' : σ' = if bytes = [] then σ else update σ ((fileSlot (off / BSIZE) hbn).get σ ip.toDinode)
      (setBytes (σ ((fileSlot (off / BSIZE) hbn).get σ ip.toDinode)) (off % BSIZE) bytes))
    (hj : fileAddr σ ip.toDinode (j / BSIZE) ≠ 0) :
    fileByte σ' ip.toDinode j = if j / BSIZE = off / BSIZE ∧ off % BSIZE ≤ j % BSIZE then
      bytes.getD (j % BSIZE - off % BSIZE) (fileByte σ ip.toDinode j) else fileByte σ ip.toDinode j := by
  have hlt := lt_of_fileAddr hj
  rw [fileAddr_eq hlt] at hj
  unfold fileByte
  rw [fileAddr_eq hlt, fileAddr_eq hlt, g.keep _ hj]
  by_cases hnil : bytes = []
  · rw [if_pos hnil] at hσ'
    rw [hσ', hnil]
    split_ifs <;> rfl
  rw [if_neg hnil] at hσ'
  by_cases hblk : j / BSIZE = off / BSIZE
  · have hslot : fileSlot (j / BSIZE) hlt = fileSlot (off / BSIZE) hbn := by congr 1
    rw [hslot, hσ', update_self, byte_setBytes (Nat.mod_lt _ (by decide))]
    by_cases hle : off % BSIZE ≤ j % BSIZE
    · rw [if_pos hle, if_pos ⟨hblk, hle⟩]
    · rw [if_neg hle, if_neg fun h => hle h.2]
  · have hne : (fileSlot (j / BSIZE) hlt).get σ ip.toDinode ≠ (fileSlot (off / BSIZE) hbn).get σ ip.toDinode := by
      have := h.ne_slot (y := (ip.inum, fileSlot (j / BSIZE) hlt)) (x := fileSlot (off / BSIZE) hbn)
        (fun he => hblk (fileSlot_inj (Prod.mk.inj he).2)) (by rw [h.addrOf_self]; exact hj)
      rwa [h.addrOf_self] at this
    rw [if_neg fun h => hblk h.1, hσ', update_of_ne hne]

theorem append_nil (hsame : ∀ j < off, fileByte σ' d' j = fileByte σ d j) :
    firstBytes σ' d' (off + (tot - tot)) = firstBytes σ d off ++ userBytes mem (va + tot) (tot - tot) := by
  rw [Nat.sub_self, Nat.add_zero, firstBytes_congr hsame]
  exact (List.append_nil _).symm

theorem append_round (h : Holding sb σ ip) (hbn : off / BSIZE < MAXFILE) (g : Grows sb σ ip σ' ip)
    (hok : (copyin mem va (chunk n tot off)).2 = true) (ha : (fileSlot (off / BSIZE) hbn).get σ ip.toDinode ≠ 0)
    (hσ' : σ' = if (copyin mem va (chunk n tot off)).1 = [] then σ else
      update σ ((fileSlot (off / BSIZE) hbn).get σ ip.toDinode)
        (setBytes (σ ((fileSlot (off / BSIZE) hbn).get σ ip.toDinode)) (off % BSIZE)
          (copyin mem va (chunk n tot off)).1)) (hf : Filled σ ip.toDinode off) :
    firstBytes σ' ip.toDinode (off + chunk n tot off) =
      firstBytes σ ip.toDinode off ++ userBytes mem va (chunk n tot off) := by
  have hB : BSIZE = 1024 := rfl
  have hc : chunk n tot off ≤ BSIZE - off % BSIZE := chunk_le_block
  rw [firstBytes_add]
  congr 1
  · refine firstBytes_congr fun j hj => ?_
    rw [fileByte_store h hbn g hσ' (filled_addr hf hj), if_neg]
    rw [hB]; omega
  · refine map_congr_left fun j hj => ?_
    have hj := mem_range.mp hj
    have hdiv : (off + j) / BSIZE = off / BSIZE := by rw [hB] at hc ⊢; omega
    have hmod : (off + j) % BSIZE = off % BSIZE + j := by rw [hB] at hc ⊢; omega
    have haddr : fileAddr σ ip.toDinode ((off + j) / BSIZE) ≠ 0 := by
      rw [hdiv, fileAddr_eq hbn]; exact ha
    rw [fileByte_store h hbn g hσ' haddr, if_pos ⟨hdiv, by omega⟩, hmod, Nat.add_sub_cancel_left,
      copyin_bytes hok]
    unfold userBytes
    rw [getD_eq_getElem?_getD, getElem?_map, getElem?_range hj]; rfl

theorem wp_writeLoop_append (rounds : ℕ) (h : Holding sb σ ip) (hend : off + (n - tot) ≤ MAXFILE * BSIZE)
    (hf : Filled σ ip.toDinode off) {Q : Inode × ℕ → Blocks → Prop}
    (hQ : ∀ ip' tot' σ', Wrote sb n σ ip tot off σ' ip' tot' → firstBytes σ' ip'.toDinode (off + (tot' - tot)) =
        firstBytes σ ip.toDinode off ++ userBytes mem (va + tot) (tot' - tot) → Q (ip', tot') σ') :
    wp seq (writeLoop sb (.user mem va) n rounds ip tot off) Q σ := by
  induction rounds generalizing ip σ tot off with
  | zero => exact hQ _ _ _ (.stop h .refl) (append_nil fun _ _ => rfl)
  | succ rounds ih =>
    unfold writeLoop
    by_cases ht : tot < n
    · rw [if_pos ht]
      have hB : BSIZE = 1024 := rfl
      have hbn : off / BSIZE < MAXFILE := by rw [hB] at hend ⊢; omega
      refine .bind (wp_bmap h hbn fun addr ip1 σ1 h1 g1 k1 ha => ?_)
      have hsame : ∀ j < off, fileByte σ1 ip1.toDinode j = fileByte σ ip.toDinode j :=
        fun j hj => fileByte_spares h g1 k1 (filled_addr hf hj)
      have hf1 := hf.grows g1
      dsimp only
      by_cases h0 : addr = 0
      · rw [if_pos h0]; exact hQ _ _ _ (.stop h1 g1) (append_nil hsame)
      · rw [if_neg h0]
        obtain rfl := ha h0
        refine .bind (wp_bread.mpr (.bind (wp_storeChunk h1 hbn h0 fun σ2 h2 g2 hσ2 => ?_)))
        by_cases hok : (eitherCopyin (.user mem va) tot (chunk n tot off)).2 = true
        · rw [if_pos hok]
          have hc : chunk n tot off ≤ n - tot := chunk_le
          have hcb : chunk n tot off ≤ BSIZE - off % BSIZE := chunk_le_block
          have ha2 : fileAddr σ2 ip1.toDinode (off / BSIZE) ≠ 0 := by
            rw [fileAddr_eq hbn, g2.keep _ h0]; exact h0
          have hround := append_round h1 hbn g2 hok h0 hσ2 hf1
          have hf2 : Filled σ2 ip1.toDinode (off + chunk n tot off) := by
            have := (hf1.grows g2).extend le_rfl hcb ha2
            rwa [Nat.max_eq_right (Nat.le_add_right _ _)] at this
          refine .bind ⟨trivial, .bind (wp_brelse.mpr (ih h2 (by omega) hf2 ?_))⟩
          intro ip' tot' σ' hw hbytes
          refine hQ _ _ _ (hw.round ht (g1.trans g2) ha2) ?_
          have hle := hw.le
          have hsum : tot' - tot = chunk n tot off + (tot' - (tot + chunk n tot off)) := by omega
          have hrest : firstBytes σ' ip'.toDinode (off + chunk n tot off + (tot' - (tot + chunk n tot off))) =
              firstBytes σ2 ip1.toDinode (off + chunk n tot off) ++
                userBytes mem (va + (tot + chunk n tot off)) (tot' - (tot + chunk n tot off)) := hbytes
          rw [hsum, ← Nat.add_assoc, hrest, hround, firstBytes_congr hsame, userBytes_add, append_assoc,
            Nat.add_assoc]
        · rw [if_neg hok]
          refine .bind (wp_brelse.mpr (hQ _ _ _ (.stop h2 (g1.trans g2)) (append_nil fun j hj => ?_)))
          rw [fileByte_store h1 hbn g2 hσ2 (filled_addr hf1 hj), if_neg, hsame j hj]
          rw [hB]; omega
    · rw [if_neg ht]; exact hQ _ _ _ (.stop h .refl) (append_nil fun _ _ => rfl)

theorem firstBytes_update (h : Holding sb σ ip) (hf : Filled σ ip.toDinode k)
    (hσ' : σ' = setInode sb σ ip.inum ip.toDinode) : firstBytes σ' ip.toDinode k = firstBytes σ ip.toDinode k := by
  obtain ⟨-, -, hx⟩ := h.update hσ'
  refine firstBytes_congr fun j hj => ?_
  have h0 := filled_addr hf hj
  have hlt := lt_of_fileAddr h0
  rw [fileAddr_eq hlt] at h0
  unfold fileByte
  rw [fileAddr_eq hlt, fileAddr_eq hlt, hx, hσ', setInode_data h.inum (h.get_ne_zero h0).1]

theorem wp_writei_append {off n : Word} (h : Synced sb σ ip) (ht : ip.type ≠ 0)
    (hf : Filled σ ip.toDinode ip.size.toNat) (hoff : off = ip.size) {Q : Inode × ℤ → Blocks → Prop}
    (hQ : ∀ ip' (r : ℤ) σ', Done sb σ ip σ' ip' → ip'.type = ip.type → r.toNat ≤ n.toNat →
      ip'.size.toNat = ip.size.toNat + r.toNat →
      contents σ' ip'.toDinode = contents σ ip.toDinode ++ userBytes mem va r.toNat → Q (ip', r) σ') :
    wp seq (writei sb ip (.user mem va) off n) Q σ := by
  subst hoff
  have hnone : ∀ r : ℤ, r.toNat = 0 → Q (ip, r) σ := by
    intro r hr
    refine hQ ip r σ ⟨h, rfl, .refl, id⟩ rfl (by omega) (by omega) ?_
    rw [hr]; exact (List.append_nil _).symm
  unfold writei
  by_cases h1 : ip.size < ip.size ∨ ip.size + n < ip.size
  · rw [if_pos h1]; exact hnone (-1) rfl
  rw [if_neg h1]
  by_cases h2 : MAXFILE * BSIZE < (ip.size + n).toNat
  · rw [if_pos h2]; exact hnone (-1) rfl
  rw [if_neg h2]
  rw [not_or] at h1
  rw [toNat_add_of_le h1.2] at h2
  refine .bind (wp_writeLoop_append _ (h.hold ht) (by omega) hf fun ip1 tot σ1 hw hbytes => ?_)
  have hle := hw.le_max
  obtain ⟨ha, hi, htype⟩ := extend_fields ip1 (ip.size.toNat + tot)
  have hh := hw.holding.fields ha hi htype
  obtain ⟨hs, ho, hx⟩ := hh.update rfl
  have hf1 : Filled σ1 ip1.toDinode (ip.size.toNat + tot) := by
    have := hw.filled _ le_rfl hf
    rwa [Nat.max_eq_right (Nat.le_add_right _ _)] at this
  have hsize : (ip1.extend (ip.size.toNat + tot)).size.toNat = ip.size.toNat + tot := by
    rw [toNat_size_extend (by omega), hw.grows.size]; omega
  have hfe : Filled σ1 (ip1.extend (ip.size.toNat + tot)).toDinode (ip.size.toNat + tot) :=
    hf1.congr fun x => get_congr ha (fun _ => rfl) x
  refine .bind (wp_iupdate (hQ _ _ _ ⟨hs, hi.trans hw.grows.inum, ?_, fun _ => ?_⟩ ?_ ?_ hsize ?_))
  · refine hw.grows.others.trans ?_
    rw [← hi.trans hw.grows.inum]; exact ho
  · rw [hsize]; exact hfe.congr hx
  · rw [htype, hw.grows.type]
  · omega
  · show firstBytes _ _ _ = _
    rw [hsize, firstBytes_update hh hfe rfl]
    refine Eq.trans (firstBytes_congr fun j hj => ?_) hbytes
    unfold fileByte fileAddr; simp only [get_congr ha (fun _ => rfl)]

/-! ## `filewrite` -/

def chunkMax : ℕ := (MAXOPBLOCKS - 1 - 1 - 2) / 2 * BSIZE

/-- A call of `filewrite`: the memory of the process, `addr` and `n`. -/
structure Call where
  mem : UserMem
  addr : ℕ
  n : ℤ

def Call.n1 (c : Call) (i : ℕ) : ℤ := min (c.n - i) chunkMax

/-- What `filewrite` returns when its loop ends at `i`. -/
def Call.ret (c : Call) (i : ℕ) : ℤ := if i = c.n then c.n else -1

/-- Where a process is: not in a call, at the test of the loop, in a round with the lock, before `writei` or
before or after `f->off += r`, or about to return. -/
inductive Pc
  | user
  | loop (c : Call) (i : ℕ)
  | locked (c : Call) (i : ℕ)
  | wrote (c : Call) (i : ℕ) (r : ℤ)
  | advanced (c : Call) (i : ℕ) (r : ℤ)
  | done (ret : ℤ)

def Call.after (c : Call) (i : ℕ) (r : ℤ) : Pc := if r = c.n1 i then .loop c (i + r.toNat) else .done (c.ret i)

/-- The disk, the inode `f->ip` in memory, `f->off`, `f->writable`, who has `ip->lock`, and the processes.
`turns` are those that took the lock, and `log` has what each then wrote. -/
structure State (P : Type) where
  disk : Blocks
  ip : Inode
  off : Word
  writable : Bool
  lock : Option P
  pc : P → Pc
  turns : List P
  log : List (P × List Byte)

inductive Ev (P : Type)
  | call (p : P) (c : Call)
  | finish (p : P)
  | ilock (p : P)
  | writei (p : P)
  | advance (p : P)
  | iunlock (p : P)
  | ret (p : P)
  | other

section
variable {P : Type} [DecidableEq P]

def State.goto (s : State P) (p : P) (pc : Pc) : State P := { s with pc := update s.pc p pc }

variable (sb) in
/-- A step of a process; `begin_op` and `end_op` are taken together with `ilock` and `iunlock`. -/
def exec (s : State P) : Ev P → Option (State P)
  | .call p c =>
    match s.pc p with
    | .user => some (s.goto p (if s.writable then .loop c 0 else .done (-1)))
    | _ => none
  | .finish p =>
    match s.pc p with
    | .loop c i => if (i : ℤ) < c.n then none else some (s.goto p (.done (c.ret i)))
    | _ => none
  | .ilock p =>
    match s.pc p with
    | .loop c i =>
      if (i : ℤ) < c.n ∧ s.lock = none then
        some { s.goto p (.locked c i) with lock := some p, turns := s.turns ++ [p] }
      else none
    | _ => none
  | .writei p =>
    match s.pc p with
    | .locked c i =>
      match (Files.writei sb s.ip (.user c.mem (c.addr + i)) s.off (BitVec.ofInt 32 (c.n1 i))).run handle s.disk with
      | .ok ((ip, r), disk) =>
        some { s.goto p (.wrote c i r) with
          disk := disk, ip := ip, log := s.log ++ [(p, userBytes c.mem (c.addr + i) r.toNat)] }
      | .error _ => none
    | _ => none
  | .advance p =>
    match s.pc p with
    | .wrote c i r =>
      some { s.goto p (.advanced c i r) with off := if 0 < r then s.off + BitVec.ofInt 32 r else s.off }
    | _ => none
  | .iunlock p =>
    match s.pc p with
    | .advanced c i r => some { s.goto p (c.after i r) with lock := none }
    | _ => none
  | .ret p =>
    match s.pc p with
    | .done _ => some (s.goto p .user)
    | _ => none
  | .other => none

variable (sb) in
/-- Others have changed the disk, or `ip->nlink`, but not this file, and the disk is in order. -/
structure Elsewhere (σ : Blocks) (ip : Inode) (σ' : Blocks) (ip' : Inode) : Prop where
  synced : Synced sb σ' ip'
  inum : ip'.inum = ip.inum
  type : ip'.type = ip.type
  size : ip'.size = ip.size
  filled : Filled σ ip.toDinode ip.size.toNat → Filled σ' ip'.toDinode ip'.size.toNat
  bytes : contents σ' ip'.toDinode = contents σ ip.toDinode

variable (sb) in
def sys : Sys (State P) (Ev P) where
  init s := Synced sb s.disk s.ip ∧ s.ip.type ≠ 0 ∧ s.ip.size = 0 ∧ s.off = 0 ∧ s.lock = none ∧
    (∀ p, s.pc p = .user) ∧ s.turns = [] ∧ s.log = []
  step s e s' := exec sb s e = some s' ∨ e = .other ∧ ∃ disk ip,
    Elsewhere sb s.disk s.ip disk ip ∧ s' = { s with disk := disk, ip := ip }

/-! ## The invariant -/

def State.written (s : State P) : List Byte := (s.log.map Prod.snd).flatten

def Turn (s : State P) (p : P) : Pc → Prop
  | .locked c i => (i : ℤ) < c.n ∧ s.off = s.ip.size ∧ s.turns = s.log.map Prod.fst ++ [p]
  | .wrote _ _ r => s.off.toNat + r.toNat = s.ip.size.toNat ∧ s.turns = s.log.map Prod.fst
  | .advanced _ _ _ => s.off = s.ip.size ∧ s.turns = s.log.map Prod.fst
  | _ => False

def Pc.holds : Pc → Prop
  | .locked _ _ | .wrote _ _ _ | .advanced _ _ _ => True
  | _ => False

variable (sb) in
structure Holds (s : State P) : Prop where
  synced : Synced sb s.disk s.ip
  type : s.ip.type ≠ 0
  filled : Filled s.disk s.ip.toDinode s.ip.size.toNat
  bytes : contents s.disk s.ip.toDinode = s.written
  short : ∀ x ∈ s.log, x.2.length ≤ chunkMax

variable (sb) in
structure Inv (s : State P) : Prop where
  file : Holds sb s
  holder : ∀ p, (s.pc p).holds → s.lock = some p
  free : s.lock = none → s.off = s.ip.size ∧ s.turns = s.log.map Prod.fst
  turn : ∀ p, s.lock = some p → Turn s p (s.pc p)

variable {s s' : State P} {p q : P} {pc : Pc} {c : Call} {i : ℕ} {r : ℤ}

theorem goto_self : (s.goto p pc).pc p = pc := update_self _ _ _

theorem goto_ne (h : q ≠ p) : (s.goto p pc).pc q = s.pc q := update_of_ne h _ _

omit [DecidableEq P] in
theorem Holds.keep (h : Holds sb s) (hd : s'.disk = s.disk) (hi : s'.ip = s.ip) (hl : s'.log = s.log) :
    Holds sb s' := by
  refine ⟨?_, ?_, ?_, ?_, ?_⟩
  · rw [hd, hi]; exact h.synced
  · rw [hi]; exact h.type
  · rw [hd, hi]; exact h.filled
  · unfold State.written; rw [hd, hi, hl]; exact h.bytes
  · rw [hl]; exact h.short

theorem Inv.goto (h : Inv sb s) (hp : ¬ (s.pc p).holds) (hpc : ¬ pc.holds) : Inv sb (s.goto p pc) := by
  refine ⟨h.file.keep rfl rfl rfl, fun q hq => ?_, h.free, fun q hq => ?_⟩
  · by_cases hqp : q = p
    · rw [hqp, goto_self] at hq; exact absurd hq hpc
    · rw [goto_ne hqp] at hq; exact h.holder q hq
  · have ht := h.turn q hq
    have hqp : q ≠ p := by
      rintro rfl
      revert ht hp
      cases s.pc q <;> simp [Turn, Pc.holds]
    rw [goto_ne hqp]; exact ht

theorem Inv.step_locked (h : Inv sb s) (hl : s.lock = none ∨ s.lock = some p) (hf : Holds sb s')
    (hlock : s'.lock = some p) (hpc : s'.pc = update s.pc p pc) (ht : Turn s' p pc) : Inv sb s' := by
  refine ⟨hf, fun q hq => ?_, fun hn => ?_, fun q hq => ?_⟩
  · by_cases hqp : q = p
    · rw [hqp]; exact hlock
    · rw [hpc, update_of_ne hqp] at hq
      have := h.holder q hq
      rcases hl with hl | hl
      · rw [hl] at this; cases this
      · rw [hl] at this; exact absurd (Option.some.inj this).symm hqp
  · rw [hlock] at hn; cases hn
  · rw [hlock] at hq; cases hq; rw [hpc, update_self]; exact ht

theorem n1_le (hi : (i : ℤ) < c.n) : (BitVec.ofInt 32 (c.n1 i)).toNat ≤ chunkMax := by
  unfold Call.n1
  rw [BitVec.toNat_ofInt]; omega

section
variable (h : Inv sb s)
include h

theorem Inv.writei (hpc : s.pc p = .locked c i) {disk : Blocks}
    (hw : (Files.writei sb s.ip (.user c.mem (c.addr + i)) s.off (BitVec.ofInt 32 (c.n1 i))).run handle s.disk =
      .ok ((ip, r), disk)) : Inv sb { s.goto p (.wrote c i r) with
      disk := disk, ip := ip, log := s.log ++ [(p, userBytes c.mem (c.addr + i) r.toNat)] } := by
  have hlock := h.holder p (by rw [hpc]; trivial)
  have ht := h.turn p hlock
  rw [hpc] at ht
  obtain ⟨hi, hoff, hturns⟩ := ht
  have hwp := wp_writei_append (Q := fun x σ' => Done sb s.disk s.ip σ' x.1 ∧ x.1.type = s.ip.type ∧
    x.2.toNat ≤ (BitVec.ofInt 32 (c.n1 i)).toNat ∧ x.1.size.toNat = s.ip.size.toNat + x.2.toNat ∧
    contents σ' x.1.toDinode = contents s.disk s.ip.toDinode ++ userBytes c.mem (c.addr + i) x.2.toNat)
    h.file.synced h.file.type h.file.filled hoff fun _ _ _ h1 h2 h3 h4 h5 => ⟨h1, h2, h3, h4, h5⟩
  obtain ⟨hd, htype, hle, hsize, hbytes⟩ := (wp_iff.mp hwp).2.1 _ _ hw
  refine h.step_locked (.inr hlock) ⟨hd.synced, by rw [htype]; exact h.file.type, hd.filled h.file.filled, ?_,
    fun x hx => ?_⟩ hlock rfl ⟨?_, ?_⟩
  · rw [hbytes, h.file.bytes]; unfold State.written; simp
  · rcases mem_append.mp hx with hx | hx
    · exact h.file.short x hx
    · obtain rfl := mem_singleton.mp hx
      rw [length_userBytes]; exact hle.trans (n1_le hi)
  · show s.off.toNat + r.toNat = ip.size.toNat
    rw [hoff, hsize]
  · show s.turns = (s.log ++ _).map Prod.fst
    rw [hturns, map_append]; rfl

theorem Inv.advance (hpc : s.pc p = .wrote c i r) :
    Inv sb { s.goto p (.advanced c i r) with off := if 0 < r then s.off + BitVec.ofInt 32 r else s.off } := by
  have hlock := h.holder p (by rw [hpc]; trivial)
  have ht := h.turn p hlock
  rw [hpc] at ht
  obtain ⟨hsum, hturns⟩ := ht
  refine h.step_locked (.inr hlock) (h.file.keep rfl rfl rfl) hlock rfl ⟨BitVec.eq_of_toNat_eq ?_, hturns⟩
  show (if 0 < r then s.off + BitVec.ofInt 32 r else s.off).toNat = s.ip.size.toNat
  split_ifs with hr
  · rw [BitVec.toNat_add, BitVec.toNat_ofInt]; omega
  · omega

theorem Inv.iunlock (hpc : s.pc p = .advanced c i r) : Inv sb { s.goto p (c.after i r) with lock := none } := by
  have hlock := h.holder p (by rw [hpc]; trivial)
  have ht := h.turn p hlock
  rw [hpc] at ht
  have hafter : ¬ (c.after i r).holds := by
    unfold Call.after
    split_ifs <;> exact id
  refine ⟨h.file.keep rfl rfl rfl, fun q hq => ?_, fun _ => ht, fun q hq => by cases hq⟩
  by_cases hqp : q = p
  · rw [hqp, goto_self] at hq; exact absurd hq hafter
  · rw [goto_ne hqp] at hq
    have hq := h.holder q hq
    rw [hlock] at hq; exact absurd (Option.some.inj hq).symm hqp

theorem Inv.exec {e : Ev P} (he : exec sb s e = some s') : Inv sb s' := by
  cases e with
  | call p c =>
    rw [Writers.exec] at he
    split at he
    · rename_i hpc
      cases he
      exact h.goto (by rw [hpc]; exact id) (by split_ifs <;> exact id)
    · cases he
  | finish p =>
    rw [Writers.exec] at he
    split at he
    · rename_i hpc
      split_ifs at he
      cases he; exact h.goto (by rw [hpc]; exact id) id
    · cases he
  | ilock p =>
    rw [Writers.exec] at he
    split at he
    · rename_i c i hpc
      split_ifs at he with hc
      cases he
      obtain ⟨hoff, hturns⟩ := h.free hc.2
      exact h.step_locked (.inl hc.2) (h.file.keep rfl rfl rfl) rfl rfl
        ⟨hc.1, hoff, congrArg (· ++ [p]) hturns⟩
    · cases he
  | writei p =>
    rw [Writers.exec] at he
    split at he
    · rename_i c i hpc
      split at he
      · rename_i hw; cases he; exact h.writei hpc hw
      · cases he
    · cases he
  | advance p =>
    rw [Writers.exec] at he
    split at he
    · rename_i hpc; cases he; exact h.advance hpc
    · cases he
  | iunlock p =>
    rw [Writers.exec] at he
    split at he
    · rename_i hpc; cases he; exact h.iunlock hpc
    · cases he
  | ret p =>
    rw [Writers.exec] at he
    split at he
    · rename_i hpc; cases he; exact h.goto (by rw [hpc]; exact id) id
    · cases he
  | other => cases he

end

omit [DecidableEq P] in
theorem Inv.elsewhere (h : Inv sb s) {disk : Blocks} {ip : Inode} (he : Elsewhere sb s.disk s.ip disk ip) :
    Inv sb { s with disk := disk, ip := ip } := by
  refine ⟨⟨he.synced, by rw [he.type]; exact h.file.type, he.filled h.file.filled, he.bytes.trans h.file.bytes,
    h.file.short⟩, h.holder, fun hn => ?_, fun p hp => ?_⟩
  · obtain ⟨hoff, hturns⟩ := h.free hn; exact ⟨hoff.trans he.size.symm, hturns⟩
  · have ht := h.turn p hp
    revert ht
    cases s.pc p <;> simp [Turn, he.size]

theorem run_inv {H : List (State P × Ev P)} (hr : Run (sys sb) H s) : Inv sb s := by
  refine hr.inv (fun s hs => ?_) fun s e s' h hs => ?_
  · obtain ⟨hsync, htype, hsize, hoff, hlock, hpc, hturns, hlog⟩ := hs
    have h0 : s.ip.size.toNat = 0 := by rw [hsize]; rfl
    refine ⟨⟨hsync, htype, fun bn hbn => ?_, ?_, ?_⟩, fun p hp => ?_, fun _ => ⟨by rw [hoff, hsize], ?_⟩,
      fun p hp => ?_⟩
    · omega
    · unfold contents State.written; rw [h0, hlog]; rfl
    · rw [hlog]; simp
    · rw [hpc p] at hp; exact hp.elim
    · rw [hturns, hlog]; rfl
    · rw [hlock] at hp; cases hp
  · rcases hs with hs | ⟨-, disk, ip, he, rfl⟩
    · exact h.exec hs
    · exact h.elsewhere he

/-- **Writers that share a file do not overwrite each other.**  In every run the bytes of the file are the
chunks, of at most three blocks each, in the order in which the lock was taken; they are as many as `ip->size`,
in memory and on the disk, and as `f->off` whenever nobody has the lock. -/
theorem writes_appended {H : List (State P × Ev P)} (hr : Run (sys sb) H s) :
    contents s.disk s.ip.toDinode = s.written ∧ s.ip.size.toNat = s.written.length ∧
      dinode sb s.disk s.ip.inum = s.ip.toDinode ∧ (∀ x ∈ s.log, x.2.length ≤ 3 * BSIZE) ∧
      (s.lock = none → s.off.toNat = s.written.length ∧ s.turns = s.log.map Prod.fst) := by
  have h := run_inv hr
  have hsize : s.ip.size.toNat = s.written.length := by
    rw [← h.file.bytes]; exact length_firstBytes.symm
  refine ⟨h.file.bytes, hsize, h.file.synced.copy, h.file.short, fun hn => ?_⟩
  obtain ⟨hoff, hturns⟩ := h.free hn; exact ⟨by rw [hoff, hsize], hturns⟩

end

def pageOf (b : Byte) : UserMem := fun i => if i = 0 then some ⟨true, fun _ => b⟩ else none

def opened (t : Itable.State) : State Bool :=
  ⟨t.store, (t.table 0).inode, 0, true, none, fun _ => .user, [], []⟩

def twoWriters : List (Ev Bool) :=
  [.call false ⟨pageOf 1, 0, 2⟩, .call true ⟨pageOf 2, 0, 3⟩, .ilock true, .writei true, .advance true,
    .iunlock true, .ilock false, .writei false, .advance false, .iunlock false, .finish true, .ret true,
    .call true ⟨pageOf 3, 4095, 2⟩, .ilock true, .writei true, .advance true, .iunlock true]

def bothWritten (s : State Bool) : Bool :=
  decide (s.lock = none ∧ s.log = [(true, [2, 2, 2]), (false, [1, 1]), (true, [])])

/-- Both have written all their bytes, and the last call nothing. -/
theorem writes_appended_two : ∃ (sb : Superblock) (H : List (State Bool × Ev Bool)) (s : State Bool),
    Run (sys sb) H s ∧ contents s.disk s.ip.toDinode = [2, 2, 2, 1, 1] ∧ s.off.toNat = 5 ∧
      s.turns = [true, false, true] := by
  have h0 : (Itable.sys mkfsSb).init Itable.freshState := ⟨Itable.image_freshStore, fun _ => rfl⟩
  obtain ⟨t, hrt, -, ht⟩ := exists_run (f := fun s o => okOf (Itable.exec mkfsSb s o))
    (fun _ _ _ h => okOf_eq_some h) h0 [.ialloc 2, .ilock 0]
    (fun t => decide (0 < (t.table 0).ref ∧ (t.table 0).valid = true ∧ (t.table 0).copy.size = 0) &&
      (twoWriters.foldlM (exec mkfsSb) (opened t)).any bothWritten) (by decide +kernel)
  obtain ⟨ht1, ht2⟩ := Bool.and_eq_true_iff.mp ht
  obtain ⟨href, hvalid, hsize⟩ := of_decide_eq_true ht1
  have hi := Itable.run_inv hrt
  obtain ⟨hcopy, htype⟩ := hi.copy 0 href hvalid
  have hinit : (sys mkfsSb).init (opened t) :=
    ⟨⟨hi.image, hi.inum 0 href, hcopy.symm⟩, htype, hsize, rfl, rfl, fun _ => rfl, rfl, rfl⟩
  obtain ⟨s, hr, -, hs⟩ := exists_run (fun _ _ _ h => Or.inl h) hinit twoWriters _ ht2
  obtain ⟨hlock, hlog⟩ := of_decide_eq_true hs
  obtain ⟨hbytes, -, -, -, hfree⟩ := writes_appended hr
  obtain ⟨hoff, hturns⟩ := hfree hlock
  have hw : s.written = [2, 2, 2, 1, 1] := by unfold State.written; rw [hlog]; rfl
  exact ⟨mkfsSb, _, s, hr, hbytes.trans hw, by rw [hoff, hw]; rfl, by rw [hturns, hlog]; rfl⟩

end Xv6.Fs.Writers
