import Xv6.Mkfs.Image

/-!
# Reading the image with the kernel

The kernel finds a file of the image by its name and reads what `mkfs` was given, whatever the pieces were.
The blocks hold the contents (`Xv6.Mkfs.Append.Holds`), so `readi` returns a part of them (`wp_readi_holds`);
the root directory is the list of its rows (`rows`), and `dirlookup` finds the first one with the name
(`wp_lookupLoop`).
-/

namespace Xv6.Mkfs.Contents

open Param Vm.Copy Lib.Programs Fs.Layout Fs.Files Fs.Store Fs.Ownership List
open Fs.Holes
open Mkfs.Defs Mkfs.Append Mkfs.Image Nat
open Fs.Names (ROOTINO cstr namei namexLoop namex IsName namecmp_dirent inum_get_put elements_name)
open Fs.LogOps (Block)
open Syscall.Defs (Name Path slash elements elements_slash)

/-! ## Parts of the contents -/

def slice (c : List Byte) (off len : ℕ) : List Byte := (range len).map fun j => c.getD (off + j) 0

variable {c c' : List Byte} {off len m k : ℕ} {i : Bool} {σ : Blocks} {d : Dinode} {ip dp : Inode}
  {sb : Superblock} {bad : Panic → Prop}

theorem length_slice : (slice c off len).length = len := by
  rw [slice, length_map, length_range]

theorem slice_add {a b : ℕ} : slice c off (a + b) = slice c off a ++ slice c (off + a) b := by
  unfold slice
  rw [range_add, map_append, map_map]
  congr 1
  refine map_congr_left fun j _ => ?_
  rw [Function.comp_apply, add_assoc]

theorem slice_append_left : slice (c ++ c') 0 c.length = c := by
  refine ext_getElem length_slice fun j hj hj' => ?_
  simp only [slice, getElem_map, getElem_range]
  rw [zero_add, getD_append _ _ _ _ hj', getD_eq_getElem _ _ hj']

theorem slice_append_right : slice (c ++ c') (c.length + off) len = slice c' off len := by
  refine map_congr_left fun j _ => ?_
  rw [getD_append_right _ _ _ _ (by omega)]
  congr 1; omega

theorem slice_self : slice c 0 c.length = c := by
  have h : slice (c ++ []) 0 c.length = c := slice_append_left
  rwa [append_nil] at h

theorem slice_flatten {L : List (List Byte)} (hL : ∀ x ∈ L, x.length = 16) {x : List Byte}
    (hx : L[k]? = some x) : slice L.flatten (16 * k) 16 = x := by
  induction L generalizing k with
  | nil => simp at hx
  | cons y L ih =>
    have hy := hL y mem_cons_self
    rw [flatten_cons]
    cases k with
    | zero =>
      obtain rfl : y = x := Option.some.inj hx
      rw [← hy]; exact slice_append_left
    | succ k =>
      rw [show 16 * (k + 1) = y.length + 16 * k by omega, slice_append_right]
      exact ih (fun z hz => hL z (mem_cons_of_mem _ hz)) hx

theorem getBytes_holds (h : Holds σ d m i c) (hk : off / BSIZE < m) (hkm : off / BSIZE < MAXFILE)
    (hlen : off % BSIZE + len ≤ BSIZE) :
    getBytes (σ ((fileSlot (off / BSIZE) hkm).get σ d)) (off % BSIZE) len = slice c off len := by
  refine map_congr_left fun j hj => ?_
  have hj := mem_range.mp hj
  rw [h.bytes _ hkm hk _ (by omega)]
  congr 1
  rw [← add_assoc, mul_comm, div_add_mod]

variable {Q : Inode × Dst × ℤ → Blocks → Prop}

theorem wp_readLoop_holds (h : Holds σ ip.toDinode m i c) {n rounds tot : ℕ} {bs : List Byte}
    (hr : n - tot ≤ rounds) (htot : tot ≤ n) (hend : off + (n - tot) ≤ m * BSIZE)
    (hQ : Q (ip, .kernel (bs ++ slice c off (n - tot)), (n : ℤ)) σ) :
    wp (reads bad) (readLoop sb n rounds ip (.kernel bs) tot off) Q σ := by
  induction rounds generalizing bs tot off with
  | zero =>
    obtain rfl : tot = n := by omega
    rw [Nat.sub_self] at hQ
    rw [show bs ++ slice c off 0 = bs from append_nil _] at hQ; exact hQ
  | succ rounds ih =>
    unfold readLoop
    by_cases ht : tot < n
    · rw [if_pos ht]
      have hB : BSIZE = 1024 := rfl
      have hk : off / BSIZE < m := by rw [hB] at hend ⊢; omega
      have hkm : off / BSIZE < MAXFILE := lt_of_lt_of_le hk h.le_max
      have h0 : fileAddr σ ip.toDinode (off / BSIZE) ≠ 0 := by
        rw [fileAddr_eq hkm]; exact (h.addr _ hkm).mpr hk
      refine .bind (wp_bmap_reads h0 ?_)
      dsimp only
      rw [if_neg h0]
      refine .bind ⟨trivial, .bind ⟨trivial, ?_⟩⟩
      obtain ⟨l, hl⟩ : ∃ l, chunk n tot off = l := ⟨_, rfl⟩
      have hle : l ≤ n - tot ∧ off % BSIZE + l ≤ BSIZE ∧ 0 < l := by
        rw [← hl]
        unfold chunk
        rw [hB]; omega
      have hread : getBytes (σ (fileAddr σ ip.toDinode (off / BSIZE))) (off % BSIZE) l = slice c off l := by
        rw [fileAddr_eq hkm]; exact getBytes_holds h hk hkm hle.2.1
      rw [hl]
      show wp (reads bad) (readLoop sb n rounds ip (.kernel (bs ++ getBytes
        (σ (fileAddr σ ip.toDinode (off / BSIZE))) (off % BSIZE) l)) (tot + l) (off + l)) Q σ
      rw [hread]
      refine ih (by omega) (by omega) (by omega) ?_
      rw [append_assoc, ← slice_add, show l + (n - (tot + l)) = n - tot by omega]
      exact hQ
    · obtain rfl : tot = n := by omega
      rw [if_neg ht]
      rw [Nat.sub_self, show bs ++ slice c off 0 = bs from append_nil _] at hQ
      exact hQ

theorem wp_readi_holds (h : Holds σ ip.toDinode m i c) {off n : Word} (hend : off.toNat + n.toNat ≤ m * BSIZE)
    (hsize : off.toNat + n.toNat ≤ ip.size.toNat)
    (hQ : Q (ip, .kernel (slice c off.toNat n.toNat), (n.toNat : ℤ)) σ) :
    wp (reads bad) (readi sb ip (.kernel []) off n) Q σ := by
  have hsum : (off + n).toNat = off.toNat + n.toNat := by
    rw [BitVec.toNat_add, mod_eq_of_lt (by omega)]
  have h1 : ¬ (ip.size < off ∨ off + n < off) := by rw [BitVec.lt_def, BitVec.lt_def]; omega
  have h2 : ¬ ip.size < off + n := by rw [BitVec.lt_def]; omega
  unfold readi
  rw [if_neg h1, if_neg h2]
  refine wp_readLoop_holds h (sub_le _ _) (zero_le _) (by omega) ?_
  exact hQ

theorem wp_readi_stored (h : Stored σ ip.toDinode c) (hQ : Q (ip, .kernel c, (c.length : ℤ)) σ) :
    wp (reads bad) (readi sb ip (.kernel []) 0 ip.size) Q σ := by
  have hz : (0 : Word).toNat = 0 := rfl
  have hle := h.full.length_le
  refine wp_readi_holds h.full (by rw [h.size]; omega) (by rw [hz]; omega) ?_
  rw [hz, h.size, slice_self]; exact hQ

theorem wp_readDirent (h : Holds σ dp.toDinode m i c) (hoff : off + 16 ≤ c.length)
    (hsize : c.length ≤ dp.size.toNat) {e : Panic} {Q : Inode × Dirent → Blocks → Prop}
    (hQ : Q (dp, Dirent.get (slice c off 16)) σ) : wp (reads bad) (readDirent sb e dp off) Q σ := by
  have hle := h.length_le
  have ho : (BitVec.ofNat 32 off).toNat = off := by rw [BitVec.toNat_ofNat, mod_eq_of_lt (by omega)]
  have hn : (16 : Word).toNat = 16 := rfl
  refine .bind (wp_readi_holds h (by rw [hn]; omega) (by rw [ho, hn]; omega) ?_)
  rw [ho, hn]; exact hQ

def rowBytes (rows : List (Name × ℕ)) : List Byte := (rows.map fun r => dirent r.1 r.2).flatten

def AreRows (rows : List (Name × ℕ)) : Prop := ∀ r ∈ rows, IsName r.1 ∧ 0 < r.2 ∧ r.2 < NINODES

section
variable {rows : List (Name × ℕ)} {name : Name} {inum : ℕ}

theorem length_rowBytes (rows : List (Name × ℕ)) : (rowBytes rows).length = 16 * rows.length := by
  induction rows with
  | nil => rfl
  | cons r rows ih =>
    show (dirent r.1 r.2 ++ rowBytes rows).length = _
    rw [length_append, length_dirent, length_cons]; omega

theorem slice_rowBytes {r : Name × ℕ} (hr : rows[k]? = some r) :
    slice (rowBytes rows) (16 * k) 16 = dirent r.1 r.2 := by
  refine slice_flatten (fun x hx => ?_) ?_
  · obtain ⟨r, -, rfl⟩ := mem_map.mp hx; exact length_dirent _ _
  · rw [getElem?_map, hr]; rfl

theorem toNat_inum (h : inum < NINODES) : (BitVec.ofNat 16 inum).toNat = inum := by
  have hN : NINODES = 200 := rfl
  rw [BitVec.toNat_ofNat, mod_eq_of_lt (by omega)]

theorem wp_lookupLoop (h : Holds σ dp.toDinode m i (rowBytes rows))
    (hsize : (rowBytes rows).length ≤ dp.size.toNat) (hrows : AreRows rows) (hk : rows[k]? = some (name, inum))
    {j n : ℕ} (hj : j ≤ k) (hn : k < j + n) (hfirst : ∀ l r, j ≤ l → l < k → rows[l]? = some r → r.1 ≠ name)
    {Q : Inode × Option (ℕ × ℕ) → Blocks → Prop} (hQ : Q (dp, some (inum, 16 * k)) σ) :
    wp (reads bad) (lookupLoop sb (cstr name) ((List.range' j n).map (16 * ·)) dp) Q σ := by
  have hklt : k < rows.length := (List.getElem?_eq_some_iff.mp hk).1
  have hname := hrows _ (mem_of_getElem? hk)
  have hlen := length_rowBytes rows
  induction n generalizing j with
  | zero => omega
  | succ n ih =>
    rw [range'_succ, map_cons]
    refine .bind (wp_readDirent h (by omega) hsize ?_)
    dsimp only
    obtain ⟨r, hr⟩ : ∃ r, rows[j]? = some r := ⟨_, List.getElem?_eq_getElem (by omega)⟩
    obtain ⟨hrn, hr0, hrlt⟩ := hrows r (mem_of_getElem? hr)
    have hcmp : namecmp (cstr name) (Dirent.get (Dirent.put (cstr r.1) (BitVec.ofNat 16 r.2))).name = true ↔
      name = r.1 := namecmp_dirent hname.1 hrn
    rw [slice_rowBytes hr]
    unfold dirent
    rw [inum_get_put]
    by_cases hjk : j = k
    · subst hjk
      obtain rfl : r = (name, inum) := Option.some.inj (hr.symm.trans hk)
      have hne : BitVec.ofNat 16 inum ≠ 0 := by
        intro h0
        have := congrArg BitVec.toNat h0
        rw [toNat_inum hrlt] at this; simp at this; omega
      rw [if_pos ⟨hne, hcmp.mpr rfl⟩, toNat_inum hrlt]; exact hQ
    · have hne := hfirst j r le_rfl (by omega) hr
      rw [if_neg fun hc => hne (hcmp.mp hc.2).symm]
      exact ih (by omega) (by omega) fun l r hl hlk => hfirst l r (by omega) hlk

end

def fileRows : ℕ → List Input → List (Name × ℕ)
  | _, [] => []
  | n, f :: files => (f.shortname, n) :: fileRows (n + 1) files

def rootRows (files : List Input) : List (Name × ℕ) := (dot, ROOTINO) :: (dotdot, ROOTINO) :: fileRows 2 files

section
variable {files : List Input} {n : ℕ}

theorem rowBytes_fileRows : rowBytes (fileRows n files) = entries n files := by
  induction files generalizing n with
  | nil => rfl
  | cons f files ih => rw [entries, ← ih]; rfl

theorem rowBytes_rootRows : rowBytes (rootRows files) = rootEntries files := by
  rw [rootEntries, ← rowBytes_fileRows]; rfl

theorem getElem?_fileRows : (fileRows n files)[k]? = files[k]?.map fun f => (f.shortname, n + k) := by
  induction files generalizing n k with
  | nil => simp [fileRows]
  | cons f files ih =>
    cases k with
    | zero => rfl
    | succ k =>
      rw [fileRows, getElem?_cons_succ, ih, getElem?_cons_succ, show n + 1 + k = n + (k + 1) by omega]

end

variable {f : Input}

theorem mem_shortname {x : Byte} (h : x ∈ f.shortname) : x ∈ f.base ∧ x ∈ f.arg := by
  have hb : x ∈ f.base := by
    unfold Input.shortname at h
    split_ifs at h
    · exact mem_of_mem_tail h
    · exact h
  refine ⟨hb, ?_⟩
  unfold Input.base at hb
  split_ifs at hb
  · exact mem_of_mem_drop hb
  · exact hb

section
variable {files : List Input} (hf : Fits files)
include hf

theorem isName_shortname (hm : f ∈ files) : IsName f.shortname :=
  ⟨fun h => f.string (mem_shortname h).2, (hf.names f hm).2⟩

theorem areRows_rootRows : AreRows (rootRows files) := by
  intro r hr
  rcases mem_cons.mp hr with rfl | hr
  · exact ⟨⟨by decide, by decide⟩, by decide, by decide⟩
  rcases mem_cons.mp hr with rfl | hr
  · exact ⟨⟨by decide, by decide⟩, by decide, by decide⟩
  obtain ⟨k, hk⟩ := mem_iff_getElem?.mp hr
  rw [getElem?_fileRows, Option.map_eq_some_iff] at hk
  obtain ⟨f, hfk, rfl⟩ := hk
  have hlt := (List.getElem?_eq_some_iff.mp hfk).1
  have hin := hf.inodes
  refine ⟨isName_shortname hf (mem_of_getElem? hfk), ?_, ?_⟩
  · omega
  · omega

end

theorem first_row {files : List Input} (hd : (files.map Input.shortname).Nodup)
    (hk : files[k]? = some f) (hres : f.shortname ∉ [dot, dotdot]) {l : ℕ} {r : Name × ℕ} (hl : l < k + 2)
    (hr : (rootRows files)[l]? = some r) : r.1 ≠ f.shortname := by
  simp only [mem_cons, not_mem_nil, or_false, not_or] at hres
  match l with
  | 0 =>
    cases hr; exact fun he => hres.1 he.symm
  | 1 =>
    cases hr; exact fun he => hres.2 he.symm
  | l + 2 =>
    have hr : (fileRows 2 files)[l]? = some r := hr
    rw [getElem?_fileRows, Option.map_eq_some_iff] at hr
    obtain ⟨g, hg, rfl⟩ := hr
    intro he
    have hlt := (List.getElem?_eq_some_iff.mp hk).1
    refine nodup_iff_getElem?_ne_getElem?.mp hd l k (by omega) (by rw [length_map]; exact hlt) ?_
    rw [List.getElem?_map, List.getElem?_map, hg, hk]; exact congrArg some he

/-! ## The kernel on the image -/

def readFile (sb : Superblock) (path : Path) : Code (Option (List Byte × ℤ)) := do
  let found ← namei sb ROOTINO path
  match found with
  | none => return none
  | some inum =>
    let ip ← ilockRead sb inum
    let (_, dst, r) ← readi sb ip (.kernel []) 0 ip.size
    return some (dst.bytes, r)

theorem wp_ilockRead {n : ℕ} (ht : (dinode sb σ n).type ≠ 0) {Q : Inode → Blocks → Prop}
    (hQ : Q ⟨dinode sb σ n, n⟩ σ) : wp (reads bad) (ilockRead sb n) Q σ := by
  refine .bind ⟨trivial, .bind ⟨trivial, ?_⟩⟩
  have ht : (getDinode (σ (sb.IBLOCK n)) (n % IPB)).type ≠ 0 := ht
  show wp (reads bad) (if (getDinode (σ (sb.IBLOCK n)) (n % IPB)).type = 0 then _ else _) Q σ
  rw [if_neg ht]; exact hQ

section
variable {files : List Input} {s : State} {C : ℕ → List Byte} (h : Built files s C) {name : Name} {path : Path}
variable {n : ℕ}
include h

theorem holds_final (h0 : 0 < n) (hn : n < s.freeinode) : Full (final s) (dinode mkfsSb (final s) n) (C n) := by
  refine (h.files n h0 hn).full.congr ?_ fun x hx => h.final_data (h.toRest.data h0 hn hx)
  rw [h.dinode_final (h.allocated h0 hn).1]
  split_ifs <;> rfl

theorem stored_final (h0 : 0 < n) (hn : n < s.freeinode) (hne : n ≠ ROOTINO) :
    Stored (final s) (dinode mkfsSb (final s) n) (C n) := by
  refine ⟨?_, holds_final h h0 hn⟩
  rw [h.dinode_final (h.allocated h0 hn).1, if_neg hne]
  exact (h.files n h0 hn).size

theorem type_root : (dinode mkfsSb (final s) ROOTINO).type = T_DIR := by
  rw [h.type_final (by decide)]
  unfold kind
  rw [if_pos ⟨by decide, h.root_lt⟩, if_pos rfl]

theorem wp_namei (hf : Fits files) (hpath : elements path = [name]) {inum : ℕ}
    (hk : (rootRows files)[k]? = some (name, inum))
    (hfirst : ∀ l r, l < k → (rootRows files)[l]? = some r → r.1 ≠ name) {Q : Option ℕ → Blocks → Prop}
    (hQ : Q (some inum) (final s)) : wp (reads bad) (namei mkfsSb ROOTINO path) Q (final s) := by
  have hB : BSIZE = 1024 := rfl
  have htype := type_root h
  have hhold := holds_final h (show 0 < ROOTINO by decide) h.root_lt
  have hroot := h.root
  have hlen := h.length_root
  have hsize := h.size_root
  have hkr := (List.getElem?_eq_some_iff.mp hk).1
  have hrows := length_rowBytes (rootRows files)
  rw [← rowBytes_rootRows] at hroot
  rw [hroot] at hhold hlen
  unfold namei namex
  rw [hpath, ite_self]
  refine .bind (.bind (wp_ilockRead (by rw [htype]; decide) ?_))
  rw [if_neg (fun hne => hne htype)]
  refine .bind ?_
  unfold dirlookup
  rw [if_pos htype]
  unfold direntOffs
  rw [range_eq_range']
  refine wp_lookupLoop hhold ?_ (areRows_rootRows hf) hk (zero_le _) ?_ (fun l r _ => hfirst l r) ?_
  · rw [hsize, hB]; omega
  · rw [hsize, hB]; omega
  · exact hQ

theorem wp_readFile (hf : Fits files) (hd : (files.map Input.shortname).Nodup)
    (hk : files[k]? = some f) (hres : f.shortname ∉ [dot, dotdot]) (hpath : elements path = [f.shortname])
    {Q : Option (List Byte × ℤ) → Blocks → Prop} (hQ : Q (some (f.content, (f.content.length : ℤ))) (final s)) :
    wp (reads bad) (readFile mkfsSb path) Q (final s) := by
  have hR : ROOTINO = 1 := rfl
  have hcount := h.count
  have hlt := (List.getElem?_eq_some_iff.mp hk).1
  have hrow : (rootRows files)[k + 2]? = some (f.shortname, 2 + k) := by
    show (fileRows 2 files)[k]? = _
    rw [getElem?_fileRows, hk]; rfl
  have hst := stored_final h (show 0 < 2 + k by omega) (by omega) (by omega)
  rw [h.contents k f hk] at hst
  obtain ⟨-, ht⟩ := h.allocated_iff.mpr ⟨show 0 < 2 + k by omega, by omega⟩
  refine .bind (wp_namei h hf hpath hrow (fun l r hl hr => first_row hd hk hres hl hr) ?_)
  exact .bind (wp_ilockRead ht (.bind (wp_readi_stored hst hQ)))

theorem wp_readRoot (hmod : (files.length + 2) % 64 ≠ 0)
    (hQ : ∀ bytes, Q (⟨dinode mkfsSb (final s) ROOTINO, ROOTINO⟩, .kernel bytes,
      (((16 * (files.length + 2) / BSIZE + 1) * BSIZE : ℕ) : ℤ)) (final s)) :
    wp (reads bad) (readi mkfsSb ⟨dinode mkfsSb (final s) ROOTINO, ROOTINO⟩ (.kernel []) 0
      (dinode mkfsSb (final s) ROOTINO).size) Q (final s) := by
  have hB : BSIZE = 1024 := rfl
  have hz : (0 : Word).toNat = 0 := rfl
  have hhold := holds_final h (show 0 < ROOTINO by decide) h.root_lt
  have hsize := h.size_root
  refine wp_readi_holds hhold ?_ (by rw [hz, zero_add]) ?_
  · rw [hsize, h.length_root]; unfold nblk; rw [hB]; omega
  · rw [hsize]; exact hQ _

end

/-- **The kernel reads what `mkfs` was given**: for files that fit, with distinct names that are not empty and
not those of the entries that every directory has, whatever the pieces are. -/
theorem contents_agree (files : List Input) (hf : Fits files) (hd : (files.map Input.shortname).Nodup)
    (hres : ∀ f ∈ files, f.shortname ∉ [[], dot, dotdot]) : ∃ img, mkfs files = .ok img ∧ ∀ f ∈ files,
    ∀ path, path = f.shortname ∨ path = slash :: f.shortname → wp (reads fun _ => False) (readFile mkfsSb path)
      (fun r σ => r = some (f.content, (f.content.length : ℤ)) ∧ σ = img) img := by
  obtain ⟨s, C, hb, himg⟩ := mkfs_built hf
  refine ⟨final s, himg, fun f hm path hpath => ?_⟩
  obtain ⟨k, hk⟩ := mem_iff_getElem?.mp hm
  have hr := hres f hm
  simp only [mem_cons, not_or] at hr
  have hname := elements_name (isName_shortname hf hm) hr.1 fun h => (hf.names f hm).1 (mem_shortname h).1
  refine wp_readFile hb hf hd hk ?_ ?_ ⟨rfl, rfl⟩
  · simp only [mem_cons, not_or]; exact hr.2
  · rcases hpath with rfl | rfl
    · exact hname
    · rw [elements_slash, hname]

def long : Input :=
  ⟨[97, 98, 99, 100, 101, 102, 103, 104, 105, 106, 107, 108, 109, 110], [replicate BSIZE 1, [2]],
    by decide, by decide +kernel⟩

theorem contents_agree_two : ∃ img, mkfs [cat, long] = .ok img ∧
    wp (reads fun _ => False) (readFile mkfsSb cat.shortname)
      (fun r _ => r = some ([127, 69, 76, 70, 2], 5)) img ∧
    wp (reads fun _ => False) (readFile mkfsSb (slash :: long.shortname))
      (fun r _ => r = some (long.content, (long.content.length : ℤ))) img := by
  obtain ⟨img, himg, h⟩ := contents_agree [cat, long]
    ⟨by decide, by decide +kernel, by decide, by decide +kernel⟩ (by decide) (by decide)
  refine ⟨img, himg, wp_mono (fun _ _ hq => hq.1) (h cat (by simp) _ (.inl rfl)), ?_⟩
  exact wp_mono (fun _ _ hq => hq.1) (h long (by simp) _ (.inr rfl))

/-- The files `_`, `_.` and `_..`: their short names are those of directories. -/
def reserved : List Input :=
  [⟨[95], [[7]], by decide, by decide⟩, ⟨[95, 46], [[7]], by decide, by decide⟩,
    ⟨[95, 46, 46], [[7]], by decide, by decide⟩]

/-- `mkfs` takes such files, and the kernel reads the root directory instead. -/
theorem reserved_names : Fits reserved ∧ (reserved.map Input.shortname).Nodup ∧
    reserved.map Input.shortname = [[], dot, dotdot] ∧ ∃ img, mkfs reserved = .ok img ∧
      ∀ f ∈ reserved, wp (reads fun _ => False) (readFile mkfsSb f.shortname)
        (fun r _ => r ≠ some (f.content, (f.content.length : ℤ))) img := by
  have hf : Fits reserved := ⟨by decide, by decide, by decide, by decide +kernel⟩
  obtain ⟨s, C, hb, himg⟩ := mkfs_built hf
  have ht : (dinode mkfsSb (final s) ROOTINO).type ≠ 0 := by rw [type_root hb]; decide
  -- what is read has the size of a block
  have hread : ∀ content : List Byte, content.length = 1 → ∀ r : Option ℕ, r = some ROOTINO →
      wp (reads fun _ => False) (match r with
        | none => return none
        | some inum => do
          let ip ← ilockRead mkfsSb inum
          let (_, dst, r) ← readi mkfsSb ip (.kernel []) 0 ip.size
          return some (dst.bytes, r)) (fun r _ => r ≠ some (content, (content.length : ℤ))) (final s) := by
    rintro content hlen _ rfl
    refine .bind (wp_ilockRead ht (.bind (wp_readRoot hb (by decide) fun bytes => ?_)))
    intro he
    have hsize := Int.ofNat.inj (congrArg Prod.snd (Option.some.inj he))
    rw [hlen] at hsize; exact absurd hsize (by decide)
  have hrow : ∀ name, (name = dot ∨ name = dotdot) → wp (reads fun _ => False) (namei mkfsSb ROOTINO name)
        (fun r σ => r = some ROOTINO ∧ σ = final s) (final s) := by
    rintro name (rfl | rfl)
    · exact wp_namei hb hf (k := 0) (by decide) rfl (fun l r hl => by omega) ⟨rfl, rfl⟩
    · refine wp_namei hb hf (k := 1) (by decide) rfl (fun l r hl hr => ?_) ⟨rfl, rfl⟩
      obtain rfl : l = 0 := by omega
      cases hr; decide
  refine ⟨hf, by decide, by decide, final s, himg, fun f hm => ?_⟩
  simp only [reserved, mem_cons, not_mem_nil, or_false] at hm
  rcases hm with rfl | rfl | rfl
  · exact .bind (hread _ rfl _ rfl)
  · exact wp_seq (hrow _ (.inl rfl)) fun r σ hr => hr.2 ▸ hread _ rfl r hr.1
  · exact wp_seq (hrow _ (.inr rfl)) fun r σ hr => hr.2 ▸ hread _ rfl r hr.1

end Xv6.Mkfs.Contents
