import Mathlib.Data.List.GetD
import Mathlib.Data.List.TakeWhile
import Xv6.Fs.Holes
import Xv6.Syscall.Defs

/-!
# Names and paths on the disk

A name of a directory entry is up to `DIRSIZ` characters without a 0, with zeros after them if there is room.
`strncpy` and `namecmp` go through such arrays; for names they copy and compare strings (`namecmp_dirent`).
`namei` looks up one element of a path after another with `dirlookup`; the references that it takes to the
inodes in memory are not part of this.
-/

namespace Xv6.Fs.Names

open Param Vm.Copy Lib.Programs Fs.Layout Fs.Files List
open Syscall.Defs (Name Path slash skipelem elements elements_eq elements_slash)

def ROOTINO : ℕ := 1

def cstr (s : List Byte) : ℕ → Byte := fun i => s.getD i 0

section
variable (sb : Superblock)

/-- The loop of `namex`, with the elements to come and the one before. -/
def namexLoop (nameiparent : Bool) : List Name → Name → ℕ → Code (Option (ℕ × Name))
  | [], name, ip => return if nameiparent then none else some (ip, name)
  | name :: rest, _, ip => do
    let dp ← ilockRead sb ip
    if dp.type ≠ T_DIR then return none
    else if nameiparent = true ∧ rest = [] then return some (ip, name)
    else
      let (_, next) ← dirlookup sb dp (cstr name)
      match next with
      | none => return none
      | some (next, _) => namexLoop nameiparent rest name next

/-- `namex`, for a process whose directory is `cwd`. -/
def namex (cwd : ℕ) (path : Path) (nameiparent : Bool) : Code (Option (ℕ × Name)) :=
  namexLoop sb nameiparent (elements path) [] (if path.head? = some slash then ROOTINO else cwd)

def namei (cwd : ℕ) (path : Path) : Code (Option ℕ) := do
  let r ← namex sb cwd path false
  return r.map Prod.fst

end

/-! ## Strings -/

structure IsName (s : List Byte) : Prop where
  string : 0 ∉ s
  fits : s.length ≤ DIRSIZ

variable {s t : List Byte} {i n : ℕ}

theorem cstr_of_lt (h : i < s.length) : cstr s i = s[i] := getD_eq_getElem _ _ h

theorem cstr_of_le (h : s.length ≤ i) : cstr s i = 0 := getD_eq_default _ _ h

theorem cstr_eq_zero_iff (hs : 0 ∉ s) : cstr s i = 0 ↔ s.length ≤ i := by
  refine ⟨fun h => ?_, cstr_of_le⟩
  by_contra hlt
  rw [cstr_of_lt (by omega)] at h; exact hs (h ▸ getElem_mem _)

theorem strncmpLoop_iff {p q : ℕ → Byte} : strncmpLoop p q n i = true ↔
    ∀ j, i ≤ j → j < i + n → (∀ l, i ≤ l → l < j → p l ≠ 0) → p j = q j := by
  induction n generalizing i with
  | zero => exact ⟨fun _ j h1 h2 => by omega, fun _ => rfl⟩
  | succ n ih =>
    unfold strncmpLoop
    split_ifs with hp
    · rw [ih]
      constructor
      · intro h j hij hj hl
        by_cases he : j = i
        · rw [he]; exact hp.2
        · exact h j (by omega) (by omega) fun l h1 h2 => hl l (by omega) h2
      · intro h j hij hj hl
        refine h j (by omega) (by omega) fun l h1 h2 => ?_
        by_cases he : l = i
        · rw [he]; exact hp.1
        · exact hl l (by omega) h2
    · rw [decide_eq_true_iff]
      constructor
      · intro he j hij hj hl
        by_cases hji : j = i
        · rw [hji]; exact he
        · exact absurd ⟨hl i le_rfl (by omega), he⟩ hp
      · intro h; exact h i le_rfl (by omega) fun l h1 h2 => by omega

theorem getD_strncpyLoop (hi : i < n) (k : ℕ) (hs : 0 ∉ s) :
    (strncpyLoop (cstr s) n k).getD i 0 = cstr s (k + i) := by
  induction n generalizing i k with
  | zero => omega
  | succ n ih =>
    unfold strncpyLoop
    split_ifs with h0
    · have hle := (cstr_eq_zero_iff hs).mp h0
      rw [cstr_of_le (by omega), getD_replicate]; exact hi
    · cases i with
      | zero => rfl
      | succ i =>
        rw [getD_cons_succ, ih (by omega)]
        congr 1; omega

theorem length_strncpyLoop (t : ℕ → Byte) (n k : ℕ) : (strncpyLoop t n k).length = n := by
  induction n generalizing k with
  | zero => rfl
  | succ n ih =>
    unfold strncpyLoop
    split_ifs
    · exact length_replicate
    · rw [length_cons, ih]

theorem length_put (name : ℕ → Byte) (inum : BitVec 16) : (Dirent.put name inum).length = 16 := by
  unfold Dirent.put
  rw [length_cons, length_cons, length_strncpyLoop]; rfl

theorem inum_get_put (name : ℕ → Byte) (inum : BitVec 16) : (Dirent.get (Dirent.put name inum)).inum = inum := by
  show inum.extractLsb' 8 8 ++ inum.extractLsb' 0 8 = inum
  ext k hk
  rw [BitVec.getElem_append]
  split_ifs with h8
  · rw [BitVec.getElem_extractLsb', Nat.zero_add, BitVec.getLsbD_eq_getElem hk]
  · rw [BitVec.getElem_extractLsb', show 8 + (k - 8) = k by omega, BitVec.getLsbD_eq_getElem hk]

section
variable (hs : IsName s)
include hs

theorem eq_of_cstr (ht : IsName t) (h : ∀ j < DIRSIZ, (∀ l < j, cstr s l ≠ 0) → cstr s j = cstr t j) : s = t := by
  have hlt : ∀ j < s.length, cstr s j = cstr t j := fun j hj =>
    h j (lt_of_lt_of_le hj hs.fits) fun l hl => fun h0 => by
      have := (cstr_eq_zero_iff hs.string).mp h0; omega
  have h1 : s.length ≤ t.length := by
    by_contra hc
    have h0 := hlt t.length (by omega)
    rw [cstr_of_le le_rfl, cstr_eq_zero_iff hs.string] at h0; omega
  have h2 : t.length ≤ s.length := by
    by_contra hc
    have hD : s.length < DIRSIZ := lt_of_lt_of_le (by omega) ht.fits
    have h0 := h s.length hD fun l hl h0 => by
      have := (cstr_eq_zero_iff hs.string).mp h0; omega
    rw [cstr_of_le le_rfl, eq_comm, cstr_eq_zero_iff ht.string] at h0; omega
  refine ext_getElem (by omega) fun j hj hj' => ?_
  rw [← cstr_of_lt hj, ← cstr_of_lt hj', hlt j hj]

theorem namecmp_dirent (ht : IsName t) {inum : BitVec 16} :
    namecmp (cstr s) (Dirent.get (Dirent.put (cstr t) inum)).name = true ↔ s = t := by
  have hname : ∀ j < DIRSIZ, (Dirent.get (Dirent.put (cstr t) inum)).name j = cstr t j := by
    intro j hj
    show (Dirent.put (cstr t) inum).getD (2 + j) 0 = cstr t j
    rw [Nat.add_comm 2 j]
    have := getD_strncpyLoop hj 0 ht.string; rwa [Nat.zero_add] at this
  unfold namecmp
  rw [strncmpLoop_iff]
  constructor
  · intro h
    refine eq_of_cstr hs ht fun j hj hl => ?_
    rw [h j (Nat.zero_le _) (by omega) fun l _ hl' => hl l hl', hname j hj]
  · rintro rfl j - hj -
    rw [hname j (by omega)]

theorem skipelem_name (hne : s ≠ []) (hslash : slash ∉ s) : skipelem s = some (s, []) := by
  have hall : ∀ c ∈ s, c ≠ slash := fun c hc he => hslash (he ▸ hc)
  have htake : s.takeWhile (· ≠ slash) = s :=
    takeWhile_eq_self_iff.mpr fun c hc => decide_eq_true (hall c hc)
  have hdrop : s.dropWhile (· ≠ slash) = [] :=
    dropWhile_eq_nil_iff.mpr fun c hc => decide_eq_true (hall c hc)
  obtain ⟨c, s, rfl⟩ := exists_cons_of_ne_nil hne
  have hc : ¬ decide (c = slash) = true := by simpa using hall c mem_cons_self
  unfold skipelem
  rw [dropWhile_cons_of_neg (p := fun x => decide (x = slash)) hc]
  dsimp only
  rw [htake, hdrop, take_of_length_le hs.fits]; rfl

theorem elements_name (hne : s ≠ []) (hslash : slash ∉ s) : elements s = [s] := by
  rw [elements_eq, skipelem_name hs hne hslash]; rfl

end

end Xv6.Fs.Names
