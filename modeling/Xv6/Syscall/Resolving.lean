import Mathlib.Data.List.DropRight
import Xv6.Syscall.System

/-!
# Paths

What a path means in a tree of directories: its elements are its runs of other characters than slashes, cut to
`DIRSIZ`, and one is followed after the other.  `namei` and `nameiparent` find that, if `iget` finds
room in `itable`.
-/

namespace Xv6.Syscall.Resolving

open Lib.Runs Lib.Stateful Param Syscall.Defs Syscall.Inodes Syscall.Descriptors Syscall.System
open Fs.Layout (DIRSIZ)
open Vm.Copy (Byte)

/-- The runs of other characters than slashes, each cut to `DIRSIZ`. -/
def pathRuns (path : Path) : List Name := ((path.splitOn slash).filter (· ≠ [])).map (·.take DIRSIZ)

/-- The inode that a directory has under a name. -/
def entry (inode : Inum → Inode) (dp : Inum) (name : Name) : Option Inum :=
  if (inode dp).type = .dir then
    ((inode dp).entries.find? fun de => decide (de.inum ≠ 0 ∧ de.name = name)).map Dirent.inum
  else none

/-- The inode reached from `ip` by the names, through directories only. -/
def follow (inode : Inum → Inode) (ip : Inum) (names : List Name) : Option Inum := names.foldlM (entry inode) ip

/-- The directory reached by all names but the last, and the last. -/
def followParent (inode : Inum → Inode) (ip : Inum) (names : List Name) : Option (Inum × Name) := do
  let name ← names.getLast?
  let dp ← follow inode ip names.dropLast
  if (inode dp).type = .dir then return (dp, name) else none

variable {inode : Inum → Inode} {ip : Inum} {names : List Name} {name : Name} {path : Path}
variable {run : List Byte}

/-! ## Elements -/

theorem elements_dropWhile (path : Path) : elements (path.dropWhile (· = slash)) = elements path := by
  rw [elements_eq, elements_eq path]
  unfold skipelem
  rw [List.dropWhile_idempotent]

theorem pathRuns_slash (path : Path) : pathRuns (slash :: path) = pathRuns path := by
  have h : (slash :: path).splitOn slash = [] :: path.splitOn slash :=
    List.splitOn_append_cons_self_of_not_mem List.not_mem_nil path
  unfold pathRuns
  rw [h]; rfl

theorem pathRuns_run (hne : run ≠ []) (hrun : slash ∉ run) (rest : Path) :
    pathRuns (run ++ slash :: rest) = run.take DIRSIZ :: pathRuns rest := by
  unfold pathRuns
  rw [List.splitOn_append_cons_self_of_not_mem hrun, List.filter_cons_of_pos (by simpa using hne)]
  rfl

theorem pathRuns_last (hne : run ≠ []) (hrun : slash ∉ run) : pathRuns run = [run.take DIRSIZ] := by
  unfold pathRuns
  rw [List.splitOn_eq_singleton hrun, List.filter_cons_of_pos (by simpa using hne)]
  rfl

/-- **The elements of a path** are its runs. -/
theorem elements_eq_pathRuns (path : Path) : elements path = pathRuns path := by
  induction hn : path.length using Nat.strong_induction_on generalizing path with
  | _ n ih =>
    subst hn
    cases path with
    | nil => rfl
    | cons c path =>
      by_cases hc : c = slash
      · subst hc
        rw [elements_slash, pathRuns_slash]
        exact ih _ (Nat.lt_succ_self _) path rfl
      -- a run, and what comes after it
      have hskip : skipelem (c :: path) = some (((c :: path).takeWhile (· ≠ slash)).take DIRSIZ,
          ((c :: path).dropWhile (· ≠ slash)).dropWhile (· = slash)) := by
        unfold skipelem
        rw [List.dropWhile_cons_of_neg (by simpa using hc)]
      have hne : (c :: path).takeWhile (· ≠ slash) ≠ [] := by simp [hc]
      have hrun : slash ∉ (c :: path).takeWhile (· ≠ slash) := fun hm => by
        simpa using List.mem_takeWhile_imp hm
      have hsplit := List.takeWhile_append_dropWhile (p := (· ≠ slash)) (l := c :: path)
      have hlen := (List.dropWhile_suffix (· ≠ slash) (l := path)).length_le
      rw [elements_eq, hskip]
      dsimp only
      rw [elements_dropWhile]
      cases hd : (c :: path).dropWhile (· ≠ slash) with
      | nil =>
        rw [hd, List.append_nil] at hsplit
        conv_rhs => rw [← hsplit]
        rw [pathRuns_last hne hrun]; rfl
      | cons d rest =>
        have hslash : d = slash := by
          have := List.head?_dropWhile_not (fun b : Byte => decide (b ≠ slash)) (c :: path)
          rw [hd] at this; simpa using this
        subst hslash
        rw [hd] at hsplit
        rw [List.dropWhile_cons_of_pos (by simpa using hc)] at hd
        conv_rhs => rw [← hsplit]
        rw [pathRuns_run hne hrun, elements_slash]
        refine congrArg _ (ih _ ?_ rest rfl)
        rw [hd, List.length_cons] at hlen
        rw [List.length_cons]; omega

/-! ## The walk -/

theorem lookup_fst (off : ℕ) (es : List Dirent) : (lookup name off es).map Prod.fst =
    (es.find? fun de => decide (de.inum ≠ 0 ∧ de.name = name)).map Dirent.inum := by
  induction es generalizing off with
  | nil => rfl
  | cons de es ih =>
    rw [lookup, List.find?_cons]
    split_ifs with h
    · rw [decide_eq_true h]; rfl
    · rw [decide_eq_false h]; exact ih _

theorem entry_eq (hd : (inode ip).type = .dir) : entry inode ip name = (lookup name 0 (inode ip).entries).map Prod.fst := by
  rw [lookup_fst]; exact if_pos hd

theorem walk_follow : (walk inode false names name ip).map Prod.fst = follow inode ip names := by
  induction names generalizing name ip with
  | nil => rfl
  | cons n rest ih =>
    unfold walk follow
    rw [List.foldlM_cons]
    by_cases hd : (inode ip).type = .dir
    · rw [if_neg (not_not.mpr hd), if_neg (by simp), entry_eq hd]
      cases lookup n 0 (inode ip).entries with
      | none => rfl
      | some r => exact ih
    · rw [if_pos hd]; unfold entry; rw [if_neg hd]; rfl

theorem walk_followParent : walk inode true names name ip = followParent inode ip names := by
  induction names generalizing name ip with
  | nil => rfl
  | cons n rest ih =>
    unfold walk
    by_cases hd : (inode ip).type = .dir
    · rw [if_neg (not_not.mpr hd)]
      cases rest with
      | nil => simp [followParent, follow, hd]
      | cons m rest =>
        rw [if_neg (by simp)]
        have hstep : followParent inode ip (n :: m :: rest) =
            (entry inode ip n).bind fun next => followParent inode next (m :: rest) := by
          unfold followParent follow
          rw [List.dropLast_cons_cons, List.foldlM_cons, List.getLast?_cons_cons]
          cases (m :: rest).getLast? <;> cases entry inode ip n <;> rfl
        rw [hstep, entry_eq hd]
        cases lookup n 0 (inode ip).entries with
        | none => rfl
        | some r => exact ih
    · rw [if_pos hd]
      cases rest with
      | nil => simp [followParent, follow, hd]
      | cons m rest => simp [followParent, follow, List.foldlM_cons, entry, hd]

variable {P : Type} [Fintype P]

/-- **Path resolution.**  From a state in which entries name allocated inodes and two entries of `itable` are free,
for a process with a current directory, `namei` returns the inode that the elements of the path lead to, and
`nameiparent` the directory that all but the last lead to, with the last; neither changes an inode. -/
theorem paths_resolve {s : State P} {p : P} (path : Path) {start : Inum} (h : Good s)
    (hstart : (if path.head? = some slash then some ROOTINO else s.cwd p) = some start) (hp : s.cwd p ≠ none)
    (hT : ∀ i, i = start ∨ Named s i → (s.inode i).type ≠ .free) (hroom : s.inTable + 1 < NINODE) :
    (∃ s', namei p path s = .ok (follow s.inode start (pathRuns path), s') ∧ s'.inode = s.inode) ∧
    ∃ s', nameiparent p path s = .ok (followParent s.inode start (pathRuns path), s') ∧ s'.inode = s.inode := by
  have hwalk : Walkable (fun _ => False) s p path := fun i hi hor =>
    hT i (hor.imp_left fun he => Option.some.inj (he.symm.trans hstart)) hi
  have hfound : ∀ parent, found s p path parent = walk s.inode parent (pathRuns path) [] start := fun parent => by
    unfold found State.start
    rw [hstart, elements_eq_pathRuns]; rfl
  have hb := h.whole.account
  have hfree : NINODE ≤ used s [] + 1 → False := by rw [← hb.book.inTable]; omega
  constructor
  · obtain ⟨r, s', hok, hs, hr, -⟩ := wp_returns (wp_namei hfree hb.book hb.kept hp hwalk)
    rw [hfound, walk_follow] at hr; exact ⟨s', hr ▸ hok, hs.inode⟩
  · obtain ⟨r, s', hok, hs, hr, -⟩ := wp_returns
      (show wp _ (nameiparent p path) _ s from wp_namex hfree hb.book hb.kept hp hwalk)
    rw [hfound, walk_followParent] at hr; exact ⟨s', hr ▸ hok, hs.inode⟩

/-- The file `/a/b`. -/
theorem paths_resolve_nested : ∃ s s' s'' : State Bool,
    namei false [slash, 97, slash, 98] s = .ok (some 3, s') ∧
    nameiparent false [slash, 97, slash, 98] s = .ok (some (2, [98]), s'') := by
  have h0 : Booted (emptyImage.boot false) := Fresh.booted ⟨emptyImage, false, rfl⟩
  obtain ⟨s, hr, -, ht⟩ := exists_run (f := next) sys_next h0
    [(false, .sysMkdir (some [slash, 97]) ⟨true, true⟩),
      (false, .sysOpen (some [slash, 97, slash, 98]) O_CREATE ⟨true, true⟩)]
    (fun s => decide ((∀ d, (s.inode d).type = .dir → ∀ de ∈ (s.inode d).entries, de.inum ≠ 0 →
        (s.inode de.inum).type ≠ .free) ∧ (s.inode ROOTINO).type ≠ .free ∧ s.cwd false ≠ none ∧ s.inTable + 1 < NINODE ∧
      follow s.inode ROOTINO (pathRuns [slash, 97, slash, 98]) = some 3 ∧
      followParent s.inode ROOTINO (pathRuns [slash, 97, slash, 98]) = some (2, [98]))) (by decide +kernel)
  obtain ⟨hnamed, hroot, hcwd, hroom, h1, h2⟩ := of_decide_eq_true ht
  have hT : ∀ i, i = ROOTINO ∨ Named s i → (s.inode i).type ≠ .free := by
    rintro i (rfl | ⟨d, hd, de, hde, rfl, h0⟩)
    · exact hroot
    · exact hnamed d hd de hde h0
  have hres := paths_resolve [slash, 97, slash, 98] (good_reachable (fun _ => Booted.good) ⟨_, hr⟩) rfl hcwd hT hroom
  rw [h1, h2] at hres
  obtain ⟨⟨s', h1, -⟩, s'', h2, -⟩ := hres; exact ⟨s, s', s'', h1, h2⟩

end Xv6.Syscall.Resolving
