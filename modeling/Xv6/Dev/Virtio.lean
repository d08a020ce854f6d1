import Xv6.Lib.Counters
import Xv6.Lib.Runs
import Xv6.Param
import Xv6.Vm.Copy

/-!
# The descriptors of the virtio disk

`virtio_disk_rw` and `virtio_disk_intr` of `kernel/virtio_disk.c`, for any number of processes, and the device.
A process runs under `vdisk_lock` up to its next `sleep` or its end, which is one step, and may be woken at any
time; each round of the interrupt handler is a step, as the device goes on while it runs.

The device takes chains from the available ring and puts each once into the used ring, in any order.  The
fields `addr` and `len` of the descriptors and `disk.ops` are left out.
-/

namespace Xv6.Dev.Virtio

open Lib.Runs Lib.Counters List Function Option Nat
open Vm.Copy (Byte)

/-! ## The disk -/

def NUM : ℕ := 8

def DESC_F_NEXT : BitVec 16 := 1

def DESC_F_WRITE : BitVec 16 := 2

structure Desc where
  flags : BitVec 16
  next : BitVec 16

structure Info (B : Type) where
  b : Option B
  status : Byte

/-- `disk`.  The ring `avail` has the index `avail->idx` at its end, and at its front the one up to which the
device has read; `used` has `disk.used_idx` at its front and `used->idx` at its end. -/
structure Disk (B : Type) where
  free : ℕ → Bool
  desc : ℕ → Desc
  info : ℕ → Info B
  avail : Queue ℕ 16
  used : Queue ℕ 16

/-- The panics, the use of a null pointer in `virtio_disk_intr`, and a loop of `free_chain` without end. -/
inductive Panic
  | freeDesc1
  | freeDesc2
  | status
  | null
  | endless
  deriving DecidableEq

variable {B P : Type}

def allocDesc (d : Disk B) : Option ℕ × Disk B :=
  match (List.range NUM).find? d.free with
  | some i => (some i, { d with free := update d.free i false })
  | none => (none, d)

def freeDesc (d : Disk B) (i : ℕ) : Except Panic (Disk B) :=
  if NUM ≤ i then .error .freeDesc1
  else if d.free i then .error .freeDesc2
  else .ok { d with desc := update d.desc i ⟨0, 0⟩, free := update d.free i true }

/-- `free_chain`, with `n` rounds at most. -/
def freeChain : ℕ → Disk B → ℕ → Except Panic (Disk B)
  | 0, _, _ => .error .endless
  | n + 1, d, i =>
    match freeDesc d i with
    | .error e => .error e
    | .ok d' => if (d.desc i).flags &&& DESC_F_NEXT ≠ 0 then freeChain n d' (d.desc i).next.toNat else .ok d'

/-- `alloc3_desc`: the three rounds of its loop, each with what it gives back. -/
def alloc3Desc (d : Disk B) : Except Panic (Option (ℕ × ℕ × ℕ) × Disk B) :=
  match allocDesc d with
  | (none, d) => .ok (none, d)
  | (some i, d) =>
    match allocDesc d with
    | (none, d) => do
      let d ← freeDesc d i
      return (none, d)
    | (some j, d) =>
      match allocDesc d with
      | (none, d) => do
        let d ← freeDesc d i
        let d ← freeDesc d j
        return (none, d)
      | (some k, d) => return (some (i, j, k), d)

/-- `virtio_disk_rw` from the formatting of the descriptors to the notification of the device. -/
def submit (d : Disk B) (b : B) (write : Bool) (i j k : ℕ) : Disk B :=
  let desc := update d.desc i ⟨DESC_F_NEXT, BitVec.ofNat 16 j⟩
  let desc := update desc j ⟨(if write then 0 else DESC_F_WRITE) ||| DESC_F_NEXT, BitVec.ofNat 16 k⟩
  let desc := update desc k ⟨DESC_F_WRITE, 0⟩
  { d with
    desc := desc
    info := update d.info i ⟨some b, 0xff⟩
    avail := d.avail.push NUM i }

/-! ## Processes and the device -/

/-- Where a process is: outside, asleep for want of descriptors, or asleep until its request is done, with the
local variables of `virtio_disk_rw`. -/
inductive Phase (B : Type)
  | idle
  | wait (b : B) (write : Bool)
  | flight (b : B) (i j k : ℕ)

def Phase.buf : Phase B → Option B
  | .idle => none
  | .wait b _ | .flight b _ _ _ => some b

def Phase.chain : Phase B → List ℕ
  | .flight _ i j k => [i, j, k]
  | _ => []

/-- The disk, `b->disk` of the buffers, whether `virtio_disk_intr` has the lock, the chains that the device works
on, and the processes. -/
structure State (B P : Type) where
  disk : Disk B
  busy : B → Bool
  handling : Bool
  taken : List ℕ
  phase : P → Phase B

/-- A call of `virtio_disk_rw`, the end of a `sleep` in it; the device takes a chain, and has done with one;
`virtio_disk_intr` begins, and goes round its loop or ends. -/
inductive Ev (B P : Type)
  | rw (p : P) (b : B) (write : Bool)
  | wake (p : P)
  | take
  | done (i : ℕ)
  | intr
  | handle

inductive Note (B : Type)
  | submit (b : B)
  | complete (b : B)
  | finish (b : B)
  deriving DecidableEq

section
variable [DecidableEq B] [DecidableEq P]

/-- `virtio_disk_rw` from the allocation of descriptors to its next `sleep`. -/
def start (s : State B P) (p : P) (b : B) (write : Bool) : Except Panic (State B P × Option (Note B)) :=
  match alloc3Desc s.disk with
  | .error e => .error e
  | .ok (none, d) => .ok ({ s with disk := d, phase := update s.phase p (.wait b write) }, none)
  | .ok (some (i, j, k), d) =>
    .ok ({ s with
      disk := submit d b write i j k
      busy := update s.busy b true
      phase := update s.phase p (.flight b i j k) }, some (.submit b))

def finish (s : State B P) (p : P) (b : B) (i : ℕ) : Except Panic (State B P × Option (Note B)) :=
  let d := { s.disk with info := update s.disk.info i { s.disk.info i with b := none } }
  match freeChain (NUM + 1) d i with
  | .error e => .error e
  | .ok d => .ok ({ s with disk := d, phase := update s.phase p .idle }, some (.finish b))

/-- A round of the loop of `virtio_disk_intr`, or its end. -/
def handle (s : State B P) : Except Panic (State B P × Option (Note B)) :=
  if s.disk.used.head = s.disk.used.tail then .ok ({ s with handling := false }, none)
  else
    let id := s.disk.used.front NUM
    if (s.disk.info id).status ≠ 0 then .error .status
    else
      match (s.disk.info id).b with
      | none => .error .null
      | some b =>
        .ok ({ s with
          disk := { s.disk with used := s.disk.used.pop }
          busy := update s.busy b false }, some (.complete b))

/-- A step; `none` if it cannot be taken. -/
def exec (s : State B P) : Ev B P → Option (Except Panic (State B P × Option (Note B)))
  | .rw p b write =>
    if s.handling then none
    else
      match s.phase p with
      | .idle => some (start s p b write)
      | _ => none
  | .wake p =>
    if s.handling then none
    else
      match s.phase p with
      | .idle => none
      | .wait b write => some (start s p b write)
      | .flight b i _ _ => some (if s.busy b then .ok (s, none) else finish s p b i)
  | .take =>
    if s.disk.avail.head = s.disk.avail.tail then none
    else some (.ok ({ s with
      disk := { s.disk with avail := s.disk.avail.pop }
      taken := s.taken ++ [s.disk.avail.front NUM] }, none))
  | .done i =>
    if i ∈ s.taken then
      some (.ok ({ s with
        disk := { s.disk with
          info := update s.disk.info i { s.disk.info i with status := 0 }
          used := s.disk.used.push NUM i }
        taken := s.taken.erase i }, none))
    else none
  | .intr => if s.handling then none else some (.ok ({ s with handling := true }, none))
  | .handle => if s.handling then some (handle s) else none

/-- A process that calls `virtio_disk_rw` has locked the buffer: no other one is in it with this buffer. -/
def Locked (s : State B P) : Ev B P → Prop
  | .rw _ b _ => ∀ q, (s.phase q).buf ≠ some b
  | _ => True

def boot (B P : Type) : State B P where
  disk := ⟨fun _ => true, fun _ => ⟨0, 0⟩, fun _ => ⟨none, 0⟩, ⟨fun _ => 0, 0, 0⟩, ⟨fun _ => 0, 0, 0⟩⟩
  busy _ := false
  handling := false
  taken := []
  phase _ := .idle

def sys (B P : Type) [DecidableEq B] [DecidableEq P] : Sys (State B P) (Ev B P × Option (Note B)) where
  init s := s = boot B P
  step s x s' := exec s x.1 = some (.ok (s', x.2)) ∧ Locked s x.1

end

structure Linked (d : Disk B) (i j k : ℕ) : Prop where
  nodup : [i, j, k].Nodup
  lt : ∀ x ∈ [i, j, k], x < NUM
  used : ∀ x ∈ [i, j, k], d.free x = false
  first : (d.desc i).flags &&& DESC_F_NEXT ≠ 0 ∧ (d.desc i).next.toNat = j
  second : (d.desc j).flags &&& DESC_F_NEXT ≠ 0 ∧ (d.desc j).next.toNat = k
  third : (d.desc k).flags &&& DESC_F_NEXT = 0

structure Same (d d' : Disk B) : Prop where
  free : ∀ i, d'.free i = d.free i
  desc : ∀ i, d.free i = false → d'.desc i = d.desc i
  info : d'.info = d.info
  avail : d'.avail = d.avail
  used : d'.used = d.used

variable {d d' : Disk B} {b : B} {i j k : ℕ}

theorem allocDesc_none (h : allocDesc d = (none, d')) : d' = d := by
  unfold allocDesc at h
  split at h
  · cases h
  · exact (Prod.mk.inj h).2.symm

theorem allocDesc_some (h : allocDesc d = (some i, d')) :
    i < NUM ∧ d.free i = true ∧ d' = { d with free := update d.free i false } := by
  unfold allocDesc at h
  split at h
  · next a ha =>
    obtain ⟨hi, rfl⟩ := Prod.mk.inj h
    cases hi
    exact ⟨mem_range.mp (mem_of_find?_eq_some ha), List.find?_some ha, rfl⟩
  · cases h

theorem freeDesc_ok (hi : i < NUM) (hu : d.free i = false) : freeDesc d i =
    .ok { d with desc := update d.desc i ⟨0, 0⟩, free := update d.free i true } := by
  unfold freeDesc
  rw [if_neg (not_le.mpr hi), hu]; rfl

theorem alloc3Desc_spec (d : Disk B) : (∃ d', alloc3Desc d = .ok (none, d') ∧ Same d d') ∨
    ∃ i j k, alloc3Desc d = .ok (some (i, j, k), { d with
        free := update (update (update d.free i false) j false) k false }) ∧
      [i, j, k].Nodup ∧ ∀ x ∈ [i, j, k], x < NUM ∧ d.free x = true := by
  unfold alloc3Desc
  rcases h1 : allocDesc d with ⟨_ | i, d1⟩
  · obtain rfl := allocDesc_none h1
    exact .inl ⟨d1, rfl, ⟨fun _ => rfl, fun _ _ => rfl, rfl, rfl, rfl⟩⟩
  obtain ⟨hi, hfi, rfl⟩ := allocDesc_some h1
  dsimp only
  rcases h2 : allocDesc { d with free := update d.free i false } with ⟨_ | j, d2⟩
  · obtain rfl := allocDesc_none h2
    dsimp only
    rw [freeDesc_ok hi (update_self _ _ _)]
    refine .inl ⟨_, rfl, ⟨fun x => ?_, fun x hx => ?_, rfl, rfl, rfl⟩⟩
    · by_cases hx : x = i <;> simp [hx, hfi]
    · have hne : x ≠ i := by rintro rfl; simp [hfi] at hx
      exact update_of_ne hne _ _
  obtain ⟨hj, hfj, rfl⟩ := allocDesc_some h2
  have hij : j ≠ i := by rintro rfl; simp at hfj
  have hfj : d.free j = true := by simpa [hij] using hfj
  dsimp only
  rcases h3 : allocDesc { d with free := update (update d.free i false) j false } with
    ⟨_ | k, d3⟩
  · obtain rfl := allocDesc_none h3
    dsimp only
    rw [freeDesc_ok hi (by simp [hij.symm])]
    dsimp only [bind, Except.bind]
    rw [freeDesc_ok hj (by simp [hij])]
    refine .inl ⟨_, rfl, ⟨fun x => ?_, fun x hx => ?_, rfl, rfl, rfl⟩⟩
    · by_cases hxj : x = j
      · simp [hxj, hfj]
      · by_cases hxi : x = i <;> simp [hxj, hxi, hij.symm, hfi]
    · have hxi : x ≠ i := by rintro rfl; simp [hfi] at hx
      have hxj : x ≠ j := by rintro rfl; simp [hfj] at hx
      simp [hxi, hxj]
  obtain ⟨hk, hfk, rfl⟩ := allocDesc_some h3
  have hjk : k ≠ j := by rintro rfl; simp at hfk
  have hik : k ≠ i := by rintro rfl; simp [hjk] at hfk
  have hfk : d.free k = true := by simpa [hik, hjk] using hfk
  refine .inr ⟨i, j, k, rfl, by simp [hij.symm, hik.symm, hjk.symm], fun x hx => ?_⟩
  rcases mem_cons.mp hx with rfl | hx
  · exact ⟨hi, hfi⟩
  rcases mem_cons.mp hx with rfl | hx
  · exact ⟨hj, hfj⟩
  obtain rfl := mem_singleton.mp hx; exact ⟨hk, hfk⟩

/-- The descriptors `l` have been freed, and nothing else has changed. -/
structure Freed (d d' : Disk B) (l : List ℕ) : Prop where
  freed : ∀ x ∈ l, d'.free x = true
  free : ∀ x, x ∉ l → d'.free x = d.free x
  desc : ∀ x, x ∉ l → d'.desc x = d.desc x
  info : d'.info = d.info
  avail : d'.avail = d.avail
  used : d'.used = d.used

theorem freeDesc_freed (hi : i < NUM) (hu : d.free i = false) : ∃ d', freeDesc d i = .ok d' ∧ Freed d d' [i] := by
  refine ⟨_, freeDesc_ok hi hu, ⟨fun x hx => ?_, fun x hx => ?_, fun x hx => ?_, rfl, rfl, rfl⟩⟩
  · rw [mem_singleton.mp hx]; exact update_self _ _ _
  · exact update_of_ne (fun h => hx (mem_singleton.mpr h)) _ _
  · exact update_of_ne (fun h => hx (mem_singleton.mpr h)) _ _

theorem Freed.trans {d1 d2 d3 : Disk B} {l1 l2 : List ℕ} (h1 : Freed d1 d2 l1) (h2 : Freed d2 d3 l2) :
    Freed d1 d3 (l1 ++ l2) := by
  have hnot : ∀ x, x ∉ l1 ++ l2 → x ∉ l1 ∧ x ∉ l2 := fun x hx =>
    ⟨fun h => hx (mem_append_left _ h), fun h => hx (mem_append_right _ h)⟩
  refine ⟨fun x hx => ?_, fun x hx => ?_, fun x hx => ?_, h2.info.trans h1.info, h2.avail.trans h1.avail,
    h2.used.trans h1.used⟩
  · by_cases hx2 : x ∈ l2
    · exact h2.freed x hx2
    · rw [h2.free x hx2]
      exact h1.freed x ((mem_append.mp hx).resolve_right hx2)
  · rw [h2.free x (hnot x hx).2, h1.free x (hnot x hx).1]
  · rw [h2.desc x (hnot x hx).2, h1.desc x (hnot x hx).1]

theorem freeChain_ok (h : Linked d i j k) (n : ℕ) : ∃ d', freeChain (n + 3) d i = .ok d' ∧
    Freed d d' [i, j, k] := by
  have hn := h.nodup
  have hij : j ∉ [i] := by simp at hn ⊢; tauto
  have hik : k ∉ [i] := by simp at hn ⊢; tauto
  have hjk : k ∉ [j] := by simp at hn ⊢; tauto
  obtain ⟨d1, hd1, hf1⟩ := freeDesc_freed (h.lt i (by simp)) (h.used i (by simp))
  have hj1 : d1.free j = false := by rw [hf1.free j hij]; exact h.used j (by simp)
  obtain ⟨d2, hd2, hf2⟩ := freeDesc_freed (h.lt j (by simp)) hj1
  have hk2 : d2.free k = false := by rw [hf2.free k hjk, hf1.free k hik]; exact h.used k (by simp)
  obtain ⟨d3, hd3, hf3⟩ := freeDesc_freed (h.lt k (by simp)) hk2
  have hdj : d1.desc j = d.desc j := hf1.desc j hij
  have hdk : d2.desc k = d.desc k := by rw [hf2.desc k hjk, hf1.desc k hik]
  refine ⟨d3, ?_, hf1.trans (hf2.trans hf3)⟩
  rw [freeChain, hd1]
  dsimp only
  rw [if_pos h.first.1, h.first.2, freeChain, hd2]
  dsimp only
  rw [hdj, if_pos h.second.1, h.second.2, freeChain, hd3]
  dsimp only
  rw [hdk, if_neg (not_not.mpr h.third)]

def State.heads (s : State B P) : List ℕ :=
  s.disk.avail.contents NUM ++ s.taken ++ s.disk.used.contents NUM

/-- Each process that waits for its request has a chain of its own, with its buffer; the other descriptors are
free; and the heads on their way to the device and back are those of the requests that are not completed. -/
structure Inv (s : State B P) : Prop where
  alone : ∀ p q b, (s.phase p).buf = some b → (s.phase q).buf = some b → p = q
  linked : ∀ p b i j k, s.phase p = .flight b i j k → Linked s.disk i j k ∧ (s.disk.info i).b = some b
  disjoint : ∀ p q x, x ∈ (s.phase p).chain → x ∈ (s.phase q).chain → p = q
  cover : ∀ x < NUM, s.disk.free x = false → ∃ p, x ∈ (s.phase p).chain
  nodup : s.heads.Nodup
  heads : ∀ i, i ∈ s.heads ↔ ∃ p b j k, s.phase p = .flight b i j k ∧ s.busy b = true
  status : ∀ i ∈ s.disk.used.contents NUM, (s.disk.info i).status = 0
  busy : ∀ b, s.busy b = true → ∃ p i j k, s.phase p = .flight b i j k

variable {s s' : State B P} {p q : P}

theorem Inv.boot : Inv (boot B P) := by
  have hq : Queue.contents NUM (⟨fun _ => 0, 0, 0⟩ : Queue ℕ 16) = [] := contents_eq_nil rfl
  have hh : (Virtio.boot B P).heads = [] := by
    show Queue.contents NUM (⟨fun _ => 0, 0, 0⟩ : Queue ℕ 16) ++ [] ++
      Queue.contents NUM (⟨fun _ => 0, 0, 0⟩ : Queue ℕ 16) = []
    rw [hq]; rfl
  refine ⟨fun p q b hp => ?_, fun p b i j k hp => ?_, fun p q x hx => ?_, fun x _ hx => ?_, ?_,
    fun i => ⟨fun hi => ?_, fun ⟨p, b, j, k, hp, _⟩ => ?_⟩, fun i hi => ?_, fun b hb => ?_⟩
  · cases hp
  · cases hp
  · cases hx
  · cases hx
  · rw [hh]; exact nodup_nil
  · rw [hh] at hi; cases hi
  · cases hp
  · rw [show (Virtio.boot B P).disk.used.contents NUM = [] from hq] at hi
    cases hi
  · cases hb

theorem Inv.head_used (h : Inv s) (hi : i ∈ s.heads) : i < NUM ∧ s.disk.free i = false := by
  obtain ⟨p, b, j, k, hp, -⟩ := (h.heads i).mp hi
  have hl := (h.linked p b i j k hp).1
  exact ⟨hl.lt i (by simp), hl.used i (by simp)⟩

theorem Inv.not_head (h : Inv s) (hf : s.disk.free i = true) : i ∉ s.heads := fun hm => by
  have := (h.head_used hm).2
  rw [hf] at this; cases this

theorem Inv.length_heads (h : Inv s) : s.heads.length ≤ NUM := by
  have hsub : s.heads ⊆ List.range NUM := fun i hi => mem_range.mpr (h.head_used hi).1
  simpa using (subperm_of_subset h.nodup hsub).length_le

theorem Inv.avail_room (h : Inv s) (hi : i < NUM) (hf : s.disk.free i = true) : s.disk.avail.count < NUM := by
  have hnot : i ∉ s.heads := h.not_head hf
  have hsub : i :: s.heads ⊆ List.range NUM := by
    intro x hx
    rcases mem_cons.mp hx with rfl | hx
    · exact mem_range.mpr hi
    · exact mem_range.mpr (h.head_used hx).1
  have hle := (subperm_of_subset (nodup_cons.mpr ⟨hnot, h.nodup⟩) hsub).length_le
  simp only [length_cons, length_range, State.heads, length_append, length_contents] at hle
  omega

/-! ## Steps of processes -/

variable {x : Phase B} {phase : P → Phase B} {a : ℕ}

theorem Inv.chain_used (h : Inv s) (ha : a ∈ (s.phase q).chain) : s.disk.free a = false := by
  cases hq : s.phase q with
  | flight b i j k => rw [hq] at ha; exact (h.linked q b i j k hq).1.used a ha
  | _ => rw [hq] at ha; cases ha

theorem Linked.congr (h : Linked d i j k) (hused : ∀ x ∈ [i, j, k], d'.free x = false)
    (hdesc : ∀ x ∈ [i, j, k], d'.desc x = d.desc x) : Linked d' i j k := by
  refine ⟨h.nodup, h.lt, hused, ?_, ?_, ?_⟩
  · rw [hdesc i (by simp)]; exact h.first
  · rw [hdesc j (by simp)]; exact h.second
  · rw [hdesc k (by simp)]; exact h.third

theorem Linked.same (h : Linked d i j k) (hd : Same d d') : Linked d' i j k :=
  h.congr (fun x hx => (hd.free x).trans (h.used x hx)) fun x hx => hd.desc x (h.used x hx)

theorem Inv.move (h : Inv s) (hphase : s'.phase = s.phase) (hbusy : s'.busy = s.busy)
    (hfree : s'.disk.free = s.disk.free) (hdesc : s'.disk.desc = s.disk.desc)
    (hinfo : ∀ x, (s'.disk.info x).b = (s.disk.info x).b) (hperm : s'.heads.Perm s.heads)
    (hstatus : ∀ i ∈ s'.disk.used.contents NUM, (s'.disk.info i).status = 0) : Inv s' := by
  refine ⟨by rw [hphase]; exact h.alone, fun p b i j k hp => ?_, by rw [hphase]; exact h.disjoint,
    by rw [hphase, hfree]; exact h.cover, hperm.nodup_iff.mpr h.nodup, fun i => ?_, hstatus,
    by rw [hphase, hbusy]; exact h.busy⟩
  · rw [hphase] at hp
    obtain ⟨hl, hb⟩ := h.linked p b i j k hp
    exact ⟨hl.congr (fun x hx => (congrFun hfree x).trans (hl.used x hx)) fun x _ => congrFun hdesc x,
      (hinfo i).trans hb⟩
  · rw [hperm.mem_iff, h.heads i, hphase, hbusy]

variable [DecidableEq P]

theorem phase_ne (h : q ≠ p) : update s.phase p x q = s.phase q :=
  update_of_ne h _ _

theorem flight_update : update phase p x q = .flight b i j k ↔
    (q = p ∧ x = .flight b i j k) ∨ (q ≠ p ∧ phase q = .flight b i j k) := by
  by_cases hq : q = p
  · rw [hq, update_self]
    tauto
  · rw [update_of_ne hq]
    tauto

theorem flight_wait (hp : ∀ b i j k, phase p ≠ .flight b i j k) {c : B} {write : Bool} :
    update phase p (.wait b write) q = .flight c i j k ↔ phase q = .flight c i j k := by
  rw [flight_update]
  refine ⟨fun h => h.elim (fun h => (by cases h.2)) And.right, fun h => .inr ⟨?_, h⟩⟩
  rintro rfl; exact hp c i j k h

theorem flight_idle : update phase p .idle q = .flight b i j k ↔ q ≠ p ∧ phase q = .flight b i j k := by
  rw [flight_update]; exact or_iff_right fun h => (by cases h.2)

theorem mem_chain_update :
    a ∈ (update phase p x q).chain ↔ (q = p ∧ a ∈ x.chain) ∨ (q ≠ p ∧ a ∈ (phase q).chain) := by
  by_cases hq : q = p
  · rw [hq, update_self]
    tauto
  · rw [update_of_ne hq]
    tauto

theorem chain_eq_nil (hx : ∀ b i j k, x ≠ .flight b i j k) : x.chain = [] := by
  cases x with
  | flight b i j k => exact absurd rfl (hx b i j k)
  | _ => rfl

theorem Inv.alone_update (h : Inv s)
    (hx : ∀ c, x.buf = some c → ∀ q, q ≠ p → (s.phase q).buf ≠ some c) (q r : P) (c : B)
    (hq : (update s.phase p x q).buf = some c) (hr : (update s.phase p x r).buf = some c) : q = r := by
  by_cases hqp : q = p
  · by_cases hrp : r = p
    · rw [hqp, hrp]
    · rw [phase_ne hrp] at hr
      rw [hqp, update_self] at hq; exact absurd hr (hx c hq r hrp)
  · rw [phase_ne hqp] at hq
    by_cases hrp : r = p
    · rw [hrp, update_self] at hr; exact absurd hq (hx c hr q hqp)
    · rw [phase_ne hrp] at hr; exact h.alone q r c hq hr

theorem Inv.wait (h : Inv s) (hp : ∀ b i j k, s.phase p ≠ .flight b i j k)
    (hb : ∀ q, q ≠ p → (s.phase q).buf ≠ some b) (hd : Same s.disk d) (write : Bool) :
    Inv { s with disk := d, phase := update s.phase p (.wait b write) } := by
  have hchain : ∀ q, (update s.phase p (.wait b write) q).chain = (s.phase q).chain := by
    intro q
    by_cases hq : q = p
    · rw [hq, update_self, chain_eq_nil hp]; rfl
    · rw [phase_ne hq]
  have hheads : State.heads { s with disk := d, phase := update s.phase p (.wait b write) } = s.heads := by
    unfold State.heads
    rw [hd.avail, hd.used]
  refine ⟨fun q r c hq hr => ?_, fun q c i j k hq => ?_, fun q r x hq hr => ?_, fun x hx hf => ?_, ?_,
    fun i => ?_, fun i hi => ?_, fun c hc => ?_⟩
  · exact h.alone_update (fun c hc => by cases hc; exact hb) q r c hq hr
  · obtain ⟨hl, hinfo⟩ := h.linked q c i j k ((flight_wait hp).mp hq)
    exact ⟨hl.same hd, by rw [show d.info = s.disk.info from hd.info]; exact hinfo⟩
  · exact h.disjoint q r x (by rwa [← hchain q]) (by rwa [← hchain r])
  · obtain ⟨q, hq⟩ := h.cover x hx (by rw [← hd.free x]; exact hf)
    exact ⟨q, by rw [hchain q]; exact hq⟩
  · rw [hheads]; exact h.nodup
  · rw [hheads, h.heads i]; simp only [flight_wait hp]
  · rw [show d.used = s.disk.used from hd.used] at hi
    rw [show d.info = s.disk.info from hd.info]; exact h.status i hi
  · obtain ⟨q, i, j, k, hq⟩ := h.busy c hc
    exact ⟨q, i, j, k, (flight_wait hp).mpr hq⟩

def alloced (d : Disk B) (i j k : ℕ) : Disk B :=
  { d with free := update (update (update d.free i false) j false) k false }

theorem alloced_free (d : Disk B) (i j k x : ℕ) :
    (alloced d i j k).free x = if x ∈ [i, j, k] then false else d.free x := by
  unfold alloced
  simp only [update_apply, mem_cons]
  split_ifs <;> first | rfl | tauto

theorem linked_submit (write : Bool) (hn : [i, j, k].Nodup) (hlt : ∀ x ∈ [i, j, k], x < NUM) :
    Linked (submit (alloced d i j k) b write i j k) i j k := by
  have hij : i ≠ j := by simp at hn; tauto
  have hik : i ≠ k := by simp at hn; tauto
  have hjk : j ≠ k := by simp at hn; tauto
  have hnat : ∀ x ∈ [i, j, k], (BitVec.ofNat 16 x).toNat = x := by
    intro x hx
    have := hlt x hx; exact mod_eq_of_lt (by unfold NUM at this; omega)
  refine ⟨hn, hlt, fun x hx => ?_, ?_, ?_, ?_⟩
  · show (alloced d i j k).free x = false
    rw [alloced_free, if_pos hx]
  · simp only [submit, update_of_ne hik, update_of_ne hij, update_self]
    exact ⟨by decide, hnat j (by simp)⟩
  · simp only [submit, update_of_ne hjk, update_self]
    exact ⟨by cases write <;> decide, hnat k (by simp)⟩
  · simp only [submit, update_self]; decide

theorem Linked.submit (h : Linked d i j k) {x y z : ℕ} (hfree : ∀ a ∈ [x, y, z], d.free a = true)
    (write : Bool) : Linked (submit (alloced d x y z) b write x y z) i j k := by
  have hout : ∀ a ∈ [i, j, k], a ∉ [x, y, z] := fun a ha hb => by
    have := h.used a ha
    rw [hfree a hb] at this; cases this
  have hdesc : ∀ a ∈ [i, j, k], (Virtio.submit (alloced d x y z) b write x y z).desc a = d.desc a := by
    intro a ha
    have hne := hout a ha
    simp only [mem_cons, not_mem_nil, or_false, not_or] at hne
    simp only [Virtio.submit, update_of_ne hne.1, update_of_ne hne.2.1, update_of_ne hne.2.2]
    rfl
  refine h.congr (fun a ha => ?_) hdesc
  show (alloced d x y z).free a = false
  rw [alloced_free, if_neg (hout a ha)]; exact h.used a ha

theorem Inv.finish (h : Inv s) (hp : s.phase p = .flight b i j k) (hb : s.busy b = false)
    (hf : Freed { s.disk with info := update s.disk.info i { s.disk.info i with b := none } } d [i, j, k]) :
    Inv { s with disk := d, phase := update s.phase p .idle } := by
  have hbusy : ∀ q c i' j' k', s.phase q = .flight c i' j' k' → s.busy c = true → q ≠ p := by
    rintro q c i' j' k' hq hc rfl
    rw [hp] at hq
    cases hq
    rw [hb] at hc; cases hc
  have hchain : ∀ q x, x ∈ (update s.phase p .idle q).chain ↔ q ≠ p ∧ x ∈ (s.phase q).chain := by
    intro q x
    rw [mem_chain_update]; exact or_iff_right fun h => (by cases h.2)
  have hown : ∀ x ∈ [i, j, k], x ∈ (s.phase p).chain := fun x hx => by rw [hp]; exact hx
  have hother : ∀ q x, q ≠ p → x ∈ (s.phase q).chain → x ∉ [i, j, k] := fun q x hq hx hm =>
    hq (h.disjoint q p x hx (hown x hm))
  have hheads : State.heads { s with disk := d, phase := update s.phase p .idle } = s.heads := by
    unfold State.heads
    rw [hf.avail, hf.used]
  -- the head of the chain is on no ring
  have hnot : i ∉ s.heads := fun hm => by
    obtain ⟨q, c, j', k', hq, hc⟩ := (h.heads i).mp hm
    exact hbusy q c i j' k' hq hc (h.disjoint q p i (by rw [hq]; exact mem_cons_self) (hown i mem_cons_self))
  have hinfo : ∀ x, x ≠ i → d.info x = s.disk.info x := fun x hx => by
    rw [hf.info]; exact update_of_ne hx _ _
  refine ⟨h.alone_update fun c hc => (by cases hc), fun q c i' j' k' hq => ?_, fun q r x hq hr => ?_,
    fun x hx hfr => ?_, by rw [hheads]; exact h.nodup, fun x => ?_, fun x hx => ?_, fun c hc => ?_⟩
  · obtain ⟨hne, hq⟩ := flight_idle.mp hq
    obtain ⟨hl, hib⟩ := h.linked q c i' j' k' hq
    have hout : ∀ x ∈ [i', j', k'], x ∉ [i, j, k] := fun x hx => hother q x hne (by rw [hq]; exact hx)
    refine ⟨hl.congr (fun x hx => ?_) fun x hx => hf.desc x (hout x hx), ?_⟩
    · exact (hf.free x (hout x hx)).trans (hl.used x hx)
    · have hii : i' ≠ i := fun he => hout i' (by simp) (by simp [he])
      rw [hinfo i' hii]; exact hib
  · exact h.disjoint q r x ((hchain q x).mp hq).2 ((hchain r x).mp hr).2
  · have hm : x ∉ [i, j, k] := fun hm => by
      have := hf.freed x hm
      rw [show d.free x = false from hfr] at this; cases this
    obtain ⟨q, hq⟩ := h.cover x hx ((hf.free x hm).symm.trans hfr)
    refine ⟨q, (hchain q x).mpr ⟨?_, hq⟩⟩
    rintro rfl
    rw [hp] at hq; exact hm hq
  · rw [hheads, h.heads x]
    constructor
    · rintro ⟨q, c, j', k', hq, hc⟩
      exact ⟨q, c, j', k', flight_idle.mpr ⟨hbusy q c x j' k' hq hc, hq⟩, hc⟩
    · rintro ⟨q, c, j', k', hq, hc⟩
      exact ⟨q, c, j', k', (flight_idle.mp hq).2, hc⟩
  · have hused : d.used = s.disk.used := hf.used
    have hx : x ∈ s.disk.used.contents NUM := by rw [← hused]; exact hx
    have hne : x ≠ i := by rintro rfl; exact hnot (mem_append_right _ hx)
    rw [hinfo x hne]; exact h.status x hx
  · obtain ⟨q, i', j', k', hq⟩ := h.busy c hc
    exact ⟨q, i', j', k', flight_idle.mpr ⟨hbusy q c i' j' k' hq hc, hq⟩⟩

variable [DecidableEq B]

theorem Inv.submit (h : Inv s) (hp : ∀ b i j k, s.phase p ≠ .flight b i j k)
    (hb : ∀ q, q ≠ p → (s.phase q).buf ≠ some b) (hn : [i, j, k].Nodup)
    (hfree : ∀ x ∈ [i, j, k], x < NUM ∧ s.disk.free x = true) (write : Bool) : Inv { s with
      disk := submit (alloced s.disk i j k) b write i j k
      busy := update s.busy b true
      phase := update s.phase p (.flight b i j k) } := by
  have hlt : ∀ x ∈ [i, j, k], x < NUM := fun x hx => (hfree x hx).1
  have hold : ∀ q x, x ∈ (s.phase q).chain → x ∉ [i, j, k] := fun q x hx hm => by
    have := h.chain_used hx
    rw [(hfree x hm).2] at this; cases this
  have hnew : i ∉ s.heads := h.not_head (hfree i (by simp)).2
  have hroom := h.avail_room (hlt i (by simp)) (hfree i (by simp)).2
  have hpush : (s.disk.avail.push NUM i).contents NUM = s.disk.avail.contents NUM ++ [i] :=
    contents_push (by decide) hroom i (by decide)
  have hflight : ∀ q c i' j' k', update s.phase p (.flight b i j k) q = .flight c i' j' k' ↔
      (q = p ∧ Phase.flight b i j k = .flight c i' j' k') ∨ s.phase q = .flight c i' j' k' := by
    intro q c i' j' k'
    rw [flight_update]
    refine or_congr_right ⟨And.right, fun h => ⟨?_, h⟩⟩
    rintro rfl; exact hp c i' j' k' h
  have hchain : ∀ q x, x ∈ (update s.phase p (.flight b i j k) q).chain ↔
      (q = p ∧ x ∈ [i, j, k]) ∨ x ∈ (s.phase q).chain := by
    intro q x
    rw [mem_chain_update]
    refine or_congr_right ⟨And.right, fun h => ⟨?_, h⟩⟩
    rintro rfl
    rw [chain_eq_nil hp] at h; cases h
  have hperm : List.Perm ((s.disk.avail.push NUM i).contents NUM ++ s.taken ++ s.disk.used.contents NUM)
      (i :: s.heads) := by
    unfold State.heads
    rw [hpush, append_assoc, append_assoc, append_assoc, singleton_append]
    exact perm_middle
  have hbusy : ∀ q c i' j' k', s.phase q = .flight c i' j' k' → update s.busy b true c = s.busy c := by
    intro q c i' j' k' hq
    refine update_of_ne ?_ _ _
    rintro rfl
    refine hb q ?_ (by rw [hq]; rfl)
    rintro rfl; exact hp c i' j' k' hq
  refine ⟨h.alone_update fun c hc => by cases hc; exact hb, fun q c i' j' k' hq => ?_, fun q r x hq hr => ?_,
    fun x hx hf => ?_, hperm.nodup_iff.mpr (nodup_cons.mpr ⟨hnew, h.nodup⟩), fun x => ?_, fun x hx => ?_,
    fun c hc => ?_⟩
  · rcases (hflight q c i' j' k').mp hq with ⟨-, he⟩ | hq'
    · cases he
      refine ⟨linked_submit write hn hlt, ?_⟩
      show (update s.disk.info i ⟨some b, 0xff⟩ i).b = some b
      rw [update_self]
    · obtain ⟨hl, hinfo⟩ := h.linked q c i' j' k' hq'
      refine ⟨hl.submit (fun a ha => (hfree a ha).2) write, ?_⟩
      have hne : i' ≠ i := by
        rintro rfl
        exact hold q i' (by rw [hq']; exact mem_cons_self) mem_cons_self
      show (update s.disk.info i _ i').b = some c
      rw [update_of_ne hne]; exact hinfo
  · rcases (hchain q x).mp hq with ⟨rfl, hxq⟩ | hxq
    · rcases (hchain r x).mp hr with ⟨rfl, -⟩ | hxr
      · rfl
      · exact absurd hxq (hold r x hxr)
    · rcases (hchain r x).mp hr with ⟨rfl, hxr⟩ | hxr
      · exact absurd hxr (hold q x hxq)
      · exact h.disjoint q r x hxq hxr
  · have hf : (alloced s.disk i j k).free x = false := hf
    by_cases hm : x ∈ [i, j, k]
    · exact ⟨p, (hchain p x).mpr (.inl ⟨rfl, hm⟩)⟩
    · rw [alloced_free, if_neg hm] at hf
      obtain ⟨q, hq⟩ := h.cover x hx hf; exact ⟨q, (hchain q x).mpr (.inr hq)⟩
  · refine (hperm.mem_iff (a := x)).trans ?_
    rw [mem_cons, h.heads x]
    constructor
    · rintro (rfl | ⟨q, c, j', k', hq, hc⟩)
      · exact ⟨p, b, j, k, update_self _ _ _, update_self _ _ _⟩
      · exact ⟨q, c, j', k', (hflight q c x j' k').mpr (.inr hq), (hbusy q c x j' k' hq).trans hc⟩
    · rintro ⟨q, c, j', k', hq, hc⟩
      rcases (hflight q c x j' k').mp hq with ⟨-, he⟩ | hq'
      · cases he; exact .inl rfl
      · exact .inr ⟨q, c, j', k', hq', (hbusy q c x j' k' hq').symm.trans hc⟩
  · have hmem : x ∈ s.heads := mem_append_right _ hx
    have hne : x ≠ i := by rintro rfl; exact hnew hmem
    show (update s.disk.info i _ x).status = 0
    rw [update_of_ne hne]; exact h.status x hx
  · by_cases hcb : c = b
    · exact ⟨p, i, j, k, by rw [hcb]; exact update_self _ _ _⟩
    · have hc : s.busy c = true := by rw [← hc]; exact (update_of_ne hcb _ _).symm
      obtain ⟨q, i', j', k', hq⟩ := h.busy c hc
      exact ⟨q, i', j', k', (hflight q c i' j' k').mpr (.inr hq)⟩

omit [DecidableEq P] in
theorem Inv.handle (h : Inv s) (hne : s.disk.used.head ≠ s.disk.used.tail) :
    ∃ p b j k, s.phase p = .flight b (s.disk.used.front NUM) j k ∧ s.busy b = true ∧
      (s.disk.info (s.disk.used.front NUM)).status = 0 ∧ (s.disk.info (s.disk.used.front NUM)).b = some b ∧
      Inv { s with
        disk := { s.disk with used := s.disk.used.pop }
        busy := update s.busy b false } := by
  have hpos : 0 < s.disk.used.count := pos_of_ne_zero fun h0 => hne (count_eq_zero.mp h0)
  have hpop : s.disk.used.contents NUM = s.disk.used.front NUM :: s.disk.used.pop.contents NUM :=
    contents_pop (by decide) hpos
  have hmem : s.disk.used.front NUM ∈ s.disk.used.contents NUM := by rw [hpop]; exact mem_cons_self
  have hperm : s.heads.Perm (s.disk.used.front NUM ::
      (s.disk.avail.contents NUM ++ s.taken ++ s.disk.used.pop.contents NUM)) := by
    unfold State.heads
    rw [hpop]; exact perm_middle
  have hnodup := nodup_cons.mp (hperm.nodup_iff.mp h.nodup)
  obtain ⟨p, b, j, k, hp, hb⟩ := (h.heads _).mp (mem_append_right _ hmem)
  have hinfo := (h.linked p b _ j k hp).2
  refine ⟨p, b, j, k, hp, hb, h.status _ hmem, hinfo, ?_⟩
  have hset : ∀ c, update s.busy b false c = true → c ≠ b := by
    rintro c hc rfl
    rw [update_self] at hc; cases hc
  -- the other requests have other buffers
  have hother : ∀ q c i' j' k', s.phase q = .flight c i' j' k' → i' ≠ s.disk.used.front NUM → c ≠ b := by
    rintro q c i' j' k' hq hi rfl
    obtain rfl : q = p := h.alone q p c (by rw [hq]; rfl) (by rw [hp]; rfl)
    rw [hp] at hq
    cases hq; exact hi rfl
  refine ⟨h.alone, fun q c i' j' k' hq => ?_, h.disjoint, h.cover, hnodup.2, fun x => ?_, fun x hx => ?_,
    fun c hc => ?_⟩
  · obtain ⟨hl, hib⟩ := h.linked q c i' j' k' hq
    exact ⟨hl.congr hl.used fun _ _ => rfl, hib⟩
  · have hx : x ∈ s.disk.avail.contents NUM ++ s.taken ++ s.disk.used.pop.contents NUM ↔
        x ∈ s.heads ∧ x ≠ s.disk.used.front NUM := by
      rw [hperm.mem_iff, mem_cons]
      constructor
      · intro hx; exact ⟨.inr hx, fun he => hnodup.1 (he ▸ hx)⟩
      · rintro ⟨rfl | hx, hxne⟩
        · exact absurd rfl hxne
        · exact hx
    refine hx.trans ?_
    rw [h.heads x]
    constructor
    · rintro ⟨⟨q, c, j', k', hq, hc⟩, hxne⟩
      exact ⟨q, c, j', k', hq, (update_of_ne (hother q c x j' k' hq hxne) _ _).trans hc⟩
    · rintro ⟨q, c, j', k', hq, hc⟩
      have hcb := hset c hc
      refine ⟨⟨q, c, j', k', hq, (update_of_ne hcb _ _).symm.trans hc⟩, ?_⟩
      rintro rfl
      obtain rfl : q = p := h.disjoint q p _ (by rw [hq]; exact mem_cons_self)
        (by rw [hp]; exact mem_cons_self)
      rw [hp] at hq
      cases hq; exact hcb rfl
  · exact h.status x (by rw [hpop]; exact mem_cons_of_mem _ hx)
  · exact h.busy c ((update_of_ne (hset c hc) _ _).symm.trans hc)

def Effect (s s' : State B P) : Option (Note B) → Prop
  | none => (∀ q c i j k, s'.phase q = .flight c i j k ↔ s.phase q = .flight c i j k) ∧ s'.busy = s.busy
  | some (.submit b) => ∃ p i j k, (∀ q c i j k, s.phase q = .flight c i j k → q ≠ p ∧ c ≠ b) ∧
      s'.phase = update s.phase p (.flight b i j k) ∧ s'.busy = update s.busy b true
  | some (.complete b) => ∃ p i j k, s.phase p = .flight b i j k ∧ s.busy b = true ∧
      s'.phase = s.phase ∧ s'.busy = update s.busy b false
  | some (.finish b) => ∃ p i j k, s.phase p = .flight b i j k ∧ s.busy b = false ∧
      s'.phase = update s.phase p .idle ∧ s'.busy = s.busy

theorem Inv.start (h : Inv s) (hp : ∀ b i j k, s.phase p ≠ .flight b i j k)
    (hb : ∀ q, q ≠ p → (s.phase q).buf ≠ some b) (write : Bool) :
    ∃ s' n, start s p b write = .ok (s', n) ∧ Inv s' ∧ Effect s s' n := by
  unfold Virtio.start
  rcases alloc3Desc_spec s.disk with ⟨d, hd, hsame⟩ | ⟨i, j, k, hd, hn, hfree⟩
  · rw [hd]
    exact ⟨_, _, rfl, h.wait hp hb hsame write, fun q c i j k => flight_wait hp, rfl⟩
  · rw [hd]
    refine ⟨_, _, rfl, h.submit hp hb hn hfree write, p, i, j, k, fun q c i j k hq => ?_, rfl, rfl⟩
    have hqp : q ≠ p := by rintro rfl; exact hp c i j k hq
    refine ⟨hqp, ?_⟩
    rintro rfl; exact hb q hqp (by rw [hq]; rfl)

theorem Inv.step (h : Inv s) {e : Ev B P} (hl : Locked s e) {r : Except Panic (State B P × Option (Note B))}
    (hs : exec s e = some r) : ∃ s' n, r = .ok (s', n) ∧ Inv s' ∧ Effect s s' n := by
  cases e <;> simp only [exec] at hs
  case rw p b write =>
    split_ifs at hs
    split at hs
    · next hp =>
      cases hs
      exact h.start (fun b i j k he => by rw [hp] at he; cases he) (fun q _ => hl q) write
    · cases hs
  case wake p =>
    split_ifs at hs
    split at hs
    · cases hs
    · next b write hp =>
      cases hs
      refine h.start (fun b i j k he => by rw [hp] at he; cases he) (fun q hq hb => hq ?_) write
      exact h.alone q p b hb (by rw [hp]; rfl)
    · next b i j k hp =>
      cases hs
      split_ifs with hb
      · exact ⟨s, none, rfl, h, fun _ _ _ _ _ => Iff.rfl, rfl⟩
      · have hb : s.busy b = false := Bool.eq_false_iff.mpr hb
        have hlinked : Linked { s.disk with
            info := update s.disk.info i { s.disk.info i with b := none } } i j k :=
          (h.linked p b i j k hp).1.congr (h.linked p b i j k hp).1.used fun _ _ => rfl
        obtain ⟨d, hd, hf⟩ := freeChain_ok hlinked 6
        have hfin : Virtio.finish s p b i = .ok ({ s with disk := d, phase := update s.phase p .idle },
            some (.finish b)) := by
          unfold Virtio.finish
          dsimp only
          rw [show NUM + 1 = 6 + 3 from rfl, hd]
        exact ⟨_, _, hfin, h.finish hp hb hf, p, i, j, k, hp, hb, rfl, rfl⟩
  case take =>
    split_ifs at hs with hne
    cases hs
    have hpos : 0 < s.disk.avail.count := pos_of_ne_zero fun h0 => hne (count_eq_zero.mp h0)
    have hpop : s.disk.avail.contents NUM = s.disk.avail.front NUM :: s.disk.avail.pop.contents NUM :=
      contents_pop (by decide) hpos
    refine ⟨_, _, rfl, h.move rfl rfl rfl rfl (fun _ => rfl) ?_ h.status, fun _ _ _ _ _ => Iff.rfl, rfl⟩
    unfold State.heads
    rw [hpop]
    refine List.Perm.append_right _ ?_
    rw [← append_assoc]; exact perm_append_singleton _ _
  case done i =>
    split_ifs at hs with hi
    cases hs
    have hlen := h.length_heads
    have htaken := length_pos_of_mem hi
    simp only [State.heads, length_append, length_contents] at hlen
    have hpush : (s.disk.used.push NUM i).contents NUM = s.disk.used.contents NUM ++ [i] :=
      contents_push (by decide) (by omega) i (by decide)
    refine ⟨_, _, rfl, h.move rfl rfl rfl rfl (fun x => ?_) ?_ fun x hx => ?_, fun _ _ _ _ _ => Iff.rfl, rfl⟩
    · show (update s.disk.info i _ x).b = _
      by_cases hx : x = i
      · rw [hx, update_self]
      · rw [update_of_ne hx]
    · unfold State.heads
      rw [hpush, ← append_assoc]
      refine (perm_append_singleton _ _).trans (List.Perm.symm ?_)
      refine (List.Perm.append_right _ (List.Perm.append_left _ (perm_cons_erase hi))).trans ?_
      rw [append_assoc, append_assoc]; exact perm_middle
    · rw [hpush] at hx
      show (update s.disk.info i _ x).status = 0
      by_cases hxi : x = i
      · rw [hxi, update_self]
      · rw [update_of_ne hxi]
        refine h.status x ((mem_append.mp hx).resolve_right fun hm => hxi (mem_singleton.mp hm))
  case intr =>
    split_ifs at hs
    cases hs
    exact ⟨_, _, rfl, h.move rfl rfl rfl rfl (fun _ => rfl) (List.Perm.refl _) h.status,
      fun _ _ _ _ _ => Iff.rfl, rfl⟩
  case handle =>
    split_ifs at hs
    cases hs
    unfold Virtio.handle
    by_cases hend : s.disk.used.head = s.disk.used.tail
    · rw [if_pos hend]
      exact ⟨_, _, rfl, h.move rfl rfl rfl rfl (fun _ => rfl) (List.Perm.refl _) h.status,
        fun _ _ _ _ _ => Iff.rfl, rfl⟩
    · obtain ⟨p, b, j, k, hp, hb, h0, hinfo, hi⟩ := h.handle hend
      rw [if_neg hend]
      rw [if_neg (not_not.mpr h0), hinfo]
      exact ⟨_, _, rfl, hi, p, _, j, k, hp, hb, rfl, rfl⟩

/-! ## Runs -/

def notes (h : List (State B P × (Ev B P × Option (Note B)))) : List (Note B) := h.filterMap fun x => x.2.2

/-- The requests for a buffer: all submitted ones are completed except one that `b->disk` tells of, and all are
done except one that a process waits for. -/
structure Tally (s : State B P) (l : List (Note B)) (b : B) : Prop where
  completed : l.count (.submit b) = l.count (.complete b) + (s.busy b).toNat
  flight : ∀ p i j k, s.phase p = .flight b i j k → l.count (.submit b) = l.count (.finish b) + 1
  rest : (∀ p i j k, s.phase p ≠ .flight b i j k) → l.count (.submit b) = l.count (.finish b)

theorem count_snoc (l : List (Note B)) (m n : Note B) :
    (l ++ [m]).count n = l.count n + if m = n then 1 else 0 := by
  rw [count_append, count_singleton]; simp only [beq_iff_eq]

variable {l : List (Note B)}

omit [DecidableEq P] in
theorem Tally.congr (h : Tally s l b) {m : Note B} (hbusy : s'.busy b = s.busy b)
    (hflight : ∀ q i j k, s'.phase q = .flight b i j k ↔ s.phase q = .flight b i j k)
    (hs : m ≠ .submit b) (hc : m ≠ .complete b) (hf : m ≠ .finish b) : Tally s' (l ++ [m]) b := by
  refine ⟨?_, fun q i j k hq => ?_, fun hno => ?_⟩
  · rw [count_snoc, count_snoc, if_neg hs, if_neg hc, hbusy]; exact h.completed
  · rw [count_snoc, count_snoc, if_neg hs, if_neg hf]
    exact h.flight q i j k ((hflight q i j k).mp hq)
  · rw [count_snoc, count_snoc, if_neg hs, if_neg hf]
    exact h.rest fun q i j k hq => hno q i j k ((hflight q i j k).mpr hq)

omit [DecidableEq P] in
theorem Tally.submit (h : Inv s) (ht : Tally s l b) (hphase : s'.phase p = .flight b i j k)
    (hnew : ∀ q i j k, s.phase q ≠ .flight b i j k) (hbusy : s'.busy b = true) : Tally s' (l ++ [.submit b]) b := by
  have hold : s.busy b = false := by
    refine Bool.eq_false_iff.mpr fun hb => ?_
    obtain ⟨q, i', j', k', hq⟩ := h.busy b hb; exact hnew q i' j' k' hq
  have hrest := ht.rest hnew
  have hcompleted := ht.completed
  rw [hold, Bool.toNat_false] at hcompleted
  refine ⟨?_, fun q i' j' k' _ => ?_, fun hno => absurd hphase (hno p i j k)⟩
  · simp only [count_snoc, reduceCtorEq, if_true, if_false, hbusy, Bool.toNat_true]
    omega
  · simp only [count_snoc, reduceCtorEq, if_true, if_false]; omega

theorem Tally.step (h : Inv s) (ht : ∀ b, Tally s l b) {n : Option (Note B)}
    (he : Effect s s' n) (b : B) : Tally s' (l ++ n.toList) b := by
  have hb := ht b
  match n, he with
  | none, ⟨hflight, hbusy⟩ =>
    rw [toList_none, append_nil]
    refine ⟨by rw [hbusy]; exact hb.completed, fun p i j k hp => ?_, fun hno => hb.rest fun p i j k hp => ?_⟩
    · exact hb.flight p i j k ((hflight p b i j k).mp hp)
    · exact hno p i j k ((hflight p b i j k).mpr hp)
  | some (.submit c), ⟨p, i, j, k, hnew, hphase, hbusy⟩ =>
    by_cases hcb : c = b
    · subst hcb
      exact hb.submit h (by rw [hphase, update_self])
        (fun q i j k hq => (hnew q c i j k hq).2 rfl) (by rw [hbusy, update_self])
    · refine hb.congr (by rw [hbusy, update_of_ne (Ne.symm hcb)]) (fun q i' j' k' => ?_)
        (fun he => hcb (Note.submit.inj he)) nofun nofun
      rw [hphase]
      by_cases hq : q = p
      · subst hq
        rw [update_self]
        exact ⟨fun he => absurd (Phase.flight.inj he).1 hcb, fun he => absurd rfl (hnew q b i' j' k' he).1⟩
      · rw [phase_ne hq]
  | some (.complete c), ⟨p, i, j, k, hp, hc, hphase, hbusy⟩ =>
    by_cases hcb : c = b
    · subst hcb
      have hcompleted := hb.completed
      rw [hc, Bool.toNat_true] at hcompleted
      refine ⟨?_, fun q i' j' k' hq => ?_, fun hno => absurd hp (by rw [← hphase]; exact hno p i j k)⟩
      · simp only [toList_some, count_snoc, reduceCtorEq, if_true, if_false, hbusy, update_self, Bool.toNat_false]
        omega
      · simp only [toList_some, count_snoc]; exact hb.flight p i j k hp
    · exact hb.congr (by rw [hbusy, update_of_ne (Ne.symm hcb)]) (fun q i' j' k' => by rw [hphase])
        nofun (fun he => hcb (Note.complete.inj he)) nofun
  | some (.finish c), ⟨p, i, j, k, hp, hc, hphase, hbusy⟩ =>
    have hflight : ∀ q i' j' k', s'.phase q = .flight b i' j' k' ↔ q ≠ p ∧ s.phase q = .flight b i' j' k' := by
      intro q i' j' k'
      rw [hphase, flight_idle]
    by_cases hcb : c = b
    · subst hcb
      have hno : ∀ q i' j' k', s'.phase q ≠ .flight c i' j' k' := fun q i' j' k' hq => by
        obtain ⟨hne, hq⟩ := (hflight q i' j' k').mp hq
        exact hne (h.alone q p c (by rw [hq]; rfl) (by rw [hp]; rfl))
      have hone := hb.flight p i j k hp
      refine ⟨?_, fun q i' j' k' hq => absurd hq (hno q i' j' k'), fun _ => ?_⟩
      · simp only [toList_some, count_snoc, hbusy]; exact hb.completed
      · simp only [toList_some, count_snoc]; exact hone
    · refine hb.congr (by rw [hbusy]) (fun q i' j' k' => ?_) nofun nofun fun he => hcb (Note.finish.inj he)
      rw [hflight q i' j' k']
      refine ⟨And.right, fun hq => ⟨?_, hq⟩⟩
      rintro rfl
      rw [hp] at hq; exact hcb (Phase.flight.inj hq).1

theorem inv_run {h : List (State B P × (Ev B P × Option (Note B)))} (hr : Run (sys B P) h s) :
    Inv s ∧ ∀ b, Tally s (notes h) b := by
  induction hr with
  | start h0 =>
    obtain rfl : _ = boot B P := h0
    exact ⟨Inv.boot, fun b => ⟨rfl, fun p i j k hp => (by cases hp), fun _ => rfl⟩⟩
  | @next h s s' x hr hs ih =>
    obtain ⟨u, n, hu, hi, he⟩ := ih.1.step hs.2 hs.1
    obtain ⟨rfl, hn⟩ := Prod.mk.inj (Except.ok.inj hu)
    refine ⟨hi, fun b => ?_⟩
    have hnotes : notes (h ++ [(s, x)]) = notes h ++ x.2.toList := by
      unfold notes
      cases hx : x.2 <;> simp [hx]
    rw [hnotes, hn]; exact Tally.step ih.1 ih.2 he b

/-- **The accounting of descriptors.**  After every run:
each descriptor that is not free belongs to the chain of exactly one process that waits for its request, and
these chains have three different descriptors, linked in order, that are not free;
the handler, at an entry of the used ring, finds a process that waits, clears `b->disk` of its buffer, which was
set, and changes no other buffer;
the requests for a buffer are completed as often as they have been submitted, but for one that is on its way, and
done as often, but for one that a process waits for; and no step panics. -/
theorem descriptors_accounted {h : List (State B P × (Ev B P × Option (Note B)))} (hr : Run (sys B P) h s) :
    (∀ x < NUM, s.disk.free x = false ↔ ∃! p, x ∈ (s.phase p).chain) ∧
    (∀ p b i j k, s.phase p = .flight b i j k → Linked s.disk i j k) ∧
    (s.disk.used.head ≠ s.disk.used.tail → ∃ p b j k,
      s.phase p = .flight b (s.disk.used.front NUM) j k ∧ s.busy b = true ∧
      (s.disk.info (s.disk.used.front NUM)).b = some b ∧ handle s = .ok ({ s with
        disk := { s.disk with used := s.disk.used.pop }
        busy := update s.busy b false }, some (.complete b))) ∧
    (∀ b, Tally s (notes h) b) ∧
    ∀ e e', Locked s e → exec s e ≠ some (.error e') := by
  obtain ⟨hi, ht⟩ := inv_run hr
  refine ⟨fun x hx => ⟨fun hf => ?_, fun ⟨p, hp, _⟩ => ?_⟩, fun p b i j k hp => (hi.linked p b i j k hp).1,
    fun hne => ?_, ht, fun e e' hl he => ?_⟩
  · obtain ⟨p, hp⟩ := hi.cover x hx hf
    exact ⟨p, hp, fun q hq => hi.disjoint q p x hq hp⟩
  · exact hi.chain_used hp
  · obtain ⟨p, b, j, k, hp, hb, h0, hinfo, -⟩ := hi.handle hne
    refine ⟨p, b, j, k, hp, hb, hinfo, ?_⟩
    unfold handle
    rw [if_neg hne]
    rw [if_neg (not_not.mpr h0), hinfo]
  · obtain ⟨s', n, hok, -⟩ := hi.step hl he; cases hok

instance [Fintype P] (s : State B P) (e : Ev B P) : Decidable (Locked s e) := by
  unfold Locked
  split <;> infer_instance

def follow [Fintype P] (s : State B P) (x : Ev B P × Option (Note B)) : Option (State B P) :=
  if Locked s x.1 then
    match exec s x.1 with
    | some (.ok y) => if y.2 = x.2 then some y.1 else none
    | _ => none
  else none

theorem step_of_follow [Fintype P] {x : Ev B P × Option (Note B)} (h : follow s x = some s') :
    (sys B P).step s x s' := by
  unfold follow at h
  split_ifs at h with hl
  split at h
  · next y hy =>
    split_ifs at h with hn
    cases h
    refine ⟨?_, hl⟩
    rw [hy, ← hn]
  · cases h

/-- Two requests are submitted, a third process finds two descriptors only and waits; the device completes the
second request before the first, and the third process gets the descriptors of the second one. -/
def threeRequests {P B : Type} (p q r : P) (a b c : B) : List (Ev B P × Option (Note B)) :=
  [(.rw p a false, some (.submit a)), (.rw q b true, some (.submit b)), (.rw r c false, none), (.take, none),
    (.take, none), (.done 3, none), (.intr, none), (.handle, some (.complete b)), (.done 0, none),
    (.handle, some (.complete a)), (.handle, none), (.wake q, some (.finish b)), (.wake r, some (.submit c))]

theorem descriptors_accounted_three : ∃ (h : List (State (Fin 3) (Fin 3) × (Ev (Fin 3) (Fin 3) ×
      Option (Note (Fin 3))))) (s : State (Fin 3) (Fin 3)), Run (sys (Fin 3) (Fin 3)) h s ∧
    h.map Prod.snd = threeRequests 0 1 2 0 1 2 ∧ (∀ b, Tally s (notes h) b) ∧ s.disk.free 3 = false ∧
    ∃! p, 3 ∈ (s.phase p).chain := by
  obtain ⟨s, hr, hmap, ht⟩ := exists_run (T := sys (Fin 3) (Fin 3)) (f := follow)
    (fun _ _ _ h => step_of_follow h) rfl (threeRequests 0 1 2 0 1 2) (fun s => s.disk.free 3 == false)
    (by decide +kernel)
  obtain ⟨hfree, -, -, htally, -⟩ := descriptors_accounted hr
  have h3 : s.disk.free 3 = false := by simpa using ht
  exact ⟨_, s, hr, hmap, htally, h3, (hfree 3 (by decide)).mp h3⟩

end Xv6.Dev.Virtio
