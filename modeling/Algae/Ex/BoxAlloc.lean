/- Box allocations over the frame bitmap itself: a call either leaves no trace or appends
   one entry, on a machine of any size. -/

import Algae.Ex.Box
import Algae.Mm.PageRelease

set_option autoImplicit false
set_option relaxedAutoImplicit false

namespace Algae.Ex.BoxAlloc

open Algae.Lib.FirstFit Algae.Rtl.Queue Algae.Sdk.Defs
open Algae.Mm.Phys Algae.Mm.PhysFit
open Algae.Mm.Page (physToVirt)
open Algae.Mm.Heap (FrameHeap)
open Algae.Mm.PageRelease (mmAllocPage)
open Algae.Ex.Pool Algae.Ex.Box

section Code

variable {σ τ η : Type} [DecidableEq η] (mmAllocPage : Nat → σ → BitVec 64 × σ) (tlsf : Tlsf τ)

/-- The frames that a request for `count` bytes of pages asks for. -/
def pageCount (count : BitVec 64) :
    Nat := (alignUp count (BitVec.ofNat 64 PAGESIZE)).toNat / PAGESIZE

inductive Outcome (box : η) (count : BitVec 64) (type : PtrboxType) (s : BoxState σ τ η) :
    NtStatus × Option (BitVec 64) × BoxState σ τ η → Prop
  | argument {status : NtStatus} (bad : status ≠ .success) :
    Outcome box count type s (status, none, s)
  | descriptor {pool : PoolState τ}
      (none : exAllocatePool tlsf PTRBOX_ELEMENT_SIZE s.pool = (none, pool)) :
      Outcome box count type s (.noMemory, .none, { s with pool := pool })
  | badType {elem : Pointer} {pool : PoolState τ} (other : type = .any)
      (some : exAllocatePool tlsf PTRBOX_ELEMENT_SIZE s.pool = (some elem, pool)) :
      Outcome box count type s (.invalidHandle, none, { s with pool := exFreePool tlsf elem pool })
  | noPages {elem : Pointer} {pool : PoolState τ} {frames : σ} (pages : type = .pages)
      (some : exAllocatePool tlsf PTRBOX_ELEMENT_SIZE s.pool = (some elem, pool))
      (none : mmAllocPage (pageCount count) s.frames = (0, frames)) :
      Outcome box count type s (.noMemory, .none, { s with
        frames := frames
        elements := Function.update s.elements elem { s.elements elem with ptr := 0 }
        pool := exFreePool tlsf elem pool })
  | noBlock {elem : Pointer} {pool pool' : PoolState τ} (heap : type = .heap)
      (some : exAllocatePool tlsf PTRBOX_ELEMENT_SIZE s.pool = (some elem, pool))
      (none : exAllocatePool tlsf count.toNat pool = (none, pool')) :
      Outcome box count type s (.noMemory, .none, { s with
        elements := Function.update s.elements elem { s.elements elem with ptr := 0 }
        pool := exFreePool tlsf elem pool' })
  | pages {elem : Pointer} {pool : PoolState τ} {ptr : BitVec 64} {frames : σ}
      (pages : type = .pages)
      (some : exAllocatePool tlsf PTRBOX_ELEMENT_SIZE s.pool = (some elem, pool))
      (block : mmAllocPage (pageCount count) s.frames = (ptr, frames)) (nonzero : ptr ≠ 0) :
      Outcome box count type s (boxInsert box elem
        { s.elements elem with
          ptr := ptr, len := alignUp count (BitVec.ofNat 64 PAGESIZE), type := .pages }
        { s with pool := pool, frames := frames })
  | heap {elem ptr : Pointer} {pool pool' : PoolState τ} (heap : type = .heap)
      (some : exAllocatePool tlsf PTRBOX_ELEMENT_SIZE s.pool = (some elem, pool))
      (block : exAllocatePool tlsf count.toNat pool = (.some ptr, pool')) :
      Outcome box count type s (boxInsert box elem
        { s.elements elem with ptr := ptr.val, len := count, type := .heap }
          { s with pool := pool' })

theorem exBoxAllocate_outcome (box : η) (count : BitVec 64) (type : PtrboxType) (result : Bool)
    (s : BoxState σ τ η) : Outcome mmAllocPage tlsf box count type s
      (exBoxAllocateOver tlsf mmAllocPage (some box) count type result s) := by
  cases result with
  | false => exact .argument (by decide)
  | true =>
    rw [exBoxAllocateOver]
    split
    · exact .argument (by decide)
    · cases descriptor : exAllocatePool tlsf PTRBOX_ELEMENT_SIZE s.pool with
      | mk elem pool =>
        cases elem with
        | none => exact .descriptor descriptor
        | some elem =>
          cases type with
          | pages =>
            cases block : mmAllocPage (pageCount count) s.frames with
            | mk ptr frames =>
              rw [pageCount] at block
              simp only [block]
              by_cases zero : ptr = 0
              · subst zero
                exact .noPages rfl descriptor block
              · rw [if_neg zero]
                exact .pages rfl descriptor block zero
          | heap =>
            cases block : exAllocatePool tlsf count.toNat pool with
            | mk ptr pool' =>
              simp only [block]
              cases ptr with
              | none => exact .noBlock rfl descriptor block
              | some ptr => exact .heap rfl descriptor block
          | any => exact .badType rfl descriptor

end Code

section Pages

/-- Frame 0 is in use, and the direct map at `kernelBase` reaches the last frame. -/
structure Mapped (kernelBase : BitVec 64) (s : PhysState) : Prop where
  zero : testBit s.bitmap 0 = true
  base : 0 < kernelBase.toNat
  fits : kernelBase.toNat + s.highestFrameIdx * PAGESIZE ≤ 0x10000000000000000

variable {kernelBase : BitVec 64} {s : PhysState} {count : Nat}

theorem Mapped.bound (mapped : Mapped kernelBase s) : s.highestFrameIdx < 0x10000000000000 := by
  have base := mapped.base
  have fits := mapped.fits
  rw [PAGESIZE] at fits
  omega

theorem Mapped.address (mapped : Mapped kernelBase s) {i : Nat} (inside : i < s.highestFrameIdx) :
    (physToVirt kernelBase (BitVec.ofNat 64 (i * PAGESIZE))).toNat = kernelBase.toNat + i *
    PAGESIZE := by
  have fits := mapped.fits
  rw [physToVirt, BitVec.toNat_add, BitVec.toNat_ofNat]
  rw [PAGESIZE] at fits ⊢
  omega

theorem Mapped.more (mapped : Mapped kernelBase s) {s' : PhysState}
    (bound : s'.highestFrameIdx = s.highestFrameIdx)
    (kept : ∀ f, testBit s.bitmap f = true → testBit s'.bitmap f = true) : Mapped kernelBase s' :=
  ⟨kept 0 mapped.zero, mapped.base, bound ▸ mapped.fits⟩

theorem mmAllocFrame_cases (mapped : Mapped kernelBase s) (word : count < 0x10000000000000000) :
    (∃ i, 0 < i ∧ LowestRun (Clear s.bitmap) (sought count) s.highestFrameIdx i ∧
      (mmAllocFrame s count).1 = i * PAGESIZE ∧
      (mmAllocFrame s count).2.bitmap =
        setFrames s.bitmap i ((i + count) % 0x10000000000000000 - i)) ∨
    ((∀ i, ¬LowestRun (Clear s.bitmap) (sought count) s.highestFrameIdx i) ∧
      (mmAllocFrame s count).1 = 0 ∧ (mmAllocFrame s count).2.bitmap = s.bitmap) := by
  rcases mmAllocFrame_stops s count (sought count) mapped.bound (sought_pos count)
    (sought_stops word _) (fun _ => mapped.zero) with ⟨i, positive, run, call⟩ | ⟨none, call⟩
  · rw [call]
    exact Or.inl ⟨i, positive, run, rfl, rfl⟩
  · rw [call]
    exact Or.inr ⟨fun i lowest => none i lowest.fits lowest.run, rfl, rfl⟩

theorem mmAllocFrame_bound (mapped : Mapped kernelBase s) (word : count < 0x10000000000000000) :
    (mmAllocFrame s count).2.highestFrameIdx = s.highestFrameIdx := by
  rcases mmAllocFrame_stops s count (sought count) mapped.bound (sought_pos count)
    (sought_stops word _) (fun _ => mapped.zero) with ⟨i, _, _, call⟩ | ⟨_, call⟩
  · rw [call]
  · rw [call]

theorem mmAllocFrame_kept (mapped : Mapped kernelBase s)
    (word : count < 0x10000000000000000) {f : Nat}
    (used : testBit s.bitmap f = true) : testBit (mmAllocFrame s count).2.bitmap f = true := by
  rcases mmAllocFrame_cases mapped word with ⟨i, _, _, _, bitmap⟩ | ⟨_, _, bitmap⟩
  · rw [bitmap, testBit_setFrames, used, Bool.or_true]
  · rw [bitmap, used]

theorem Mapped.alloc (mapped : Mapped kernelBase s) (word : count < 0x10000000000000000) :
    Mapped kernelBase (mmAllocFrame s count).2 :=
  mapped.more (mmAllocFrame_bound mapped word) fun _ used => mmAllocFrame_kept mapped word used

theorem mmAllocPage_frames : (mmAllocPage kernelBase count s).2 = (mmAllocFrame s count).2 := by
  rw [mmAllocPage, Mm.Page.mmAllocPageOver]
  simp only
  split <;> rfl

theorem mmAllocPage_cases (mapped : Mapped kernelBase s) (word : count < 0x10000000000000000) :
    (∃ i, LowestRun (Clear s.bitmap) (sought count) s.highestFrameIdx i ∧
      (mmAllocPage kernelBase count s).1 = physToVirt kernelBase (BitVec.ofNat 64 (i * PAGESIZE)) ∧
      (mmAllocPage kernelBase count s).1 ≠ 0 ∧ (mmAllocPage kernelBase count s).2.bitmap =
        setFrames s.bitmap i ((i + count) % 0x10000000000000000 - i)) ∨
    ((∀ i, ¬LowestRun (Clear s.bitmap) (sought count) s.highestFrameIdx i) ∧
      (mmAllocPage kernelBase count s).1 = 0 ∧
      (mmAllocPage kernelBase count s).2.bitmap = s.bitmap) := by
  rw [mmAllocPage_frames, mmAllocPage, Mm.Page.mmAllocPageOver]
  simp only
  rcases mmAllocFrame_cases mapped word with ⟨i, positive, lowest, ret,
    bitmap⟩ | ⟨none, ret, bitmap⟩
  · left
    have long := sought_pos count
    have fits := lowest.fits
    have inside : i < s.highestFrameIdx := by omega
    rw [if_neg (by rw [ret]; exact Nat.mul_ne_zero positive.ne' page_pos.ne'), ret]
    refine ⟨i, lowest, rfl, ?_, bitmap⟩
    intro null
    change physToVirt kernelBase (BitVec.ofNat 64 (i * PAGESIZE)) = 0 at null
    have value := mapped.address inside
    have base := mapped.base
    rw [null, show (0 : BitVec 64).toNat = 0 from rfl] at value
    omega
  · right
    rw [if_pos ret]
    exact ⟨none, rfl, bitmap⟩

theorem pageCount_word (count : BitVec 64) : pageCount count < 0x10000000000000000 :=
  (Nat.div_le_self _ _).trans_lt (BitVec.isLt _)

end Pages

section Runs

variable {τ η : Type} [DecidableEq η] (tlsf : Tlsf τ) (kernelBase : BitVec 64)

/-- Boxes that are initialised, and then allocated from in any order. Other code may run in
between, as long as it leaves the boxes, their descriptors and frame 0 alone. -/
inductive BoxesRun : Set η → BoxState PhysState τ η → Prop
  | start {s : BoxState PhysState τ η} (mapped : Mapped kernelBase s.frames) : BoxesRun ∅ s
  | init {boxes : Set η} {s : BoxState PhysState τ η} (run : BoxesRun boxes s) (box : η) :
      BoxesRun (insert box boxes) (exInitPtrBox (some box) s).2
  | alloc {boxes : Set η} {s : BoxState PhysState τ η} (run : BoxesRun boxes s) {box : η}
      (known : box ∈ boxes) (count : BitVec 64) (type : PtrboxType) (result : Bool) : BoxesRun boxes
        (exBoxAllocateOver tlsf (mmAllocPage kernelBase) (some box) count type result s).2.2
  | other {boxes : Set η} {s s' : BoxState PhysState τ η} (run : BoxesRun boxes s)
      (entries : s'.entries = s.entries) (ptrCount : s'.ptrCount = s.ptrCount)
      (linked : ∀ box ∈ boxes, ∀ xs, Holds s.entries box xs →
        ∀ p ∈ xs, p ∈ poolUsed tlsf s'.pool ∧ s'.elements p = s.elements p)
      (mapped : Mapped kernelBase s'.frames) : BoxesRun boxes s'

/-- The entries of a box, with the two counters of it. -/
structure Linked (s : BoxState PhysState τ η) (box : η) (xs : List Pointer) : Prop where
  queue : Holds s.entries box xs
  nelem : (s.entries.nelem box).toNat = xs.length
  ptrCount : (s.ptrCount box).toNat = xs.length

/-- A call that failed, and what it promises not to touch. -/
structure Unchanged (s s' : BoxState PhysState τ η) : Prop where
  entries : s'.entries = s.entries
  ptrCount : s'.ptrCount = s.ptrCount
  elements : ∀ p ∈ poolUsed tlsf s.pool, s'.elements p = s.elements p
  pool : poolUsed tlsf s'.pool = poolUsed tlsf s.pool
  bitmap : s'.frames.bitmap = s.frames.bitmap

/-- Bytes as an entry counts them: whole pages, or as asked for. -/
def roundedLength (type : PtrboxType) (count : BitVec 64) : Nat :=
  if type = .pages then (count.toNat + 4095) / 4096 * 4096 else count.toNat

/-- A call that succeeded: one more entry, at the tail of the box. -/
structure Appended (box : η) (xs : List Pointer) (count address : BitVec 64) (type : PtrboxType)
    (s s' : BoxState PhysState τ η) (elem : Pointer) : Prop where
  linked : Linked s' box (xs ++ [elem])
  magic : (s'.elements elem).magic = PTRBOX_MAGIC
  len : (s'.elements elem).len.toNat = roundedLength type count
  type : (s'.elements elem).type = type
  ptr : (s'.elements elem).ptr = address
  earlier : ∀ p ∈ xs, s'.elements p = s.elements p

/-- All initialised boxes are well formed and share no descriptor. -/
structure BoxesInv (boxes : Set η) (s : BoxState PhysState τ η) (xs : η → List Pointer) : Prop where
  mapped : Mapped kernelBase s.frames
  queue : ∀ box ∈ boxes, Holds s.entries box (xs box)
  count : ∀ box ∈ boxes, s.ptrCount box = BitVec.ofNat 64 (xs box).length
  used : ∀ box ∈ boxes, ∀ p ∈ xs box, p ∈ poolUsed tlsf s.pool
  apart : ∀ box ∈ boxes, ∀ other ∈ boxes, box ≠ other → ∀ p ∈ xs box, p ∉ xs other

variable {tlsf kernelBase} {boxes : Set η} {s s' : BoxState PhysState τ η}
  {xs : η → List Pointer} {box : η}

omit [DecidableEq η] in
theorem BoxesInv.linked (inv : BoxesInv tlsf kernelBase boxes s xs) (known : box ∈ boxes) :
    Linked s box (xs box) := by
  have queue := inv.queue box known
  have few := pointers_few queue.nodup
  refine ⟨queue, ?_, ?_⟩
  · rw [queue.count, BitVec.toNat_ofNat]
    exact Nat.mod_eq_of_lt few
  · rw [inv.count box known, BitVec.toNat_ofNat]
    exact Nat.mod_eq_of_lt few

private theorem apart_update (apart : ∀ b ∈ boxes, ∀ other ∈ boxes, b ≠ other →
    ∀ p ∈ xs b, p ∉ xs other)
    (ys : List Pointer) (new : ∀ other ∈ boxes, other ≠ box → ∀ p ∈ ys, p ∉ xs other) :
    ∀ b ∈ insert box boxes, ∀ other ∈ insert box boxes, b ≠ other →
      ∀ p ∈ Function.update xs box ys b, p ∉ Function.update xs box ys other := by
  intro b member other member' differ p inside
  by_cases same : b = box
  · subst same
    rw [Function.update_self] at inside
    rw [Function.update_of_ne differ.symm]
    exact new other (Set.mem_of_mem_insert_of_ne member' differ.symm) differ.symm p inside
  · have known := Set.mem_of_mem_insert_of_ne member same
    rw [Function.update_of_ne same] at inside
    by_cases same' : other = box
    · subst same'
      rw [Function.update_self]
      exact fun both => new b known same p both inside
    · rw [Function.update_of_ne same']
      exact apart b known other (Set.mem_of_mem_insert_of_ne member' same') differ p inside

theorem BoxesInv.init (inv : BoxesInv tlsf kernelBase boxes s xs) (box : η) :
    BoxesInv tlsf kernelBase (insert box boxes) (exInitPtrBox (some box) s).2
      (Function.update xs box []) where
  mapped := inv.mapped
  queue := by
    intro b member
    by_cases same : b = box
    · subst same
      rw [Function.update_self]
      exact holds_init s.entries b
    · rw [Function.update_of_ne same]
      exact (inv.queue b (Set.mem_of_mem_insert_of_ne member same)).init_other same
  count := by
    intro b member
    change Function.update s.ptrCount box 0 b = _
    by_cases same : b = box
    · subst same
      rw [Function.update_self, Function.update_self]
      rfl
    · rw [Function.update_of_ne same, Function.update_of_ne same]
      exact inv.count b (Set.mem_of_mem_insert_of_ne member same)
  used := by
    intro b member p inside
    by_cases same : b = box
    · subst same
      rw [Function.update_self] at inside
      cases inside
    · rw [Function.update_of_ne same] at inside
      exact inv.used b (Set.mem_of_mem_insert_of_ne member same) p inside
  apart := apart_update inv.apart [] fun _ _ _ _ none => by cases none

omit [DecidableEq η] in
theorem BoxesInv.kept (inv : BoxesInv tlsf kernelBase boxes s xs) (entries : s'.entries = s.entries)
    (ptrCount : s'.ptrCount = s.ptrCount)
    (used : ∀ box ∈ boxes, ∀ p ∈ xs box, p ∈ poolUsed tlsf s'.pool)
    (mapped : Mapped kernelBase s'.frames) : BoxesInv tlsf kernelBase boxes s' xs where
  mapped := mapped
  queue := entries ▸ inv.queue
  count := ptrCount ▸ inv.count
  used := used
  apart := inv.apart

theorem BoxesInv.insert (inv : BoxesInv tlsf kernelBase boxes s xs) (known : box ∈ boxes)
    {elem : Pointer} (new : elem ∉ poolUsed tlsf s.pool) (e : PtrboxElement) {frames : PhysState}
    {pool : PoolState τ} (mapped : Mapped kernelBase frames) (taken : elem ∈ poolUsed tlsf pool)
    (used : poolUsed tlsf s.pool ⊆ poolUsed tlsf pool) :
    BoxesInv tlsf kernelBase boxes
      (boxInsert box elem e { s with frames := frames, pool := pool }).2.2
      (Function.update xs box (xs box ++ [elem])) where
  mapped := mapped
  queue := by
    intro b member
    change Holds (tailqInsertTail s.entries box elem) b _
    by_cases same : b = box
    · subst same
      rw [Function.update_self]
      exact (inv.queue b member).insertTail fun inside => new (inv.used b member elem inside)
    · rw [Function.update_of_ne same]
      exact (inv.queue b member).insertTail_other (inv.queue box known) same
        fun inside => new (inv.used b member elem inside)
  count := by
    intro b member
    change Function.update s.ptrCount box (s.ptrCount box + 1) b = _
    by_cases same : b = box
    · subst same
      rw [Function.update_self, Function.update_self, inv.count b member, List.length_append,
        BitVec.ofNat_add]
      rfl
    · rw [Function.update_of_ne same, Function.update_of_ne same, inv.count b member]
  used := by
    intro b member p inside
    by_cases same : b = box
    · subst same
      rw [Function.update_self] at inside
      rcases List.mem_append.mp inside with old | last
      · exact used (inv.used b member p old)
      · rw [List.mem_singleton.mp last]
        exact taken
    · rw [Function.update_of_ne same] at inside
      exact used (inv.used b member p inside)
  apart := by
    have apart := apart_update inv.apart (xs box ++ [elem]) fun other member differ p inside => by
      rcases List.mem_append.mp inside with old | last
      · exact inv.apart box known other member (Ne.symm differ) p old
      · rw [List.mem_singleton.mp last]
        exact fun both => new (inv.used other member elem both)
    rwa [Set.insert_eq_of_mem known] at apart

omit [DecidableEq η] in
theorem poolUsed_returned {length : Nat} {elem : Pointer} {before pool pool' : PoolState τ}
    (some : exAllocatePool tlsf length before = (some elem, pool))
    (same : poolUsed tlsf pool' = poolUsed tlsf pool) :
    elem ∉ poolUsed tlsf before ∧
      poolUsed tlsf (exFreePool tlsf elem pool') = poolUsed tlsf before := by
  obtain ⟨new, used⟩ := poolUsed_taken tlsf some
  refine ⟨new, ?_⟩
  rw [poolUsed_exFreePool, same, used]
  exact Set.insert_sdiff_self_of_notMem new

variable {count : BitVec 64} {type : PtrboxType}
  {res : NtStatus × Option (BitVec 64) × BoxState PhysState τ η}

private theorem failed_call (mapped : Mapped kernelBase s.frames)
    (outcome : Outcome (mmAllocPage kernelBase) tlsf box count type s res)
    (failed : res.1 ≠ .success) :
    res.2.1 = none ∧ Unchanged tlsf s res.2.2 ∧ Mapped kernelBase res.2.2.frames := by
  cases outcome with
  | argument => exact ⟨rfl, ⟨rfl, rfl, fun _ _ => rfl, rfl, rfl⟩, mapped⟩
  | descriptor none =>
    exact ⟨rfl, ⟨rfl, rfl, fun _ _ => rfl, poolUsed_refused tlsf none, rfl⟩, mapped⟩
  | badType other some =>
    obtain ⟨_, same⟩ := poolUsed_returned some rfl
    exact ⟨rfl, ⟨rfl, rfl, fun _ _ => rfl, same, rfl⟩, mapped⟩
  | @noPages elem pool frames pages some none =>
    obtain ⟨new, same⟩ := poolUsed_returned some rfl
    have apart : ∀ p ∈ poolUsed tlsf s.pool, p ≠ elem := by
      rintro p used rfl
      exact new used
    have zero : (mmAllocPage kernelBase (pageCount count) s.frames).1 = 0 := by rw [none]
    have left : frames = (mmAllocFrame s.frames (pageCount count)).2 := by
      rw [← @mmAllocPage_frames kernelBase, none]
    rcases mmAllocPage_cases mapped
      (pageCount_word count) with ⟨_, _, _, nonzero, _⟩ | ⟨_, _, bitmap⟩
    · exact absurd zero nonzero
    · rw [none] at bitmap
      exact ⟨rfl, ⟨rfl, rfl, fun p used => Function.update_of_ne (apart p used) _ _, same, bitmap⟩,
        left ▸ mapped.alloc (pageCount_word count)⟩
  | @noBlock elem pool pool' heap some none =>
    obtain ⟨new, same⟩ := poolUsed_returned some (poolUsed_refused tlsf none)
    have apart : ∀ p ∈ poolUsed tlsf s.pool, p ≠ elem := by
      rintro p used rfl
      exact new used
    exact ⟨rfl, ⟨rfl, rfl, fun p used => Function.update_of_ne (apart p used) _ _, same, rfl⟩,
      mapped⟩
  | pages => exact absurd rfl failed
  | heap => exact absurd rfl failed

private theorem done_call (mapped : Mapped kernelBase s.frames)
    (outcome : Outcome (mmAllocPage kernelBase) tlsf box count type s res)
    (done : res.1 = .success) :
    ∃ elem e frames pool, res = boxInsert box elem e { s with frames := frames, pool := pool } ∧
      elem ∉ poolUsed tlsf s.pool ∧ elem ∈ poolUsed tlsf pool ∧
      poolUsed tlsf s.pool ⊆ poolUsed tlsf pool ∧ Mapped kernelBase frames ∧ e.type = type ∧
      e.len = if type = .pages then alignUp count (BitVec.ofNat 64 PAGESIZE) else count := by
  cases outcome with
  | argument bad => exact absurd done bad
  | descriptor => cases done
  | badType => cases done
  | noPages => cases done
  | noBlock => cases done
  | @pages elem pool ptr frames pages some block nonzero =>
    subst pages
    obtain ⟨new, used⟩ := poolUsed_taken tlsf some
    have left : frames = (mmAllocFrame s.frames (pageCount count)).2 := by
      rw [← @mmAllocPage_frames kernelBase, block]
    refine ⟨elem, _, frames, pool, rfl, new, used ▸ Set.mem_insert _ _,
      used ▸ Set.subset_insert _ _,
      left ▸ mapped.alloc (pageCount_word count), rfl, (if_pos rfl).symm⟩
  | @heap elem ptr pool pool' heap some block =>
    subst heap
    obtain ⟨new, used⟩ := poolUsed_taken tlsf some
    obtain ⟨_, used'⟩ := poolUsed_taken tlsf block
    rw [used] at used'
    refine ⟨elem, _, s.frames, pool', rfl, new, ?_, ?_, mapped, rfl, (if_neg (by decide)).symm⟩
    · rw [used']
      exact Set.mem_insert_of_mem _ (Set.mem_insert _ _)
    · rw [used']
      exact (Set.subset_insert _ _).trans (Set.subset_insert _ _)

private theorem boxes_run_inv (run : BoxesRun tlsf kernelBase boxes s) :
    ∃ xs, BoxesInv tlsf kernelBase boxes s xs := by
  induction run with
  | start mapped =>
    refine ⟨fun _ => [], mapped, ?_, ?_, ?_, ?_⟩
    · exact fun _ member => absurd member (Set.notMem_empty _)
    · exact fun _ member => absurd member (Set.notMem_empty _)
    · exact fun _ member => absurd member (Set.notMem_empty _)
    · exact fun _ member => absurd member (Set.notMem_empty _)
  | init _ box ih =>
    obtain ⟨xs, inv⟩ := ih
    exact ⟨_, inv.init box⟩
  | @alloc boxes s _ box known count type result ih =>
    obtain ⟨xs, inv⟩ := ih
    have outcome := exBoxAllocate_outcome (mmAllocPage kernelBase) tlsf box count type result s
    generalize exBoxAllocateOver tlsf (mmAllocPage kernelBase) (some box) count type result
      s = res at outcome ⊢
    by_cases done : res.1 = .success
    · obtain ⟨elem, e, frames, pool, rfl, new, taken, used, mapped, _⟩ :=
        done_call inv.mapped outcome done
      exact ⟨_, inv.insert known new e mapped taken used⟩
    · obtain ⟨_, unchanged, mapped⟩ := failed_call inv.mapped outcome done
      refine ⟨xs, inv.kept unchanged.entries unchanged.ptrCount ?_ mapped⟩
      rw [unchanged.pool]
      exact inv.used
  | other _ entries ptrCount linked mapped ih =>
    obtain ⟨xs, inv⟩ := ih
    refine ⟨xs, inv.kept entries ptrCount ?_ mapped⟩
    intro box member p inside
    exact (linked box member (xs box) (inv.queue box member) p inside).1

theorem alignUp_rounded (small : count.toNat < 0xFFFFFFFFFFFFF001) :
    (alignUp count (BitVec.ofNat 64 PAGESIZE)).toNat = (count.toNat + 4095) / 4096 * 4096 := by
  have word : 2 ^ 64 = 0x10000000000000000 := rfl
  rw [PAGESIZE, alignUp_page (by norm_num), word, Nat.mod_eq_of_lt (by omega)]

/-- In every state of a run both counters of a box are the number of its entries, and a call
either fails and leaves box, pool blocks, frames and result as they were, or appends one
entry that describes what it returns. -/
theorem box_allocation_atomic (run : BoxesRun tlsf kernelBase boxes s) (known : box ∈ boxes) :
    ∃ xs, Linked s box xs ∧ ∀ (count : BitVec 64) (type : PtrboxType) (result : Bool)
      (status : NtStatus) (stored : Option (BitVec 64)) (s' : BoxState PhysState τ η),
      count.toNat < 0xFFFFFFFFFFFFF001 →
      exBoxAllocateOver tlsf (mmAllocPage kernelBase) (some box) count type result
        s = (status, stored, s') →
      status ≠ .success ∧ stored = none ∧ Unchanged tlsf s s' ∨
      status = .success ∧ ∃ address elem, stored = some address ∧
        Appended box xs count address type s s' elem := by
  obtain ⟨xs, inv⟩ := boxes_run_inv run
  refine ⟨xs box, inv.linked known, ?_⟩
  intro count type result status stored s' small call
  have outcome := exBoxAllocate_outcome (mmAllocPage kernelBase) tlsf box count type result s
  rw [call] at outcome
  by_cases done : status = .success
  · right
    obtain ⟨elem, e, frames, pool, eq, new, taken, used, mapped, kind, len⟩ :=
      done_call inv.mapped outcome done
    have inv' := inv.insert known new e mapped taken used
    rw [← eq] at inv'
    obtain ⟨rfl, rest⟩ := Prod.mk.inj eq
    obtain ⟨rfl, rfl⟩ := Prod.mk.inj rest
    have linked := inv'.linked known
    rw [Function.update_self] at linked
    refine ⟨rfl, e.ptr, elem, rfl, linked, ?_, ?_, ?_, ?_, ?_⟩
    · simp only [Function.update_self]
    · simp only [Function.update_self, len, roundedLength]
      split
      · exact alignUp_rounded small
      · rfl
    · simp only [Function.update_self, kind]
    · simp only [Function.update_self]
    · intro p member
      refine Function.update_of_ne ?_ _ _
      rintro rfl
      exact new (inv.used box known p member)
  · left
    obtain ⟨none, unchanged, _⟩ := failed_call inv.mapped outcome done
    exact ⟨done, none, unchanged⟩

end Runs

section Boxes

open Algae.Mm.PhysRuns (eightFrames)

def coldBox : BoxState PhysState (List Pointer) Unit where
  frames := eightFrames
  pool := ⟨true, []⟩
  elements := fun _ => ⟨0, .any, 0, 0⟩
  entries := ⟨fun _ => none, fun _ => .first (), fun _ => 0, fun _ => none, fun _ => .first ()⟩
  ptrCount := fun _ => 0

def oneBox : BoxState PhysState (List Pointer) Unit := (exInitPtrBox (some ()) coldBox).2

theorem mapped_eightFrames : Mapped 0xFFFF800000000000 eightFrames := by
  refine ⟨by decide, by decide, ?_⟩
  rw [PAGESIZE]
  decide

private theorem oneBox_run : BoxesRun twoPool 0xFFFF800000000000 (insert () ∅) oneBox :=
  (@BoxesRun.start (List Pointer) Unit _ twoPool 0xFFFF800000000000 coldBox
    mapped_eightFrames).init ()

theorem box_allocation_atomic_one : ∃ xs elem, Appended () xs 64 0xFFFF800000001000 .pages oneBox
    (exBoxAllocateOver twoPool (mmAllocPage 0xFFFF800000000000) (some ()) 64 .pages true oneBox).2.2
    elem := by
  obtain ⟨xs, _, calls⟩ := box_allocation_atomic oneBox_run (Set.mem_insert () ∅)
  have returned :
    (exBoxAllocateOver twoPool (mmAllocPage 0xFFFF800000000000) (some ()) 64 .pages true
      oneBox).2.1 = some 0xFFFF800000001000 := by decide +kernel
  generalize call :
    exBoxAllocateOver twoPool (mmAllocPage 0xFFFF800000000000) (some ()) 64 .pages true
    oneBox = res at returned
  obtain ⟨status, stored, s'⟩ := res
  subst returned
  rcases calls 64 .pages true _ _ _
    (by decide) call with ⟨_, none, _⟩ | ⟨_, address, elem, ⟨⟩, appended⟩
  · cases none
  · exact ⟨xs, elem, appended⟩

end Boxes

end Algae.Ex.BoxAlloc
