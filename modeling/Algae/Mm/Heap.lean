/- What the users of mmAllocFrame and mmFreeFrame rely on together: exactly the frames of
   a block change hands, and how many single frames are left to hand out. -/

import Mathlib.Data.Finset.Card
import Algae.Mm.Frames

set_option autoImplicit false
set_option relaxedAutoImplicit false

namespace Algae.Mm.Heap

open Algae.Lib.ByteMemory Algae.Lib.FirstFit
open Algae.Sdk.Defs Algae.Mm.Frames

/-- A source of frames that takes them back. `managed` are the frames that it may hand
out at all; `room` counts the calls for one frame that succeed from here on. -/
structure FrameHeap (σ : Type) extends FrameSource σ where
  mmFreeFrame : σ → Nat → Nat → σ
  managed : σ → Nat → Prop
  room : σ → Nat
  managed_few : ∀ s f, managed s f → f < 0x80000000
  managed_alloc : ∀ s count f, managed (mmAllocFrame s count).2 f ↔ managed s f
  managed_free : ∀ s base count f, managed (mmFreeFrame s base count) f ↔ managed s f
  managed_setMem : ∀ s m f, managed (setMem s m) f ↔ managed s f
  unheld_managed : ∀ s f, ¬held s f → managed s f
  grown : ∀ s count f, held (mmAllocFrame s count).2 f →
    held s f ∨ ((mmAllocFrame s count).1 ≠ 0 ∧ f ∈ span ((mmAllocFrame s count).1 / PAGESIZE) count)
  refused_mem : ∀ s count, (mmAllocFrame s count).1 = 0 → mem (mmAllocFrame s count).2 = mem s
  mem_free : ∀ s base count, mem (mmFreeFrame s base count) = mem s
  freed : ∀ s i count f, 0 < i → (i + count + 1) * PAGESIZE ≤ 0x10000000000000000 →
    (held (mmFreeFrame s (i * PAGESIZE) count) f ↔ held s f ∧ ¬(managed s f ∧ f ∈ span i count))
  room_refused : ∀ s, (mmAllocFrame s 1).1 = 0 ↔ room s = 0
  room_alloc : ∀ s, room (mmAllocFrame s 1).2 = room s - 1
  room_setMem : ∀ s m, room (setMem s m) = room s

attribute [simp] FrameHeap.managed_alloc FrameHeap.managed_free FrameHeap.managed_setMem
  FrameHeap.mem_free FrameHeap.room_alloc FrameHeap.room_setMem

section Heap

theorem block_fits {i count : Nat} (limit : (i + count) * PAGESIZE ≤ 0x10000000000000) :
    (i + count + 1) * PAGESIZE ≤ 0x10000000000000000 := by
  rw [Nat.add_mul _ 1, PAGESIZE, Nat.one_mul]
  rw [PAGESIZE] at limit
  exact (Nat.add_le_add_right limit 4096).trans (by norm_num)

theorem index_pos {i ret : Nat} (nonzero : ret ≠ 0) (start : ret = i * PAGESIZE) : 0 < i := by
  rw [Nat.pos_iff_ne_zero]
  rintro rfl
  exact nonzero (start.trans (Nat.zero_mul _))

variable {σ : Type} (heap : FrameHeap σ)

theorem FrameHeap.refused_held {s : σ} {count : Nat} (zero : (heap.mmAllocFrame s count).1 = 0)
    (f : Nat) :
    heap.held (heap.mmAllocFrame s count).2 f ↔ heap.held s f :=
  ⟨fun held => (heap.grown s count f held).resolve_right fun taken => taken.1 zero,
    heap.stays_held s count f⟩

theorem FrameHeap.free_taken {s : σ} (nonzero : (heap.mmAllocFrame s 1).1 ≠ 0) {s' : σ} {f : Nat}
    (held : heap.held s' f → heap.held (heap.mmAllocFrame s 1).2 f)
    (managed : ∀ f, heap.managed s' f ↔ heap.managed s f)
    (after : heap.held (heap.mmFreeFrame s' (heap.mmAllocFrame s 1).1 1) f) : heap.held s f := by
  obtain ⟨i, ret, limit, fresh⟩ := heap.fresh s 1 nonzero
  rw [ret, heap.freed s' i 1 f (index_pos nonzero ret) (block_fits limit)] at after
  rcases heap.grown s 1 f (held after.1) with old | ⟨_, inside⟩
  · exact old
  · rw [ret, Nat.mul_div_cancel _ page_pos] at inside
    have unheld := (fresh f inside).1
    exact absurd ⟨(managed f).mpr (heap.unheld_managed s f unheld), inside⟩ after.2

end Heap

section Bitmap

open Algae.Mm.Phys

def freePairs (bitmap : Bitmap) (bound : Nat) : Finset Nat :=
  (Finset.range (bound - 1)).filter fun k => testBit bitmap k = false ∧
    testBit bitmap (k + 1) = false

private theorem mem_freePairs {bitmap : Bitmap} {bound k : Nat} :
    k ∈ freePairs bitmap bound ↔ k + 2 ≤ bound ∧ FreeRun (Clear bitmap) k 2 := by
  simp only [freePairs, Finset.mem_filter, Finset.mem_range]
  constructor
  · rintro ⟨below, here, next⟩
    refine ⟨by omega, fun j low high => ?_⟩
    rcases (show j = k ∨ j = k + 1 by omega) with rfl | rfl
    · exact here
    · exact next
  · rintro ⟨below, run⟩
    exact ⟨by omega, run k le_rfl (by omega), run (k + 1) (by omega) (by omega)⟩

private theorem freePairs_take {bitmap : Bitmap} {bound i : Nat}
    (lowest : LowestRun (Clear bitmap) 2 bound i) :
    freePairs (setFrames bitmap i 1) bound = (freePairs bitmap bound).erase i := by
  have clear : ∀ j, Clear (setFrames bitmap i 1) j ↔ j ≠ i ∧ Clear bitmap j := by
    intro j
    rw [Clear, testBit_setFrames, Bool.or_eq_false_iff, decide_eq_false_iff_not, Clear]
    refine and_congr_left fun _ => ?_
    omega
  ext k
  simp only [Finset.mem_erase, mem_freePairs]
  constructor
  · rintro ⟨below, run⟩
    exact ⟨((clear k).mp (run k le_rfl (by omega))).1, below,
      fun j low high => ((clear j).mp (run j low high)).2⟩
  · rintro ⟨other, below, run⟩
    have above := lowest.lowest k below run
    exact ⟨below, fun j low high => (clear j).mpr ⟨by omega, run j low high⟩⟩

private theorem alloc_one {s : PhysState} (ready : Ready s) :
    ((mmAllocFrame s 1).1 = 0 ↔ (freePairs s.bitmap s.highestFrameIdx).card = 0) ∧
      (freePairs (mmAllocFrame s 1).2.bitmap (mmAllocFrame s 1).2.highestFrameIdx).card =
        (freePairs s.bitmap s.highestFrameIdx).card - 1 := by
  rcases mmAllocFrame_spec s 1 ready.bound (fun _ => ready.zero) with
    ⟨i, positive, lowest, ret, bitmap, _, bound⟩ | ⟨none, ret, bitmap, _, bound⟩
  · have member : i ∈ freePairs s.bitmap s.highestFrameIdx :=
      mem_freePairs.mpr ⟨lowest.fits, lowest.run⟩
    refine ⟨?_, ?_⟩
    · rw [ret]
      refine iff_of_false (Nat.mul_ne_zero positive.ne' page_pos.ne') ?_
      exact (Finset.card_pos.mpr ⟨i, member⟩).ne'
    · rw [bitmap, bound, freePairs_take lowest, Finset.card_erase_of_mem member]
  · have empty : freePairs s.bitmap s.highestFrameIdx = ∅ := by
      refine Finset.eq_empty_of_forall_notMem fun k member => ?_
      obtain ⟨fits, run⟩ := mem_freePairs.mp member
      exact none k fits run
    rw [ret, bitmap, bound, empty]
    exact ⟨iff_of_true rfl rfl, rfl⟩

/-- Frame 0, which is never handed out, is not given back either. -/
def giveBack (s : {s : PhysState // Ready s}) (base count : Nat) : {s : PhysState // Ready s} :=
  if ready : (mmFreeFrame s.val base count).highestFrameIdx < 0x80000000 ∧
      testBit (mmFreeFrame s.val base count).bitmap 0 = true then
    ⟨mmFreeFrame s.val base count, ready.1, ready.2⟩
  else
    s

private theorem giveBack_val (s : {s : PhysState // Ready s}) {i count : Nat} (positive : 0 < i)
    (bound : (i + count + 1) * PAGESIZE ≤ 0x10000000000000000) :
    (giveBack s (i * PAGESIZE) count).val = mmFreeFrame s.val (i * PAGESIZE) count := by
  have kept : testBit (mmFreeFrame s.val (i * PAGESIZE) count).bitmap 0 = true := by
    have outside : ¬(i ≤ 0 ∧ 0 < i + count) := by omega
    rw [testBit_mmFreeFrame s.val i count 0 bound, decide_eq_true outside, s.property.zero]
    rfl
  rw [giveBack, dif_pos ⟨s.property.bound, kept⟩]

private theorem giveBack_fields (s : {s : PhysState // Ready s}) (base count : Nat) :
    (giveBack s base count).val.highestFrameIdx = s.val.highestFrameIdx ∧
      (giveBack s base count).val.mem = s.val.mem := by
  rw [giveBack]
  split
  · exact ⟨rfl, rfl⟩
  · exact ⟨rfl, rfl⟩

def bitmapHeap : FrameHeap {s : PhysState // Ready s} where
  toFrameSource := bitmapSource
  mmFreeFrame := giveBack
  managed s f := f < s.val.highestFrameIdx
  room s := (freePairs s.val.bitmap s.val.highestFrameIdx).card
  managed_few s f below := below.trans s.property.bound
  managed_alloc := by
    rintro ⟨s, ready⟩ count f
    change f < (mmAllocFrame s count).2.highestFrameIdx ↔ f < s.highestFrameIdx
    rw [(mmAllocFrame_onlyTakes s count (ready.bound.trans (by norm_num))).bound]
  managed_free s base count f := by
    rw [(giveBack_fields s base count).1]
  managed_setMem _ _ _ := Iff.rfl
  unheld_managed s f unheld := by
    by_contra above
    exact unheld fun below => absurd below above
  grown := by
    rintro ⟨s, ready⟩ count f held
    change Held (mmAllocFrame s count).2 f at held
    rcases mmAllocFrame_spec s count ready.bound (fun _ => ready.zero) with
      ⟨i, positive, _, ret, bitmap, _, bound⟩ | ⟨_, _, bitmap, _, bound⟩
    · rw [Held, bound, bitmap, testBit_setFrames] at held
      by_cases inside : i ≤ f ∧ f < i + count
      · refine Or.inr ⟨?_, ?_⟩
        · change (mmAllocFrame s count).1 ≠ 0
          rw [ret]
          exact Nat.mul_ne_zero positive.ne' page_pos.ne'
        · change f ∈ span ((mmAllocFrame s count).1 / PAGESIZE) count
          rwa [ret, Nat.mul_div_cancel _ page_pos]
      · left
        intro below
        have set := held below
        rwa [decide_eq_false inside, Bool.false_or] at set
    · left
      rwa [Held, bound, bitmap] at held
  refused_mem := by
    rintro ⟨s, ready⟩ count zero
    change (mmAllocFrame s count).1 = 0 at zero
    rcases mmAllocFrame_spec s count ready.bound (fun _ => ready.zero) with
      ⟨i, positive, _, ret, _⟩ | ⟨_, _, _, mem, _⟩
    · rw [ret] at zero
      exact absurd zero (Nat.mul_ne_zero positive.ne' page_pos.ne')
    · exact mem
  mem_free s base count := (giveBack_fields s base count).2
  freed := by
    intro s i count f positive bound
    change Held (giveBack s (i * PAGESIZE) count).val f ↔ Held s.val f ∧ _
    rw [Held, Held, giveBack_val s positive bound, testBit_mmFreeFrame s.val i count f bound]
    change (f < s.val.highestFrameIdx → _) ↔ _
    rw [Bool.and_eq_true, decide_eq_true_iff, mem_span]
    constructor
    · intro after
      refine ⟨fun below => (after below).2, fun given => ?_⟩
      exact (after given.1).1 given.2
    · rintro ⟨before, out⟩ below
      exact ⟨fun inside => out ⟨below, inside⟩, before below⟩
  room_refused s := (alloc_one s.property).1
  room_alloc s := (alloc_one s.property).2
  room_setMem _ _ := rfl

end Bitmap

end Algae.Mm.Heap
