/- Whole runs of the frame allocator: the bitmap always says which frames the
   live blocks and the frames in use at the start cover. -/

import Algae.Mm.Phys

set_option autoImplicit false
set_option relaxedAutoImplicit false

namespace Algae.Mm.PhysRuns

open Algae.Lib.ByteMemory Algae.Lib.FirstFit
open Algae.Sdk.Defs Algae.Mm.Phys

/-- A block as its holder names it: the base that mmAllocFrame returned and the
number of frames that were asked for. -/
structure Block where
  base : Nat
  count : Nat
  deriving DecidableEq, Repr

def Block.frames (b : Block) : Set Nat := span (b.base / PAGESIZE) b.count

/-- Reachable allocator states with the blocks that are still live. -/
inductive FrameRun (s₀ : PhysState) : PhysState → List Block → Prop
  | start : FrameRun s₀ s₀ []
  | failed {s : PhysState} {live : List Block} {count : Nat} (run : FrameRun s₀ s live)
      (positive : 1 ≤ count) (zero : (mmAllocFrame s count).1 = 0) :
      FrameRun s₀ (mmAllocFrame s count).2 live
  | alloc {s : PhysState} {live : List Block} {count : Nat} (run : FrameRun s₀ s live)
      (positive : 1 ≤ count) (nonzero : (mmAllocFrame s count).1 ≠ 0) :
      FrameRun s₀ (mmAllocFrame s count).2 (⟨(mmAllocFrame s count).1, count⟩ :: live)
  | free {s : PhysState} {live : List Block} {b : Block} (run : FrameRun s₀ s live)
      (member : b ∈ live) : FrameRun s₀ (mmFreeFrame s b.base b.count) (live.erase b)

def usedFrames (s : PhysState) : Set Nat :=
  {i | i < s.highestFrameIdx ∧ testBit s.bitmap i = true}

structure FrameInv (s₀ s : PhysState) (live : List Block) : Prop where
  bound : s.highestFrameIdx = s₀.highestFrameIdx
  own : Ownership Block.frames (usedFrames s₀) live (usedFrames s)
  aligned : ∀ b ∈ live, b.base = b.base / PAGESIZE * PAGESIZE
  below : ∀ b ∈ live, b.base / PAGESIZE + b.count < s₀.highestFrameIdx

section Runs

variable {s₀ s : PhysState} {live : List Block}

private theorem frame_zero (inv : FrameInv s₀ s live) (h0 : testBit s₀.bitmap 0 = true)
    (positive : 0 < s.highestFrameIdx) : testBit s.bitmap 0 = true := by
  have reserved : 0 ∈ usedFrames s₀ := ⟨inv.bound ▸ positive, h0⟩
  exact ((inv.own.used_iff 0).mpr (Or.inl reserved)).2

private theorem alloc_outcome (inv : FrameInv s₀ s live) (h0 : testBit s₀.bitmap 0 = true)
    (hb : s₀.highestFrameIdx < 0x80000000) (count : Nat) :
    (mmAllocFrame s count).2.highestFrameIdx = s.highestFrameIdx ∧
    (((mmAllocFrame s count).1 = 0 ∧ (mmAllocFrame s count).2.bitmap = s.bitmap) ∨
    ∃ i, 0 < i ∧ (mmAllocFrame s count).1 = i * PAGESIZE ∧ i + count < s.highestFrameIdx ∧
      (∀ j ∈ span i count, testBit s.bitmap j = false) ∧
      (mmAllocFrame s count).2.bitmap = setFrames s.bitmap i count ∧
      (mmAllocFrame s count).2.mem = fill s.mem (i * PAGESIZE) (count * PAGESIZE) 0) := by
  have small : s.highestFrameIdx < 0x80000000 := inv.bound ▸ hb
  rcases mmAllocFrame_spec s count small (frame_zero inv h0) with
    ⟨i, positive, run, ret, bitmap, mem, bound⟩ | ⟨_, ret, bitmap, _, bound⟩
  · refine ⟨bound, Or.inr ⟨i, positive, ret, ?_, ?_, bitmap, mem⟩⟩
    · have := run.fits
      omega
    · intro j hj
      have := mem_span.mp hj
      exact run.run j this.1 (by omega)
  · exact ⟨bound, Or.inl ⟨ret, bitmap⟩⟩

private theorem used_of_same {s' : PhysState} (bitmap : s'.bitmap = s.bitmap)
    (bound : s'.highestFrameIdx = s.highestFrameIdx) : usedFrames s' = usedFrames s := by
  simp only [usedFrames, bitmap, bound]

private theorem inv_alloc (inv : FrameInv s₀ s live) (h0 : testBit s₀.bitmap 0 = true)
    (hb : s₀.highestFrameIdx < 0x80000000) {count : Nat} (nonzero : (mmAllocFrame s count).1 ≠ 0) :
    FrameInv s₀ (mmAllocFrame s count).2 (⟨(mmAllocFrame s count).1, count⟩ :: live) := by
  obtain ⟨bound, ⟨zero, _⟩ | ⟨i, _, ret, fits, clear, bitmap, _⟩⟩ := alloc_outcome inv h0 hb count
  · exact absurd zero nonzero
  have index : (mmAllocFrame s count).1 / PAGESIZE = i := by
    rw [ret, Nat.mul_div_cancel _ page_pos]
  have frames : Block.frames ⟨(mmAllocFrame s count).1, count⟩ = span i count := by
    rw [Block.frames, index]
  have unused : Disjoint (Block.frames ⟨(mmAllocFrame s count).1, count⟩) (usedFrames s) := by
    rw [frames]
    refine Set.disjoint_left.mpr ?_
    intro j hj hused
    have := hused.2
    rw [clear j hj] at this
    cases this
  have used : usedFrames (mmAllocFrame s count).2 =
      usedFrames s ∪ Block.frames ⟨(mmAllocFrame s count).1, count⟩ := by
    ext j
    rw [frames]
    simp only [usedFrames, bitmap, bound, testBit_setFrames, Set.mem_ofPred_eq, Set.mem_union,
      mem_span, Bool.or_eq_true, decide_eq_true_eq]
    constructor
    · rintro ⟨low, block | set⟩
      · exact Or.inr block
      · exact Or.inl ⟨low, set⟩
    · rintro (⟨low, set⟩ | block)
      · exact ⟨low, Or.inr set⟩
      · exact ⟨by omega, Or.inl block⟩
  refine ⟨bound.trans inv.bound, ?_, ?_, ?_⟩
  · rw [used]
    exact inv.own.take unused
  · intro b hb
    rcases List.mem_cons.mp hb with rfl | hb
    · rw [index, ret]
    · exact inv.aligned b hb
  · intro b hb
    rcases List.mem_cons.mp hb with rfl | hb
    · rw [index, ← inv.bound]
      exact fits
    · exact inv.below b hb

private theorem inv_free (inv : FrameInv s₀ s live) (hb : s₀.highestFrameIdx < 0x80000000)
    {b : Block} (member : b ∈ live) :
    FrameInv s₀ (mmFreeFrame s b.base b.count) (live.erase b) := by
  have below := inv.below b member
  have fits : (b.base / PAGESIZE + b.count + 1) * PAGESIZE ≤ 0x10000000000000000 := by
    have : b.base / PAGESIZE + b.count + 1 ≤ 0x80000000 := by omega
    exact (Nat.mul_le_mul_right PAGESIZE this).trans (by norm_num [PAGESIZE])
  have bits : ∀ j, testBit (mmFreeFrame s b.base b.count).bitmap j =
      (decide (¬(b.base / PAGESIZE ≤ j ∧ j < b.base / PAGESIZE + b.count)) &&
        testBit s.bitmap j) := by
    intro j
    have freed := testBit_mmFreeFrame s (b.base / PAGESIZE) b.count j fits
    rwa [← inv.aligned b member] at freed
  have used : usedFrames (mmFreeFrame s b.base b.count) = usedFrames s \ b.frames := by
    ext j
    have bound : (mmFreeFrame s b.base b.count).highestFrameIdx = s.highestFrameIdx := rfl
    simp only [usedFrames, Set.mem_ofPred_eq, Set.mem_sdiff, Block.frames, mem_span, bits, bound,
      Bool.and_eq_true, decide_eq_true_eq]
    constructor
    · rintro ⟨low, out, set⟩
      exact ⟨⟨low, set⟩, out⟩
    · rintro ⟨⟨low, set⟩, out⟩
      exact ⟨low, out, set⟩
  refine ⟨inv.bound, ?_, ?_, ?_⟩
  · rw [used]
    exact inv.own.release member
  · exact fun c hc => inv.aligned c (List.mem_of_mem_erase hc)
  · exact fun c hc => inv.below c (List.mem_of_mem_erase hc)

theorem frame_run_inv (h0 : testBit s₀.bitmap 0 = true) (hb : s₀.highestFrameIdx < 0x80000000)
    (run : FrameRun s₀ s live) : FrameInv s₀ s live := by
  induction run with
  | start => exact ⟨rfl, Ownership.nil _ _, by simp, by simp⟩
  | @failed s live count _ _ zero inv =>
    obtain ⟨bound, ⟨_, bitmap⟩ | ⟨i, positive, ret, _⟩⟩ := alloc_outcome inv h0 hb count
    · exact ⟨bound.trans inv.bound, used_of_same bitmap bound ▸ inv.own, inv.aligned, inv.below⟩
    · rw [zero] at ret
      exact absurd ret.symm (Nat.mul_ne_zero (by omega) page_pos.ne')
  | alloc _ _ nonzero inv => exact inv_alloc inv h0 hb nonzero
  | free _ member inv => exact inv_free inv hb member

/-- In every reachable state the used frames are the initial ones and those of
the live blocks, which are pairwise disjoint, disjoint from the initial ones and
below the bound; a successful call hands out zeroed frames and a failed call
leaves the bitmap as it was. -/
theorem frame_runs_sound (h0 : testBit s₀.bitmap 0 = true) (hb : s₀.highestFrameIdx < 0x80000000)
    (run : FrameRun s₀ s live) :
    (∀ i < s₀.highestFrameIdx, testBit s.bitmap i = true ↔
      testBit s₀.bitmap i = true ∨ ∃ b ∈ live, i ∈ b.frames) ∧
    live.Pairwise (fun b c => Disjoint b.frames c.frames) ∧
    (∀ b ∈ live, ∀ i ∈ b.frames, i < s₀.highestFrameIdx ∧ testBit s₀.bitmap i = false) ∧
    (∀ count, 1 ≤ count → (mmAllocFrame s count).1 ≠ 0 →
      ∀ x, (mmAllocFrame s count).1 ≤ x → x < (mmAllocFrame s count).1 + count * PAGESIZE →
        (mmAllocFrame s count).2.mem x = 0) ∧
    (∀ count, 1 ≤ count → (mmAllocFrame s count).1 = 0 →
      (mmAllocFrame s count).2.bitmap = s.bitmap) := by
  have inv := frame_run_inv h0 hb run
  refine ⟨?_, inv.own.apart, ?_, ?_, ?_⟩
  · intro i hi
    have used := inv.own.used_iff i
    simp only [usedFrames, Set.mem_ofPred_eq, inv.bound, hi, true_and] at used
    exact used
  · intro b member i hi
    have := inv.below b member
    have low : i < s₀.highestFrameIdx := by
      have := mem_span.mp hi
      omega
    refine ⟨low, ?_⟩
    by_contra set
    have reserved : i ∈ usedFrames s₀ := ⟨low, by simpa using set⟩
    exact Set.disjoint_left.mp (inv.own.unreserved b member) hi reserved
  · intro count _ nonzero x low high
    obtain ⟨_, ⟨zero, _⟩ | ⟨i, _, ret, _, _, _, mem⟩⟩ := alloc_outcome inv h0 hb count
    · exact absurd zero nonzero
    · rw [ret] at low high
      rw [mem, fill_inside _ _ ⟨low, high⟩]
  · intro count _ zero
    obtain ⟨_, ⟨_, bitmap⟩ | ⟨i, positive, ret, _⟩⟩ := alloc_outcome inv h0 hb count
    · exact bitmap
    · rw [zero] at ret
      exact absurd ret.symm (Nat.mul_ne_zero (by omega) page_pos.ne')

end Runs

def eightFrames : PhysState where
  bitmap := fun i => if i = 0 then 1 else 0xFF
  bitmapBase := some 0
  bitmapSize := 1
  bitmapFreeStart := 1
  highestFrameIdx := 8
  lastIdx := 0
  framesUsed := 1
  framesFree := 7
  mem := fun _ => 0xAA

/-- Two blocks were taken, and the first one was released. -/
def releasedFirst : PhysState :=
  mmFreeFrame (mmAllocFrame (mmAllocFrame eightFrames 2).2 3).2 0x1000 2

theorem frame_runs_sound_eight :
    (∀ i < 8, testBit releasedFirst.bitmap i = true ↔
      testBit eightFrames.bitmap i = true ∨ ∃ b ∈ [Block.mk 0x3000 3], i ∈ b.frames) ∧
    (mmAllocFrame releasedFirst 1).1 = 0x1000 ∧
    ∀ x, 0x1000 ≤ x → x < 0x1000 + 1 * PAGESIZE → (mmAllocFrame releasedFirst 1).2.mem x = 0 := by
  have first : (mmAllocFrame eightFrames 2).1 = 0x1000 := by decide +kernel
  have second : (mmAllocFrame (mmAllocFrame eightFrames 2).2 3).1 = 0x3000 := by decide +kernel
  have third : (mmAllocFrame releasedFirst 1).1 = 0x1000 := by decide +kernel
  have one := FrameRun.alloc (@FrameRun.start eightFrames)
    (show 1 ≤ 2 by decide) (by rw [first]; decide)
  have two := FrameRun.alloc one (show 1 ≤ 3 by decide) (by rw [second]; decide)
  rw [first, second] at two
  have run : FrameRun eightFrames releasedFirst [⟨0x3000, 3⟩] :=
    two.free (b := ⟨0x1000, 2⟩) (by decide)
  obtain ⟨bits, _, _, zeroed, _⟩ := frame_runs_sound (by decide) (by decide) run
  have clear := zeroed 1 (by decide) (by rw [third]; decide)
  rw [third] at clear
  exact ⟨bits, third, clear⟩

end Algae.Mm.PhysRuns
