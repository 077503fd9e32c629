/- What the users of mmAllocFrame rely on: frames that come from it are zeroed and
   nobody else's. The bitmap allocator is such a source. -/

import Algae.Mm.Phys

set_option autoImplicit false
set_option relaxedAutoImplicit false

namespace Algae.Mm.Frames

open Algae.Lib.ByteMemory Algae.Lib.FirstFit
open Algae.Sdk.Defs

/-- A state with physical memory and a frame allocator. `held` are the numbers of
the frames that are not free: handed out, or never to be handed out. -/
structure FrameSource (σ : Type) where
  mem : σ → Mem
  setMem : σ → Mem → σ
  mmAllocFrame : σ → Nat → Nat × σ
  held : σ → Nat → Prop
  mem_setMem : ∀ s m, mem (setMem s m) = m
  held_setMem : ∀ s m f, held (setMem s m) f ↔ held s f
  stays_held : ∀ s count f, held s f → held (mmAllocFrame s count).2 f
  keeps_mem : ∀ s count x, held s (x / PAGESIZE) → mem (mmAllocFrame s count).2 x = mem s x
  fresh : ∀ s count, (mmAllocFrame s count).1 ≠ 0 →
    ∃ i, (mmAllocFrame s count).1 = i * PAGESIZE ∧
      (i + count) * PAGESIZE ≤ 0x10000000000000 ∧
      ∀ f ∈ span i count, ¬held s f ∧ held (mmAllocFrame s count).2 f
  zeroed : ∀ s count x, (mmAllocFrame s count).1 ≠ 0 → (mmAllocFrame s count).1 ≤ x →
    x < (mmAllocFrame s count).1 + count * PAGESIZE → mem (mmAllocFrame s count).2 x = 0

attribute [simp] FrameSource.mem_setMem FrameSource.held_setMem

/-- A source whose calls change nothing in memory but the block that they hand out. -/
structure ZeroingSource (σ : Type) extends FrameSource σ where
  only_block : ∀ s count x, mem (mmAllocFrame s count).2 x ≠ mem s x →
    (mmAllocFrame s count).1 ≠ 0 ∧ x / PAGESIZE ∈ span ((mmAllocFrame s count).1 / PAGESIZE) count

section Bitmap

open Algae.Mm.Phys

/-- The allocator after start-up, on a machine with less than 8 TiB. -/
structure Ready (s : PhysState) : Prop where
  bound : s.highestFrameIdx < 0x80000000
  zero : testBit s.bitmap 0 = true

theorem Ready.alloc {s : PhysState} (ready : Ready s) (count : Nat) :
    Ready (mmAllocFrame s count).2 := by
  rcases mmAllocFrame_spec s count ready.bound (fun _ => ready.zero) with
    ⟨i, _, _, _, bitmap, _, bound⟩ | ⟨_, _, bitmap, _, bound⟩
  · refine ⟨bound ▸ ready.bound, ?_⟩
    rw [bitmap, testBit_setFrames, ready.zero, Bool.or_true]
  · exact ⟨bound ▸ ready.bound, bitmap ▸ ready.zero⟩

def Held (s : PhysState) (f : Nat) : Prop := f < s.highestFrameIdx → testBit s.bitmap f = true

private theorem page_index (i count x : Nat) (low : i * PAGESIZE ≤ x)
    (high : x < i * PAGESIZE + count * PAGESIZE) : i ≤ x / PAGESIZE ∧ x / PAGESIZE < i + count := by
  refine ⟨(Nat.le_div_iff_mul_le page_pos).mpr low, Nat.div_lt_of_lt_mul ?_⟩
  rwa [Nat.mul_comm, Nat.add_mul]

private theorem alloc_block {s : PhysState} (ready : Ready s) (count : Nat)
    (nonzero : (mmAllocFrame s count).1 ≠ 0) :
    ∃ i, (mmAllocFrame s count).1 = i * PAGESIZE ∧ i + (count + 1) ≤ s.highestFrameIdx ∧
      (∀ f, i ≤ f → f < i + (count + 1) → testBit s.bitmap f = false) ∧
      (mmAllocFrame s count).2.bitmap = setFrames s.bitmap i count ∧
      (mmAllocFrame s count).2.mem = fill s.mem (i * PAGESIZE) (count * PAGESIZE) 0 ∧
      (mmAllocFrame s count).2.highestFrameIdx = s.highestFrameIdx := by
  rcases mmAllocFrame_spec s count ready.bound (fun _ => ready.zero) with
    ⟨i, _, run, ret, bitmap, mem, bound⟩ | ⟨_, ret, _⟩
  · exact ⟨i, ret, run.fits, run.run, bitmap, mem, bound⟩
  · exact absurd ret nonzero

private theorem stays_held {s : PhysState} (ready : Ready s) (count f : Nat) (held : Held s f) :
    Held (mmAllocFrame s count).2 f := by
  have taken := mmAllocFrame_onlyTakes s count (ready.bound.trans (by norm_num))
  intro below
  by_contra clear
  have unset := taken.clear f (Bool.eq_false_of_not_eq_true clear)
  rw [Clear, held (taken.bound ▸ below)] at unset
  cases unset

private theorem keeps_mem {s : PhysState} (ready : Ready s) (count x : Nat)
    (held : Held s (x / PAGESIZE)) :
    (mmAllocFrame s count).2.mem x = s.mem x := by
  by_cases nonzero : (mmAllocFrame s count).1 = 0
  · rcases mmAllocFrame_spec s count ready.bound (fun _ => ready.zero) with
      ⟨i, positive, _, ret, _⟩ | ⟨_, _, _, mem, _⟩
    · rw [nonzero] at ret
      exact absurd ret.symm (Nat.mul_ne_zero positive.ne' page_pos.ne')
    · exact congrFun mem x
  · obtain ⟨i, _, fits, clear, _, mem, _⟩ := alloc_block ready count nonzero
    refine (congrFun mem x).trans (fill_outside _ _ ?_)
    by_contra inside
    obtain ⟨low, high⟩ := not_or.mp inside
    obtain ⟨first, last⟩ := page_index i count x (by omega) (by omega)
    have set := held (show x / PAGESIZE < s.highestFrameIdx by omega)
    rw [clear _ first (by omega)] at set
    cases set

private theorem block_fresh {s : PhysState} (ready : Ready s) (count : Nat)
    (nonzero : (mmAllocFrame s count).1 ≠ 0) :
    ∃ i, (mmAllocFrame s count).1 = i * PAGESIZE ∧ (i + count) * PAGESIZE ≤ 0x10000000000000 ∧
      ∀ f ∈ span i count, ¬Held s f ∧ Held (mmAllocFrame s count).2 f := by
  obtain ⟨i, ret, fits, clear, bitmap, _, bound⟩ := alloc_block ready count nonzero
  refine ⟨i, ret, ?_, ?_⟩
  · have := ready.bound
    simp only [PAGESIZE]
    omega
  · intro f inside
    have := mem_span.mp inside
    refine ⟨?_, ?_⟩
    · intro held
      have set := held (show f < s.highestFrameIdx by omega)
      rw [clear f this.1 (by omega)] at set
      cases set
    · intro _
      rw [bitmap, testBit_setFrames, decide_eq_true this, Bool.true_or]

private theorem block_zeroed {s : PhysState} (ready : Ready s) (count x : Nat)
    (nonzero : (mmAllocFrame s count).1 ≠ 0) (low : (mmAllocFrame s count).1 ≤ x)
    (high : x < (mmAllocFrame s count).1 + count * PAGESIZE) :
    (mmAllocFrame s count).2.mem x = 0 := by
  obtain ⟨i, ret, _, _, _, mem, _⟩ := alloc_block ready count nonzero
  rw [ret] at low high
  exact (congrFun mem x).trans (fill_inside _ _ ⟨low, high⟩)

/-- The bitmap allocator as a source of frames. -/
def bitmapSource : FrameSource {s : PhysState // Ready s} where
  mem s := s.val.mem
  setMem s m := ⟨{ s.val with mem := m }, s.property.bound, s.property.zero⟩
  mmAllocFrame s count :=
    ((mmAllocFrame s.val count).1, ⟨(mmAllocFrame s.val count).2, s.property.alloc count⟩)
  held s := Held s.val
  mem_setMem _ _ := rfl
  held_setMem _ _ _ := Iff.rfl
  stays_held s := stays_held s.property
  keeps_mem s := keeps_mem s.property
  fresh s := block_fresh s.property
  zeroed s := block_zeroed s.property

def bitmapZeroing : ZeroingSource {s : PhysState // Ready s} where
  toFrameSource := bitmapSource
  only_block := by
    rintro ⟨s, ready⟩ count x changed
    change (mmAllocFrame s count).2.mem x ≠ s.mem x at changed
    change (mmAllocFrame s count).1 ≠ 0 ∧
      x / PAGESIZE ∈ span ((mmAllocFrame s count).1 / PAGESIZE) count
    rcases mmAllocFrame_spec s count ready.bound (fun _ => ready.zero) with
      ⟨i, positive, _, ret, _, mem, _⟩ | ⟨_, _, _, mem, _⟩
    · rw [ret, Nat.mul_div_cancel _ page_pos]
      refine ⟨Nat.mul_ne_zero positive.ne' page_pos.ne', ?_⟩
      by_contra outside
      refine changed ((congrFun mem x).trans (fill_outside _ _ ?_))
      by_contra inside
      obtain ⟨low, high⟩ := not_or.mp inside
      exact outside (page_index i count x (by omega) (by omega))
    · exact absurd (congrFun mem x) changed

end Bitmap

end Algae.Mm.Frames
