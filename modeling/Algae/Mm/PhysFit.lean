/- Which block the frame allocator hands out, for every bitmap and every count: the
   first run of the length at which its counter passes the count. -/

import Algae.Mm.PhysRuns

set_option autoImplicit false
set_option relaxedAutoImplicit false

namespace Algae.Mm.PhysFit

open Algae.Lib.ByteMemory Algae.Lib.FirstFit
open Algae.Sdk.Defs Algae.Mm.Phys
open Algae.Mm.PhysRuns (eightFrames)

/-- The length of the run a search ends in. `nFrames++ >= count` looks at the number of
frames before the current one, and `nFrames` is a LONG: past 0x7FFFFFFF it is negative,
and reads as at least 0xFFFFFFFF80000000 when compared with a USIZE. -/
def sought (count : Nat) : Nat :=
  if count ≤ 0x80000000 then count + 1 else 0x80000001 + (count - 0xFFFFFFFF80000000)

theorem sought_pos (count : Nat) : 0 < sought count := by
  unfold sought
  split <;> omega

theorem sought_of_le {count : Nat} (low : count ≤ 0x80000000) : sought count = count + 1 :=
  if_pos low

theorem sought_of_gt {count : Nat} (high : 0x80000000 < count) :
    sought count = 0x80000001 + (count - 0xFFFFFFFF80000000) :=
  if_neg (Nat.not_le.mpr high)

private theorem unsigned_frames {k : Nat} (range : k < 0x100000000) :
    toUSize (toLong (k : Int)) = if k < 0x80000000 then k else 0xFFFFFFFF00000000 + k := by
  unfold toUSize toLong
  split <;> omega

theorem sought_stops {count : Nat} (word : count < 0x10000000000000000) (bound : Nat) :
    StopsAt count (sought count) bound := by
  intro k below _
  rcases Nat.lt_or_ge 0x80000000 count with high | low
  · rw [sought_of_gt high] at below ⊢
    rw [unsigned_frames (by omega)]
    split <;> omega
  · rw [sought_of_le low] at below ⊢
    rw [unsigned_frames (by omega)]
    split <;> omega

/-- What first fit promises: the lowest run of `count` clear frames below
highestFrameIdx, and 0 only without one. -/
def FirstFit (s : PhysState) (count ret : Nat) : Prop :=
  (∃ i, LowestRun (Clear s.bitmap) count s.highestFrameIdx i ∧ ret = i * PAGESIZE) ∨
  ((∀ k, k + count ≤ s.highestFrameIdx → ¬FreeRun (Clear s.bitmap) k count) ∧ ret = 0)

/-- The search for a run of another length does not show: up to 0x80000000 frames the
first run of `count` frames is followed by one more clear frame, and above that the
first run of `sought count` frames, shorter than the block, goes on for all of it. -/
def NextFramesClear (s : PhysState) (count : Nat) : Prop :=
  if count ≤ 0x80000000 then
    ∀ i, LowestRun (Clear s.bitmap) count s.highestFrameIdx i →
      i + count < s.highestFrameIdx ∧ Clear s.bitmap (i + count)
  else
    ∀ i, LowestRun (Clear s.bitmap) (sought count) s.highestFrameIdx i →
      i + count ≤ s.highestFrameIdx ∧ FreeRun (Clear s.bitmap) i count

section Fit

variable {s : PhysState} {count : Nat}

private theorem first_fit_runs (hb : s.highestFrameIdx < 0x10000000000000)
    (word : count < 0x10000000000000000) (positive : 1 ≤ count) (h0 : testBit s.bitmap 0 = true) :
    FirstFit s count (mmAllocFrame s count).1 ↔
      ∀ i, LowestRun (Clear s.bitmap) count s.highestFrameIdx i ↔
        LowestRun (Clear s.bitmap) (sought count) s.highestFrameIdx i := by
  rcases mmAllocFrame_stops s count (sought count) hb (sought_pos count) (sought_stops word _)
    (fun _ => h0) with ⟨i, above, run, call⟩ | ⟨none, call⟩
  · rw [call]
    constructor
    · rintro (⟨j, lowest, ret⟩ | ⟨_, zero⟩) k
      · obtain rfl : i = j := Nat.eq_of_mul_eq_mul_right page_pos ret
        constructor
        · intro other
          exact other.unique lowest ▸ run
        · intro other
          exact other.unique run ▸ lowest
      · exact absurd zero (Nat.mul_ne_zero (by omega) page_pos.ne')
    · intro same
      exact Or.inl ⟨i, (same i).mpr run, rfl⟩
  · rw [call]
    have no_run : ∀ i, ¬LowestRun (Clear s.bitmap) (sought count) s.highestFrameIdx i :=
      fun i lowest => none i lowest.fits lowest.run
    constructor
    · rintro (⟨j, lowest, ret⟩ | ⟨never, _⟩) k
      · obtain rfl : j = 0 := (Nat.mul_eq_zero.mp ret.symm).resolve_right page_pos.ne'
        have clear : testBit s.bitmap 0 = false := lowest.run 0 le_rfl (by omega)
        rw [h0] at clear
        cases clear
      · exact ⟨fun lowest => absurd lowest.run (never k lowest.fits),
          fun lowest => absurd lowest (no_run k)⟩
    · intro same
      refine Or.inr ⟨fun k fits run => ?_, rfl⟩
      obtain ⟨i, _, lowest⟩ := LowestRun.exists_le fits run
      exact no_run i ((same i).mp lowest)

/-- The allocator is first fit exactly if the frame after the first run of `count` frames
is clear too and below highestFrameIdx (and, above 0x80000000 frames, if the shorter run
that the search is content with goes on for the whole block). -/
theorem mmAllocFrame_first_fit_iff (hb : s.highestFrameIdx < 0x10000000000000)
    (word : count < 0x10000000000000000) (positive : 1 ≤ count) (h0 : testBit s.bitmap 0 = true) :
    FirstFit s count (mmAllocFrame s count).1 ↔ NextFramesClear s count := by
  rw [first_fit_runs hb word positive h0]
  unfold NextFramesClear
  by_cases low : count ≤ 0x80000000
  · rw [if_pos low, sought_of_le low, LowestRun.agree_iff (Nat.le_succ count)]
    constructor
    · intro goes_on i lowest
      obtain ⟨fits, run⟩ := goes_on i lowest
      exact ⟨by omega, (FreeRun.succ_iff.mp run).2⟩
    · intro next i lowest
      obtain ⟨fits, clear⟩ := next i lowest
      exact ⟨by omega, FreeRun.succ_iff.mpr ⟨lowest.run, clear⟩⟩
  · have shorter : sought count ≤ count := by
      rw [sought_of_gt (by omega)]
      omega
    rw [if_neg low, ← LowestRun.agree_iff shorter]
    exact forall_congr' fun i => Iff.comm

theorem mmAllocFrame_first_fit_iff_eight :
    FirstFit eightFrames 2 (mmAllocFrame eightFrames 2).1 := by
  refine (mmAllocFrame_first_fit_iff (by decide) (by decide) (by decide) (by decide)).mpr ?_
  intro i lowest
  have run : FreeRun (Clear eightFrames.bitmap) 1 2 := by
    intro j low high
    have bits : ∀ j < 3, 1 ≤ j → testBit eightFrames.bitmap j = false := by decide
    exact bits j high low
  have first : i ≤ 1 := lowest.lowest 1 (by decide) run
  have bits : ∀ i < 2, i + 2 < 8 ∧ testBit eightFrames.bitmap (i + 2) = false := by decide
  exact bits i (by omega)

/-- All seven free frames at once are refused: the last run ends at highestFrameIdx. -/
theorem exact_run_refused : testBit eightFrames.bitmap 0 = true ∧
    ¬FirstFit eightFrames 7 (mmAllocFrame eightFrames 7).1 := by
  refine ⟨by decide, ?_⟩
  have refused : (mmAllocFrame eightFrames 7).1 = 0 := by decide +kernel
  have run : FreeRun (Clear eightFrames.bitmap) 1 7 := by
    intro j low high
    have bits : ∀ j < 8, 1 ≤ j → testBit eightFrames.bitmap j = false := by decide
    exact bits j high low
  rw [refused]
  rintro (⟨i, lowest, ret⟩ | ⟨never, _⟩)
  · obtain rfl : i = 0 := (Nat.mul_eq_zero.mp ret.symm).resolve_right page_pos.ne'
    have clear : testBit eightFrames.bitmap 0 = false := lowest.run 0 le_rfl (by omega)
    cases clear
  · exact never 1 le_rfl run

end Fit

end Algae.Mm.PhysFit
