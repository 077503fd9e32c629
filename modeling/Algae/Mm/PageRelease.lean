/- Page allocation and release: mmFreePages computes the frames to release from its own
   uninitialised local, so what it gives back depends on the stack. -/

import Algae.Mm.Page
import Algae.Mm.PhysFit

set_option autoImplicit false
set_option relaxedAutoImplicit false

namespace Algae.Mm.PageRelease

open Algae.Lib.ByteMemory Algae.Lib.FirstFit
open Algae.Sdk.Defs Algae.Mm.Phys Algae.Mm.Frames
open Algae.Mm.Page (physToVirt virtToPhys)
open Algae.Mm.PhysFit (sought sought_pos sought_stops sought_of_le sought_of_gt)
open Algae.Mm.PhysRuns (eightFrames)

def mmAllocPage (kernelBase : BitVec 64) (count : Nat) (s : PhysState) : BitVec 64 × PhysState :=
  Page.mmAllocPageOver mmAllocFrame kernelBase count s

/-- `pBase` is the uninitialised local, which the source converts in place of `base`. -/
def mmFreePages (kernelBase pBase : BitVec 64) (s : PhysState) (base : BitVec 64) (count : Nat) :
    PhysState :=
  if base = 0 then
    s
  else
    mmFreeFrame s (virtToPhys kernelBase pBase).toNat count

def pageFrames (kernelBase p : BitVec 64) (count : Nat) : Set Nat :=
  span ((virtToPhys kernelBase p).toNat / PAGESIZE) count

def taken (i count : Nat) : Set Nat := span i ((i + count) % 0x10000000000000000 - i)

def released (base count : Nat) : Set Nat :=
  span (pageAlignUp base / PAGESIZE)
    (((pageAlignUp base + count * PAGESIZE) % 0x10000000000000000 - pageAlignUp base) / PAGESIZE)

private theorem testBit_released (s : PhysState) (base count f : Nat) :
    testBit (mmFreeFrame s base count).bitmap f = true ↔
      testBit s.bitmap f = true ∧ f ∉ released base count := by
  rw [mmFreeFrame_bits, testBit_clrFrames, Bool.and_eq_true, decide_eq_true_eq, released, mem_span]
  exact and_comm

/-- Allocation and release are inverse: the block `p` goes back to the bitmap it was taken
from, and in no state does its release touch another block in use. -/
structure Inverse (kernelBase slot : BitVec 64) (s t : PhysState) (p : BitVec 64) (count : Nat) :
    Prop where
  restores : ∀ f, testBit (mmFreePages kernelBase slot t p count).bitmap f = testBit s.bitmap f
  spares : ∀ (u : PhysState) (q : BitVec 64) (m : Nat),
    (∀ f ∈ pageFrames kernelBase q m, testBit u.bitmap f = true) →
    Disjoint (pageFrames kernelBase p count) (pageFrames kernelBase q m) →
    ∀ f ∈ pageFrames kernelBase q m, testBit (mmFreePages kernelBase slot u p count).bitmap f = true

/-- The stack slot names the block by chance. Up to 0x80000000 frames that is all; from there
on the block may be longer than the run it was found in, and from 0x10000000000000 on its
byte length wraps. -/
structure SlotFits (kernelBase slot : BitVec 64) (s : PhysState) (p : BitVec 64) (count : Nat) :
    Prop where
  first : ¬LowestRun (Clear s.bitmap) (sought count) s.highestFrameIdx 0
  aims : count < 0x10000000000000 →
    pageAlignUp (virtToPhys kernelBase slot).toNat = (virtToPhys kernelBase p).toNat
  long : 0x80000000 < count → count < 0x10000000000000 →
    (virtToPhys kernelBase p).toNat / PAGESIZE + count < 0x10000000000000 ∧
    ∀ f ∈ pageFrames kernelBase p count, Clear s.bitmap f
  wrapped : 0x10000000000000 ≤ count →
    released (virtToPhys kernelBase slot).toNat count ⊆ pageFrames kernelBase p count ∧
    (∀ f ∈ released (virtToPhys kernelBase slot).toNat count, Clear s.bitmap f) ∧
    ∀ f ∈ taken ((virtToPhys kernelBase p).toNat / PAGESIZE) count, Clear s.bitmap f →
      f ∈ released (virtToPhys kernelBase slot).toNat count

section Release

variable {kernelBase slot p : BitVec 64} {s t : PhysState} {count : Nat}

private theorem mmAllocPage_bitmapSource (s : {s : PhysState // Ready s}) :
    (Page.mmAllocPage bitmapSource kernelBase count s).1 = (mmAllocPage kernelBase count s.val).1 ∧
    (Page.mmAllocPage bitmapSource kernelBase count s).2.val =
      (mmAllocPage kernelBase count s.val).2 := by
  have call : bitmapSource.mmAllocFrame s count =
      ((mmAllocFrame s.val count).1, ⟨(mmAllocFrame s.val count).2, s.property.alloc count⟩) := rfl
  unfold Page.mmAllocPage mmAllocPage Page.mmAllocPageOver
  rw [call]
  simp only
  split <;> exact ⟨rfl, rfl⟩

private theorem block_cases (hb : s.highestFrameIdx < 0x10000000000000)
    (word : count < 0x10000000000000000) (nonzero : (mmAllocFrame s count).1 ≠ 0) :
    (∃ i, 0 < i ∧ LowestRun (Clear s.bitmap) (sought count) s.highestFrameIdx i ∧
      (mmAllocFrame s count).1 = i * PAGESIZE ∧
      ∀ f, testBit (mmAllocFrame s count).2.bitmap f = true ↔
        f ∈ taken i count ∨ testBit s.bitmap f = true) ∨
    (LowestRun (Clear s.bitmap) (sought count) s.highestFrameIdx 0 ∧
      ∃ i, count ≤ i ∧ i < s.highestFrameIdx ∧ testBit s.bitmap i = false ∧
        (1 ≤ count → testBit (mmAllocFrame s count).2.bitmap 0 = true ∧
          testBit (mmAllocFrame s count).2.bitmap i = true)) := by
  let s1 := { s with
    framesUsed := (s.framesUsed + count) % 0x10000000000000000
    framesFree := toUSize (s.framesFree - count) }
  let s2 := { (mmDoAllocFrames s1 count).2 with lastIdx := 0 }
  have call :
    mmAllocFrame s count = if (mmDoAllocFrames s1 count).1 = 0 then mmDoAllocFrames s2 count
      else mmDoAllocFrames s1 count := rfl
  have set : ∀ (b : Bitmap) (i f : Nat),
      testBit (setFrames b i ((i + count) % 0x10000000000000000 - i)) f = true ↔
        f ∈ taken i count ∨ testBit b f = true := by
    intro b i f
    rw [testBit_setFrames, Bool.or_eq_true, decide_eq_true_eq, taken, mem_span]
  rcases mmDoAllocFrames_stops s1 count (sought count) hb (sought_pos count)
    (sought_stops word _) with
    ⟨i, lowest, result⟩ | ⟨none, result⟩
  · by_cases zero : i = 0
    · right
      subst zero
      have again : s2.bitmap = setFrames s.bitmap 0 ((0 + count) % 0x10000000000000000 - 0) := by
        simp only [s2, result, s1]
      have bound : s2.highestFrameIdx = s.highestFrameIdx := by
        simp only [s2, result, s1]
      rw [result, if_pos (Nat.zero_mul _)] at call
      rcases mmDoAllocFrames_stops s2 count (sought count) (bound ▸ hb) (sought_pos count)
        (sought_stops word _) with ⟨i, second, result⟩ | ⟨_, result⟩
      · have clear : testBit s2.bitmap i = false :=
          second.run i le_rfl (Nat.lt_add_of_pos_right (sought_pos count))
        rw [again, ← Bool.not_eq_true, set, not_or, taken, mem_span] at clear
        have fits := second.fits
        rw [bound] at fits
        have positive := sought_pos count
        have above : count ≤ i := by omega
        refine ⟨lowest, i, above, by omega, by simpa using clear.2, fun some => ?_⟩
        rw [call, result]
        have low : testBit s2.bitmap 0 = true := by
          rw [again, set, taken, mem_span]
          omega
        refine ⟨(set _ _ _).mpr (Or.inr low), (set _ _ _).mpr (Or.inl ?_)⟩
        rw [taken, mem_span]
        omega
      · exact absurd (by rw [call, result]) nonzero
    · left
      have nonzero : i * PAGESIZE ≠ 0 := Nat.mul_ne_zero zero page_pos.ne'
      rw [result, if_neg nonzero] at call
      exact ⟨i, Nat.pos_of_ne_zero zero,
        lowest, by rw [call], fun f => by rw [call]; exact set _ _ _⟩
  · have again : mmDoAllocFrames s2 count = (0, s2) := by
      have same : s2 = { s1 with lastIdx := 0 } := by
        simp only [s2, result]
      rcases mmDoAllocFrames_stops { s1 with lastIdx := 0 } count (sought count) hb
        (sought_pos count)
        (sought_stops word _) with ⟨i, lowest, _⟩ | ⟨_, result⟩
      · exact absurd lowest.run (none i lowest.fits)
      · rw [same]
        exact result
    rw [result, if_pos rfl, again] at call
    exact absurd (by rw [call]) nonzero

private theorem released_span (base count : Nat) : ∃ first n, released base count = span first n ∧
    pageAlignUp base = first * PAGESIZE ∧ n ≤ count ∧ (0 < n → first + n < 0x10000000000000) ∧
    (count < 0x10000000000000 →
      (first + count < 0x10000000000000 → n = count) ∧ (0 < n → n = count)) := by
  have aligned : pageAlignUp base = pageAlignUp base / PAGESIZE * PAGESIZE := by
    rw [PAGESIZE]
    exact pageAlignUp_multiple base
  have word : pageAlignUp base < 0x10000000000000000 := by
    rw [pageAlignUp]
    exact BitVec.isLt _
  refine ⟨_, _, rfl, aligned, ?_⟩
  generalize pageAlignUp base / PAGESIZE = first at aligned ⊢
  rw [aligned] at word ⊢
  rw [PAGESIZE] at *
  omega

private theorem restores_iff {base : Nat} {after : PhysState} {set : Set Nat}
    (bits : ∀ f, testBit after.bitmap f = true ↔ f ∈ set ∨ testBit s.bitmap f = true) :
    (∀ f, testBit (mmFreeFrame after base count).bitmap f = testBit s.bitmap f) ↔
      (∀ f ∈ released base count, Clear s.bitmap f) ∧
      ∀ f ∈ set, Clear s.bitmap f → f ∈ released base count := by
  constructor
  · intro same
    constructor
    · intro f inside
      rw [Clear, ← same f, ← Bool.not_eq_true, testBit_released]
      exact fun kept => kept.2 inside
    · intro f new clear
      by_contra outside
      have kept := (testBit_released after base count f).mpr ⟨(bits f).mpr (Or.inl new), outside⟩
      rw [same f, clear] at kept
      cases kept
  · rintro ⟨only, all⟩ f
    rw [Bool.eq_iff_iff, testBit_released, bits]
    constructor
    · rintro ⟨new | old, outside⟩
      · by_contra clear
        exact outside (all f new (show testBit s.bitmap f = false by simpa using clear))
      · exact old
    · intro old
      refine ⟨Or.inr old, fun inside => ?_⟩
      have clear := only f inside
      rw [Clear, old] at clear
      cases clear

private theorem before_run {bound n i : Nat} (lowest : LowestRun (Clear s.bitmap) n bound i)
    (positive : 0 < i) : testBit s.bitmap (i - 1) = true := by
  by_contra clear
  have run : FreeRun (Clear s.bitmap) (i - 1) n := by
    intro j low high
    by_cases same : j = i - 1
    · simpa [same, Clear] using clear
    · exact lowest.run j (by omega) (by omega)
  have fits := lowest.fits
  have := lowest.lowest (i - 1) (by omega) run
  omega

private theorem pageFrames_frame {f : Nat} (range : f < 0x10000000000000) (m : Nat) :
    pageFrames kernelBase (physToVirt kernelBase (BitVec.ofNat 64 (f * PAGESIZE)))
      m = span f m := by
  have place : (virtToPhys kernelBase (physToVirt kernelBase
      (BitVec.ofNat 64 (f * PAGESIZE)))).toNat = f * PAGESIZE := by
    rw [virtToPhys, physToVirt, BitVec.add_sub_cancel, BitVec.toNat_ofNat, PAGESIZE]
    omega
  rw [pageFrames, place, Nat.mul_div_cancel _ page_pos]

private theorem spares_iff (nonnull : p ≠ 0) :
    (∀ (u : PhysState) (q : BitVec 64) (m : Nat),
      (∀ f ∈ pageFrames kernelBase q m, testBit u.bitmap f = true) →
      Disjoint (pageFrames kernelBase p count) (pageFrames kernelBase q m) →
      ∀ f ∈ pageFrames kernelBase q m,
        testBit (mmFreePages kernelBase slot u p count).bitmap f = true) ↔
      released (virtToPhys kernelBase slot).toNat count ⊆ pageFrames kernelBase p count := by
  have freed : ∀ u : PhysState, mmFreePages kernelBase slot u p count =
      mmFreeFrame u (virtToPhys kernelBase slot).toNat count := fun u => if_neg nonnull
  simp only [freed, testBit_released]
  constructor
  · intro spares f touched
    by_contra outside
    have range : f < 0x10000000000000 := by
      obtain ⟨first, n, clears, _, _, below, _⟩ :=
        released_span (virtToPhys kernelBase slot).toNat count
      rw [clears, mem_span] at touched
      omega
    have single := @pageFrames_frame kernelBase f range 1
    have member : f ∈ span f 1 := by
      rw [mem_span]
      omega
    have kept :=
      spares { eightFrames with bitmap := fun _ => 0xFF } _ 1 (fun _ _ => testBit_full rfl) ?_ f
        (single ▸ member)
    · exact kept.2 touched
    · rw [single, Set.disjoint_right]
      intro g only_f
      obtain rfl : g = f := by
        have := mem_span.mp only_f
        omega
      exact outside
  · intro own u q m used apart f member
    exact ⟨used f member, fun touched => Set.disjoint_left.mp apart (own touched) member⟩

private theorem release_at {i : Nat} (hb : s.highestFrameIdx < 0x10000000000000)
    (positive : 1 ≤ count) (above : 0 < i)
    (lowest : LowestRun (Clear s.bitmap) (sought count) s.highestFrameIdx i)
    (physical : (virtToPhys kernelBase p).toNat = i * PAGESIZE) :
    ((∀ f ∈ released (virtToPhys kernelBase slot).toNat count, Clear s.bitmap f) ∧
      (∀ f ∈ taken i count, Clear s.bitmap f →
        f ∈ released (virtToPhys kernelBase slot).toNat count) ∧
      released (virtToPhys kernelBase slot).toNat count ⊆ pageFrames kernelBase p count) ↔
    SlotFits kernelBase slot s p count := by
  have frame : (virtToPhys kernelBase p).toNat / PAGESIZE = i := by
    rw [physical, Nat.mul_div_cancel _ page_pos]
  have own : pageFrames kernelBase p count = span i count := by
    rw [pageFrames, frame]
  have fits := lowest.fits
  have some := sought_pos count
  have inside : i < 0x10000000000000 := by omega
  have here : Clear s.bitmap i := lowest.run i le_rfl (Nat.lt_add_of_pos_right some)
  have not_first : ¬LowestRun (Clear s.bitmap) (sought count) s.highestFrameIdx 0 := by
    intro zero
    have := zero.unique lowest
    omega
  obtain ⟨first, n, clears, aligned, cap, below, short⟩ :=
    released_span (virtToPhys kernelBase slot).toNat count
  constructor
  · rintro ⟨only, all, within⟩
    have aims : count < 0x10000000000000 → first = i ∧ n = count := by
      intro bytes
      have hit : i ∈ released (virtToPhys kernelBase slot).toNat count := by
        refine all i ?_ here
        rw [taken, mem_span]
        omega
      rw [clears, mem_span] at hit
      have start : ¬first < i := by
        intro lower
        have earlier := only (i - 1) (by rw [clears, mem_span]; omega)
        rw [Clear, before_run lowest above] at earlier
        cases earlier
      exact ⟨by omega, (short bytes).2 (by omega)⟩
    refine ⟨not_first, ?_, ?_, ?_⟩
    · intro bytes
      rw [aligned, physical, (aims bytes).1]
    · intro _ bytes
      obtain ⟨rfl, rfl⟩ := aims bytes
      rw [frame, own, ← clears]
      exact ⟨below (by omega), only⟩
    · intro _
      rw [frame]
      exact ⟨within, only, all⟩
  · rintro ⟨_, aims, long, wrapped⟩
    rcases Nat.lt_or_ge count 0x10000000000000 with bytes | huge
    · have same := aims bytes
      rw [aligned, physical] at same
      obtain rfl : first = i := Nat.eq_of_mul_eq_mul_right page_pos same
      have block : first + count < 0x10000000000000 ∧ ∀ f ∈ span first count, Clear s.bitmap f := by
        rcases Nat.lt_or_ge 0x80000000 count with big | small
        · rw [frame, own] at long
          exact long big bytes
        · have run := lowest.run
          rw [sought_of_le small] at fits run
          exact ⟨by omega, fun f member =>
            run f (mem_span.mp member).1 (Nat.lt_succ_of_lt (mem_span.mp member).2)⟩
      obtain rfl : n = count := (short bytes).1 block.1
      rw [clears, own]
      refine ⟨block.2, fun f member _ => ?_, subset_rfl⟩
      rw [taken, mem_span] at member
      rw [mem_span]
      omega
    · obtain ⟨within, only, all⟩ := wrapped huge
      rw [frame] at all
      exact ⟨only, all, within⟩

/-- A page block and its release are inverse exactly if the stack slot of mmFreePages holds
an address that rounds up to the block's own. -/
theorem page_release_iff (hb : s.highestFrameIdx < 0x10000000000000)
    (word : count < 0x10000000000000000) (positive : 1 ≤ count)
    (made : mmAllocPage kernelBase count s = (p, t)) (nonnull : p ≠ 0) :
    Inverse kernelBase slot s t p count ↔ SlotFits kernelBase slot s p count := by
  have nonzero : (mmAllocFrame s count).1 ≠ 0 := by
    intro zero
    rw [mmAllocPage, Page.mmAllocPageOver] at made
    simp only [zero, if_true] at made
    exact nonnull (Prod.mk.inj made).1.symm
  obtain ⟨address, rfl⟩ : physToVirt kernelBase (BitVec.ofNat 64 (mmAllocFrame s count).1) = p ∧
      (mmAllocFrame s count).2 = t := by
    rw [mmAllocPage, Page.mmAllocPageOver] at made
    simp only [if_neg nonzero] at made
    exact Prod.mk.inj made
  have parts : Inverse kernelBase slot s (mmAllocFrame s count).2 p count ↔
      (∀ f, testBit (mmFreeFrame (mmAllocFrame s count).2 (virtToPhys kernelBase slot).toNat
        count).bitmap f = testBit s.bitmap f) ∧
      released (virtToPhys kernelBase slot).toNat count ⊆ pageFrames kernelBase p count := by
    have freed : mmFreePages kernelBase slot (mmAllocFrame s count).2 p count =
        mmFreeFrame (mmAllocFrame s count).2 (virtToPhys kernelBase slot).toNat count :=
          if_neg nonnull
    rw [← spares_iff nonnull, ← freed]
    exact ⟨fun both => ⟨both.restores, both.spares⟩, fun both => ⟨both.1, both.2⟩⟩
  rw [parts]
  rcases block_cases hb word nonzero with ⟨i, above, lowest, ret, bits⟩ | ⟨lowest, i, high,
    low, clear, set⟩
  · have physical : (virtToPhys kernelBase p).toNat = i * PAGESIZE := by
      have fits := lowest.fits
      rw [← address, virtToPhys, physToVirt, BitVec.add_sub_cancel, BitVec.toNat_ofNat,
        ret, PAGESIZE]
      omega
    rw [restores_iff bits, and_assoc]
    exact release_at hb positive above lowest physical
  · -- frame 0 was handed out too: no interval of `count` frames has it and frame `i`
    obtain ⟨zero_set, i_set⟩ := set positive
    refine iff_of_false ?_ fun fits => fits.first lowest
    rintro ⟨restores, _⟩
    have zero_clear : testBit s.bitmap 0 = false :=
      lowest.run 0 le_rfl (Nat.lt_add_of_pos_right (sought_pos count))
    have back : ∀ f, testBit (mmAllocFrame s count).2.bitmap f = true → testBit s.bitmap f = false →
        f ∈ released (virtToPhys kernelBase slot).toNat count := by
      intro f before after
      by_contra outside
      have kept := (testBit_released (mmAllocFrame s count).2 _ count f).mpr ⟨before, outside⟩
      rw [restores f, after] at kept
      cases kept
    have zero_in := back 0 zero_set zero_clear
    have i_in := back i i_set clear
    obtain ⟨first, n, clears, _, cap, _, _⟩ :=
      released_span (virtToPhys kernelBase slot).toNat count
    rw [clears, mem_span] at zero_in i_in
    omega

end Release

theorem page_release_iff_eight : Inverse 0xFFFF800000000000 0xFFFF800000001000 eightFrames
    (mmAllocPage 0xFFFF800000000000 2 eightFrames).2 0xFFFF800000001000 2 := by
  have address : (mmAllocPage 0xFFFF800000000000 2 eightFrames).1 = 0xFFFF800000001000 := by
    decide +kernel
  refine (page_release_iff (by decide) (by decide) (by decide) (Prod.ext address rfl)
    (by decide)).mpr
    ⟨fun lowest => ?_, fun _ => by decide +kernel, fun long => absurd long (by decide),
      fun wrapped => absurd wrapped (by decide)⟩
  have clear : testBit eightFrames.bitmap 0 = false :=
    lowest.run 0 (Nat.le_refl 0) (Nat.lt_add_of_pos_right (sought_pos 2))
  cases clear

/-- With the address of the next block left in the slot, that one is released instead. -/
theorem neighbour_released :
    (mmAllocPage 0xFFFF800000000000 2 eightFrames).1 = 0xFFFF800000001000 ∧
    ¬Inverse 0xFFFF800000000000 0xFFFF800000003000 eightFrames
      (mmAllocPage 0xFFFF800000000000 2 eightFrames).2 0xFFFF800000001000 2 := by
  refine ⟨by decide +kernel, fun inverse => ?_⟩
  have back := inverse.restores 1
  revert back
  decide +kernel

end Algae.Mm.PageRelease
