/- The physical frame allocator: a bitmap with one bit for each page frame,
   searched from the lowest frame up. -/

import Algae.Lib.FirstFit
import Algae.Rtl.String
import Algae.Sdk.Defs

set_option autoImplicit false
set_option relaxedAutoImplicit false

namespace Algae.Mm.Phys

open Algae.Lib.ByteMemory Algae.Lib.FirstFit
open Algae.Rtl.String (rtlMemset rtlMemset_eq_fill)
open Algae.Sdk.Defs

/-- The static variables of the allocator, and physical memory as the direct map
shows it. `bitmap` is the byte array behind the static pointer, an object of its
own; `bitmapBase` is its physical address, `none` while the pointer is NULL. -/
structure PhysState where
  bitmap : Bitmap
  bitmapBase : Option Nat
  bitmapSize : Nat
  bitmapFreeStart : Nat
  highestFrameIdx : Nat
  lastIdx : Nat
  framesUsed : Nat
  framesFree : Nat
  mem : Mem

/-- The search loop with `remaining` frames to look at. `idx` is a QUAD that
starts at -1 and `nFrames` a LONG; the comparison with `count` is unsigned. -/
def scanFrames (bitmap : Bitmap) (count : Nat) : Nat → Nat → Int → Int → Int × Int
  | 0, _, idx, nFrames => (idx, nFrames)
  | remaining + 1, i, idx, nFrames =>
    if testBit bitmap i = false then
      let idx := if idx < 0 then toQuad i else idx
      if toUSize nFrames ≥ count then
        (idx, toLong (nFrames + 1))
      else
        scanFrames bitmap count remaining (i + 1) idx (toLong (nFrames + 1))
    else
      scanFrames bitmap count remaining (i + 1) (-1) 0

def setFrames (bitmap : Bitmap) (i : Nat) : Nat → Bitmap
  | 0 => bitmap
  | n + 1 => setFrames (setBit bitmap i) (i + 1) n

def mmDoAllocFrames (s : PhysState) (count : Nat) : Nat × PhysState :=
  let (idx, nFrames) := scanFrames s.bitmap count s.highestFrameIdx 0 (-1) 0
  if idx < 0 ∨ toUSize (toLong (nFrames - 1)) < count then
    (0, s)
  else
    let start := toUSize idx
    let stop := (start + count) % 0x10000000000000000
    let ret := toUSize (toQuad (idx * PAGESIZE))
    (ret, { s with
      bitmap := setFrames s.bitmap start (stop - start)
      lastIdx := start
      mem := rtlMemset s.mem ret 0 (count * PAGESIZE % 0x10000000000000000) })

/-- A failed search is run a second time. -/
def mmAllocFrame (s : PhysState) (count : Nat) : Nat × PhysState :=
  let s := { s with
    framesUsed := (s.framesUsed + count) % 0x10000000000000000
    framesFree := toUSize (s.framesFree - count) }
  let (ret, s) := mmDoAllocFrames s count
  if ret = 0 then
    mmDoAllocFrames { s with lastIdx := 0 } count
  else
    (ret, s)

/-- The loop `while (p < stop_at)`; `fuel` bounds the rounds left. -/
def clearPages (bitmap : Bitmap) (stop_at : Nat) : Nat → Nat → Bitmap
  | 0, _ => bitmap
  | fuel + 1, p =>
    if p < stop_at then
      clearPages (clrBit bitmap (p / PAGESIZE)) stop_at fuel ((p + PAGESIZE) % 0x10000000000000000)
    else
      bitmap

def mmFreeFrame (s : PhysState) (base count : Nat) : PhysState :=
  let p := pageAlignUp base
  let stop_at := (p + count * PAGESIZE) % 0x10000000000000000
  { s with bitmap := clearPages s.bitmap stop_at (stop_at - p) p }

/-! What the search finds. -/

def Clear (bitmap : Bitmap) (i : Nat) : Prop := testBit bitmap i = false

/-- The loop variables of a search whose current run started at `start`. -/
private def LoopVars (start next : Nat) (idx nFrames : Int) : Prop :=
  (start = next ∧ idx = -1 ∧ nFrames = 0) ∨
    (start < next ∧ idx = start ∧ nFrames = toLong ((next - start : Nat) : Int))

private theorem LoopVars.grow {start next : Nat} {idx nFrames : Int}
    (here : next < 0x8000000000000000) (vars : LoopVars start next idx nFrames) :
    (if idx < 0 then toQuad next else idx) = (start : Int) ∧
      toLong (nFrames + 1) = toLong ((next + 1 - start : Nat) : Int) := by
  rcases vars with ⟨rfl, rfl, rfl⟩ | ⟨below, rfl, rfl⟩
  · have one : ((start + 1 - start : Nat) : Int) = 0 + 1 := by omega
    rw [if_pos (by decide), toQuad_natCast here, one]
    exact ⟨rfl, rfl⟩
  · have step : ((next + 1 - start : Nat) : Int) = ((next - start : Nat) : Int) + 1 := by omega
    rw [if_neg (Int.not_lt.mpr (Int.natCast_nonneg start)), step, toLong_toLong_succ]
    exact ⟨rfl, rfl⟩

private theorem scan_run (bitmap : Bitmap) (count remaining next start : Nat) (idx nFrames : Int)
    (here : next + remaining < 0x8000000000000000) (vars : LoopVars start next idx nFrames)
    (le : start ≤ next) (run : FreeRun (Clear bitmap) start (next - start)) :
    ∃ first last, first ≤ last ∧ last ≤ next + remaining ∧
      FreeRun (Clear bitmap) first (last - first) ∧
      LoopVars first last (scanFrames bitmap count remaining next idx nFrames).1
        (scanFrames bitmap count remaining next idx nFrames).2 := by
  induction remaining generalizing next start idx nFrames with
  | zero => exact ⟨start, next, le, le_rfl, run, vars⟩
  | succ remaining ih =>
    by_cases clear : testBit bitmap next = false
    · obtain ⟨index, bumped⟩ := vars.grow (by omega)
      have grown : FreeRun (Clear bitmap) start (next + 1 - start) := by
        intro j low high
        by_cases last : j = next
        · exact last ▸ clear
        · exact run j low (by omega)
      have vars' : LoopVars start (next + 1) (start : Int)
          (toLong ((next + 1 - start : Nat) : Int)) := Or.inr ⟨by omega, rfl, rfl⟩
      rw [scanFrames, if_pos clear]
      simp only [index, bumped]
      split
      · exact ⟨start, next + 1, by omega, by omega, grown, vars'⟩
      · obtain ⟨first, last, order, bound, free, final⟩ :=
          ih (next + 1) start _ _ (by omega) vars' (by omega) grown
        exact ⟨first, last, order, by omega, free, final⟩
    · rw [scanFrames, if_neg clear]
      have none_yet : FreeRun (Clear bitmap) (next + 1) (next + 1 - (next + 1)) := by
        intro j low high
        omega
      obtain ⟨first, last, order, bound, free, final⟩ :=
        ih (next + 1) (next + 1) (-1) 0 (by omega) (Or.inl ⟨rfl, rfl, rfl⟩) le_rfl none_yet
      exact ⟨first, last, order, by omega, free, final⟩

/-- A search whose counter passes `count` first at the `n`th frame of a run: the
unsigned reading of `nFrames` reaches `count` there and not before. -/
def StopsAt (count n bound : Nat) : Prop :=
  ∀ k < n, k < bound → (count ≤ toUSize (toLong (k : Int)) ↔ k + 1 = n)

private theorem stopsAt_succ {count bound : Nat}
    (fits : bound < 0x80000000 ∨ count + 1 < 0x80000000) :
    StopsAt count (count + 1) bound := by
  intro k below inside
  have small : k < 0x80000000 := by omega
  rw [toLong_natCast small, toUSize_natCast (small.trans (by norm_num))]
  omega

private theorem scan_spec (bitmap : Bitmap) (count n bound : Nat) (hb : bound < 0x8000000000000000)
    (stops : StopsAt count n bound)
    (remaining next start : Nat) (idx nFrames : Int) (total : next + remaining = bound)
    (search : Searching (Clear bitmap) n start next) (vars : LoopVars start next idx nFrames) :
    (∃ i, LowestRun (Clear bitmap) n bound i ∧
      scanFrames bitmap count remaining next idx nFrames = ((i : Int), toLong (n : Int))) ∨
    ((∀ k, k + n ≤ bound → ¬FreeRun (Clear bitmap) k n) ∧
      ∃ last, LoopVars last bound (scanFrames bitmap count remaining next idx nFrames).1
        (scanFrames bitmap count remaining next idx nFrames).2 ∧ bound - last < n) := by
  induction remaining generalizing next start idx nFrames with
  | zero =>
    obtain rfl : next = bound := by omega
    exact Or.inr ⟨search.exhausted, start, vars, search.short⟩
  | succ remaining ih =>
    have le := search.le
    have short := search.short
    have rest : next + 1 + remaining = bound := by omega
    have inside : next < bound := by omega
    have started : start < next + 1 := by omega
    by_cases clear : testBit bitmap next = false
    · have unsigned : toUSize nFrames = toUSize (toLong ((next - start : Nat) : Int)) := by
        rcases vars with ⟨rfl, _, rfl⟩ | ⟨_, _, rfl⟩
        · rw [Nat.sub_self, toLong_natCast (by norm_num), Nat.cast_zero]
        · rfl
      obtain ⟨index, bumped⟩ := vars.grow (inside.trans hb)
      have here := stops (next - start) short ((Nat.sub_le _ _).trans_lt inside)
      have length : next + 1 - start = next - start + 1 := by omega
      rw [scanFrames, if_pos clear]
      simp only [index, bumped, unsigned, ge_iff_le]
      by_cases enough : count ≤ toUSize (toLong ((next - start : Nat) : Int))
      · left
        have long : next + 1 - start = n := length.trans (here.mp enough)
        refine ⟨start, search.found clear long inside, ?_⟩
        rw [if_pos enough, long]
      · rw [if_neg enough]
        have going : next + 1 - start < n := by
          have other : next - start + 1 ≠ n := fun same => enough (here.mpr same)
          omega
        exact ih (next + 1) start _ _ rest (search.grow clear going) (Or.inr ⟨started, rfl, rfl⟩)
    · rw [scanFrames, if_neg clear]
      exact ih (next + 1) (next + 1) _ _ rest (search.reset clear) (Or.inl ⟨rfl, rfl, rfl⟩)

private theorem toLong_pred (n : Nat) (positive : 0 < n) :
    toLong (toLong (n : Int) - 1) = toLong ((n - 1 : Nat) : Int) := by
  have step : ((n - 1 : Nat) : Int) = (n : Int) - 1 := by omega
  rw [step]
  unfold toLong
  omega

theorem mmDoAllocFrames_stops (s : PhysState) (count n : Nat)
    (hb : s.highestFrameIdx < 0x10000000000000) (positive : 0 < n)
    (stops : StopsAt count n s.highestFrameIdx) :
    (∃ i, LowestRun (Clear s.bitmap) n s.highestFrameIdx i ∧
      mmDoAllocFrames s count = (i * PAGESIZE, { s with
        bitmap := setFrames s.bitmap i ((i + count) % 0x10000000000000000 - i)
        lastIdx := i
        mem := fill s.mem (i * PAGESIZE) (count * PAGESIZE % 0x10000000000000000) 0 })) ∨
    ((∀ k, k + n ≤ s.highestFrameIdx → ¬FreeRun (Clear s.bitmap) k n) ∧
      mmDoAllocFrames s count = (0, s)) := by
  have scanned := scan_spec s.bitmap count n s.highestFrameIdx (hb.trans (by norm_num)) stops
    s.highestFrameIdx 0 0 (-1) 0 (Nat.zero_add _) (Searching.begin _ positive)
    (Or.inl ⟨rfl, rfl, rfl⟩)
  rcases scanned with ⟨i, run, result⟩ | ⟨none, last, vars, short⟩
  · left
    refine ⟨i, run, ?_⟩
    have fits := run.fits
    have index : toUSize (i : Int) = i := toUSize_natCast (by omega)
    have address : toUSize (toQuad ((i : Int) * (PAGESIZE : Nat))) = i * PAGESIZE := by
      have small : i * PAGESIZE < 0x10000000000000000 := by
        simp only [PAGESIZE]
        omega
      rw [toUSize_toQuad, ← Nat.cast_mul, toUSize_natCast small]
    have long : count ≤ toUSize (toLong (toLong (n : Int) - 1)) := by
      rw [toLong_pred n positive]
      exact (stops (n - 1) (by omega) (by omega)).mpr (by omega)
    have taken : ¬((i : Int) < 0 ∨ toUSize (toLong (toLong (n : Int) - 1)) < count) := by omega
    simp only [mmDoAllocFrames, result, if_neg taken, index, address, rtlMemset_eq_fill]
  · right
    refine ⟨none, ?_⟩
    have refused : (scanFrames s.bitmap count s.highestFrameIdx 0 (-1) 0).1 < 0 ∨
        toUSize (toLong ((scanFrames s.bitmap count s.highestFrameIdx 0 (-1) 0).2 - 1)) <
          count := by
      rcases vars with ⟨_, index, _⟩ | ⟨below, _, frames⟩
      · left
        rw [index]
        decide
      · right
        have other : s.highestFrameIdx - last - 1 + 1 ≠ n := by omega
        have less := (stops (s.highestFrameIdx - last - 1) (by omega) (by omega)).not.mpr other
        rw [frames, toLong_pred _ (by omega)]
        exact Nat.lt_of_not_le less
    simp only [mmDoAllocFrames, if_pos refused]

private theorem block_word {i count bound : Nat} (fits : i + (count + 1) ≤ bound)
    (hb : bound < 0x10000000000000) : (i + count) % 0x10000000000000000 - i = count ∧
      count * PAGESIZE % 0x10000000000000000 = count * PAGESIZE := by
  rw [PAGESIZE]
  omega

theorem mmDoAllocFrames_spec (s : PhysState) (count : Nat)
    (hb : s.highestFrameIdx < 0x10000000000000)
    (small : s.highestFrameIdx < 0x80000000 ∨ count + 1 < 0x80000000) :
    (∃ i, LowestRun (Clear s.bitmap) (count + 1) s.highestFrameIdx i ∧
      mmDoAllocFrames s count = (i * PAGESIZE, { s with
        bitmap := setFrames s.bitmap i count
        lastIdx := i
        mem := fill s.mem (i * PAGESIZE) (count * PAGESIZE) 0 })) ∨
    ((∀ k, k + (count + 1) ≤ s.highestFrameIdx → ¬FreeRun (Clear s.bitmap) k (count + 1)) ∧
      mmDoAllocFrames s count = (0, s)) := by
  rcases mmDoAllocFrames_stops s count (count + 1) hb (Nat.succ_pos count) (stopsAt_succ small) with
    ⟨i, run, result⟩ | refused
  · left
    obtain ⟨stop, bytes⟩ := block_word run.fits hb
    rw [stop, bytes] at result
    exact ⟨i, run, result⟩
  · exact Or.inr refused

/-- For any count and any bound below 0x10000000000000: a block that is handed out starts a
free run longer than itself, or at least 0x80000000 frames long, and bits are only set. -/
private theorem mmDoAllocFrames_run (s : PhysState) (count : Nat)
    (hb : s.highestFrameIdx < 0x10000000000000) :
    mmDoAllocFrames s count = (0, s) ∨
    ∃ i n, FreeRun (Clear s.bitmap) i n ∧ i + n ≤ s.highestFrameIdx ∧
      min (count + 1) (0x80000000) ≤ n ∧
      (mmDoAllocFrames s count).1 = i * PAGESIZE ∧
      (mmDoAllocFrames s count).2.highestFrameIdx = s.highestFrameIdx ∧
      ∃ k, (mmDoAllocFrames s count).2.bitmap = setFrames s.bitmap i k := by
  obtain ⟨first, last, order, bound, run, vars⟩ :=
    scan_run s.bitmap count s.highestFrameIdx 0 0 (-1) 0 (by omega) (Or.inl ⟨rfl, rfl, rfl⟩) le_rfl
      (by intro j low high; omega)
  by_cases refused : (scanFrames s.bitmap count s.highestFrameIdx 0 (-1) 0).1 < 0 ∨
      toUSize (toLong ((scanFrames s.bitmap count s.highestFrameIdx 0 (-1) 0).2 - 1)) < count
  · left
    simp only [mmDoAllocFrames, if_pos refused]
  · right
    obtain ⟨nonneg, long⟩ := not_or.mp refused
    rcases vars with ⟨_, index, _⟩ | ⟨below, index, frames⟩
    · rw [index] at nonneg
      exact absurd (by decide) nonneg
    · have enough : min (count + 1) (0x80000000) ≤ last - first := by
        by_contra short
        have one : last - first = last - first - 1 + 1 := by omega
        rw [frames, toLong_natCast (by omega), one, Nat.cast_succ, Int.add_sub_cancel,
          toLong_natCast (by omega), toUSize_natCast (by omega)] at long
        omega
      have start : toUSize (first : Int) = first := toUSize_natCast (by omega)
      have address : toUSize (toQuad ((first : Int) * (PAGESIZE : Nat))) = first * PAGESIZE := by
        have small : first * PAGESIZE < 0x10000000000000000 := by
          simp only [PAGESIZE]
          omega
        rw [toUSize_toQuad, ← Nat.cast_mul, toUSize_natCast small]
      refine ⟨first, last - first, run, by omega, enough, ?_⟩
      rw [index] at refused
      simp only [mmDoAllocFrames, index, if_neg refused, start, address, true_and]
      exact ⟨_, rfl⟩

theorem mmAllocFrame_stops (s : PhysState) (count n : Nat)
    (hb : s.highestFrameIdx < 0x10000000000000) (positive : 0 < n)
    (stops : StopsAt count n s.highestFrameIdx)
    (h0 : 0 < s.highestFrameIdx → testBit s.bitmap 0 = true) :
    (∃ i, 0 < i ∧ LowestRun (Clear s.bitmap) n s.highestFrameIdx i ∧
      mmAllocFrame s count = (i * PAGESIZE, { s with
        framesUsed := (s.framesUsed + count) % 0x10000000000000000
        framesFree := toUSize (s.framesFree - count)
        bitmap := setFrames s.bitmap i ((i + count) % 0x10000000000000000 - i)
        lastIdx := i
        mem := fill s.mem (i * PAGESIZE) (count * PAGESIZE % 0x10000000000000000) 0 })) ∨
    ((∀ k, k + n ≤ s.highestFrameIdx → ¬FreeRun (Clear s.bitmap) k n) ∧
      mmAllocFrame s count = (0, { s with
        framesUsed := (s.framesUsed + count) % 0x10000000000000000
        framesFree := toUSize (s.framesFree - count)
        lastIdx := 0 })) := by
  let s1 := { s with
    framesUsed := (s.framesUsed + count) % 0x10000000000000000
    framesFree := toUSize (s.framesFree - count) }
  rcases mmDoAllocFrames_stops s1 count n hb positive stops with ⟨i, run, result⟩ | ⟨none, result⟩
  · left
    have above : 0 < i := by
      by_contra zero
      obtain rfl : i = 0 := by omega
      have clear : testBit s.bitmap 0 = false := run.run 0 le_rfl (by omega)
      have fits : 0 + n ≤ s.highestFrameIdx := run.fits
      rw [h0 (by omega)] at clear
      cases clear
    have nonzero : i * PAGESIZE ≠ 0 := Nat.mul_ne_zero (by omega) page_pos.ne'
    refine ⟨i, above, run, ?_⟩
    change (if (mmDoAllocFrames s1 count).1 = 0 then _ else mmDoAllocFrames s1 count) = _
    rw [result, if_neg nonzero]
  · right
    let s2 := { s1 with lastIdx := 0 }
    have again : mmDoAllocFrames s2 count = (0, s2) := by
      rcases mmDoAllocFrames_stops s2 count n hb positive stops with ⟨i, run, _⟩ | ⟨_, result⟩
      · exact absurd run.run (none i run.fits)
      · exact result
    refine ⟨none, ?_⟩
    change (if (mmDoAllocFrames s1 count).1 = 0 then
      mmDoAllocFrames { (mmDoAllocFrames s1 count).2 with lastIdx := 0 } count else _) = _
    rw [result, if_pos rfl]
    exact again

theorem mmAllocFrame_spec (s : PhysState) (count : Nat) (hb : s.highestFrameIdx < 0x80000000)
    (h0 : 0 < s.highestFrameIdx → testBit s.bitmap 0 = true) :
    (∃ i, 0 < i ∧ LowestRun (Clear s.bitmap) (count + 1) s.highestFrameIdx i ∧
      (mmAllocFrame s count).1 = i * PAGESIZE ∧
      (mmAllocFrame s count).2.bitmap = setFrames s.bitmap i count ∧
      (mmAllocFrame s count).2.mem = fill s.mem (i * PAGESIZE) (count * PAGESIZE) 0 ∧
      (mmAllocFrame s count).2.highestFrameIdx = s.highestFrameIdx) ∨
    ((∀ k, k + (count + 1) ≤ s.highestFrameIdx → ¬FreeRun (Clear s.bitmap) k (count + 1)) ∧
      (mmAllocFrame s count).1 = 0 ∧
      (mmAllocFrame s count).2.bitmap = s.bitmap ∧
      (mmAllocFrame s count).2.mem = s.mem ∧
      (mmAllocFrame s count).2.highestFrameIdx = s.highestFrameIdx) := by
  rcases mmAllocFrame_stops s count (count + 1) (hb.trans (by norm_num)) (Nat.succ_pos count)
    (stopsAt_succ (Or.inl hb)) h0 with ⟨i, positive, run, call⟩ | ⟨none, call⟩
  · left
    obtain ⟨stop, bytes⟩ := block_word run.fits (hb.trans (by norm_num))
    rw [stop, bytes] at call
    exact ⟨i, positive, run, by rw [call], by rw [call], by rw [call], by rw [call]⟩
  · right
    exact ⟨none, by rw [call], by rw [call], by rw [call], by rw [call]⟩

theorem testBit_setFrames (bitmap : Bitmap) (i n j : Nat) :
    testBit (setFrames bitmap i n) j = (decide (i ≤ j ∧ j < i + n) || testBit bitmap j) := by
  induction n generalizing bitmap i with
  | zero =>
    have outside : ¬(i ≤ j ∧ j < i + 0) := by omega
    rw [setFrames, decide_eq_false outside, Bool.false_or]
  | succ n ih =>
    rw [setFrames, ih, testBit_setBit, ← Bool.or_assoc, ← Bool.decide_or]
    congr 2
    apply propext
    omega

private theorem mmDoAllocFrames_frame (s : PhysState) (count : Nat) :
    (mmDoAllocFrames s count).2.bitmapBase = s.bitmapBase ∧
    (mmDoAllocFrames s count).2.bitmapSize = s.bitmapSize ∧
    (mmDoAllocFrames s count).2.highestFrameIdx = s.highestFrameIdx := by
  simp only [mmDoAllocFrames]
  split <;> exact ⟨rfl, rfl, rfl⟩

/-- What one search can do, whatever the count: bits are only set, and a block
that is handed out starts a run of clear frames longer than itself. -/
structure OnlyTakes (s t : PhysState) (ret count : Nat) : Prop where
  base : t.bitmapBase = s.bitmapBase
  size : t.bitmapSize = s.bitmapSize
  bound : t.highestFrameIdx = s.highestFrameIdx
  clear : ∀ f, Clear t.bitmap f → Clear s.bitmap f
  start : ret ≠ 0 → ∃ i n, ret = i * PAGESIZE ∧ FreeRun (Clear s.bitmap) i n ∧
    i + n ≤ s.highestFrameIdx ∧ min (count + 1) 0x80000000 ≤ n

theorem mmDoAllocFrames_onlyTakes (s : PhysState) (count : Nat)
    (hb : s.highestFrameIdx < 0x10000000000000) :
    OnlyTakes s (mmDoAllocFrames s count).2 (mmDoAllocFrames s count).1 count := by
  obtain ⟨base, size, bound⟩ := mmDoAllocFrames_frame s count
  rcases mmDoAllocFrames_run s count hb with refused | ⟨i, n, run, fits, long, ret, _, k, bitmap⟩
  · refine ⟨base, size, bound, ?_, ?_⟩
    · intro f clear
      rwa [refused] at clear
    · intro nonzero
      exact absurd (by rw [refused]) nonzero
  · refine ⟨base, size, bound, ?_, fun _ => ⟨i, n, ret, run, fits, long⟩⟩
    intro f clear
    rw [bitmap, Clear, testBit_setFrames, Bool.or_eq_false_iff] at clear
    exact clear.2

theorem mmAllocFrame_onlyTakes (s : PhysState) (count : Nat)
    (hb : s.highestFrameIdx < 0x10000000000000) :
    OnlyTakes s (mmAllocFrame s count).2 (mmAllocFrame s count).1 count := by
  let s1 := { s with
    framesUsed := (s.framesUsed + count) % 0x10000000000000000
    framesFree := toUSize (s.framesFree - count) }
  have first : OnlyTakes s (mmDoAllocFrames s1 count).2 (mmDoAllocFrames s1 count).1 count := by
    obtain ⟨base, size, bound, clear, start⟩ := mmDoAllocFrames_onlyTakes s1 count hb
    exact ⟨base, size, bound, clear, start⟩
  by_cases failed : (mmDoAllocFrames s1 count).1 = 0
  · let s2 := { (mmDoAllocFrames s1 count).2 with lastIdx := 0 }
    have second := mmDoAllocFrames_onlyTakes s2 count
      (show (mmDoAllocFrames s1 count).2.highestFrameIdx < _ from first.bound ▸ hb)
    have call : mmAllocFrame s count = mmDoAllocFrames s2 count := by
      change (if (mmDoAllocFrames s1 count).1 = 0 then mmDoAllocFrames s2 count
        else mmDoAllocFrames s1 count) = _
      rw [if_pos failed]
    rw [call]
    refine ⟨second.base.trans first.base, second.size.trans first.size,
      second.bound.trans first.bound, fun f clear => first.clear f (second.clear f clear), ?_⟩
    intro nonzero
    obtain ⟨i, n, ret, run, fits, long⟩ := second.start nonzero
    refine ⟨i, n, ret, fun j low high => first.clear j (run j low high), ?_, long⟩
    exact fits.trans_eq first.bound
  · have call : mmAllocFrame s count = mmDoAllocFrames s1 count := by
      change (if (mmDoAllocFrames s1 count).1 = 0 then _ else mmDoAllocFrames s1 count) = _
      rw [if_neg failed]
    rw [call]
    exact first

theorem mmAllocFrame_takes {s : PhysState} {count : Nat} (hb : s.highestFrameIdx < 0x10000000000000)
    (small : count + 1 < 0x80000000) (nonzero : (mmAllocFrame s count).1 ≠ 0) :
    ∃ i, (mmAllocFrame s count).1 = i * PAGESIZE ∧ i + count < s.highestFrameIdx ∧
      ∀ j, i ≤ j → j < i + count →
        testBit s.bitmap j = false ∧ testBit (mmAllocFrame s count).2.bitmap j = true := by
  have search : ∀ s' : PhysState, s'.highestFrameIdx = s.highestFrameIdx →
      (∀ j, Clear s'.bitmap j → Clear s.bitmap j) → (mmDoAllocFrames s' count).1 ≠ 0 →
      ∃ i, (mmDoAllocFrames s' count).1 = i * PAGESIZE ∧ i + count < s.highestFrameIdx ∧
        ∀ j, i ≤ j → j < i + count →
          testBit s.bitmap j = false ∧ testBit (mmDoAllocFrames s' count).2.bitmap j = true := by
    intro s' bound more found
    rcases mmDoAllocFrames_spec s' count (bound ▸ hb)
      (Or.inr small) with ⟨i, run, result⟩ | ⟨_, result⟩
    · rw [result]
      have fits := run.fits
      refine ⟨i, rfl, by omega, fun j low high => ⟨more j (run.run j low (by omega)), ?_⟩⟩
      change testBit (setFrames s'.bitmap i count) j = true
      rw [testBit_setFrames, decide_eq_true ⟨low, high⟩, Bool.true_or]
    · exact absurd (by rw [result]) found
  let s1 := { s with
    framesUsed := (s.framesUsed + count) % 0x10000000000000000
    framesFree := toUSize (s.framesFree - count) }
  let s2 := { (mmDoAllocFrames s1 count).2 with lastIdx := 0 }
  have call :
    mmAllocFrame s count = if (mmDoAllocFrames s1 count).1 = 0 then mmDoAllocFrames s2 count
      else mmDoAllocFrames s1 count := rfl
  by_cases failed : (mmDoAllocFrames s1 count).1 = 0
  · rw [if_pos failed] at call
    have taken := mmDoAllocFrames_onlyTakes s1 count hb
    rw [call] at nonzero ⊢
    exact search s2 taken.bound taken.clear nonzero
  · rw [if_neg failed] at call
    rw [call]
    exact search s1 rfl (fun _ h => h) failed

def clrFrames (bitmap : Bitmap) (i : Nat) : Nat → Bitmap
  | 0 => bitmap
  | n + 1 => clrFrames (clrBit bitmap i) (i + 1) n

theorem testBit_clrFrames (bitmap : Bitmap) (i n j : Nat) :
    testBit (clrFrames bitmap i n) j = (decide (¬(i ≤ j ∧ j < i + n)) && testBit bitmap j) := by
  induction n generalizing bitmap i with
  | zero =>
    have outside : ¬(i ≤ j ∧ j < i + 0) := by omega
    rw [clrFrames, decide_eq_true outside, Bool.true_and]
  | succ n ih =>
    have cells : decide (¬(i + 1 ≤ j ∧ j < i + 1 + n) ∧ j ≠ i) =
        decide (¬(i ≤ j ∧ j < i + (n + 1))) := decide_eq_decide.mpr (by omega)
    rw [clrFrames, ih, testBit_clrBit, ← Bool.and_assoc, ← Bool.decide_and, cells]

private theorem page_step (first n : Nat)
    (hb : (first + (n + 1)) * PAGESIZE < 0x10000000000000000) :
    (first * PAGESIZE + PAGESIZE) % 0x10000000000000000 = (first + 1) * PAGESIZE := by
  simp only [PAGESIZE] at hb ⊢
  omega

private theorem clearPages_eq (bitmap : Bitmap) (first n fuel : Nat) (hn : n ≤ fuel)
    (hb : (first + n) * PAGESIZE < 0x10000000000000000) :
    clearPages bitmap ((first + n) * PAGESIZE) fuel (first * PAGESIZE) =
      clrFrames bitmap first n := by
  induction n generalizing bitmap first fuel with
  | zero =>
    cases fuel with
    | zero => rfl
    | succ fuel => rw [clearPages, Nat.add_zero, if_neg (lt_irrefl _), clrFrames]
  | succ n ih =>
    cases fuel with
    | zero => omega
    | succ fuel =>
      have shift : first + 1 + n = first + (n + 1) := by omega
      have go : first * PAGESIZE < (first + (n + 1)) * PAGESIZE :=
        Nat.mul_lt_mul_of_pos_right (by omega) page_pos
      have next : (first * PAGESIZE + PAGESIZE) % 0x10000000000000000 = (first + 1) * PAGESIZE :=
        page_step first n hb
      have frame : first * PAGESIZE / PAGESIZE = first := Nat.mul_div_cancel _ page_pos
      have below : (first + 1 + n) * PAGESIZE < 0x10000000000000000 := by
        simp only [shift]
        exact hb
      have rest := ih (clrBit bitmap first) (first + 1) fuel (by omega) below
      rw [shift] at rest
      rw [clearPages, if_pos go, next, frame, rest, clrFrames]

theorem mmFreeFrame_bits (s : PhysState) (base count : Nat) :
    (mmFreeFrame s base count).bitmap = clrFrames s.bitmap (pageAlignUp base / PAGESIZE)
      (((pageAlignUp base + count * PAGESIZE) % 0x10000000000000000 - pageAlignUp base) /
      PAGESIZE) := by
  have aligned : pageAlignUp base = pageAlignUp base / PAGESIZE * PAGESIZE := by
    rw [PAGESIZE]
    exact pageAlignUp_multiple base
  generalize pageAlignUp base / PAGESIZE = first at aligned ⊢
  have stop :
      ∃ last, (first * PAGESIZE + count * PAGESIZE) % 0x10000000000000000 = last * PAGESIZE := by
    rw [PAGESIZE]
    exact ⟨(first * 4096 + count * 4096) % 0x10000000000000000 / 4096, by omega⟩
  obtain ⟨last, stop⟩ := stop
  have word : last * PAGESIZE < 0x10000000000000000 := stop ▸ Nat.mod_lt _ (by norm_num)
  simp only [mmFreeFrame, aligned, stop, ← Nat.sub_mul, Nat.mul_div_cancel _ page_pos]
  rcases Nat.le_total last first with none | some
  · have nothing : last - first = 0 := Nat.sub_eq_zero_of_le none
    rw [nothing, Nat.zero_mul]
    rfl
  · obtain ⟨n, rfl⟩ := Nat.exists_eq_add_of_le some
    rw [Nat.add_sub_cancel_left]
    exact clearPages_eq _ _ _ _ (Nat.le_mul_of_pos_right n page_pos) word

theorem testBit_mmFreeFrame (s : PhysState) (first n j : Nat)
    (hb : (first + n + 1) * PAGESIZE ≤ 0x10000000000000000) :
    testBit (mmFreeFrame s (first * PAGESIZE) n).bitmap j =
      (decide (¬(first ≤ j ∧ j < first + n)) && testBit s.bitmap j) := by
  have aligned : pageAlignUp (first * PAGESIZE) = first * PAGESIZE := by
    simp only [PAGESIZE] at hb ⊢
    rw [pageAlignUp_eq (by omega)]
    omega
  have frames :
    ((first * PAGESIZE + n * PAGESIZE) % 0x10000000000000000 - first * PAGESIZE) / PAGESIZE =
      n := by
    simp only [PAGESIZE] at hb ⊢
    omega
  rw [mmFreeFrame_bits, aligned, frames, Nat.mul_div_cancel _ page_pos, testBit_clrFrames]

end Algae.Mm.Phys
