/- Starting the application processors: the trampoline copy and the bootstrap
   descriptor are written at fixed low addresses, which nothing keeps apart from
   the frames the allocator manages. -/

import Algae.Mm.PhysBoot
import Algae.Mm.PhysRuns

set_option autoImplicit false
set_option relaxedAutoImplicit false

namespace Algae.Platform.Mp

open Algae.Lib.ByteMemory Algae.Lib.FirstFit
open Algae.Sdk.Defs Algae.Mm.Phys Algae.Mm.PhysBoot
open Algae.Mm.PhysRuns (Block)

def TRAMPOLINE_PBASE : Nat := 0x1000

def BOOTSTRAP_DESC_BASE : Nat := 0x2000

/-- What localApicLookup puts into `AP_BOOTSTRAP` apart from the stack. -/
structure Bootstrap where
  pml4Pa : Nat
  entryPa : Nat

/-- The memory writes of the callback for one local APIC; the interrupts it then
sends are left out. `none` is the failed assertion. -/
def localApicLookup (arg : Nat) (boot : Bootstrap) (s : PhysState) (apicId : Nat) :
    Option PhysState :=
  if apicId = arg then
    some s
  else
    let mem := storeLE s.mem BOOTSTRAP_DESC_BASE 8 boot.pml4Pa
    let mem := storeLE mem (BOOTSTRAP_DESC_BASE + 8) 8 boot.entryPa
    let (stackBase, s) := mmAllocFrame { s with mem := mem } 1
    if stackBase = 0 then
      none
    else
      some { s with mem := storeLE s.mem (BOOTSTRAP_DESC_BASE + 16) 8 stackBase }

/-- The frames start-up overwrites without asking the allocator for them: kiMpInit copies the
trampoline to one, the callback for each local APIC fills the other. -/
def lowFrames : Set Nat := {TRAMPOLINE_PBASE / PAGESIZE, BOOTSTRAP_DESC_BASE / PAGESIZE}

private theorem mem_lowFrames {f : Nat} : f ∈ lowFrames ↔ f = 1 ∨ f = 2 := by
  simp [lowFrames, TRAMPOLINE_PBASE, BOOTSTRAP_DESC_BASE, PAGESIZE]

section Writes

private theorem search_keeps_used (s : PhysState) (count : Nat)
    (hb : s.highestFrameIdx < 0x10000000000000) (small : count + 1 < 0x80000000) {x : Nat}
    (used : testBit s.bitmap (x / PAGESIZE) = true) :
    (mmDoAllocFrames s count).2.mem x = s.mem x := by
  rcases mmDoAllocFrames_spec s count hb (Or.inr small) with ⟨i, run, result⟩ | ⟨_, result⟩
  · rw [result]
    apply fill_outside
    by_contra inside
    obtain ⟨low, high⟩ := not_or.mp inside
    have first : i ≤ x / PAGESIZE := (Nat.le_div_iff_mul_le page_pos).mpr (by omega)
    have last : x / PAGESIZE < i + count := by
      refine Nat.div_lt_of_lt_mul ?_
      rw [Nat.mul_comm, Nat.add_mul]
      omega
    have clear : testBit s.bitmap (x / PAGESIZE) = false := run.run _ first (by omega)
    rw [used] at clear
    cases clear
  · rw [result]

theorem alloc_keeps_used (s : PhysState) (count : Nat)
    (hb : s.highestFrameIdx < 0x10000000000000) (small : count + 1 < 0x80000000) {x : Nat}
    (used : testBit s.bitmap (x / PAGESIZE) = true) :
    (mmAllocFrame s count).2.mem x = s.mem x := by
  let s1 := { s with
    framesUsed := (s.framesUsed + count) % 0x10000000000000000
    framesFree := toUSize (s.framesFree - count) }
  let s2 := { (mmDoAllocFrames s1 count).2 with lastIdx := 0 }
  have first : (mmDoAllocFrames s1 count).2.mem x = s.mem x :=
    search_keeps_used s1 count hb small used
  change (if (mmDoAllocFrames s1 count).1 = 0 then mmDoAllocFrames s2 count
    else mmDoAllocFrames s1 count).2.mem x = _
  split
  · have taken := mmDoAllocFrames_onlyTakes s1 count hb
    have still : testBit s2.bitmap (x / PAGESIZE) = true := by
      by_contra clear
      have := taken.clear _ (Bool.eq_false_of_not_eq_true clear)
      rw [Clear, used] at this
      cases this
    exact (search_keeps_used s2 count (taken.bound.trans_lt hb) small still).trans first
  · exact first

theorem localApicLookup_keeps (arg : Nat) (boot : Bootstrap) {s t : PhysState} {apicId : Nat}
    (hb : s.highestFrameIdx < 0x10000000000000)
    (done : localApicLookup arg boot s apicId = some t) :
    t.highestFrameIdx = s.highestFrameIdx ∧
    ∀ f, testBit s.bitmap f = true → testBit t.bitmap f = true := by
  unfold localApicLookup at done
  split at done
  · obtain rfl := Option.some.inj done
    exact ⟨rfl, fun _ h => h⟩
  · set s1 := { s with
      mem := storeLE (storeLE s.mem BOOTSTRAP_DESC_BASE 8 boot.pml4Pa) (BOOTSTRAP_DESC_BASE + 8) 8
        boot.entryPa } with s1_eq
    have taken := mmAllocFrame_onlyTakes s1 1 hb
    simp only at done
    split at done
    · cases done
    · obtain rfl := Option.some.inj done
      refine ⟨taken.bound, fun f used => ?_⟩
      by_contra clear
      have := taken.clear f (Bool.eq_false_of_not_eq_true clear)
      rw [Clear, show s1.bitmap = s.bitmap from rfl, used] at this
      cases this

end Writes

/-- Any calls of the allocator from `s₀` on, with the blocks handed out. -/
inductive AllocRun (s₀ : PhysState) : PhysState → List Block → Prop
  | start : AllocRun s₀ s₀ []
  | failed {s : PhysState} {blocks : List Block} {count : Nat} (run : AllocRun s₀ s blocks)
      (zero : (mmAllocFrame s count).1 = 0) : AllocRun s₀ (mmAllocFrame s count).2 blocks
  | alloc {s : PhysState} {blocks : List Block} {count : Nat} (run : AllocRun s₀ s blocks)
      (nonzero : (mmAllocFrame s count).1 ≠ 0) :
      AllocRun s₀ (mmAllocFrame s count).2 (⟨(mmAllocFrame s count).1, count⟩ :: blocks)

/-- The fixed frames hold neither the bitmap nor a part of a block. -/
def LowFramesApart (s : PhysState) (blocks : List Block) : Prop :=
  ∀ f ∈ lowFrames,
    (∀ base, s.bitmapBase = some base → f ∉ span (base / PAGESIZE) (s.bitmapSize / PAGESIZE)) ∧
    ∀ b ∈ blocks, f ∉ b.frames

/-- Frame `f` of the map is left to the allocator when the bitmap takes the first
bytes of `home`. A bitmap of no bytes leaves bits that memory happens to hold. -/
def LeftFree (resp : List MemmapEntry) (mem : Mem) (size : Nat) (home : MemmapEntry) (f : Nat) :
    Prop :=
  ((∃ e ∈ resp, e.Usable ∧ f ∈ e.frames) ∧ f ∉ span (home.base / PAGESIZE) (size / PAGESIZE)) ∨
  (8 * size ≤ f ∧ testBit (fun i => mem (home.base + i)) f = false)

/-- The map keeps the fixed frames out of reach: the bitmap does not land on them
and neither of them starts a pair of free frames below `highest`. -/
structure LowFramesWithheld (resp : List MemmapEntry) (mem : Mem) (highest size : Nat) : Prop where
  storage : ∀ home, firstLarge size resp = some home →
    ∀ f ∈ lowFrames, f ∉ span (home.base / PAGESIZE) (size / PAGESIZE)
  pairs : ∀ home, firstLarge size resp = some home → ∀ f ∈ lowFrames, f + 1 < highest →
    ¬(LeftFree resp mem size home f ∧ LeftFree resp mem size home (f + 1))

section LowFrames

private theorem alloc_run_taken {s₀ s : PhysState} {blocks : List Block}
    (hb : s₀.highestFrameIdx < 0x10000000000000) (run : AllocRun s₀ s blocks) :
    s.bitmapBase = s₀.bitmapBase ∧ s.bitmapSize = s₀.bitmapSize ∧
    s.highestFrameIdx = s₀.highestFrameIdx ∧
    (∀ f, Clear s.bitmap f → Clear s₀.bitmap f) ∧
    ∀ b ∈ blocks, b.base ≠ 0 ∧ ∃ i, b.base = i * PAGESIZE ∧
      (0 < b.count → i + 1 < s₀.highestFrameIdx ∧
      Clear s₀.bitmap i ∧ Clear s₀.bitmap (i + 1)) := by
  induction run with
  | start => exact ⟨rfl, rfl, rfl, fun _ h => h, by simp⟩
  | @failed s blocks count _ _ ih =>
    obtain ⟨base, size, bound, clear, old⟩ := ih
    have taken := mmAllocFrame_onlyTakes s count (bound.trans_lt hb)
    exact ⟨taken.base.trans base, taken.size.trans size, taken.bound.trans bound,
      fun f h => clear f (taken.clear f h), old⟩
  | @alloc s blocks count _ nonzero ih =>
    obtain ⟨base, size, bound, clear, old⟩ := ih
    have taken := mmAllocFrame_onlyTakes s count (bound.trans_lt hb)
    refine ⟨taken.base.trans base, taken.size.trans size, taken.bound.trans bound,
      fun f h => clear f (taken.clear f h), ?_⟩
    intro b member
    rcases List.mem_cons.mp member with rfl | member
    · obtain ⟨i, n, ret, free, fits, long⟩ := taken.start nonzero
      refine ⟨nonzero, i, ret, fun positive => ?_⟩
      have positive : 0 < count := positive
      have pair : 2 ≤ n := by omega
      exact ⟨by omega, clear i (free i le_rfl (by omega)),
        clear (i + 1) (free (i + 1) (by omega) (by omega))⟩
    · exact old b member

private theorem alloc_pair {s : PhysState} {f : Nat} (hb : s.highestFrameIdx < 0x10000000000000)
    (positive : 0 < f) (clear : Clear s.bitmap f) (next : Clear s.bitmap (f + 1))
    (fits : f + 1 < s.highestFrameIdx)
    (first : ∀ k, 0 < k → k < f → ¬(Clear s.bitmap k ∧ Clear s.bitmap (k + 1))) :
    (mmAllocFrame s 1).1 = f * PAGESIZE := by
  have pair : ∀ (bitmap : Bitmap) (k : Nat), FreeRun (Clear bitmap) k 2 ↔
      Clear bitmap k ∧ Clear bitmap (k + 1) := by
    intro bitmap k
    constructor
    · exact fun run => ⟨run k le_rfl (by omega), run (k + 1) (by omega) (by omega)⟩
    · rintro ⟨here, there⟩ j low high
      rcases (show j = k ∨ j = k + 1 by omega) with rfl | rfl
      · exact here
      · exact there
  have search : ∀ s' : PhysState, s'.highestFrameIdx = s.highestFrameIdx →
      (∀ k, 0 < k → (Clear s'.bitmap k ↔ Clear s.bitmap k)) →
      ¬(Clear s'.bitmap 0 ∧ Clear s'.bitmap 1) → (mmDoAllocFrames s' 1).1 = f * PAGESIZE := by
    intro s' bound same zero
    have here : FreeRun (Clear s'.bitmap) f 2 := by
      rw [pair, same f positive, same (f + 1) (by omega)]
      exact ⟨clear, next⟩
    rcases mmDoAllocFrames_spec s' 1 (bound ▸ hb) (Or.inr (by norm_num)) with
      ⟨i, run, result⟩ | ⟨none, _⟩
    · have low : i ≤ f := run.lowest f (by omega) here
      have run_i := (pair _ i).mp run.run
      have above : 0 < i := by
        by_contra at_zero
        obtain rfl : i = 0 := by omega
        exact zero run_i
      obtain rfl : i = f := by
        by_contra below
        refine first i above (by omega) ?_
        rwa [same i above, same (i + 1) (by omega)] at run_i
      rw [result]
    · exact absurd here (none f (by omega))
  let s1 := { s with
    framesUsed := (s.framesUsed + 1) % 0x10000000000000000
    framesFree := toUSize (s.framesFree - (1 : Nat)) }
  let s2 := { (mmDoAllocFrames s1 1).2 with lastIdx := 0 }
  change (if (mmDoAllocFrames s1 1).1 = 0 then mmDoAllocFrames s2 1
    else mmDoAllocFrames s1 1).1 = f * PAGESIZE
  have nonzero : f * PAGESIZE ≠ 0 := Nat.mul_ne_zero positive.ne' page_pos.ne'
  by_cases zero : Clear s.bitmap 0 ∧ Clear s.bitmap 1
  · -- frame 0 is taken by the first search, whose result 0 reads as a failure
    have run : FreeRun (Clear s1.bitmap) 0 2 := (pair _ 0).mpr zero
    rcases mmDoAllocFrames_spec s1 1 hb (Or.inr (by norm_num)) with ⟨i, lowest, result⟩ | ⟨none, _⟩
    · obtain rfl : i = 0 :=
        Nat.le_zero.mp (lowest.lowest 0 (show 0 + 2 ≤ s.highestFrameIdx by omega) run)
      have bits :
          ∀ k, testBit s2.bitmap k = (decide (0 ≤ k ∧ k < 0 + 1) || testBit s.bitmap k) := by
        intro k
        change testBit (mmDoAllocFrames s1 1).2.bitmap k = _
        rw [result]
        exact testBit_setFrames _ 0 1 k
      rw [result, if_pos (Nat.zero_mul _)]
      refine search s2 ?_ ?_ ?_
      · change (mmDoAllocFrames s1 1).2.highestFrameIdx = _
        rw [result]
      · intro k above
        have out : ¬(0 ≤ k ∧ k < 0 + 1) := by omega
        rw [Clear, bits, decide_eq_false out, Bool.false_or, Clear]
      · rintro ⟨at_zero, _⟩
        rw [Clear, bits] at at_zero
        simp at at_zero
    · exact absurd run (none 0 (show 0 + 2 ≤ s.highestFrameIdx by omega))
  · have found := search s1 rfl (fun _ _ => Iff.rfl) zero
    rw [if_neg (by rw [found]; exact nonzero), found]

private theorem taken_low {s : PhysState} (hb : s.highestFrameIdx < 0x10000000000000) {f : Nat}
    (low : f ∈ lowFrames) (fits : f + 1 < s.highestFrameIdx) (clear : Clear s.bitmap f)
    (next : Clear s.bitmap (f + 1)) :
    ∃ f' ∈ lowFrames, (mmAllocFrame s 1).1 = f' * PAGESIZE := by
  by_cases first : Clear s.bitmap 1 ∧ Clear s.bitmap 2
  · refine ⟨1, mem_lowFrames.mpr (Or.inl rfl), alloc_pair hb (by norm_num) first.1 first.2 ?_ ?_⟩
    · have := mem_lowFrames.mp low
      omega
    · intro k above below
      omega
  · obtain rfl : f = 2 := by
      rcases mem_lowFrames.mp low with rfl | rfl
      · exact absurd ⟨clear, next⟩ first
      · rfl
    refine ⟨2, low, alloc_pair hb (by norm_num) clear next fits ?_⟩
    intro k above below
    obtain rfl : k = 1 := by omega
    exact first

/-- For every map of the loader, the fixed frames stay out of every run of the
allocator exactly if the map itself withholds them. -/
theorem low_frames_apart_iff {highestAddr : Nat} (word : highestAddr < 0x10000000000000000)
    (s : PhysState) {resp : List MemmapEntry} (boot : BootMap resp)
    (large : ∃ e ∈ resp, e.Usable ∧
      pageAlignUp (highestUsable highestAddr resp / PAGESIZE / 8) ≤ e.length) :
    (∀ t blocks, AllocRun (mmInitBitmap highestAddr s resp) t blocks → LowFramesApart t blocks) ↔
      LowFramesWithheld resp s.mem (highestUsable highestAddr resp / PAGESIZE)
        (pageAlignUp (highestUsable highestAddr resp / PAGESIZE / 8)) := by
  obtain ⟨home, first, base, size, bound, bits⟩ :=
    mmInitBitmap_bits highestAddr s boot rfl rfl large
  have hb : (mmInitBitmap highestAddr s resp).highestFrameIdx < 0x10000000000000 := by
    have := highestUsable_lt word resp
    simp only [bound, PAGESIZE]
    omega
  have one_home :
    ∀ {home'}, firstLarge (pageAlignUp (highestUsable highestAddr resp / PAGESIZE / 8))
      resp = some home' → home' = home := fun h => Option.some.inj (h.symm.trans first)
  constructor
  · intro apart
    have start := apart _ [] AllocRun.start
    refine ⟨?_, ?_⟩
    · intro home' h f low
      obtain rfl := one_home h
      have out := (start f low).1 _ base
      rwa [size] at out
    · rintro home' h f low fits ⟨here, next⟩
      obtain rfl := one_home h
      obtain ⟨f', low', ret⟩ := taken_low hb low (by rwa [bound]) ((bits f).mpr here)
        ((bits (f + 1)).mpr next)
      have nonzero : (mmAllocFrame (mmInitBitmap highestAddr s resp) 1).1 ≠ 0 := by
        rw [ret]
        refine Nat.mul_ne_zero ?_ page_pos.ne'
        have := mem_lowFrames.mp low'
        omega
      refine ((apart _ _ (AllocRun.start.alloc nonzero)) f' low').2 _ List.mem_cons_self ?_
      change f' ∈ span ((mmAllocFrame (mmInitBitmap highestAddr s resp) 1).1 / PAGESIZE) 1
      rw [ret, pages_cancel, mem_span]
      omega
  · intro withheld t blocks run f low
    obtain ⟨base', size', _, _, taken⟩ := alloc_run_taken hb run
    refine ⟨?_, ?_⟩
    · intro b hbase
      rw [base', base] at hbase
      obtain rfl := Option.some.inj hbase
      rw [size', size]
      exact withheld.storage home first f low
    · intro b member inside
      obtain ⟨nonzero, i, start, pair⟩ := taken b member
      rw [Block.frames, start, pages_cancel, mem_span] at inside
      obtain ⟨fits, clear, next⟩ := pair (by omega)
      have positive : i ≠ 0 := by
        rintro rfl
        rw [Nat.zero_mul] at start
        exact nonzero start
      have low_i : i ∈ lowFrames := by
        have := mem_lowFrames.mp low
        exact mem_lowFrames.mpr (by omega)
      exact withheld.pairs home first i low_i (bound ▸ fits)
        ⟨(bits i).mp clear, (bits (i + 1)).mp next⟩

end LowFrames

def highMap : List MemmapEntry := [⟨0, 0x100000, 1⟩, ⟨0x100000, 0x7F00000, 0⟩]

private theorem highMap_boot : BootMap highMap where
  aligned := by
    intro e member _
    simp only [highMap, List.mem_cons, List.not_mem_nil, or_false] at member
    rcases member with rfl | rfl <;>
      exact ⟨by decide +kernel, by decide +kernel, by decide, by decide⟩
  apart := by
    simp [highMap, MemmapEntry.Usable, LIMINE_MEMMAP_USABLE]

theorem low_frames_apart_iff_highMap :
    (∃ e ∈ highMap, e.Usable ∧ pageAlignUp (highestUsable 0 highMap / PAGESIZE / 8) ≤ e.length) ∧
    ∀ t blocks, AllocRun (mmInitBitmap 0 coldState highMap) t blocks → LowFramesApart t blocks := by
  have bytes : pageAlignUp (highestUsable 0 highMap / PAGESIZE / 8) = 0x1000 := by decide +kernel
  have large : ∃ e ∈ highMap, e.Usable ∧
      pageAlignUp (highestUsable 0 highMap / PAGESIZE / 8) ≤ e.length :=
    ⟨⟨0x100000, 0x7F00000, 0⟩, by simp [highMap], rfl, by decide +kernel⟩
  have home : firstLarge (pageAlignUp (highestUsable 0 highMap / PAGESIZE / 8)) highMap =
      some ⟨0x100000, 0x7F00000, 0⟩ := by
    rw [bytes]
    decide +kernel
  have out : ∀ f ∈ lowFrames, ¬LeftFree highMap coldState.mem
      (pageAlignUp (highestUsable 0 highMap / PAGESIZE / 8)) ⟨0x100000, 0x7F00000, 0⟩ f := by
    intro f low free
    have small := mem_lowFrames.mp low
    rw [bytes] at free
    rcases free with ⟨⟨e, member, usable, inside⟩, _⟩ | ⟨past, _⟩
    · simp only [highMap, List.mem_cons, List.not_mem_nil, or_false] at member
      rcases member with rfl | rfl
      · cases usable
      · simp only [MemmapEntry.frames, PAGESIZE, mem_span] at inside
        omega
    · omega
  refine ⟨large, (low_frames_apart_iff (by norm_num) coldState highMap_boot large).mpr ⟨?_, ?_⟩⟩
  · intro home' h f low
    obtain rfl := Option.some.inj (h.symm.trans home)
    have := mem_lowFrames.mp low
    change f ∉ span (0x100000 / PAGESIZE) _
    rw [mem_span, PAGESIZE]
    omega
  · rintro home' h f low _ ⟨here, _⟩
    obtain rfl := Option.some.inj (h.symm.trans home)
    exact out f low here

/-- A map as a PC reports it: low memory, a hole, and the memory above 1 MiB. -/
def pcMap : List MemmapEntry :=
  [⟨0x1000, 0x9E000, 0⟩, ⟨0x9F000, 0x61000, 1⟩, ⟨0x100000, 0x7F00000, 0⟩]

private theorem pcMap_boot : BootMap pcMap where
  aligned := by
    intro e member _
    simp only [pcMap, List.mem_cons, List.not_mem_nil, or_false] at member
    rcases member with rfl | rfl | rfl <;>
      exact ⟨by decide +kernel, by decide +kernel, by decide, by decide⟩
  apart := by
    have first : (MemmapEntry.frames ⟨0x1000, 0x9E000, 0⟩) = span 1 0x9E := by
      simp [MemmapEntry.frames, PAGESIZE]
    have third : (MemmapEntry.frames ⟨0x100000, 0x7F00000, 0⟩) = span 0x100 0x7F00 := by
      simp [MemmapEntry.frames, PAGESIZE]
    simp only [pcMap, List.pairwise_cons, List.mem_cons, List.not_mem_nil, or_false,
      forall_eq_or_imp, forall_eq, first, third, MemmapEntry.Usable, LIMINE_MEMMAP_USABLE]
    simp [Set.disjoint_left, mem_span]
    omega

private theorem pcMap_large : ∃ e ∈ pcMap, e.Usable ∧
    pageAlignUp (highestUsable 0 pcMap / PAGESIZE / 8) ≤ e.length :=
  ⟨⟨0x1000, 0x9E000, 0⟩, by simp [pcMap], rfl, by decide +kernel⟩

/-- On such a map the bitmap itself lies in the trampoline's frame, and the first
frame handed out is the descriptor's. -/
theorem pcMap_low_frames_taken :
    (∃ base, (mmInitBitmap 0 coldState pcMap).bitmapBase = some base ∧
      1 ∈ span (base / PAGESIZE) ((mmInitBitmap 0 coldState pcMap).bitmapSize / PAGESIZE)) ∧
    (mmAllocFrame (mmInitBitmap 0 coldState pcMap) 1).1 = BOOTSTRAP_DESC_BASE ∧
    ¬∀ t blocks, AllocRun (mmInitBitmap 0 coldState pcMap) t blocks → LowFramesApart t blocks := by
  obtain ⟨home, first, base, size, bound, bits⟩ :=
    mmInitBitmap_bits 0 coldState pcMap_boot rfl rfl pcMap_large
  have bytes : pageAlignUp (highestUsable 0 pcMap / PAGESIZE / 8) = 0x1000 := by decide +kernel
  obtain rfl : home = ⟨0x1000, 0x9E000, 0⟩ := by
    rw [bytes] at first
    exact Option.some.inj (first.symm.trans (by decide +kernel))
  have pages : (mmInitBitmap 0 coldState pcMap).bitmapSize / PAGESIZE = 1 := by
    rw [size, bytes, PAGESIZE]
  have storage : 1 ∈ span (0x1000 / PAGESIZE)
      ((mmInitBitmap 0 coldState pcMap).bitmapSize / PAGESIZE) := by
    rw [pages, mem_span, PAGESIZE]
    decide
  have clear : ∀ f, f = 2 ∨ f = 3 → Clear (mmInitBitmap 0 coldState pcMap).bitmap f := by
    intro f hf
    refine (bits f).mpr (Or.inl ⟨⟨⟨0x1000, 0x9E000, 0⟩, by simp [pcMap], rfl, ?_⟩, ?_⟩)
    · simp only [MemmapEntry.frames, PAGESIZE, mem_span]
      omega
    · change f ∉ span (0x1000 / PAGESIZE) _
      rw [bytes, mem_span, PAGESIZE]
      omega
  refine ⟨⟨_, base, storage⟩, ?_, ?_⟩
  · have top : highestUsable 0 pcMap / PAGESIZE = 0x8000 := by decide +kernel
    have hb : (mmInitBitmap 0 coldState pcMap).highestFrameIdx = 0x8000 := bound.trans top
    have ret := alloc_pair (s := mmInitBitmap 0 coldState pcMap) (f := 2)
      (by rw [hb]; norm_num) (by norm_num) (clear 2 (Or.inl rfl)) (clear 3 (Or.inr rfl))
      (by rw [hb]; norm_num) ?_
    · rw [ret, PAGESIZE, BOOTSTRAP_DESC_BASE]
    · intro k above below pair
      obtain rfl : k = 1 := by omega
      have := (bits 1).mp pair.1
      rw [bytes] at this
      rcases this with ⟨_, out⟩ | ⟨past, _⟩
      · apply out
        rw [mem_span, PAGESIZE]
        decide
      · omega
  · intro apart
    exact (apart _ [] AllocRun.start 1 (mem_lowFrames.mpr (Or.inl rfl))).1 _ base storage

end Algae.Platform.Mp
