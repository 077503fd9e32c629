/- The allocator's count of free frames over whole runs: which starts and which calls
   keep it equal to the number of clear bits. -/

import Mathlib.Order.Interval.Finset.Nat
import Algae.Mm.PhysCover
import Algae.Mm.PhysFit

set_option autoImplicit false
set_option relaxedAutoImplicit false

namespace Algae.Mm.PhysCount

open Algae.Lib.ByteMemory Algae.Lib.FirstFit
open Algae.Sdk.Defs Algae.Mm.Phys Algae.Mm.PhysBoot Algae.Mm.PhysCover
open Algae.Mm.PhysFit (sought sought_pos sought_stops)
open Algae.Mm.PhysRuns (Block)

def clearFrames (bitmap : Bitmap) (bound : Nat) : Finset Nat :=
  (Finset.range bound).filter fun i => testBit bitmap i = false

private theorem mem_clearFrames {bitmap : Bitmap} {bound i : Nat} :
    i ∈ clearFrames bitmap bound ↔ i < bound ∧ testBit bitmap i = false := by
  rw [clearFrames, Finset.mem_filter, Finset.mem_range]

/-- framesFree is the number of clear bits below highestFrameIdx. -/
def Accounted (s : PhysState) : Prop :=
  s.framesFree = (clearFrames s.bitmap s.highestFrameIdx).card

private theorem clearFrames_card_le (bitmap : Bitmap) (bound : Nat) :
    (clearFrames bitmap bound).card ≤ bound :=
  (Finset.card_filter_le _ _).trans_eq (Finset.card_range bound)

section Counting

variable (bitmap : Bitmap) (bound i n : Nat)

private theorem clearFrames_setFrames : clearFrames (setFrames bitmap i n) bound =
    clearFrames bitmap bound \ Finset.Ico i (i + n) := by
  ext j
  simp only [mem_clearFrames, Finset.mem_sdiff, Finset.mem_Ico, testBit_setFrames,
    Bool.or_eq_false_iff, decide_eq_false_iff_not]
  exact ⟨fun ⟨below, out, clear⟩ => ⟨⟨below, clear⟩, out⟩,
    fun ⟨⟨below, clear⟩, out⟩ => ⟨below, out, clear⟩⟩

private theorem clearFrames_clrFrames (inside : i + n ≤ bound) :
    clearFrames (clrFrames bitmap i n) bound =
    clearFrames bitmap bound ∪ Finset.Ico i (i + n) := by
  ext j
  simp only [mem_clearFrames, Finset.mem_union, Finset.mem_Ico, testBit_clrFrames,
    Bool.and_eq_false_iff, decide_eq_false_iff_not, not_not]
  constructor
  · rintro ⟨below, block | clear⟩
    · exact Or.inr block
    · exact Or.inl ⟨below, clear⟩
  · rintro (⟨below, clear⟩ | block)
    · exact ⟨below, Or.inr clear⟩
    · exact ⟨by omega, Or.inl block⟩

variable {bitmap bound i n}

private theorem card_clrFrames (inside : i + n ≤ bound)
    (used : ∀ j, i ≤ j → j < i + n → testBit bitmap j = true) :
    (clearFrames (clrFrames bitmap i n) bound).card = (clearFrames bitmap bound).card + n := by
  have apart : Disjoint (clearFrames bitmap bound) (Finset.Ico i (i + n)) := by
    rw [Finset.disjoint_left]
    intro j clear block
    obtain ⟨low, high⟩ := Finset.mem_Ico.mp block
    have set := used j low high
    rw [(mem_clearFrames.mp clear).2] at set
    cases set
  rw [clearFrames_clrFrames bitmap bound i n inside, Finset.card_union_of_disjoint apart,
    Nat.card_Ico, Nat.add_sub_cancel_left]

end Counting

/-! Start-up counts what it clears. -/

/-- What the map and the static variables must be like for the count to start out
right: page-aligned disjoint usable entries, none of them with frame 0, one of them with
room for the bitmap, and a bit in the bitmap for every frame. -/
structure StartCounts (highestAddr : Nat) (s : PhysState) (resp : List MemmapEntry) : Prop where
  boot : BootMap resp
  ranges : PhysicalRanges resp
  slot : highestAddr < 0x10000000000000000
  zero : ∀ e ∈ resp, e.Usable → 0 ∉ e.frames
  large : ∃ e ∈ resp, e.Usable ∧
    pageAlignUp (highestUsable highestAddr resp / PAGESIZE / 8) ≤ e.length
  covered : highestUsable highestAddr resp / PAGESIZE ≤
    8 * pageAlignUp (highestUsable highestAddr resp / PAGESIZE / 8)
  cold : s.framesFree = 0

section Start

variable {highestAddr : Nat} {s : PhysState} {resp : List MemmapEntry}

private theorem initResp_boot (boot : BootMap resp) :
    BootMap (initResp highestAddr resp) ∧
      ∀ e' ∈ initResp highestAddr resp, e'.Usable →
        ∃ e ∈ resp, e.Usable ∧ e'.frames ⊆ e.frames := by
  rcases initResp_cases highestAddr resp with same | ⟨before, e, rest, n, split,
    usable, fits, after⟩
  · rw [same]
    exact ⟨boot, fun e' member usable => ⟨e', member, usable, subset_rfl⟩⟩
  · have member : e ∈ resp := by
      rw [split]
      exact List.mem_append_right _ List.mem_cons_self
    obtain ⟨aligned, frames⟩ := carved_frames (boot.aligned e member usable) fits
    generalize carved : ({ e with
      length := e.length - n * PAGESIZE
      base := (e.base + n * PAGESIZE) % 0x10000000000000000 } : MemmapEntry) = rest_of at *
    have smaller : rest_of.frames ⊆ e.frames := fun f inside => ((frames f).mpr inside).1
    have apart := boot.apart
    rw [split] at apart
    obtain ⟨low, tail, cross⟩ := List.pairwise_append.mp apart
    obtain ⟨head, high⟩ := List.pairwise_cons.mp tail
    rw [after]
    refine ⟨⟨?_, ?_⟩, ?_⟩
    · intro e' here kind
      rcases List.mem_append.mp here with here | here
      · exact boot.aligned e' (split ▸ List.mem_append_left _ here) kind
      · rcases List.mem_cons.mp here with rfl | here
        · exact aligned
        · exact boot.aligned e' (split ▸ List.mem_append_right _ (List.mem_cons_of_mem _ here)) kind
    · refine List.pairwise_append.mpr ⟨low, List.pairwise_cons.mpr ⟨?_, high⟩, ?_⟩
      · intro f here _ kind
        exact (head f here usable kind).mono_left smaller
      · intro d here f here' kind kind'
        rcases List.mem_cons.mp here' with rfl | here'
        · exact (cross d here e List.mem_cons_self kind usable).mono_right smaller
        · exact cross d here f (List.mem_cons_of_mem _ here') kind kind'
    · intro e' here kind
      rcases List.mem_append.mp here with here | here
      · exact ⟨e', split ▸ List.mem_append_left _ here, kind, subset_rfl⟩
      · rcases List.mem_cons.mp here with rfl | here
        · exact ⟨e, member, usable, smaller⟩
        · exact ⟨e', split ▸ List.mem_append_right _ (List.mem_cons_of_mem _ here), kind,
            subset_rfl⟩

private theorem populate_accounted (boot : BootMap resp) (hb : s.highestFrameIdx < 0x10000000000000)
    (used : ∀ e ∈ resp, e.Usable → ∀ f ∈ e.frames,
      f < s.highestFrameIdx ∧ testBit s.bitmap f = true)
    (counted : Accounted s) : Accounted (mmPopulateBitmap s resp) := by
  induction resp generalizing s with
  | nil => exact counted
  | cons e rest ih =>
    obtain ⟨head, tail⟩ := List.pairwise_cons.mp boot.apart
    have rest_boot : BootMap rest :=
      ⟨fun f member => boot.aligned f (List.mem_cons_of_mem e member), tail⟩
    have bits := fun f => testBit_populateEntry s (boot.aligned e List.mem_cons_self) f
    have bound : (populateEntry s e).highestFrameIdx = s.highestFrameIdx := by
      unfold populateEntry
      split <;> rfl
    rw [mmPopulateBitmap, List.foldl_cons]
    change Accounted (mmPopulateBitmap (populateEntry s e) rest)
    refine ih rest_boot (bound ▸ hb) ?_ ?_
    · intro f member usable g inside
      obtain ⟨below, set⟩ := used f (List.mem_cons_of_mem e member) usable g inside
      refine ⟨bound ▸ below, (bits g).mpr ⟨set, fun other => ?_⟩⟩
      exact Set.disjoint_left.mp (head f member other.1 usable) other.2 inside
    · by_cases usable : e.Usable
      · have inside : e.base / PAGESIZE + e.length / PAGESIZE ≤ s.highestFrameIdx ∨
            e.length / PAGESIZE = 0 := by
          by_contra outside
          obtain ⟨high, pages⟩ := not_or.mp outside
          have positive : 0 < e.length / PAGESIZE := Nat.pos_of_ne_zero pages
          have last : e.base / PAGESIZE + e.length / PAGESIZE - 1 ∈ e.frames :=
            mem_span.mpr (by omega)
          have := (used e List.mem_cons_self usable _ last).1
          omega
        have frames : clearFrames (populateEntry s e).bitmap s.highestFrameIdx =
            clearFrames (clrFrames s.bitmap (e.base / PAGESIZE) (e.length / PAGESIZE))
              s.highestFrameIdx := by
          ext j
          rw [mem_clearFrames, mem_clearFrames, ← Bool.not_eq_true, bits j, testBit_clrFrames,
            Bool.and_eq_false_iff, decide_eq_false_iff_not, not_not, not_and_or, Bool.not_eq_true,
            not_not, MemmapEntry.frames, mem_span]
          simp only [usable, true_and]
          rw [or_comm]
        have grown : (clearFrames (populateEntry s e).bitmap s.highestFrameIdx).card =
            (clearFrames s.bitmap s.highestFrameIdx).card + e.length / PAGESIZE := by
          rw [frames]
          rcases inside with fits | empty
          · apply card_clrFrames fits
            intro j low high
            exact (used e List.mem_cons_self usable j (mem_span.mpr ⟨low, high⟩)).2
          · rw [empty]
            rfl
        have free : (populateEntry s e).framesFree =
            (s.framesFree + e.length / PAGESIZE) % 0x10000000000000000 := by
          have kind : ¬e.type ≠ LIMINE_MEMMAP_USABLE := not_not.mpr usable
          simp only [populateEntry, if_neg kind]
        have most := clearFrames_card_le (populateEntry s e).bitmap s.highestFrameIdx
        rw [Accounted, bound, free, counted, ← grown, Nat.mod_eq_of_lt]
        exact (most.trans_lt hb).trans (by norm_num)
      · have kind : e.type ≠ LIMINE_MEMMAP_USABLE := usable
        have same : (populateEntry s e).bitmap = s.bitmap ∧
            (populateEntry s e).framesFree = s.framesFree := by
          simp only [populateEntry, if_pos kind, and_self]
        rw [Accounted, bound, same.1, same.2]
        exact counted

private theorem frames_below_top (boot : BootMap resp) (ranges : PhysicalRanges resp)
    {e : MemmapEntry} (member : e ∈ resp) (usable : e.Usable) {f : Nat} (inside : f ∈ e.frames) :
    f < highestUsable highestAddr resp / PAGESIZE := by
  have aligned := boot.aligned e member usable
  have top : e.base + e.length ≤ highestUsable highestAddr resp := by
    rw [highestUsable_eq highestAddr ranges]
    exact (le_usableTop member usable).trans (le_max_right _ _)
  rw [aligned.base, aligned.length, ← Nat.add_mul] at top
  have frames :
      e.base / PAGESIZE + e.length / PAGESIZE ≤ highestUsable highestAddr resp / PAGESIZE :=
    (Nat.le_div_iff_mul_le page_pos).mpr top
  exact (mem_span.mp inside).2.trans_le frames

theorem StartCounts.counted (start : StartCounts highestAddr s resp) :
    Accounted (mmInitBitmap highestAddr s resp) ∧
      (mmInitBitmap highestAddr s resp).highestFrameIdx < 0x10000000000000 ∧
      (0 < (mmInitBitmap highestAddr s resp).highestFrameIdx →
        testBit (mmInitBitmap highestAddr s resp).bitmap 0 = true) := by
  obtain ⟨boot, ranges, slot, zero, large, covered, cold⟩ := start
  let highest := highestUsable highestAddr resp / PAGESIZE
  have few : highest < 0x10000000000000 := by
    have word := highestUsable_lt slot resp
    simp only [highest, PAGESIZE]
    omega
  obtain ⟨⟨base, after⟩, carved⟩ := Option.isSome_iff_exists.mp (carveBitmap_isSome large)
  let s1 := { s with
    highestFrameIdx := highest
    bitmapSize := pageAlignUp (highest / 8)
    bitmapBase := some base
    bitmap := Rtl.String.rtlMemset (fun i => s.mem (base + i)) 0 0xFF (pageAlignUp (highest / 8)) }
  have left : initResp highestAddr resp = after := by
    rw [initResp, carved]
  have result : mmInitBitmap highestAddr s resp =
      mmPopulateBitmap s1 (initResp highestAddr resp) := by
    rw [left]
    unfold mmInitBitmap mmAllocBitmap
    simp only [carved]
    rfl
  obtain ⟨boot', from_map⟩ := @initResp_boot highestAddr resp boot
  have full : ∀ f < highest, testBit s1.bitmap f = true := by
    intro f below
    have byte : f >>> 3 = f / 8 := Nat.shiftRight_eq_div_pow f 3
    have inside : f < 8 * pageAlignUp (highest / 8) := below.trans_le covered
    change testBit (Rtl.String.rtlMemset _ _ _ _) f = true
    rw [Rtl.String.rtlMemset_eq_fill, testBit_full (fill_inside _ _ (by omega))]
  have used : ∀ e ∈ initResp highestAddr resp, e.Usable → ∀ f ∈ e.frames,
      f < s1.highestFrameIdx ∧ testBit s1.bitmap f = true := by
    intro e' member usable f inside
    obtain ⟨e, here, kind, smaller⟩ := from_map e' member usable
    have below := @frames_below_top highestAddr resp boot ranges e here kind f (smaller inside)
    exact ⟨below, full f below⟩
  have none_clear : Accounted s1 := by
    have empty : clearFrames s1.bitmap s1.highestFrameIdx = ∅ := by
      apply Finset.eq_empty_of_forall_notMem
      intro f clear
      obtain ⟨below, clear⟩ := mem_clearFrames.mp clear
      rw [full f below] at clear
      cases clear
    rw [Accounted, empty]
    exact cold
  obtain ⟨_, _, bound, _⟩ := mmPopulateBitmap_frame s1 (initResp highestAddr resp)
  rw [result]
  refine ⟨populate_accounted boot' few used none_clear, bound.symm ▸ few, fun positive => ?_⟩
  refine (testBit_mmPopulateBitmap s1 boot'.aligned 0).mpr
    ⟨full 0 (show 0 < s1.highestFrameIdx from bound ▸ positive), ?_⟩
  rintro e' member ⟨usable, inside⟩
  obtain ⟨e, here, kind, smaller⟩ := from_map e' member usable
  exact zero e here kind (smaller inside)

end Start

/-! Which calls keep the count. -/

inductive Call
  | alloc (count : Nat)
  | free (b : Block)

/-- One call, with the live blocks before and after it; a release names a live block. -/
inductive Called : PhysState → List Block → Call → PhysState → List Block → Prop
  | failed {s : PhysState} {live : List Block} {count : Nat} (word : count < 0x10000000000000000)
      (zero : (mmAllocFrame s count).1 = 0) :
      Called s live (.alloc count) (mmAllocFrame s count).2 live
  | made {s : PhysState} {live : List Block} {count : Nat} (word : count < 0x10000000000000000)
      (nonzero : (mmAllocFrame s count).1 ≠ 0) :
      Called s live (.alloc count) (mmAllocFrame s count).2
        (⟨(mmAllocFrame s count).1, count⟩ :: live)
  | freed {s : PhysState} {live : List Block} {b : Block} (member : b ∈ live) :
      Called s live (.free b) (mmFreeFrame s b.base b.count) (live.erase b)

inductive CallRun (ok : PhysState → Call → Prop) (s₀ : PhysState) : PhysState → List Block → Prop
  | start : CallRun ok s₀ s₀ []
  | call {s t : PhysState} {live live' : List Block} {c : Call} (run : CallRun ok s₀ s live)
      (called : Called s live c t live') (allowed : ok s c) : CallRun ok s₀ t live'

/-- A call that the count survives: an allocation of no frames, one whose block is
found and all clear, or the release of no frames. -/
def Counts (s : PhysState) : Call → Prop
  | .alloc count => count = 0 ∨
      ∃ i, LowestRun (Clear s.bitmap) (sought count) s.highestFrameIdx i ∧
        i + count ≤ s.highestFrameIdx ∧ FreeRun (Clear s.bitmap) i count
  | .free b => b.count = 0

/-- The state a run of such calls stays in: the frames of live blocks are in use. -/
structure CountInv (s : PhysState) (live : List Block) : Prop where
  bound : s.highestFrameIdx < 0x10000000000000
  zero : 0 < s.highestFrameIdx → testBit s.bitmap 0 = true
  counted : Accounted s
  held : ∀ b ∈ live, ∃ i, b.base = i * PAGESIZE ∧ i < s.highestFrameIdx ∧
    i + b.count ≤ s.highestFrameIdx ∧ ∀ j, i ≤ j → j < i + b.count → testBit s.bitmap j = true

section Calls

variable {s t : PhysState} {live live' : List Block} {count : Nat}

private theorem count_taken {c count taken : Nat} (word : count < 0x10000000000000000)
    (small : c < 0x10000000000000) (le : taken ≤ c) (upto : taken ≤ count) :
    toUSize ((c : Int) - count) = c - taken ↔ taken = count := by
  unfold toUSize
  omega

private theorem taken_all {i : Nat} (bound : s.highestFrameIdx < 0x10000000000000)
    (word : count < 0x10000000000000000) (inside : i < s.highestFrameIdx) :
    (Finset.Ico i (i + ((i + count) % 0x10000000000000000 - i)) ∩
        clearFrames s.bitmap s.highestFrameIdx).card = count ↔
      count = 0 ∨ (i + count ≤ s.highestFrameIdx ∧ FreeRun (Clear s.bitmap) i count) := by
  generalize frames : (i + count) % 0x10000000000000000 - i = n
  have upto : n ≤ count := by omega
  constructor
  · intro all
    rcases Nat.eq_zero_or_pos count with none | positive
    · exact Or.inl none
    · right
      have cap : (Finset.Ico i (i + n) ∩ clearFrames s.bitmap s.highestFrameIdx).card ≤ n :=
        (Finset.card_le_card Finset.inter_subset_left).trans_eq (by rw [Nat.card_Ico]; omega)
      obtain rfl : n = count := by omega
      have whole : Finset.Ico i (i + n) ∩ clearFrames s.bitmap s.highestFrameIdx =
          Finset.Ico i (i + n) :=
        Finset.eq_of_subset_of_card_le Finset.inter_subset_left
          (by rw [all, Nat.card_Ico]; omega)
      have clear : ∀ j, i ≤ j → j < i + n → j < s.highestFrameIdx ∧ testBit s.bitmap j = false := by
        intro j low high
        have member : j ∈ Finset.Ico i (i + n) := Finset.mem_Ico.mpr ⟨low, high⟩
        rw [← whole] at member
        exact mem_clearFrames.mp (Finset.mem_inter.mp member).2
      refine ⟨?_, fun j low high => (clear j low high).2⟩
      have last := (clear (i + n - 1) (by omega) (by omega)).1
      omega
  · rintro (rfl | ⟨fits, run⟩)
    · have none : n = 0 := by omega
      rw [none, Nat.add_zero, Finset.Ico_self, Finset.empty_inter, Finset.card_empty]
    · obtain rfl : n = count := by omega
      have whole : Finset.Ico i (i + n) ∩ clearFrames s.bitmap s.highestFrameIdx =
          Finset.Ico i (i + n) := by
        apply Finset.inter_eq_left.mpr
        intro j member
        obtain ⟨low, high⟩ := Finset.mem_Ico.mp member
        exact mem_clearFrames.mpr ⟨by omega, run j low high⟩
      rw [whole, Nat.card_Ico, Nat.add_sub_cancel_left]

private theorem alloc_counts (inv : CountInv s live) (word : count < 0x10000000000000000) :
    Accounted (mmAllocFrame s count).2 ↔ Counts s (.alloc count) := by
  have most := clearFrames_card_le s.bitmap s.highestFrameIdx
  have small := most.trans_lt inv.bound
  rcases mmAllocFrame_stops s count (sought count) inv.bound (sought_pos count)
    (sought_stops word _) inv.zero with ⟨i, _, lowest, call⟩ | ⟨none, call⟩
  · have inside : i < s.highestFrameIdx := by
      have := lowest.fits
      have := sought_pos count
      omega
    have taken := taken_all inv.bound word inside
    rw [call]
    simp only [Accounted]
    rw [inv.counted, clearFrames_setFrames, Finset.card_sdiff, count_taken word small _ _, taken]
    · constructor
      · rintro (none | ⟨fits, run⟩)
        · exact Or.inl none
        · exact Or.inr ⟨i, lowest, fits, run⟩
      · rintro (none | ⟨j, other, fits, run⟩)
        · exact Or.inl none
        · obtain rfl := other.unique lowest
          exact Or.inr ⟨fits, run⟩
    · exact Finset.card_le_card Finset.inter_subset_right
    · refine (Finset.card_le_card Finset.inter_subset_left).trans ?_
      rw [Nat.card_Ico]
      omega
  · rw [call]
    simp only [Accounted]
    have nothing := @count_taken _ _ 0 word small (Nat.zero_le _) (Nat.zero_le _)
    rw [Nat.sub_zero] at nothing
    rw [inv.counted, nothing]
    constructor
    · intro zero
      exact Or.inl zero.symm
    · rintro (zero | ⟨i, lowest, _⟩)
      · exact zero.symm
      · exact absurd lowest.run (none i lowest.fits)

private theorem free_counts (inv : CountInv s live) {b : Block} (member : b ∈ live) :
    Accounted (mmFreeFrame s b.base b.count) ↔ Counts s (.free b) := by
  obtain ⟨i, base, inside, fits, used⟩ := inv.held b member
  have range : (i + b.count + 1) * PAGESIZE ≤ 0x10000000000000000 := by
    have bound := inv.bound
    rw [PAGESIZE]
    omega
  have frames : clearFrames (mmFreeFrame s b.base b.count).bitmap s.highestFrameIdx =
      clearFrames (clrFrames s.bitmap i b.count) s.highestFrameIdx := by
    ext j
    rw [mem_clearFrames, mem_clearFrames, base, testBit_mmFreeFrame s i b.count j range,
      testBit_clrFrames]
  have grown := card_clrFrames fits used
  have kept : (mmFreeFrame s b.base b.count).highestFrameIdx = s.highestFrameIdx := rfl
  have same : (mmFreeFrame s b.base b.count).framesFree = s.framesFree := rfl
  rw [Accounted, kept, same, frames, grown, inv.counted]
  change _ ↔ b.count = 0
  omega

private theorem alloc_inv (inv : CountInv s live) (word : count < 0x10000000000000000)
    (counts : Counts s (.alloc count)) : CountInv (mmAllocFrame s count).2 live ∧
      ((mmAllocFrame s count).1 ≠ 0 → CountInv (mmAllocFrame s count).2
        (⟨(mmAllocFrame s count).1, count⟩ :: live)) := by
  have counted := (alloc_counts inv word).mpr counts
  rcases mmAllocFrame_stops s count (sought count) inv.bound (sought_pos count)
    (sought_stops word _) inv.zero with ⟨i, _, lowest, call⟩ | ⟨_, call⟩
  · rw [call] at counted ⊢
    have set : ∀ j, testBit s.bitmap j = true →
        testBit (setFrames s.bitmap i ((i + count) % 0x10000000000000000 - i)) j = true := by
      intro j old
      rw [testBit_setFrames, old, Bool.or_true]
    have old : ∀ b ∈ live, ∃ k, b.base = k * PAGESIZE ∧ k < s.highestFrameIdx ∧
        k + b.count ≤ s.highestFrameIdx ∧ ∀ j, k ≤ j → j < k + b.count →
          testBit (setFrames s.bitmap i ((i + count) % 0x10000000000000000 - i)) j = true := by
      intro b member
      obtain ⟨k, base, inside, fits, used⟩ := inv.held b member
      exact ⟨k, base, inside, fits, fun j low high => set j (used j low high)⟩
    have fits : i + count ≤ s.highestFrameIdx := by
      have := lowest.fits
      have := sought_pos count
      rcases counts with none | ⟨j, other, fits, _⟩
      · omega
      · obtain rfl := other.unique lowest
        exact fits
    have inside : i < s.highestFrameIdx := by
      have := lowest.fits
      have := sought_pos count
      omega
    have bound := inv.bound
    refine ⟨⟨bound, fun positive => set 0 (inv.zero positive), counted, old⟩,
      fun _ => ⟨bound, fun positive => set 0 (inv.zero positive), counted, ?_⟩⟩
    intro b member
    rcases List.mem_cons.mp member with rfl | member
    · refine ⟨i, rfl, inside, fits, fun j low high => ?_⟩
      have block : i ≤ j ∧ j < i + ((i + count) % 0x10000000000000000 - i) := by
        simp only at high
        omega
      rw [testBit_setFrames, decide_eq_true block, Bool.true_or]
    · exact old b member
  · rw [call] at counted ⊢
    exact ⟨⟨inv.bound, inv.zero, counted, inv.held⟩, fun nonzero => absurd rfl nonzero⟩

private theorem free_inv (inv : CountInv s live) {b : Block} (member : b ∈ live)
    (counts : Counts s (.free b)) : CountInv (mmFreeFrame s b.base b.count) (live.erase b) := by
  have counted := (free_counts inv member).mpr counts
  have none : b.count = 0 := counts
  obtain ⟨i, base, inside, _, _⟩ := inv.held b member
  have range : (i + 0 + 1) * PAGESIZE ≤ 0x10000000000000000 := by
    have bound := inv.bound
    rw [PAGESIZE]
    omega
  have same : ∀ j, testBit (mmFreeFrame s b.base b.count).bitmap j = testBit s.bitmap j := by
    intro j
    have outside : ¬(i ≤ j ∧ j < i + 0) := by omega
    rw [none, base, testBit_mmFreeFrame s i 0 j range, decide_eq_true outside, Bool.true_and]
  refine ⟨inv.bound, fun positive => (same 0).trans (inv.zero positive), counted, ?_⟩
  intro c here
  obtain ⟨k, base, inside, fits, used⟩ := inv.held c (List.mem_of_mem_erase here)
  exact ⟨k, base, inside, fits, fun j low high => (same j).trans (used j low high)⟩

private theorem called_inv {c : Call} (inv : CountInv s live) (called : Called s live c t live')
    (counts : Counts s c) : CountInv t live' := by
  cases called with
  | failed word zero => exact (alloc_inv inv word counts).1
  | made word nonzero => exact (alloc_inv inv word counts).2 nonzero
  | freed member => exact free_inv inv member counts

variable {highestAddr : Nat} {s₀ : PhysState} {resp : List MemmapEntry}

private theorem count_run_inv (begins : StartCounts highestAddr s₀ resp)
    (run : CallRun Counts (mmInitBitmap highestAddr s₀ resp) t live) : CountInv t live := by
  induction run with
  | start =>
    obtain ⟨counted, bound, zero⟩ := begins.counted
    exact ⟨bound, zero, counted, by simp⟩
  | call _ called allowed inv => exact called_inv inv called allowed

/-- As long as no allocation fails and no block is released the count is exact, and the
first call that does either breaks it. -/
theorem free_frames_counted (begins : StartCounts highestAddr s₀ resp)
    (run : CallRun Counts (mmInitBitmap highestAddr s₀ resp) t live) :
    Accounted t ∧ ∀ (c : Call) (t' : PhysState) (live' : List Block), Called t live c t' live' →
      (Accounted t' ↔ Counts t c) := by
  have inv := count_run_inv begins run
  refine ⟨inv.counted, fun c t' live' called => ?_⟩
  cases called with
  | failed word _ => exact alloc_counts inv word
  | made word _ => exact alloc_counts inv word
  | freed member => exact free_counts inv member

end Calls

private theorem lowMap_counts : StartCounts 0 coldState lowMap where
  boot := lowMap_boot
  ranges := lowMap_ranges
  slot := by decide
  zero := by
    intro e member _
    simp only [lowMap, List.mem_cons, List.not_mem_nil, or_false] at member
    rcases member with rfl | rfl | rfl <;> simp [MemmapEntry.frames, mem_span, PAGESIZE]
  large := ⟨⟨0x1000, 0x3000, 0⟩, by simp [lowMap], rfl, by decide +kernel⟩
  covered := by decide +kernel
  cold := rfl

theorem free_frames_counted_lowMap :
    Accounted (mmAllocFrame (mmInitBitmap 0 coldState lowMap) 1).2 := by
  have lowest : LowestRun (Clear (mmInitBitmap 0 coldState lowMap).bitmap) (sought 1)
      (mmInitBitmap 0 coldState lowMap).highestFrameIdx 2 := by
    have bits : ∀ j < 10, testBit (mmInitBitmap 0 coldState lowMap).bitmap j =
        decide (j ∉ [2, 3, 8, 9]) := by decide +kernel
    have bound : (mmInitBitmap 0 coldState lowMap).highestFrameIdx = 10 := by decide +kernel
    rw [bound]
    refine ⟨?_, by decide, ?_⟩
    · intro j low high
      have : j = 2 ∨ j = 3 := by
        have two : sought 1 = 2 := rfl
        omega
      rcases this with rfl | rfl <;> exact bits _ (by decide)
    · intro k _ run
      by_contra lower
      have clear := run k le_rfl (Nat.lt_add_of_pos_right (sought_pos 1))
      rw [Clear, bits k (by omega)] at clear
      have : k = 0 ∨ k = 1 := by omega
      rcases this with rfl | rfl <;> cases clear
  have first : Called (mmInitBitmap 0 coldState lowMap) []
      (.alloc 1) (mmAllocFrame (mmInitBitmap 0 coldState lowMap) 1).2 _ :=
    .made (by decide) (by decide +kernel)
  have counts : Counts (mmInitBitmap 0 coldState lowMap) (.alloc 1) := by
    refine Or.inr ⟨2, lowest, ?_, lowest.run.shorten (by decide)⟩
    have := lowest.fits
    have two : sought 1 = 2 := rfl
    omega
  exact (free_frames_counted lowMap_counts (CallRun.start.call first counts)).1

/-- Allocating a frame and releasing it again loses it for the count. -/
theorem release_uncounted : ¬∀ (t : PhysState) (live : List Block),
    CallRun (fun _ _ => True) (mmInitBitmap 0 coldState lowMap) t live → Accounted t := by
  intro claim
  let s := mmInitBitmap 0 coldState lowMap
  have made : Called s [] (.alloc 1) (mmAllocFrame s 1).2 [⟨(mmAllocFrame s 1).1, 1⟩] :=
    .made (by decide) (by decide +kernel)
  have freed : Called (mmAllocFrame s 1).2 [⟨(mmAllocFrame s 1).1, 1⟩]
      (.free ⟨(mmAllocFrame s 1).1, 1⟩)
        (mmFreeFrame (mmAllocFrame s 1).2 (mmAllocFrame s 1).1 1) _ :=
    .freed List.mem_cons_self
  have counted := claim _ _ ((CallRun.start.call made True.intro).call freed True.intro)
  revert counted
  unfold Accounted
  decide +kernel

end Algae.Mm.PhysCount
