/- What start-up computes from the memory map alone: the highest frame, the size of
   the bitmap and its contents, and which frames the bitmap has bits for. -/

import Algae.Mm.PhysBoot

set_option autoImplicit false
set_option relaxedAutoImplicit false

namespace Algae.Mm.PhysCover

open Algae.Lib.ByteMemory Algae.Lib.FirstFit
open Algae.Sdk.Defs Algae.Mm.Phys Algae.Mm.PhysBoot

def usableTop (resp : List MemmapEntry) : Nat :=
  resp.foldr (fun e top => if e.Usable then max (e.base + e.length) top else top) 0

def PhysicalRanges (resp : List MemmapEntry) : Prop :=
  ∀ e ∈ resp, e.Usable → e.base + e.length < 0x10000000000000000

theorem le_usableTop {resp : List MemmapEntry} {e : MemmapEntry} (member : e ∈ resp)
    (usable : e.Usable) : e.base + e.length ≤ usableTop resp := by
  induction resp with
  | nil => cases member
  | cons f rest ih =>
    rw [usableTop, List.foldr_cons]
    rcases List.mem_cons.mp member with rfl | member
    · rw [if_pos usable]
      exact le_max_left _ _
    · split
      · exact (ih member).trans (le_max_right _ _)
      · exact ih member

private theorem usableTop_lt {resp : List MemmapEntry} (ranges : PhysicalRanges resp) :
    usableTop resp < 0x10000000000000000 := by
  induction resp with
  | nil => decide
  | cons e rest ih =>
    have tail := ih fun f member => ranges f (List.mem_cons_of_mem e member)
    rw [usableTop, List.foldr_cons]
    split
    · next usable => exact max_lt (ranges e List.mem_cons_self usable) tail
    · exact tail

theorem highestUsable_eq (highestAddr : Nat) {resp : List MemmapEntry}
    (ranges : PhysicalRanges resp) :
    highestUsable highestAddr resp = max highestAddr (usableTop resp) := by
  induction resp generalizing highestAddr with
  | nil => exact (Nat.max_zero highestAddr).symm
  | cons e rest ih =>
    have tail : PhysicalRanges rest := fun f member => ranges f (List.mem_cons_of_mem e member)
    rw [highestUsable, List.foldl_cons, usableTop, List.foldr_cons]
    by_cases usable : e.Usable
    · have kind : ¬e.type ≠ LIMINE_MEMMAP_USABLE := not_not.mpr usable
      have word := Nat.mod_eq_of_lt (ranges e List.mem_cons_self usable)
      rw [if_neg kind, if_pos usable, word, ← max_assoc]
      exact ih _ tail
    · have kind : e.type ≠ LIMINE_MEMMAP_USABLE := usable
      rw [if_pos kind, if_neg usable]
      exact ih _ tail

private theorem highestFrame_eq (highestAddr : Nat) {resp : List MemmapEntry}
    (ranges : PhysicalRanges resp) : highestUsable highestAddr resp / PAGESIZE =
      max (highestAddr / PAGESIZE) (usableTop resp / PAGESIZE) := by
  rw [highestUsable_eq highestAddr ranges]
  have monotone : Monotone fun addr : Nat => addr / PAGESIZE :=
    fun _ _ le => Nat.div_le_div_right le
  exact monotone.map_max

section Frame

private theorem mmAllocBitmap_frame (s : PhysState) (resp : List MemmapEntry) :
    (mmAllocBitmap s resp).1.highestFrameIdx = s.highestFrameIdx ∧
    (mmAllocBitmap s resp).1.bitmapSize = s.bitmapSize := by
  unfold mmAllocBitmap
  split <;> exact ⟨rfl, rfl⟩

private theorem mmInitBitmap_sizes (highestAddr : Nat) (s : PhysState) (resp : List MemmapEntry) :
    (mmInitBitmap highestAddr s resp).highestFrameIdx = highestUsable highestAddr resp / PAGESIZE ∧
    (mmInitBitmap highestAddr s resp).bitmapSize =
      pageAlignUp (highestUsable highestAddr resp / PAGESIZE / 8) := by
  let s1 := { s with
    highestFrameIdx := highestUsable highestAddr resp / PAGESIZE
    bitmapSize := pageAlignUp (highestUsable highestAddr resp / PAGESIZE / 8) }
  obtain ⟨bound, size⟩ := mmAllocBitmap_frame s1 resp
  obtain ⟨sizes, _, bounds, _⟩ := mmPopulateBitmap_frame (mmAllocBitmap s1 resp).1
    (mmAllocBitmap s1 resp).2
  exact ⟨bounds.trans bound, sizes.trans size⟩

private theorem mmInitBitmap_congr {first second : Nat} (s : PhysState) {resp : List MemmapEntry}
    (same : highestUsable first resp / PAGESIZE = highestUsable second resp / PAGESIZE) :
    mmInitBitmap first s resp = mmInitBitmap second s resp := by
  unfold mmInitBitmap
  rw [same]

end Frame

/-! What the uninitialised local changes. -/

/-- Two runs of start-up agree, on the highest frame of the map. -/
structure SameLayout (resp : List MemmapEntry) (s t : PhysState) : Prop where
  highest : s.highestFrameIdx = t.highestFrameIdx
  size : s.bitmapSize = t.bitmapSize
  location : s.bitmapBase = t.bitmapBase
  contents : s.bitmap = t.bitmap
  top : s.highestFrameIdx = usableTop resp / PAGESIZE

/-- Start-up depends on the memory map alone exactly if neither initial value of
`highestAddr` is in a frame above the top of usable memory. -/
theorem mmInitBitmap_same_iff (first second : Nat) (s : PhysState) {resp : List MemmapEntry}
    (ranges : PhysicalRanges resp) :
    SameLayout resp (mmInitBitmap first s resp) (mmInitBitmap second s resp) ↔
      first / PAGESIZE ≤ usableTop resp / PAGESIZE ∧
      second / PAGESIZE ≤ usableTop resp / PAGESIZE := by
  obtain ⟨highest₁, _⟩ := mmInitBitmap_sizes first s resp
  obtain ⟨highest₂, _⟩ := mmInitBitmap_sizes second s resp
  rw [highestFrame_eq first ranges] at highest₁
  rw [highestFrame_eq second ranges] at highest₂
  constructor
  · intro same
    have top₁ := highest₁.symm.trans same.top
    have top₂ := highest₂.symm.trans (same.highest.symm.trans same.top)
    exact ⟨max_eq_right_iff.mp top₁, max_eq_right_iff.mp top₂⟩
  · rintro ⟨low₁, low₂⟩
    have frames : highestUsable first resp / PAGESIZE = highestUsable second resp / PAGESIZE := by
      rw [highestFrame_eq first ranges, highestFrame_eq second ranges, max_eq_right low₁,
        max_eq_right low₂]
    have runs := mmInitBitmap_congr s frames
    refine ⟨by rw [runs], by rw [runs], by rw [runs], by rw [runs], ?_⟩
    rw [highest₁, max_eq_right low₁]

theorem lowMap_ranges : PhysicalRanges lowMap := by
  intro e member _
  simp only [lowMap, List.mem_cons, List.not_mem_nil, or_false] at member
  rcases member with rfl | rfl | rfl <;> decide

theorem mmInitBitmap_same_iff_lowMap :
    SameLayout lowMap (mmInitBitmap 0 coldState lowMap) (mmInitBitmap 0x7000 coldState lowMap) ↔
      0 / PAGESIZE ≤ usableTop lowMap / PAGESIZE ∧
      0x7000 / PAGESIZE ≤ usableTop lowMap / PAGESIZE :=
  mmInitBitmap_same_iff 0 0x7000 coldState lowMap_ranges

/-- A stack slot that holds the address of a kernel stack: the frames seem to go on far
past the end of memory. -/
theorem stale_slot_raises_top : ¬SameLayout lowMap (mmInitBitmap 0 coldState lowMap)
    (mmInitBitmap 0xFFFF800000000000 coldState lowMap) := by
  intro same
  have highest := same.highest
  rw [(mmInitBitmap_sizes _ _ _).1, (mmInitBitmap_sizes _ _ _).1] at highest
  revert highest
  decide +kernel

/-! Which bits the loops touch. -/

/-- The bits that the loop over a usable entry clears, in its order. -/
def clearedBits (base length : Nat) : Nat → Nat → List Nat
  | 0, _ => []
  | fuel + 1, j =>
    if j < length then
      (base + j) % 0x10000000000000000 / PAGESIZE ::
        clearedBits base length fuel ((j + PAGESIZE) % 0x10000000000000000)
    else
      []

def populateBits (resp : List MemmapEntry) : List Nat :=
  resp.flatMap fun memEntry =>
    if memEntry.type ≠ LIMINE_MEMMAP_USABLE then []
    else clearedBits memEntry.base memEntry.length memEntry.length 0

def testedBits (bitmap : Bitmap) (count : Nat) : Nat → Nat → Int → List Nat
  | 0, _, _ => []
  | remaining + 1, i, nFrames =>
    i :: if testBit bitmap i = false then
      if toUSize nFrames ≥ count then []
      else testedBits bitmap count remaining (i + 1) (toLong (nFrames + 1))
    else
      testedBits bitmap count remaining (i + 1) 0

def allocBits (s : PhysState) (count : Nat) : List Nat :=
  let (idx, nFrames) := scanFrames s.bitmap count s.highestFrameIdx 0 (-1) 0
  testedBits s.bitmap count s.highestFrameIdx 0 0 ++
    if idx < 0 ∨ toUSize (toLong (nFrames - 1)) < count then
      []
    else
      List.range' (toUSize idx) ((toUSize idx + count) % 0x10000000000000000 - toUSize idx)

section Touched

private theorem clearEntry_bits (bitmap : Bitmap) (base length fuel j : Nat) :
    clearEntry bitmap base length fuel j =
      (clearedBits base length fuel j).foldl clrBit bitmap := by
  induction fuel generalizing bitmap j with
  | zero => rfl
  | succ fuel ih =>
    rw [clearEntry, clearedBits]
    split
    · rw [ih, List.foldl_cons]
    · rfl

private theorem mmPopulateBitmap_bits (s : PhysState) (resp : List MemmapEntry) :
    (mmPopulateBitmap s resp).bitmap = (populateBits resp).foldl clrBit s.bitmap := by
  induction resp generalizing s with
  | nil => rfl
  | cons e rest ih =>
    have tail := ih (populateEntry s e)
    rw [mmPopulateBitmap, List.foldl_cons]
    change (mmPopulateBitmap (populateEntry s e) rest).bitmap = _
    rw [tail, show populateBits (e :: rest) = _ from List.flatMap_cons, List.foldl_append]
    congr 1
    unfold populateEntry
    split
    · rfl
    · exact clearEntry_bits _ _ _ _ _

private theorem scanFrames_tested {bitmap other : Bitmap} {count remaining i : Nat}
    {idx nFrames : Int}
    (same : ∀ j ∈ testedBits bitmap count remaining i nFrames, testBit other j = testBit bitmap j) :
    scanFrames other count remaining i idx nFrames =
      scanFrames bitmap count remaining i idx nFrames := by
  induction remaining generalizing i idx nFrames with
  | zero => rfl
  | succ remaining ih =>
    rw [testedBits, List.forall_mem_cons] at same
    obtain ⟨here, later⟩ := same
    rw [scanFrames, scanFrames, here]
    by_cases clear : testBit bitmap i = false
    · rw [if_pos clear] at later ⊢
      rw [if_pos clear]
      by_cases enough : toUSize nFrames ≥ count
      · simp only [if_pos enough]
      · rw [if_neg enough] at later
        simp only [if_neg enough]
        exact ih later
    · rw [if_neg clear] at later ⊢
      rw [if_neg clear]
      exact ih later

private theorem mem_allocBits {s : PhysState} {count i : Nat}
    (tested : i ∈ testedBits s.bitmap count s.highestFrameIdx 0 0) : i ∈ allocBits s count := by
  unfold allocBits
  exact List.mem_append_left _ tested

private theorem mmDoAllocFrames_bits (s : PhysState) (count : Nat) :
    (∀ f ∉ allocBits s count, testBit (mmDoAllocFrames s count).2.bitmap f = testBit s.bitmap f) ∧
    ∀ other, (∀ f ∈ allocBits s count, testBit other f = testBit s.bitmap f) →
      (mmDoAllocFrames { s with bitmap := other } count).1 = (mmDoAllocFrames s count).1 := by
  constructor
  · intro f outside
    unfold allocBits at outside
    unfold mmDoAllocFrames
    generalize scanFrames s.bitmap count s.highestFrameIdx 0 (-1) 0 = found at outside ⊢
    obtain ⟨idx, nFrames⟩ := found
    simp only at outside ⊢
    split_ifs at outside ⊢ with refused
    · rfl
    · rw [List.mem_append, not_or, List.mem_range'_1] at outside
      simp only
      rw [testBit_setFrames, decide_eq_false outside.2, Bool.false_or]
  · intro other same
    have scanned : scanFrames other count s.highestFrameIdx 0 (-1) 0 =
        scanFrames s.bitmap count s.highestFrameIdx 0 (-1) 0 := by
      apply scanFrames_tested
      intro j member
      exact same j (mem_allocBits member)
    unfold mmDoAllocFrames
    simp only [scanned]
    split_ifs <;> rfl

private theorem testedBits_full {bitmap : Bitmap} (full : ∀ f, testBit bitmap f = true)
    (count remaining i : Nat) (nFrames : Int) :
    testedBits bitmap count remaining i nFrames = List.range' i remaining := by
  induction remaining generalizing i nFrames with
  | zero => rfl
  | succ remaining ih =>
    have set : ¬testBit bitmap i = false := by
      rw [full i]
      decide
    rw [testedBits, if_neg set, ih, List.range'_succ]

def lastFrame (e : MemmapEntry) : Nat := e.base / PAGESIZE + (e.length - 1) / PAGESIZE

private theorem page_add (base k : Nat) : (base + k * PAGESIZE) / PAGESIZE = base / PAGESIZE + k :=
  Nat.add_mul_div_right base k page_pos

private theorem clearedBits_le {base length : Nat} (range : base + length < 0x10000000000000000)
    {fuel j i : Nat} (aligned : PAGESIZE ∣ j) (member : i ∈ clearedBits base length fuel j) :
    0 < length ∧ i ≤ base / PAGESIZE + (length - 1) / PAGESIZE := by
  induction fuel generalizing j with
  | zero => cases member
  | succ fuel ih =>
    rw [clearedBits] at member
    split at member
    next below =>
      rcases List.mem_cons.mp member with rfl | later
      · obtain ⟨k, rfl⟩ := aligned
        have small : base + PAGESIZE * k < 0x10000000000000000 :=
          (Nat.add_lt_add_left below base).trans range
        have page : k ≤ (length - 1) / PAGESIZE := by
          rw [Nat.le_div_iff_mul_le page_pos, Nat.mul_comm]
          exact Nat.le_sub_one_of_lt below
        rw [Nat.mod_eq_of_lt small, Nat.mul_comm, page_add]
        exact ⟨by omega, Nat.add_le_add_left page _⟩
      · have next : PAGESIZE ∣ (j + PAGESIZE) % 0x10000000000000000 := by
          have pages : PAGESIZE ∣ 0x10000000000000000 := by
            rw [PAGESIZE]
            decide
          exact (Nat.dvd_mod_iff pages).mpr ((Nat.dvd_add_right aligned).mpr (dvd_refl PAGESIZE))
        exact ih next later
    next => cases member

private theorem last_mem_clearedBits {base length : Nat}
    (range : base + length < 0x10000000000000000)
    {last : Nat} (below : last * PAGESIZE < length) {fuel k : Nat} (le : k ≤ last)
    (enough : last < k + fuel) :
    base / PAGESIZE + last ∈ clearedBits base length fuel (k * PAGESIZE) := by
  induction fuel generalizing k with
  | zero => omega
  | succ fuel ih =>
    have here : k * PAGESIZE < length := lt_of_le_of_lt (Nat.mul_le_mul_right _ le) below
    rw [clearedBits, if_pos here]
    by_cases same : k = last
    · have small : base + k * PAGESIZE < 0x10000000000000000 :=
        (Nat.add_lt_add_left here base).trans range
      rw [Nat.mod_eq_of_lt small, page_add, same]
      exact List.mem_cons_self
    · have more : (k + 1) * PAGESIZE ≤ last * PAGESIZE := Nat.mul_le_mul_right _ (by omega)
      have small : (k + 1) * PAGESIZE < 0x10000000000000000 := by omega
      have next : (k * PAGESIZE + PAGESIZE) % 0x10000000000000000 = (k + 1) * PAGESIZE := by
        rw [← Nat.succ_mul, Nat.mod_eq_of_lt small]
      rw [next]
      exact List.mem_cons_of_mem _ (ih (by omega) (by omega))

end Touched

def initResp (highestAddr : Nat) (resp : List MemmapEntry) : List MemmapEntry :=
  match carveBitmap (pageAlignUp (highestUsable highestAddr resp / PAGESIZE / 8)) resp with
  | none => resp
  | some (_, resp) => resp

/-- The bit of frame `i` is in the bytes reserved for the bitmap. -/
def Reserved (s : PhysState) (i : Nat) : Prop := s.bitmapBase.isSome ∧ i < 8 * s.bitmapSize

/-- No access falls outside the bitmap: neither one of start-up nor, whatever the bitmap
holds by then, one of a later search. -/
structure BitmapCovers (highestAddr : Nat) (s : PhysState) (resp : List MemmapEntry) : Prop where
  cleared : ∀ i ∈ populateBits (initResp highestAddr resp),
    Reserved (mmInitBitmap highestAddr s resp) i
  searched : ∀ bitmap count, ∀ i ∈ allocBits { mmInitBitmap highestAddr s resp with bitmap } count,
    i < (mmInitBitmap highestAddr s resp).highestFrameIdx →
    Reserved (mmInitBitmap highestAddr s resp) i

/-- Some usable entry has room for the bitmap, and the size is not cut by its first
rounding alone: where `highestFrameIdx / 8` is a multiple of PAGESIZE already, the division
has no remainder and no usable entry reaches into frame highestFrameIdx. -/
structure SizeCovers (resp : List MemmapEntry) : Prop where
  room : usableTop resp / PAGESIZE = 0 ∨
    ∃ e ∈ resp, e.Usable ∧ pageAlignUp (usableTop resp / PAGESIZE / 8) ≤ e.length
  rounded : usableTop resp / PAGESIZE / 8 % PAGESIZE = 0 → usableTop resp / PAGESIZE % 8 = 0 ∧
    ∀ e ∈ resp, e.Usable → 0 < e.length → lastFrame e ≠ usableTop resp / PAGESIZE

section Covers

variable {highestAddr : Nat} {s : PhysState} {resp : List MemmapEntry}

private theorem mmInitBitmap_resp (highestAddr : Nat) (s : PhysState) (resp : List MemmapEntry) :
    ∃ s1 : PhysState, mmInitBitmap highestAddr s resp =
        mmPopulateBitmap s1 (initResp highestAddr resp) ∧
      s1.bitmapBase =
        match carveBitmap (pageAlignUp (highestUsable highestAddr resp / PAGESIZE / 8)) resp with
        | none => s.bitmapBase
        | some (base, _) => some base := by
  unfold mmInitBitmap initResp mmAllocBitmap
  simp only
  cases carveBitmap (pageAlignUp (highestUsable highestAddr resp / PAGESIZE / 8)) resp with
  | none => exact ⟨_, rfl, rfl⟩
  | some found => exact ⟨_, rfl, rfl⟩

private theorem base_isSome (cold : s.bitmapBase = none) :
    (mmInitBitmap highestAddr s resp).bitmapBase.isSome ↔
      ∃ e ∈ resp, e.Usable ∧
        pageAlignUp (highestUsable highestAddr resp / PAGESIZE / 8) ≤ e.length := by
  obtain ⟨s1, call, base⟩ := mmInitBitmap_resp highestAddr s resp
  rw [call, (mmPopulateBitmap_frame s1 _).2.1, base]
  constructor
  · intro found
    generalize carve : carveBitmap (pageAlignUp (highestUsable highestAddr resp / PAGESIZE / 8))
      resp = result at found
    cases result with
    | none =>
      rw [cold] at found
      cases found
    | some pair =>
      obtain ⟨_, e, _, split, large, _⟩ := carveBitmap_spec carve
      have member : e ∈ resp := by
        rw [split]
        exact List.mem_append_right _ List.mem_cons_self
      exact ⟨e, member, by simpa using List.find?_some large⟩
  · intro large
    obtain ⟨pair, carve⟩ := Option.isSome_iff_exists.mp (carveBitmap_isSome large)
    rw [carve]
    rfl

theorem initResp_cases (highestAddr : Nat) (resp : List MemmapEntry) :
    initResp highestAddr resp = resp ∨ ∃ before e rest n, resp = before ++ e :: rest ∧ e.Usable ∧
      n * PAGESIZE ≤ e.length ∧ initResp highestAddr resp = before ++ { e with
        length := e.length - n * PAGESIZE
        base := (e.base + n * PAGESIZE) % 0x10000000000000000 } :: rest := by
  unfold initResp
  generalize carve : carveBitmap (pageAlignUp (highestUsable highestAddr resp / PAGESIZE / 8))
    resp = result
  cases result with
  | none => exact Or.inl rfl
  | some pair =>
    right
    obtain ⟨n, pages⟩ : ∃ n, pageAlignUp (highestUsable highestAddr resp / PAGESIZE / 8) =
        n * PAGESIZE := by
      rw [PAGESIZE]
      exact ⟨_, pageAlignUp_multiple _⟩
    rw [pages] at carve
    obtain ⟨before, e, rest, split, large, _, after⟩ := carveBitmap_spec carve
    obtain ⟨usable, fits⟩ : e.Usable ∧ n * PAGESIZE ≤ e.length := by
      simpa using List.find?_some large
    exact ⟨before, e, rest, n, split, usable, fits, after⟩

private theorem carved_last (e : MemmapEntry) {n : Nat} (fits : n * PAGESIZE < e.length) :
    (e.base + n * PAGESIZE) / PAGESIZE + (e.length - n * PAGESIZE - 1) / PAGESIZE =
      lastFrame e := by
  have rest : e.length - n * PAGESIZE - 1 + n * PAGESIZE = e.length - 1 := by omega
  rw [lastFrame, page_add, ← rest, page_add]
  omega

private theorem initResp_lastFrame (ranges : PhysicalRanges resp) {e' : MemmapEntry}
    (member : e' ∈ initResp highestAddr resp) (usable : e'.Usable) :
    e'.base + e'.length < 0x10000000000000000 ∧
      (0 < e'.length → ∃ e ∈ resp, e.Usable ∧ 0 < e.length ∧ lastFrame e' = lastFrame e) := by
  have old : e' ∈ resp → e'.base + e'.length < 0x10000000000000000 ∧
      (0 < e'.length → ∃ e ∈ resp, e.Usable ∧ 0 < e.length ∧ lastFrame e' = lastFrame e) :=
    fun here => ⟨ranges e' here usable, fun positive => ⟨e', here, usable, positive, rfl⟩⟩
  rcases initResp_cases highestAddr resp with same | ⟨before, e, rest, n, split, kind, fits, after⟩
  · exact old (same ▸ member)
  · have here : e ∈ resp := by
      rw [split]
      exact List.mem_append_right _ List.mem_cons_self
    rw [after] at member
    rcases List.mem_append.mp member with low | member
    · apply old
      rw [split]
      exact List.mem_append_left _ low
    · rcases List.mem_cons.mp member with rfl | high
      · have range := ranges e here kind
        have small : e.base + n * PAGESIZE < 0x10000000000000000 := by omega
        simp only [Nat.mod_eq_of_lt small]
        refine ⟨by omega, fun positive => ⟨e, here, kind, by omega, ?_⟩⟩
        exact carved_last e (by omega)
      · apply old
        rw [split]
        exact List.mem_append_right _ (List.mem_cons_of_mem _ high)

private theorem lastFrame_populate (ranges : PhysicalRanges resp) {e : MemmapEntry}
    (member : e ∈ initResp highestAddr resp) (usable : e.Usable) (positive : 0 < e.length) :
    lastFrame e ∈ populateBits (initResp highestAddr resp) := by
  refine List.mem_flatMap.mpr ⟨e, member, ?_⟩
  have kind : ¬e.type ≠ LIMINE_MEMMAP_USABLE := not_not.mpr usable
  have inside : (e.length - 1) / PAGESIZE * PAGESIZE < e.length :=
    lt_of_le_of_lt (Nat.div_mul_le_self _ _) (by omega)
  have few : (e.length - 1) / PAGESIZE < 0 + e.length :=
    lt_of_le_of_lt (Nat.div_le_self _ _) (by omega)
  have last := last_mem_clearedBits (initResp_lastFrame ranges member usable).1 inside
    (Nat.zero_le _) few
  rw [Nat.zero_mul] at last
  rw [if_neg kind]
  exact last

private theorem lastFrame_cleared (ranges : PhysicalRanges resp) {e : MemmapEntry}
    (member : e ∈ resp) (usable : e.Usable) (positive : 0 < e.length) :
    lastFrame e ∈ populateBits (initResp highestAddr resp) ∨
      lastFrame e < usableTop resp / PAGESIZE := by
  rcases initResp_cases highestAddr resp with same | ⟨before, f, rest, n, split, kind, fits, after⟩
  · exact Or.inl (lastFrame_populate ranges (same.symm ▸ member) usable positive)
  · rw [split] at member
    have kept : e ∈ before ∨ e ∈ rest →
        lastFrame e ∈ populateBits (initResp highestAddr resp) := by
      intro place
      apply lastFrame_populate ranges _ usable positive
      rw [after]
      rcases place with low | high
      · exact List.mem_append_left _ low
      · exact List.mem_append_right _ (List.mem_cons_of_mem _ high)
    rcases List.mem_append.mp member with low | member
    · exact Or.inl (kept (Or.inl low))
    · rcases List.mem_cons.mp member with rfl | high
      · have here : e ∈ resp := by
          rw [split]
          exact List.mem_append_right _ List.mem_cons_self
        have range := ranges e here usable
        have small : e.base + n * PAGESIZE < 0x10000000000000000 := by omega
        by_cases whole : e.length = n * PAGESIZE
        · right
          have top : (e.base + n * PAGESIZE) / PAGESIZE ≤ usableTop resp / PAGESIZE :=
            Nat.div_le_div_right (whole ▸ le_usableTop here usable)
          rw [page_add] at top
          have last : (e.length - 1) / PAGESIZE < n := by
            rw [Nat.div_lt_iff_lt_mul page_pos, whole]
            omega
          rw [lastFrame]
          omega
        · left
          let e' : MemmapEntry := { e with
            length := e.length - n * PAGESIZE
            base := (e.base + n * PAGESIZE) % 0x10000000000000000 }
          have here' : e' ∈ initResp highestAddr resp := by
            rw [after]
            exact List.mem_append_right _ List.mem_cons_self
          have same : lastFrame e' = lastFrame e := by
            simp only [lastFrame, e', Nat.mod_eq_of_lt small]
            exact carved_last e (by omega)
          rw [← same]
          exact lastFrame_populate ranges here' usable (by simp only [e']; omega)
      · exact Or.inl (kept (Or.inr high))

private theorem size_covers {highest : Nat} (word : highest < 0x10000000000000) :
    (highest / 8 % PAGESIZE = 0 → 8 * pageAlignUp (highest / 8) = highest - highest % 8) ∧
    (highest / 8 % PAGESIZE ≠ 0 → highest < 8 * pageAlignUp (highest / 8)) := by
  rw [pageAlignUp_eq (by omega), PAGESIZE]
  constructor <;> intro h <;> omega

private theorem lastFrame_le_top {e : MemmapEntry} (member : e ∈ resp) (usable : e.Usable)
    (positive : 0 < e.length) : lastFrame e ≤ usableTop resp / PAGESIZE := by
  have inside : e.base + (e.length - 1) / PAGESIZE * PAGESIZE ≤ usableTop resp := by
    have whole := le_usableTop member usable
    have part := Nat.div_mul_le_self (e.length - 1) PAGESIZE
    omega
  rw [lastFrame, ← page_add]
  exact Nat.div_le_div_right inside

/-- No bitmap access is out of bounds exactly if the roundings of the size lose nothing
and some entry has room for the bitmap. -/
theorem bitmap_covers_iff (ranges : PhysicalRanges resp) (low : highestAddr ≤ usableTop resp)
    (cold : s.bitmapBase = none) : BitmapCovers highestAddr s resp ↔ SizeCovers resp := by
  have frames : highestUsable highestAddr resp / PAGESIZE = usableTop resp / PAGESIZE := by
    rw [highestUsable_eq highestAddr ranges, max_eq_right low]
  obtain ⟨highest, size⟩ := mmInitBitmap_sizes highestAddr s resp
  have base := @base_isSome highestAddr s resp cold
  rw [frames] at highest size base
  have few : usableTop resp / PAGESIZE < 0x10000000000000 := by
    have := usableTop_lt ranges
    rw [PAGESIZE]
    omega
  obtain ⟨exact_size, roomy⟩ := size_covers few
  constructor
  · intro covers
    have reserved : ∀ i < usableTop resp / PAGESIZE,
        Reserved (mmInitBitmap highestAddr s resp) i := by
      intro i below
      have full : ∀ f, testBit (fun _ => 0xFF) f = true := fun f => testBit_full rfl
      refine covers.searched (fun _ => 0xFF) 1 i ?_ (highest ▸ below)
      apply mem_allocBits
      simp only [testedBits_full full, highest, List.mem_range'_1]
      omega
    constructor
    · rcases Nat.eq_zero_or_pos (usableTop resp / PAGESIZE) with zero | positive
      · exact Or.inl zero
      · exact Or.inr (base.mp (reserved 0 positive).1)
    · intro multiple
      have bits := exact_size multiple
      have whole : usableTop resp / PAGESIZE % 8 = 0 := by
        by_contra rest
        have last := (reserved (usableTop resp / PAGESIZE - 1) (by omega)).2
        rw [size, bits] at last
        omega
      refine ⟨whole, fun e member usable positive same => ?_⟩
      rcases @lastFrame_cleared highestAddr resp ranges e member usable positive with
        touched | below
      · have inside := (covers.cleared _ touched).2
        rw [size, bits, same] at inside
        omega
      · omega
  · rintro ⟨room, rounded⟩
    have enough : usableTop resp / PAGESIZE ≤ 8 * pageAlignUp (usableTop resp / PAGESIZE / 8) := by
      by_cases multiple : usableTop resp / PAGESIZE / 8 % PAGESIZE = 0
      · have := (rounded multiple).1
        rw [exact_size multiple]
        omega
      · exact (roomy multiple).le
    constructor
    · intro i touched
      obtain ⟨e', member', inside⟩ := List.mem_flatMap.mp touched
      split at inside
      next => cases inside
      next kind =>
        obtain ⟨range, from_map⟩ := initResp_lastFrame ranges member' (not_not.mp kind)
        obtain ⟨positive', upto⟩ := clearedBits_le range (dvd_zero PAGESIZE) inside
        obtain ⟨e, member, usable, positive, same⟩ := from_map positive'
        have top := lastFrame_le_top member usable positive
        have upto : i ≤ lastFrame e := same ▸ upto
        have bits : lastFrame e < 8 * pageAlignUp (usableTop resp / PAGESIZE / 8) := by
          by_cases multiple : usableTop resp / PAGESIZE / 8 % PAGESIZE = 0
          · obtain ⟨_, other⟩ := rounded multiple
            have := other e member usable positive
            omega
          · have := roomy multiple
            omega
        have large : ∃ e ∈ resp, e.Usable ∧
            pageAlignUp (usableTop resp / PAGESIZE / 8) ≤ e.length := by
          rcases room with zero | large
          · rw [zero, Nat.zero_div, pageAlignUp_eq (by norm_num)]
            exact ⟨e, member, usable, Nat.zero_le _⟩
          · exact large
        exact ⟨base.mpr large, by rw [size]; omega⟩
    · intro bitmap count i _ below
      rw [highest] at below
      have large := room.resolve_left (by omega)
      exact ⟨base.mpr large, by rw [size]; omega⟩

theorem bitmap_covers_iff_lowMap : BitmapCovers 0 coldState lowMap := by
  refine (bitmap_covers_iff lowMap_ranges (Nat.zero_le _) rfl).mpr ⟨?_, ?_⟩
  · exact Or.inr ⟨⟨0x1000, 0x3000, 0⟩, by decide, by decide, by decide +kernel⟩
  · decide +kernel

/-- 128 MiB of memory and one page: the page of the bitmap has no bit for the last frame. -/
theorem last_frame_uncovered : ¬BitmapCovers 0 coldState [⟨0x1000, 0x8000000, 0⟩] := by
  intro covers
  obtain ⟨highest, size⟩ := mmInitBitmap_sizes 0 coldState [⟨0x1000, 0x8000000, 0⟩]
  have top : highestUsable 0 [⟨0x1000, 0x8000000, 0⟩] / PAGESIZE = 32769 := by decide +kernel
  have bytes : pageAlignUp (32769 / 8) = 4096 := by decide +kernel
  rw [top] at highest size
  have full : ∀ f, testBit (fun _ => 0xFF) f = true := fun f => testBit_full rfl
  have last : 32768 ∈ allocBits { mmInitBitmap 0 coldState [⟨0x1000, 0x8000000, 0⟩] with
      bitmap := fun _ => 0xFF } 1 := by
    apply mem_allocBits
    simp only [testedBits_full full, highest, List.mem_range'_1]
    omega
  have inside := (covers.searched _ 1 32768 last (by rw [highest]; decide)).2
  rw [size, bytes] at inside
  exact absurd inside (by decide)

end Covers

end Algae.Mm.PhysCover
