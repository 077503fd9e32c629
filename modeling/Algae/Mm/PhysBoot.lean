/- Boot-time construction of the frame bitmap from the memory map: the bitmap is
   carved out of a usable entry and the frames of usable entries are cleared. -/

import Algae.Mm.Phys

set_option autoImplicit false
set_option relaxedAutoImplicit false

namespace Algae.Mm.PhysBoot

open Algae.Lib.ByteMemory Algae.Lib.FirstFit
open Algae.Rtl.String (rtlMemset rtlMemset_eq_fill)
open Algae.Sdk.Defs Algae.Mm.Phys

structure MemmapEntry where
  base : Nat
  length : Nat
  type : Nat
  deriving DecidableEq, Repr

def LIMINE_MEMMAP_USABLE : Nat := 0

/-- The loop over the pages of a usable entry; `fuel` bounds the rounds left. -/
def clearEntry (bitmap : Bitmap) (base length : Nat) : Nat → Nat → Bitmap
  | 0, _ => bitmap
  | fuel + 1, j =>
    if j < length then
      clearEntry (clrBit bitmap ((base + j) % 0x10000000000000000 / PAGESIZE)) base length fuel
        ((j + PAGESIZE) % 0x10000000000000000)
    else
      bitmap

def populateEntry (s : PhysState) (memEntry : MemmapEntry) : PhysState :=
  if memEntry.type ≠ LIMINE_MEMMAP_USABLE then
    { s with framesUsed := (s.framesUsed + memEntry.length / PAGESIZE) % 0x10000000000000000 }
  else
    { s with
      bitmapFreeStart :=
        if s.bitmapFreeStart = 0 then memEntry.base / PAGESIZE else s.bitmapFreeStart
      bitmap := clearEntry s.bitmap memEntry.base memEntry.length memEntry.length 0
      framesFree := (s.framesFree + memEntry.length / PAGESIZE) % 0x10000000000000000 }

def mmPopulateBitmap (s : PhysState) (resp : List MemmapEntry) : PhysState :=
  resp.foldl populateEntry s

/-- The first usable entry of at least `bitmapSize` bytes gives its first bytes
to the bitmap: its base, and the map with the entry shortened. -/
def carveBitmap (bitmapSize : Nat) : List MemmapEntry → Option (Nat × List MemmapEntry)
  | [] => none
  | memEntry :: rest =>
    if memEntry.type ≠ LIMINE_MEMMAP_USABLE then
      (carveBitmap bitmapSize rest).map fun found => (found.1, memEntry :: found.2)
    else if memEntry.length ≥ bitmapSize then
      some (memEntry.base, { memEntry with
        length := memEntry.length - bitmapSize
        base := (memEntry.base + bitmapSize) % 0x10000000000000000 } :: rest)
    else
      (carveBitmap bitmapSize rest).map fun found => (found.1, memEntry :: found.2)

/-- The bitmap takes over the bytes found at its base; without a large enough
entry the pointer stays NULL. -/
def mmAllocBitmap (s : PhysState) (resp : List MemmapEntry) : PhysState × List MemmapEntry :=
  match carveBitmap s.bitmapSize resp with
  | none => (s, resp)
  | some (base, resp) =>
    ({ s with
      bitmapBase := some base
      bitmap := rtlMemset (fun i => s.mem (base + i)) 0 0xFF s.bitmapSize }, resp)

/-- `highestAddr` is an uninitialised local: its first value is a parameter. -/
def highestUsable (highestAddr : Nat) (resp : List MemmapEntry) : Nat :=
  resp.foldl (fun highestAddr memEntry =>
    if memEntry.type ≠ LIMINE_MEMMAP_USABLE then highestAddr
    else max highestAddr ((memEntry.base + memEntry.length) % 0x10000000000000000)) highestAddr

def mmInitBitmap (highestAddr : Nat) (s : PhysState) (resp : List MemmapEntry) : PhysState :=
  let highestFrameIdx := highestUsable highestAddr resp / PAGESIZE
  let bitmapSize := pageAlignUp (highestFrameIdx / 8)
  let (s, resp) := mmAllocBitmap
    { s with highestFrameIdx := highestFrameIdx, bitmapSize := bitmapSize } resp
  mmPopulateBitmap s resp

/-! What the loader promises about the map. -/

def MemmapEntry.Usable (e : MemmapEntry) : Prop := e.type = LIMINE_MEMMAP_USABLE

instance (e : MemmapEntry) : Decidable e.Usable := inferInstanceAs (Decidable (e.type = _))

def MemmapEntry.frames (e : MemmapEntry) : Set Nat := span (e.base / PAGESIZE) (e.length / PAGESIZE)

structure MemmapEntry.Aligned (e : MemmapEntry) : Prop where
  base : e.base = e.base / PAGESIZE * PAGESIZE
  length : e.length = e.length / PAGESIZE * PAGESIZE
  range : e.base + e.length ≤ 0x10000000000000000
  word : e.base < 0x10000000000000000 ∧ e.length < 0x10000000000000000

/-- Usable entries are page-aligned and pairwise disjoint. -/
structure BootMap (resp : List MemmapEntry) : Prop where
  aligned : ∀ e ∈ resp, e.Usable → e.Aligned
  apart : resp.Pairwise fun e f => e.Usable → f.Usable → Disjoint e.frames f.frames

/-- The entry that gives up its first bytes: the first usable one with room for
`size` of them. -/
def firstLarge (size : Nat) (resp : List MemmapEntry) : Option MemmapEntry :=
  resp.find? fun e => decide (e.Usable ∧ size ≤ e.length)

theorem highestUsable_lt {highestAddr : Nat} (word : highestAddr < 0x10000000000000000)
    (resp : List MemmapEntry) : highestUsable highestAddr resp < 0x10000000000000000 := by
  induction resp generalizing highestAddr with
  | nil => exact word
  | cons e rest ih =>
    rw [highestUsable, List.foldl_cons]
    apply ih
    split
    · exact word
    · exact max_lt word (Nat.mod_lt _ (by norm_num))

section Clearing

theorem pages_cancel (n : Nat) : n * PAGESIZE / PAGESIZE = n := Nat.mul_div_cancel _ page_pos

private theorem page_at (b len k : Nat) (hk : k < len)
    (range : (b + len) * PAGESIZE ≤ 0x10000000000000000)
    (word : len * PAGESIZE < 0x10000000000000000) :
    (b * PAGESIZE + k * PAGESIZE) % 0x10000000000000000 / PAGESIZE = b + k ∧
      (k * PAGESIZE + PAGESIZE) % 0x10000000000000000 = (k + 1) * PAGESIZE := by
  simp only [PAGESIZE] at *
  omega

private theorem clearEntry_eq (bitmap : Bitmap) (b len : Nat) (left k fuel : Nat)
    (total : k + left = len) (enough : left ≤ fuel)
    (range : (b + len) * PAGESIZE ≤ 0x10000000000000000)
    (word : len * PAGESIZE < 0x10000000000000000) :
    clearEntry bitmap (b * PAGESIZE) (len * PAGESIZE) fuel (k * PAGESIZE) =
      clrFrames bitmap (b + k) left := by
  induction left generalizing bitmap k fuel with
  | zero =>
    obtain rfl : k = len := by omega
    cases fuel with
    | zero => rfl
    | succ fuel => rw [clearEntry, if_neg (lt_irrefl _), clrFrames]
  | succ left ih =>
    cases fuel with
    | zero => omega
    | succ fuel =>
      have below : k < len := by omega
      obtain ⟨frame, next⟩ := page_at b len k below range word
      rw [clearEntry, if_pos (Nat.mul_lt_mul_of_pos_right below page_pos), frame, next,
        ih _ (k + 1) fuel (by omega) (by omega), clrFrames, Nat.add_assoc]

theorem testBit_populateEntry (s : PhysState) {e : MemmapEntry} (aligned : e.Usable → e.Aligned)
    (f : Nat) : testBit (populateEntry s e).bitmap f = true ↔
      testBit s.bitmap f = true ∧ ¬(e.Usable ∧ f ∈ e.frames) := by
  by_cases usable : e.Usable
  · have a := aligned usable
    have pages : clearEntry s.bitmap e.base e.length e.length 0 =
        clrFrames s.bitmap (e.base / PAGESIZE) (e.length / PAGESIZE) := by
      have range : (e.base / PAGESIZE + e.length / PAGESIZE) * PAGESIZE ≤ 0x10000000000000000 := by
        rw [Nat.add_mul, ← a.base, ← a.length]
        exact a.range
      have word : e.length / PAGESIZE * PAGESIZE < 0x10000000000000000 := by
        rw [← a.length]
        exact a.word.2
      have loop := clearEntry_eq s.bitmap (e.base / PAGESIZE) (e.length / PAGESIZE)
        (e.length / PAGESIZE) 0 e.length (by omega) (Nat.div_le_self _ _) range word
      rwa [← a.base, ← a.length, Nat.zero_mul, Nat.add_zero] at loop
    have after : (populateEntry s e).bitmap =
        clrFrames s.bitmap (e.base / PAGESIZE) (e.length / PAGESIZE) := by
      have kind : ¬e.type ≠ LIMINE_MEMMAP_USABLE := not_not.mpr usable
      simp only [populateEntry, if_neg kind, pages]
    rw [after, testBit_clrFrames, Bool.and_eq_true, decide_eq_true_eq]
    simp only [usable, true_and, MemmapEntry.frames, mem_span]
    exact and_comm
  · have after : (populateEntry s e).bitmap = s.bitmap := by
      simp only [populateEntry, if_pos (show e.type ≠ LIMINE_MEMMAP_USABLE from usable)]
    simp only [after, usable, false_and, not_false_eq_true, and_true]

theorem testBit_mmPopulateBitmap (s : PhysState) {resp : List MemmapEntry}
    (aligned : ∀ e ∈ resp, e.Usable → e.Aligned) (f : Nat) :
    testBit (mmPopulateBitmap s resp).bitmap f = true ↔
      testBit s.bitmap f = true ∧ ∀ e ∈ resp, ¬(e.Usable ∧ f ∈ e.frames) := by
  induction resp generalizing s with
  | nil => simp [mmPopulateBitmap]
  | cons e rest ih =>
    have tail := ih (populateEntry s e) (fun e' h => aligned e' (List.mem_cons_of_mem _ h))
    have head := testBit_populateEntry s (aligned e List.mem_cons_self) f
    rw [mmPopulateBitmap, List.foldl_cons]
    change testBit (mmPopulateBitmap (populateEntry s e) rest).bitmap f = true ↔ _
    rw [tail, head, List.forall_mem_cons, and_assoc]

theorem mmPopulateBitmap_frame (s : PhysState) (resp : List MemmapEntry) :
    (mmPopulateBitmap s resp).bitmapSize = s.bitmapSize ∧
    (mmPopulateBitmap s resp).bitmapBase = s.bitmapBase ∧
    (mmPopulateBitmap s resp).highestFrameIdx = s.highestFrameIdx ∧
    (mmPopulateBitmap s resp).mem = s.mem := by
  induction resp generalizing s with
  | nil => exact ⟨rfl, rfl, rfl, rfl⟩
  | cons e rest ih =>
    have head : (populateEntry s e).bitmapSize = s.bitmapSize ∧
        (populateEntry s e).bitmapBase = s.bitmapBase ∧
        (populateEntry s e).highestFrameIdx = s.highestFrameIdx ∧
        (populateEntry s e).mem = s.mem := by
      unfold populateEntry
      split <;> exact ⟨rfl, rfl, rfl, rfl⟩
    obtain ⟨size, base, bound, mem⟩ := ih (populateEntry s e)
    exact ⟨size.trans head.1, base.trans head.2.1, bound.trans head.2.2.1, mem.trans head.2.2.2⟩

end Clearing

theorem carveBitmap_spec {size : Nat} {resp : List MemmapEntry} {base : Nat}
    {after : List MemmapEntry} (carved : carveBitmap size resp = some (base, after)) :
    ∃ before e rest, resp = before ++ e :: rest ∧ firstLarge size resp = some e ∧ base = e.base ∧
      after = before ++ { e with
        length := e.length - size
        base := (e.base + size) % 0x10000000000000000 } :: rest := by
  induction resp generalizing after with
  | nil => simp [carveBitmap] at carved
  | cons e rest ih =>
    have later : ∀ {after}, ¬(e.Usable ∧ size ≤ e.length) →
        (carveBitmap size rest).map (fun found => (found.1, e :: found.2)) = some (base, after) →
        ∃ before e' rest', e :: rest = before ++ e' :: rest' ∧
          firstLarge size (e :: rest) = some e' ∧ base = e'.base ∧ after = before ++ { e' with
            length := e'.length - size
            base := (e'.base + size) % 0x10000000000000000 } :: rest' := by
      intro after skipped tail
      obtain ⟨⟨b, found⟩, inner, equal⟩ := Option.map_eq_some_iff.mp tail
      obtain ⟨rfl, rfl⟩ := Prod.mk.inj equal
      obtain ⟨before, e', rest', split, first, at_base, result⟩ := ih inner
      refine ⟨e :: before, e', rest', by rw [split]; rfl, ?_, at_base, by rw [result]; rfl⟩
      rw [firstLarge, List.find?_cons_of_neg (by simpa using skipped)]
      exact first
    rw [carveBitmap] at carved
    split_ifs at carved with other large
    · exact later (fun here => other here.1) carved
    · obtain ⟨rfl, rfl⟩ := Prod.mk.inj (Option.some.inj carved)
      refine ⟨[], e, rest, rfl, ?_, rfl, rfl⟩
      rw [firstLarge, List.find?_cons_of_pos (by simpa using ⟨not_not.mp other, large⟩)]
    · exact later (fun here => large here.2) carved

theorem carveBitmap_isSome {size : Nat} {resp : List MemmapEntry}
    (large : ∃ e ∈ resp, e.Usable ∧ size ≤ e.length) : (carveBitmap size resp).isSome := by
  induction resp with
  | nil => simp at large
  | cons e rest ih =>
    rw [carveBitmap]
    by_cases here : e.Usable ∧ size ≤ e.length
    · have kind : ¬e.type ≠ LIMINE_MEMMAP_USABLE := not_not.mpr here.1
      rw [if_neg kind, if_pos here.2]
      rfl
    · obtain ⟨e', member, good⟩ := large
      have tail : (carveBitmap size rest).isSome := by
        rcases List.mem_cons.mp member with rfl | member
        · exact absurd good here
        · exact ih ⟨e', member, good⟩
      split_ifs
      · rwa [Option.isSome_map]
      · rfl
      · rwa [Option.isSome_map]

theorem carved_frames {e : MemmapEntry} (a : e.Aligned) {n : Nat}
    (fits : n * PAGESIZE ≤ e.length) :
    MemmapEntry.Aligned { e with
      length := e.length - n * PAGESIZE
      base := (e.base + n * PAGESIZE) % 0x10000000000000000 } ∧
    ∀ f, f ∈ e.frames ∧ f ∉ span (e.base / PAGESIZE) n ↔
      f ∈ MemmapEntry.frames { e with
        length := e.length - n * PAGESIZE
        base := (e.base + n * PAGESIZE) % 0x10000000000000000 } := by
  obtain ⟨b, hb⟩ : ∃ b, e.base = b * PAGESIZE := ⟨_, a.base⟩
  obtain ⟨len, hlen⟩ : ∃ len, e.length = len * PAGESIZE := ⟨_, a.length⟩
  have range := a.range
  have word := a.word.2
  rw [hb, hlen] at range
  rw [hlen] at fits word
  have short : n ≤ len := Nat.le_of_mul_le_mul_right fits page_pos
  obtain ⟨b', base, place⟩ : ∃ b', (b * PAGESIZE + n * PAGESIZE) % 0x10000000000000000 =
      b' * PAGESIZE ∧ (b' = b + n ∨ (b' = 0 ∧ len = n)) := by
    by_cases top : b * PAGESIZE + n * PAGESIZE < 0x10000000000000000
    · exact ⟨b + n, by rw [Nat.mod_eq_of_lt top, Nat.add_mul], Or.inl rfl⟩
    · refine ⟨0, ?_, Or.inr ⟨rfl, ?_⟩⟩
      · simp only [PAGESIZE] at *
        omega
      · simp only [PAGESIZE] at *
        omega
  have length : len * PAGESIZE - n * PAGESIZE = (len - n) * PAGESIZE := (Nat.sub_mul _ _ _).symm
  have shrunk : (len - n) * PAGESIZE ≤ len * PAGESIZE := Nat.mul_le_mul_right _ (Nat.sub_le _ _)
  constructor
  · refine ⟨?_, ?_, ?_, ?_⟩
    · simp only [hb, base, pages_cancel]
    · simp only [hlen, length, pages_cancel]
    · simp only [hb, hlen, base, length]
      rcases place with rfl | ⟨rfl, rfl⟩
      · rw [← Nat.add_mul]
        refine le_trans (Nat.mul_le_mul_right _ ?_) ((Nat.add_mul b len PAGESIZE).trans_le range)
        omega
      · simp
    · refine ⟨Nat.mod_lt _ (by norm_num), ?_⟩
      simp only [hlen, length]
      exact lt_of_le_of_lt shrunk word
  · intro f
    simp only [MemmapEntry.frames, hb, hlen, base, length, pages_cancel, mem_span]
    omega

private theorem carved_map {resp before rest : List MemmapEntry} {e : MemmapEntry} {n : Nat}
    (boot : BootMap resp) (split : resp = before ++ e :: rest) (usable : e.Usable)
    (fits : n * PAGESIZE ≤ e.length) {after : List MemmapEntry}
    (remains : after = before ++ { e with
      length := e.length - n * PAGESIZE
      base := (e.base + n * PAGESIZE) % 0x10000000000000000 } :: rest) :
    (∀ e' ∈ after, e'.Usable → e'.Aligned) ∧
    ∀ f, (∃ e' ∈ after, e'.Usable ∧ f ∈ e'.frames) ↔
      (∃ e' ∈ resp, e'.Usable ∧ f ∈ e'.frames) ∧ f ∉ span (e.base / PAGESIZE) n := by
  have member : e ∈ resp := by
    rw [split]
    simp
  obtain ⟨rest_aligned, rest_frames⟩ := carved_frames (boot.aligned e member usable) fits
  have others : ∀ e', e' ∈ before ∨ e' ∈ rest → e' ∈ resp ∧
      (e'.Usable → Disjoint e.frames e'.frames) := by
    have apart := boot.apart
    rw [split] at apart
    obtain ⟨_, tail, cross⟩ := List.pairwise_append.mp apart
    rintro e' (low | high)
    · refine ⟨by rw [split]; exact List.mem_append_left _ low, fun usable' => ?_⟩
      exact (cross e' low e List.mem_cons_self usable' usable).symm
    · refine ⟨by rw [split]; exact List.mem_append_right _ (List.mem_cons_of_mem _ high), ?_⟩
      exact fun usable' => (List.pairwise_cons.mp tail).1 e' high usable usable'
  have taken : span (e.base / PAGESIZE) n ⊆ e.frames := by
    intro f hf
    have count : n ≤ e.length / PAGESIZE := (Nat.le_div_iff_mul_le page_pos).mpr fits
    have := mem_span.mp hf
    exact mem_span.mpr (by omega)
  constructor
  · intro e' found usable'
    rw [remains] at found
    rcases List.mem_append.mp found with low | found
    · exact boot.aligned e' (others e' (Or.inl low)).1 usable'
    · rcases List.mem_cons.mp found with rfl | high
      · exact rest_aligned
      · exact boot.aligned e' (others e' (Or.inr high)).1 usable'
  · intro f
    constructor
    · rintro ⟨e', found, usable', inside⟩
      rw [remains] at found
      have other : e' ∈ before ∨ e' ∈ rest →
          (∃ e ∈ resp, e.Usable ∧ f ∈ e.frames) ∧ f ∉ span (e.base / PAGESIZE) n := by
        intro place
        obtain ⟨member', apart⟩ := others e' place
        exact ⟨⟨e', member', usable', inside⟩,
          fun hf => Set.disjoint_left.mp (apart usable') (taken hf) inside⟩
      rcases List.mem_append.mp found with low | found
      · exact other (Or.inl low)
      · rcases List.mem_cons.mp found with rfl | high
        · obtain ⟨whole, out⟩ := (rest_frames f).mpr inside
          exact ⟨⟨e, member, usable, whole⟩, out⟩
        · exact other (Or.inr high)
    · rintro ⟨⟨e', member', usable', inside⟩, out⟩
      rw [split] at member'
      rw [remains]
      rcases List.mem_append.mp member' with low | member'
      · exact ⟨e', List.mem_append_left _ low, usable', inside⟩
      · rcases List.mem_cons.mp member' with rfl | high
        · exact ⟨_, List.mem_append_right _ List.mem_cons_self, usable,
            (rest_frames f).mp ⟨inside, out⟩⟩
        · exact ⟨e', List.mem_append_right _ (List.mem_cons_of_mem _ high), usable', inside⟩

private theorem filled_bits (bytes : Nat → Byte) (size f : Nat) :
    testBit (rtlMemset bytes 0 0xFF size) f = false ↔ 8 * size ≤ f ∧ testBit bytes f = false := by
  have byte : f >>> 3 = f / 8 := Nat.shiftRight_eq_div_pow f 3
  rw [rtlMemset_eq_fill]
  by_cases low : f < 8 * size
  · rw [testBit_full (fill_inside _ _ (by omega))]
    simp [low]
  · have same : fill bytes 0 size 0xFF (f >>> 3) = bytes (f >>> 3) := fill_outside _ _ (by omega)
    have past : 8 * size ≤ f := by omega
    simp only [testBit, same, past, true_and]

/-- The frames of the bitmap itself, and the frames that start-up leaves free:
those of the map without the bitmap, and past the bitmap's last bit those whose
bit happens to be clear in memory. -/
theorem mmInitBitmap_bits (highestAddr : Nat) (s : PhysState) {resp : List MemmapEntry}
    (boot : BootMap resp) {highest size : Nat}
    (bound : highest = highestUsable highestAddr resp / PAGESIZE)
    (bytes : size = pageAlignUp (highest / 8))
    (large : ∃ e ∈ resp, e.Usable ∧ size ≤ e.length) :
    ∃ e, firstLarge size resp = some e ∧
      (mmInitBitmap highestAddr s resp).bitmapBase = some e.base ∧
      (mmInitBitmap highestAddr s resp).bitmapSize = size ∧
      (mmInitBitmap highestAddr s resp).highestFrameIdx = highest ∧
      ∀ f, testBit (mmInitBitmap highestAddr s resp).bitmap f = false ↔
        ((∃ e ∈ resp, e.Usable ∧ f ∈ e.frames) ∧ f ∉ span (e.base / PAGESIZE) (size / PAGESIZE)) ∨
        (8 * size ≤ f ∧ testBit (fun i => s.mem (e.base + i)) f = false) := by
  let s1 := { s with highestFrameIdx := highest, bitmapSize := size }
  obtain ⟨n, pages⟩ : ∃ n, size = n * PAGESIZE := by
    rw [PAGESIZE, bytes]
    exact ⟨_, pageAlignUp_multiple _⟩
  obtain ⟨⟨base, after⟩, carved⟩ := Option.isSome_iff_exists.mp (carveBitmap_isSome large)
  let s2 := { s1 with
    bitmapBase := some base
    bitmap := rtlMemset (fun i => s.mem (base + i)) 0 0xFF size }
  have result : mmInitBitmap highestAddr s resp = mmPopulateBitmap s2 after := by
    have taken : mmAllocBitmap s1 resp = (s2, after) := by
      simp only [mmAllocBitmap, s1]
      rw [carved]
    subst bytes bound
    change mmPopulateBitmap (mmAllocBitmap s1 resp).1 (mmAllocBitmap s1 resp).2 = _
    rw [taken]
  obtain ⟨sizes, bases, bounds, _⟩ := mmPopulateBitmap_frame s2 after
  obtain ⟨before, e, rest, split, first, rfl, remains⟩ := carveBitmap_spec carved
  obtain ⟨usable, fits⟩ : e.Usable ∧ size ≤ e.length := by
    simpa using List.find?_some first
  rw [pages] at remains
  obtain ⟨aligned, remaining⟩ := carved_map boot split usable (pages ▸ fits) remains
  have storage : size / PAGESIZE = n := by rw [pages, pages_cancel]
  refine ⟨e, first, by rw [result, bases], by rw [result, sizes], by rw [result, bounds], ?_⟩
  intro f
  have bits := testBit_mmPopulateBitmap s2 aligned f
  have full : testBit s2.bitmap f = false ↔
      8 * size ≤ f ∧ testBit (fun i => s.mem (e.base + i)) f = false := filled_bits _ size f
  rw [result, storage, ← remaining f, ← full, ← Bool.not_eq_true, bits, ← Bool.not_eq_true,
    not_and_or, or_comm]
  simp only [not_forall, not_not, exists_prop]

/-- Below eight bits for each bitmap byte, a frame is free after start-up exactly
if it lies in a usable entry of the loader's map and does not hold the bitmap. -/
theorem mmInitBitmap_clear_iff (highestAddr : Nat) (s : PhysState) {resp : List MemmapEntry}
    (boot : BootMap resp)
    (large : ∃ e ∈ resp, e.Usable ∧
      pageAlignUp (highestUsable highestAddr resp / PAGESIZE / 8) ≤ e.length) :
    ∃ base, (mmInitBitmap highestAddr s resp).bitmapBase = some base ∧
      ∀ f < 8 * (mmInitBitmap highestAddr s resp).bitmapSize,
        testBit (mmInitBitmap highestAddr s resp).bitmap f = false ↔
          (∃ e ∈ resp, e.Usable ∧ f ∈ e.frames) ∧
          f ∉ span (base / PAGESIZE) ((mmInitBitmap highestAddr s resp).bitmapSize / PAGESIZE) := by
  obtain ⟨e, _, base, size, _, bits⟩ := mmInitBitmap_bits highestAddr s boot rfl rfl large
  refine ⟨e.base, base, ?_⟩
  rw [size]
  intro f below
  rw [bits f]
  exact or_iff_left fun past => absurd past.1 (Nat.not_le.mpr below)

def lowMap : List MemmapEntry :=
  [⟨0x1000, 0x3000, 0⟩, ⟨0x4000, 0x1000, 1⟩, ⟨0x8000, 0x2000, 0⟩]

theorem lowMap_boot : BootMap lowMap where
  aligned := by
    intro e member _
    simp only [lowMap, List.mem_cons, List.not_mem_nil, or_false] at member
    rcases member with rfl | rfl | rfl <;>
      exact ⟨by decide +kernel, by decide +kernel, by decide, by decide⟩
  apart := by
    have first : (MemmapEntry.frames ⟨0x1000, 0x3000, 0⟩) = span 1 3 := by
      simp [MemmapEntry.frames, PAGESIZE]
    have third : (MemmapEntry.frames ⟨0x8000, 0x2000, 0⟩) = span 8 2 := by
      simp [MemmapEntry.frames, PAGESIZE]
    simp only [lowMap, List.pairwise_cons, List.mem_cons, List.not_mem_nil, or_false,
      forall_eq_or_imp, forall_eq, first, third, MemmapEntry.Usable, LIMINE_MEMMAP_USABLE]
    simp [Set.disjoint_left, mem_span]
    omega

def coldState : PhysState where
  bitmap := fun _ => 0
  bitmapBase := none
  bitmapSize := 0
  bitmapFreeStart := 0
  highestFrameIdx := 0
  lastIdx := 0
  framesUsed := 0
  framesFree := 0
  mem := fun _ => 0xAA

theorem mmInitBitmap_clear_iff_lowMap :
    ∃ base, (mmInitBitmap 0x9000 coldState lowMap).bitmapBase = some base ∧
      ∀ f < 8 * (mmInitBitmap 0x9000 coldState lowMap).bitmapSize,
        testBit (mmInitBitmap 0x9000 coldState lowMap).bitmap f = false ↔
          (∃ e ∈ lowMap, e.Usable ∧ f ∈ e.frames) ∧
          f ∉ span (base / PAGESIZE)
            ((mmInitBitmap 0x9000 coldState lowMap).bitmapSize / PAGESIZE) :=
  mmInitBitmap_clear_iff 0x9000 coldState lowMap_boot
    ⟨⟨0x1000, 0x3000, 0⟩, by simp [lowMap], rfl, by decide +kernel⟩

end Algae.Mm.PhysBoot
