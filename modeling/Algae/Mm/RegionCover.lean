/- Which bytes of a region mmMapPages covers: it rounds the count up and both bases down. -/

import Algae.Mm.MapAtomic

set_option autoImplicit false
set_option relaxedAutoImplicit false

namespace Algae.Mm.RegionCover

open Algae.Lib.ByteMemory
open Algae.Mm.Phys (PhysState)
open Algae.Sdk.Defs Algae.Mm.Frames Algae.Mm.Heap Algae.Mm.Page Algae.Mm.MapAtomic
open Algae.Platform.Mmu Algae.Platform.PageTables Algae.Platform.AddressSpaces
  Algae.Platform.LargePages

def physAddr (m : Mem) (cr3 virtAddr : BitVec 64) : Option Nat :=
  (translate m cr3 virtAddr).map fun t => t.phys + virtAddr.toNat % 4096

/-- A region that a caller may ask for: not empty, with both bases at one offset in their pages,
in the lower half. -/
structure LowerRegion (region : MmRegion) : Prop where
  bytes : 1 ≤ region.byteCount.toNat
  offset : region.vBase.toNat % PAGESIZE = region.pBase.toNat % PAGESIZE
  virt : region.vBase.toNat + region.byteCount.toNat ≤ 0x800000000000
  phys : region.pBase.toNat < 0x800000000000

/-- Every byte of the region, as the caller passed it, translates to its place. -/
def Covered (m : Mem) (cr3 : BitVec 64) (region : MmRegion) : Prop :=
  ∀ k < region.byteCount.toNat,
    physAddr m cr3 (region.vBase + BitVec.ofNat 64 k) = some (region.pBase.toNat + k)

def LastCovered (m : Mem) (cr3 : BitVec 64) (region : MmRegion) : Prop :=
  physAddr m cr3 (region.vBase + BitVec.ofNat 64 (region.byteCount.toNat - 1)) =
    some (region.pBase.toNat + (region.byteCount.toNat - 1))

section Regions

variable {region : MmRegion}

theorem LowerRegion.aligned (lower : LowerRegion region) :
    region.aligned.vBase.toNat = region.vBase.toNat / 4096 * 4096 ∧
    region.aligned.pBase.toNat = region.pBase.toNat / 4096 * 4096 ∧
    region.aligned.byteCount.toNat = region.aligned.pages * 4096 ∧
    region.aligned.pages = (region.byteCount.toNat + 4095) / 4096 := by
  have few := lower.virt
  have count : region.aligned.byteCount.toNat = (region.byteCount.toNat + 4095) / 4096 * 4096 := by
    rw [MmRegion.aligned]
    simp only [PAGESIZE]
    rw [alignUp_page (by norm_num), Nat.mod_eq_of_lt (by norm_num; omega)]
  have pages : region.aligned.pages = (region.byteCount.toNat + 4095) / 4096 := by
    rw [MmRegion.pages, count, PAGESIZE, Nat.mul_div_cancel _ (by norm_num)]
  exact ⟨alignDown_toNat _, alignDown_toNat _, by rw [count, pages], pages⟩

theorem LowerRegion.byte (lower : LowerRegion region) {k : Nat}
    (inside : k < region.byteCount.toNat) :
    Lower (region.vBase + BitVec.ofNat 64 k) ∧
    (region.vBase + BitVec.ofNat 64 k).toNat = region.vBase.toNat + k ∧
    pageOf (region.vBase + BitVec.ofNat 64 k) =
      pageOf region.aligned.vBase + (region.vBase.toNat % 4096 + k) / 4096 := by
  have few := lower.virt
  have value : (region.vBase + BitVec.ofNat 64 k).toNat = region.vBase.toNat + k := by
    rw [BitVec.toNat_add, BitVec.toNat_ofNat]
    norm_num
    omega
  refine ⟨?_, value, ?_⟩
  · rw [Lower, value]
    omega
  · rw [pageOf, pageOf, value, lower.aligned.1]
    omega

private theorem translate_page {m : Mem} {cr3 w v : BitVec 64} (same : virtPage w = virtPage v) :
    translate m cr3 w = translate m cr3 v :=
  walk_page same _ _ _

end Regions

section Calls

variable {σ : Type} {src : FrameSource σ} {base : Mem} {boot : Nat} {roots : Set Nat} {s : σ}

private theorem mmMapPages_aligned {first second : MmRegion} (same : first.aligned = second.aligned)
    (vas : Option MmuVas) (prot : Nat) (s : σ) :
    mmMapPages src vas (some first) prot s = mmMapPages src vas (some second) prot s := by
  simp only [mmMapPages, same]

private theorem mmMapPages_leaves (inv : Spaces src base boot roots s) {r : Nat} (hr : r ∈ roots)
    {region : MmRegion} (lower : LowerRegion region) (prot : Nat) (res : BitVec 64 × σ)
    (call : res = mmMapPages src (some ⟨BitVec.ofNat 64 r⟩) (some region) prot s)
    (returned : res.1 ≠ 0) :
    Spaces src base boot roots res.2 ∧
    LeavesMapped roots r region.aligned prot 0 region.aligned.pages (src.mem s)
      (src.mem res.2) := by
  obtain ⟨vBase, _, _, pages⟩ := lower.aligned
  have fits :
      region.aligned.vBase.toNat + (0 + region.aligned.pages) * PAGESIZE ≤ 0x800000000000 := by
    have few := lower.virt
    rw [vBase, pages, PAGESIZE]
    omega
  obtain ⟨k, _, inv', success, _, mapped⟩ := mapLoop_spec hr region.aligned prot _ 0 inv fits _ rfl
  rw [Nat.zero_mul] at inv' success mapped
  rw [mmMapPages] at call
  simp only at call
  split at call
  · rw [call] at returned
    exact absurd rfl returned
  · rename_i done
    rw [call]
    rw [success.mp (not_not.mp done), Nat.zero_add] at mapped
    exact ⟨inv', mapped⟩

private theorem byte_mapped (inv : Spaces src base boot roots s) {r : Nat}
    (hr : r ∈ roots) {region : MmRegion} (lower : LowerRegion region) {prot : Nat} {m : Mem}
    (mapped : LeavesMapped roots r region.aligned prot 0 region.aligned.pages m (src.mem s))
    {k : Nat} (inside : k < region.byteCount.toNat)
    (page : (region.vBase.toNat % 4096 + k) / 4096 < region.aligned.pages) :
    physAddr (src.mem s) (BitVec.ofNat 64 r) (region.vBase + BitVec.ofNat 64 k) =
      some (region.pBase.toNat + k) := by
  obtain ⟨_, pBase, _, pages⟩ := lower.aligned
  obtain ⟨low, value, number⟩ := lower.byte inside
  have few := lower.virt
  have phys := lower.phys
  have offset := lower.offset
  rw [PAGESIZE] at offset
  have frame : (region.aligned.pBase + BitVec.ofNat 64
      ((region.vBase.toNat % 4096 + k) / 4096 * PAGESIZE)).toNat =
        region.pBase.toNat / 4096 * 4096 + (region.vBase.toNat % 4096 + k) / 4096 * 4096 := by
    rw [BitVec.toNat_add, BitVec.toNat_ofNat, pBase, PAGESIZE]
    norm_num
    omega
  have leaf := mapped r hr _ low
  rw [if_pos ⟨rfl, by omega, by omega⟩, number, Nat.add_sub_cancel_left] at leaf
  rw [physAddr, inv.translate_lower low hr, leaf, leafTranslation_leafFor (by rw [frame]; omega),
    frame, Option.map_some, value]
  refine congrArg some ?_
  change (region.pBase.toNat / 4096 * 4096 + (region.vBase.toNat % 4096 + k) / 4096 * 4096) /
    4096 * 4096 +
    (region.vBase.toNat + k) % 4096 = region.pBase.toNat + k
  omega

private theorem byte_kept {s' : σ} (inv : Spaces src base boot roots s)
    (inv' : Spaces src base boot roots s') {r : Nat}
    (hr : r ∈ roots) {region : MmRegion} (lower : LowerRegion region) {prot : Nat}
    (mapped : LeavesMapped roots r region.aligned prot 0 region.aligned.pages
    (src.mem s) (src.mem s')) {k : Nat} (inside : k < region.byteCount.toNat)
    (page : region.aligned.pages ≤ (region.vBase.toNat % 4096 + k) / 4096) :
    physAddr (src.mem s') (BitVec.ofNat 64 r) (region.vBase + BitVec.ofNat 64 k) =
      physAddr (src.mem s) (BitVec.ofNat 64 r) (region.vBase + BitVec.ofNat 64 k) := by
  obtain ⟨low, _, number⟩ := lower.byte inside
  have leaf := mapped r hr _ low
  rw [if_neg (by omega)] at leaf
  rw [physAddr, physAddr, inv'.translate_lower low hr, inv.translate_lower low hr, leaf]

private theorem covered_iff (inv : Spaces src base boot roots s) {r : Nat}
    (hr : r ∈ roots) {region : MmRegion}
    (lower : LowerRegion region) (prot : Nat) (res : BitVec 64 × σ)
    (call : res = mmMapPages src (some ⟨BitVec.ofNat 64 r⟩) (some region) prot s)
    (returned : res.1 ≠ 0) :
    Covered (src.mem res.2) (BitVec.ofNat 64 r) region ↔
      region.vBase.toNat % PAGESIZE + region.byteCount.toNat ≤ region.aligned.byteCount.toNat ∨
      LastCovered (src.mem s) (BitVec.ofNat 64 r) region := by
  obtain ⟨inv', mapped⟩ := mmMapPages_leaves inv hr lower prot res call returned
  obtain ⟨_, _, count, pages⟩ := lower.aligned
  have bytes := lower.bytes
  rw [count, PAGESIZE]
  by_cases fits : region.vBase.toNat % 4096 + region.byteCount.toNat ≤ region.aligned.pages * 4096
  · refine iff_of_true (fun k inside => ?_) (Or.inl fits)
    exact byte_mapped inv' hr lower mapped inside (by omega)
  · -- one page is left over
    have last :=
      byte_kept inv inv' hr lower mapped (show region.byteCount.toNat - 1 < _ by omega) (by omega)
    rw [or_iff_right fits, LastCovered, ← last]
    constructor
    · exact fun covered => covered _ (by omega)
    · intro there k inside
      by_cases page : (region.vBase.toNat % 4096 + k) / 4096 < region.aligned.pages
      · exact byte_mapped inv' hr lower mapped inside page
      · obtain ⟨_, value, _⟩ := lower.byte inside
        obtain ⟨_, value_last, _⟩ := lower.byte (show region.byteCount.toNat - 1 < _ by omega)
        have same : virtPage (region.vBase + BitVec.ofNat 64 k) =
            virtPage (region.vBase + BitVec.ofNat 64 (region.byteCount.toNat - 1)) := by
          rw [virtPage, virtPage, value, value_last]
          omega
        obtain ⟨t, found, place⟩ := Option.map_eq_some_iff.mp there
        rw [physAddr, translate_page same, found, Option.map_some, value]
        rw [value_last] at place
        congr 1
        omega

/-- In every run, for every region in the lower half that is mapped with success. -/
theorem region_covered_iff {c : σ} (page : IsPage boot)
    (fresh : ∀ t, Shared (src.mem c) boot t → src.held c (t / PAGESIZE))
    (run : SpaceRun src boot c s roots)
    {r : Nat} (hr : r ∈ roots) {region : MmRegion} (lower : LowerRegion region) (prot : Nat)
    (returned : (mmMapPages src (some ⟨BitVec.ofNat 64 r⟩) (some region) prot s).1 ≠ 0) :
    Covered (src.mem (mmMapPages src (some ⟨BitVec.ofNat 64 r⟩) (some region) prot s).2)
      (BitVec.ofNat 64 r)
        region ↔
      region.vBase.toNat % PAGESIZE + region.byteCount.toNat ≤ region.aligned.byteCount.toNat ∨
      LastCovered (src.mem s) (BitVec.ofNat 64 r) region :=
  covered_iff (space_run_inv page fresh run) hr lower prot _ rfl returned

end Calls

section Images

def firstSpace : {s : PhysState // Ready s} := (mmuCreateVas bitmapSource 0 eightFramesReady).2.2

private theorem firstSpace_run : SpaceRun bitmapSource 0 eightFramesReady firstSpace {0x1000} :=
  first_space eightFrames_made

def twoBytes : MmRegion := ⟨0x5FFF, 0x400FFF, 2⟩

private theorem twoBytes_lower : LowerRegion twoBytes :=
    ⟨by decide, by rw [PAGESIZE]; decide, by decide, by decide⟩

private theorem twoBytes_returned :
    (mmMapPages bitmapSource (some ⟨BitVec.ofNat 64 0x1000⟩) (some twoBytes) PAGE_READWRITE
    firstSpace).1 ≠ 0 := by
  have page :
      twoBytes.aligned = (MmRegion.mk 0x5FFF 0x400FFF (BitVec.ofNat 64 PAGESIZE)).aligned := by
    decide +kernel
  have room : 3 ≤ bitmapHeap.room firstSpace := by decide +kernel
  have inv := space_run_inv zero_page eightFrames_fresh firstSpace_run
  have mapped := @mmuMapSingle_room _ bitmapHeap _ _ _ _ inv _ (Set.mem_singleton _)
    (alignDown 0x400FFF (BitVec.ofNat 64 PAGESIZE)) (by rw [PAGESIZE]; decide) room
  rw [mmMapPages_aligned page, mmMapPages_single]
  change (if (mmuMapSingle bitmapHeap.toFrameSource _ _ _ _ firstSpace).1 ≠
    .success then 0 else _) ≠ (0 : BitVec 64)
  rw [if_neg (not_not.mpr (mapped _ _)), PAGESIZE]
  decide

/-- Only the first of them is mapped. -/
theorem second_byte_uncovered : ¬Covered (bitmapSource.mem (mmMapPages bitmapSource
    (some ⟨BitVec.ofNat 64 0x1000⟩) (some twoBytes) PAGE_READWRITE firstSpace).2)
    (BitVec.ofNat 64 0x1000)
    twoBytes := by
  rw [covered_iff (space_run_inv zero_page eightFrames_fresh firstSpace_run) (Set.mem_singleton _)
    twoBytes_lower
    PAGE_READWRITE _ rfl twoBytes_returned, PAGESIZE]
  refine not_or.mpr ⟨by decide +kernel, fun there => ?_⟩
  have unmapped := first_space_unmapped eightFrames_fresh eightFrames_made 0x401000 (by decide)
  have last :
    twoBytes.vBase + BitVec.ofNat 64 (twoBytes.byteCount.toNat - 1) = 0x401000 := by decide
  rw [LastCovered, last, physAddr, firstSpace, unmapped] at there
  cases there

def oneByte : MmRegion := ⟨0x5FFF, 0x400FFF, 1⟩

private theorem oneByte_aligned : oneByte.aligned = twoBytes.aligned := by decide +kernel

theorem region_covered_iff_byte :
    Covered (bitmapSource.mem
      (mmMapPages bitmapSource (some ⟨BitVec.ofNat 64 0x1000⟩) (some oneByte)
      PAGE_READWRITE firstSpace).2) (BitVec.ofNat 64 0x1000) oneByte :=
  (region_covered_iff zero_page eightFrames_fresh firstSpace_run (Set.mem_singleton _)
    ⟨by decide, by rw [PAGESIZE]; decide, by decide, by decide⟩ PAGE_READWRITE
    (mmMapPages_aligned oneByte_aligned _ _ _ ▸ twoBytes_returned)).mpr
    (Or.inl (by rw [PAGESIZE]; decide +kernel))

end Images

end Algae.Mm.RegionCover
