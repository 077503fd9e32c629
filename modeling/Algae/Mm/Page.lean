/- Mapping a region page by page: how far the loop comes and what it leaves behind. -/

import Algae.Platform.TableFrames

set_option autoImplicit false
set_option relaxedAutoImplicit false

namespace Algae.Mm.Page

open Algae.Lib.ByteMemory
open Algae.Sdk.Defs Algae.Mm.Frames Algae.Mm.Heap Algae.Platform.Mmu Algae.Platform.PageTables
open Algae.Platform.AddressSpaces Algae.Platform.TableFrames

structure MmRegion where
  pBase : BitVec 64
  vBase : BitVec 64
  byteCount : BitVec 64
  deriving DecidableEq, Repr

/-- The region as mmMapPages stores it back, on page boundaries. -/
def MmRegion.aligned (region : MmRegion) : MmRegion where
  pBase := alignDown region.pBase (BitVec.ofNat 64 PAGESIZE)
  vBase := alignDown region.vBase (BitVec.ofNat 64 PAGESIZE)
  byteCount := alignUp region.byteCount (BitVec.ofNat 64 PAGESIZE)

/-- The direct map starts at `kernelBase`, on a page in the upper half, and has room for
every frame that an allocator manages. -/
structure DirectMap (kernelBase : BitVec 64) : Prop where
  aligned : kernelBase.toNat = kernelBase.toNat / PAGESIZE * PAGESIZE
  upper : 0xFFFF800000000000 ≤ kernelBase.toNat
  fits : kernelBase.toNat + 0x80000000 * PAGESIZE < 0x10000000000000000

theorem directMap_base : DirectMap 0xFFFF800000000000 := by
  refine ⟨?_, by decide, ?_⟩
  · rw [PAGESIZE]
    decide
  · rw [PAGESIZE]
    decide

def physToVirt (kernelBase pa : BitVec 64) : BitVec 64 := pa + kernelBase

def virtToPhys (kernelBase virt : BitVec 64) : BitVec 64 := virt - kernelBase

section Code

variable {σ : Type}

/-- Over any frame allocator. `flags` is not used by the source; the result 0 is NULL. -/
def mmAllocPageOver (mmAllocFrame : σ → Nat → Nat × σ) (kernelBase : BitVec 64)
    (count : Nat) (s : σ) :
    BitVec 64 × σ :=
  let (pBase, s) := mmAllocFrame s count
  if pBase = 0 then
    (0, s)
  else
    (physToVirt kernelBase (BitVec.ofNat 64 pBase), s)

variable (src : FrameSource σ)

def mmAllocPage (kernelBase : BitVec 64) (count : Nat) (s : σ) : BitVec 64 × σ :=
  mmAllocPageOver src.mmAllocFrame kernelBase count s

/-- The loop with `rounds` pages left. It gives back its variables: the status of the last
page and the offset it stopped at. -/
def mapLoop (vas : Option MmuVas) (region : MmRegion) (prot : Nat) :
    Nat → Nat → σ → NtStatus × Nat × σ
  | 0, off, s => (.success, off, s)
  | rounds + 1, off, s =>
    let (status, s) := mmuMapSingle src vas (region.vBase + BitVec.ofNat 64 off)
      (region.pBase + BitVec.ofNat 64 off) prot s
    if status ≠ .success then
      (status, off, s)
    else
      mapLoop vas region prot rounds (off + PAGESIZE) s

/-- Every page of the loop finds its page table, or the frames that it takes to make it. -/
def TablesFound (vas : Option MmuVas) (region : MmRegion) (prot : Nat) : Nat → Nat → σ → Prop
  | 0, _, _ => True
  | rounds + 1, off, s =>
    (mmuGetLevelPhys src vas
    (alignDown (region.vBase + BitVec.ofNat 64 off) (BitVec.ofNat 64 PAGESIZE))
      .pt true s).1 ≠ 0 ∧
    TablesFound vas region prot rounds (off + PAGESIZE)
      (mmuMapSingle src vas (region.vBase + BitVec.ofNat 64 off)
      (region.pBase + BitVec.ofNat 64 off) prot s).2

def MmRegion.pages (region : MmRegion) : Nat := region.byteCount.toNat / PAGESIZE

/-- `flags` is not used by the source. A NULL region is `none`; the result 0 is NULL. -/
def mmMapPages (vas : Option MmuVas) (region : Option MmRegion) (prot : Nat) (s : σ) :
    BitVec 64 × σ :=
  match region with
  | none => (0, s)
  | some region =>
    let region := region.aligned
    let (status, _, s) := mapLoop src vas region prot region.pages 0 s
    if status ≠ .success then
      (0, s)
    else
      (region.vBase, s)

end Code

section Spec

theorem mmAllocPage_refused {σ : Type} {src : FrameSource σ} {kernelBase : BitVec 64} {count : Nat}
    {s : σ} (zero : (src.mmAllocFrame s count).1 = 0) :
    mmAllocPage src kernelBase count s = (0, (src.mmAllocFrame s count).2) := by
  rw [mmAllocPage, mmAllocPageOver]
  exact if_pos zero

theorem mmAllocPage_done {σ : Type} {src : FrameSource σ} {kernelBase : BitVec 64} {count : Nat}
    {s : σ} (nonzero : (src.mmAllocFrame s count).1 ≠ 0) :
    mmAllocPage src kernelBase count s =
      (physToVirt kernelBase (BitVec.ofNat 64 (src.mmAllocFrame s count).1),
        (src.mmAllocFrame s count).2) := by
  rw [mmAllocPage, mmAllocPageOver]
  exact if_neg nonzero

theorem mmAllocPage_frames {σ : Type} {src : FrameSource σ} {kernelBase : BitVec 64} {count : Nat}
    {s : σ} : (mmAllocPage src kernelBase count s).2 = (src.mmAllocFrame s count).2 := by
  by_cases zero : (src.mmAllocFrame s count).1 = 0
  · rw [mmAllocPage_refused zero]
  · rw [mmAllocPage_done zero]

theorem mmuMapSingle_success {σ : Type} {src : FrameSource σ} {vas : MmuVas}
    {vBase pBase : BitVec 64}
    {mFlags : Nat} {s : σ} : (mmuMapSingle src (some vas) vBase pBase mFlags s).1 = .success ↔
      (mmuGetLevelPhys src (some vas) (alignDown vBase (BitVec.ofNat 64 PAGESIZE)) .pt true s).1 ≠
      0 := by
  rw [mmuMapSingle]
  simp only
  split
  · rename_i zero
    exact iff_of_false (by simp) (not_not.mpr zero)
  · rename_i nonzero
    exact iff_of_true rfl nonzero

theorem mmuMapSingle_rooted {σ : Type} {heap : FrameHeap σ} {p : Nat} {vBase pBase : BitVec 64}
    {mFlags : Nat} {s : σ} (page : IsPage p) (held : heap.held s (p / PAGESIZE))
    (absent : has (entry (heap.mem s) p (hwIndex vBase .pml4)) PTE_P = false) :
    (mmuMapSingle heap.toFrameSource (some ⟨BitVec.ofNat 64 p⟩) vBase pBase mFlags s).1 = .success ↔
      3 ≤ heap.room s := by
  rw [← hwIndex_alignDown] at absent
  have tables := descend_absent [.pdpt, .pd] .pml4 page.aligned held absent
  rw [mmuMapSingle_success]
  simp only [mmuGetLevelPhys, MapLevel.above, page.toNat]
  rw [ne_eq, tables, Nat.not_lt]
  rfl

theorem mmuMapSingle_room {σ : Type} {heap : FrameHeap σ} {base : Mem} {boot : Nat}
    {roots : Set Nat} {s : σ} (inv : Spaces heap.toFrameSource base boot roots s) {r : Nat}
    (hr : r ∈ roots) {vBase : BitVec 64}
    (lower : Lower vBase) (room : 3 ≤ heap.room s) (pBase : BitVec 64) (mFlags : Nat) :
    (mmuMapSingle heap.toFrameSource (some ⟨BitVec.ofNat 64 r⟩) vBase pBase mFlags s).1 =
    .success := by
  rw [mmuMapSingle_success]
  simp only [mmuGetLevelPhys, MapLevel.above, (inv.root_page hr).toNat]
  exact descend_room inv hr (Lower.alignDown lower) [.pml4, .pdpt, .pd] [] rfl rfl room

theorem mmMapPages_single {σ : Type} {src : FrameSource σ} (vas : MmuVas) (pBase vBase : BitVec 64)
    (prot : Nat) (s : σ) :
    mmMapPages src (some vas) (some ⟨pBase, vBase, BitVec.ofNat 64 PAGESIZE⟩) prot s =
      (if (mmuMapSingle src (some vas) (alignDown vBase (BitVec.ofNat 64 PAGESIZE))
          (alignDown pBase (BitVec.ofNat 64 PAGESIZE)) prot s).1 ≠ .success then 0
        else alignDown vBase (BitVec.ofNat 64 PAGESIZE),
       (mmuMapSingle src (some vas) (alignDown vBase (BitVec.ofNat 64 PAGESIZE))
          (alignDown pBase (BitVec.ofNat 64 PAGESIZE)) prot s).2) := by
  have one : (MmRegion.aligned ⟨pBase, vBase, BitVec.ofNat 64 PAGESIZE⟩).pages = 1 := by
    simp only [MmRegion.pages, MmRegion.aligned, PAGESIZE]
    decide
  rw [mmMapPages]
  simp only [one]
  simp only [mapLoop, MmRegion.aligned, BitVec.add_zero]
  by_cases done : (mmuMapSingle src (some vas) (alignDown vBase (BitVec.ofNat 64 PAGESIZE))
      (alignDown pBase (BitVec.ofNat 64 PAGESIZE)) prot s).1 = .success
  · simp only [done, ne_eq, not_true_eq_false, if_false]
  · simp only [done, ne_eq, not_false_eq_true, if_true]

theorem tablesFound_single {σ : Type} {src : FrameSource σ} {vas : MmuVas}
    {region : MmRegion} {prot : Nat} {s : σ} : TablesFound src (some vas) region prot 1 0 s ↔
      (mmuMapSingle src (some vas) region.vBase region.pBase prot s).1 = .success := by
  rw [TablesFound, BitVec.add_zero, mmuMapSingle_success]
  exact and_iff_left True.intro

theorem mapLoop_success_iff {σ : Type} {src : FrameSource σ} {vas : MmuVas} {region : MmRegion}
    {prot : Nat} (rounds off : Nat) (s : σ) :
    (mapLoop src (some vas) region prot rounds off s).1 = .success ↔
      TablesFound src (some vas) region prot rounds off s := by
  induction rounds generalizing off s with
  | zero => exact iff_of_true rfl trivial
  | succ rounds ih =>
    rw [mapLoop, TablesFound, ← mmuMapSingle_success, ← ih]
    simp only
    split
    · rename_i failed
      exact iff_of_false failed fun both => failed both.1
    · rename_i mapped
      exact (and_iff_right (not_not.mp mapped)).symm

theorem mapLoop_reaches {σ : Type} {src : FrameSource σ} {vas : Option MmuVas} {region : MmRegion}
    {prot : Nat} (rounds off : Nat) (s : σ)
    (success : (mapLoop src vas region prot rounds off s).1 = .success) :
    (mapLoop src vas region prot rounds off s).2.1 = off + rounds * PAGESIZE := by
  induction rounds generalizing off s with
  | zero => rw [mapLoop, Nat.zero_mul, Nat.add_zero]
  | succ rounds ih =>
    rw [mapLoop] at success ⊢
    simp only at success ⊢
    split
    · rename_i failed
      rw [if_pos failed] at success
      exact absurd success failed
    · rename_i mapped
      rw [if_neg mapped] at success
      rw [ih _ _ success]
      ring

variable {σ : Type} {src : FrameSource σ} {base : Mem} {boot : Nat} {roots : Set Nat} {s : σ}

private theorem region_page {v : BitVec 64} {j : Nat}
    (low : v.toNat + j * PAGESIZE < 0x800000000000) :
    Lower (v + BitVec.ofNat 64 (j * PAGESIZE)) ∧
      pageOf (v + BitVec.ofNat 64 (j * PAGESIZE)) = pageOf v + j := by
  have value : (v + BitVec.ofNat 64 (j * PAGESIZE)).toNat = v.toNat + j * PAGESIZE := by
    rw [BitVec.toNat_add, BitVec.toNat_ofNat]
    omega
  refine ⟨?_, ?_⟩
  · rwa [Lower, value]
  · rw [pageOf, pageOf, value, PAGESIZE]
    omega

/-- The pages `[from, to)` of the region that starts at `v` now lead to the region's frames. -/
def LeavesMapped (roots : Set Nat) (r : Nat) (region : MmRegion) (prot first last : Nat)
    (m m' : Mem) : Prop :=
  ∀ r' ∈ roots, ∀ v', Lower v' → leafEntry m' r' v' =
    if r' = r ∧ pageOf region.vBase + first ≤ pageOf v' ∧
      pageOf v' < pageOf region.vBase + last then
      leafFor (region.pBase + BitVec.ofNat 64 ((pageOf v' - pageOf region.vBase) * PAGESIZE)) prot
    else
      leafEntry m r' v'

theorem mapLoop_spec {r : Nat} (hr : r ∈ roots) (region : MmRegion) (prot rounds j : Nat)
    (inv : Spaces src base boot roots s)
    (low : region.vBase.toNat + (j + rounds) * PAGESIZE ≤ 0x800000000000)
    (res : NtStatus × Nat × σ)
    (call : res = mapLoop src (some ⟨BitVec.ofNat 64 r⟩) region prot rounds (j * PAGESIZE) s) :
    ∃ k ≤ rounds, Spaces src base boot roots res.2.2 ∧ (res.1 = .success ↔ k = rounds) ∧
      res.2.1 = (j + k) * PAGESIZE ∧
      LeavesMapped roots r region prot j (j + k) (src.mem s) (src.mem res.2.2) := by
  induction rounds generalizing j s with
  | zero =>
    subst call
    refine ⟨0, le_rfl, inv, iff_of_true rfl rfl, rfl, ?_⟩
    intro r' _ v' _
    rw [mapLoop, if_neg (by omega)]
  | succ rounds ih =>
    have here : region.vBase.toNat + j * PAGESIZE < 0x800000000000 := by
      rw [PAGESIZE] at low ⊢
      omega
    obtain ⟨lower, page⟩ := region_page here
    obtain ⟨inv', outcome⟩ := mmuMapSingle_spec inv hr lower
      (region.pBase + BitVec.ofNat 64 (j * PAGESIZE)) prot _ rfl
    rw [mapLoop] at call
    simp only at call
    rcases outcome with ⟨refused, kept⟩ | ⟨done, updated⟩
    · have stop : (mmuMapSingle src (some ⟨BitVec.ofNat 64 r⟩)
          (region.vBase + BitVec.ofNat 64 (j * PAGESIZE))
          (region.pBase + BitVec.ofNat 64 (j * PAGESIZE)) prot s).1 ≠ .success := by
        rw [refused]
        decide
      rw [if_pos stop] at call
      subst call
      refine ⟨0, Nat.zero_le _, inv', iff_of_false stop (by omega), rfl, ?_⟩
      intro r' hr' v' lower'
      rw [if_neg (by omega)]
      exact kept r' hr' v' lower'
    · have next : j * PAGESIZE + PAGESIZE = (j + 1) * PAGESIZE := by ring
      rw [if_neg (not_not.mpr done), next] at call
      obtain ⟨k, few, inv'', success, off, mapped⟩ :=
        ih (j + 1) inv' (by rwa [Nat.succ_add_eq_add_succ]) call
      refine ⟨k + 1, by omega, inv'', ?_, ?_, ?_⟩
      · rw [success]
        omega
      · rw [off, Nat.succ_add_eq_add_succ]
      · intro r' hr' v' lower'
        rw [mapped r' hr' v' lower', updated r' hr' v' lower', page]
        by_cases later : r' = r ∧ pageOf region.vBase + (j + 1) ≤ pageOf v' ∧
            pageOf v' < pageOf region.vBase + (j + 1 + k)
        · rw [if_pos later, if_pos ⟨later.1, by omega, by omega⟩]
        · rw [if_neg later]
          by_cases same : r' = r ∧ pageOf v' = pageOf region.vBase + j
          · rw [if_pos same, if_pos ⟨same.1, by omega, by omega⟩, same.2, Nat.add_sub_cancel_left]
          · rw [if_neg same, if_neg]
            rintro ⟨root, first, last⟩
            by_cases at_j : pageOf v' = pageOf region.vBase + j
            · exact same ⟨root, at_j⟩
            · exact later ⟨root, by omega, by omega⟩

theorem mapLoop_held {vas : Option MmuVas} {region : MmRegion} {prot f : Nat} (rounds off : Nat)
    (held : src.held s f) : src.held (mapLoop src vas region prot rounds off s).2.2 f := by
  induction rounds generalizing off s with
  | zero => exact held
  | succ rounds ih =>
    have kept : src.held (mmuMapSingle src vas (region.vBase + BitVec.ofNat 64 off)
        (region.pBase + BitVec.ofNat 64 off) prot s).2 f := mmuMapSingle_held held
    rw [mapLoop]
    simp only
    split
    · exact kept
    · exact ih _ kept

theorem mapLoop_apart {r : Nat} (hr : r ∈ roots) (region : MmRegion) (prot rounds j : Nat)
    (inv : Spaces src base boot roots s)
    (low : region.vBase.toNat + (j + rounds) * PAGESIZE ≤ 0x800000000000) :
    ApartKept src base boot roots s
      (mapLoop src (some ⟨BitVec.ofNat 64 r⟩) region prot rounds (j * PAGESIZE) s).2.2 := by
  induction rounds generalizing j s with
  | zero => exact ApartKept.refl
  | succ rounds ih =>
    have here : region.vBase.toNat + j * PAGESIZE < 0x800000000000 := by
      rw [PAGESIZE] at low ⊢
      omega
    obtain ⟨lower, _⟩ := region_page here
    have first :=
      mmuMapSingle_apart inv hr lower (region.pBase + BitVec.ofNat 64 (j * PAGESIZE)) prot
    obtain ⟨inv', _⟩ := mmuMapSingle_spec inv hr lower
      (region.pBase + BitVec.ofNat 64 (j * PAGESIZE)) prot _ rfl
    have next : j * PAGESIZE + PAGESIZE = (j + 1) * PAGESIZE := by ring
    rw [mapLoop, next]
    simp only
    split
    · exact first
    · exact first.trans (ih (j + 1) inv' (by rwa [Nat.succ_add_eq_add_succ]))

end Spec

end Algae.Mm.Page
