/- What a loaded image looks like through the current address space. -/

import Mathlib.Data.List.Pairwise
import Algae.Ke.Loader

set_option autoImplicit false
set_option relaxedAutoImplicit false

namespace Algae.Ke.LoadedImage

open Algae.Lib.ByteMemory Algae.Lib.ByteImage Algae.Lib.FirstFit Algae.Lib.RadixForest
  Algae.Rtl.String
open Algae.Sdk.Defs Algae.Mm.Frames Algae.Mm.Heap Algae.Mm.Page Algae.Ex.Pool Algae.Ex.Box
open Algae.Platform.Mmu Algae.Platform.PageTables Algae.Platform.AddressSpaces
open Algae.Platform.TableFrames Algae.Ke.BootPack Algae.Ke.Loader

def readVirt (m : Mem) (cr3 virtAddr : BitVec 64) : Option Byte :=
  (translate m cr3 virtAddr).map fun t => m (t.phys + virtAddr.toNat % 4096)

section Images

def start (sect : ImageSectionHeader) : BitVec 64 := sect.virtualAddr.setWidth 64

/-- The section as the program sees it: its raw data, and zeros up to the end of its last page,
all of it accessible to the user and executable. -/
structure SectionPlaced (m : Mem) (cr3 : BitVec 64) (dhdr : List Byte) (sect : ImageSectionHeader) :
    Prop where
  data : ∀ k < sect.rawDataSize.toNat,
    readVirt m cr3 (start sect + BitVec.ofNat 64 k) = dhdr[sect.rawDataPtr.toNat + k]?
  zeros : ∀ k, sect.rawDataSize.toNat ≤ k → k < sect.pages * PAGESIZE →
    readVirt m cr3 (start sect + BitVec.ofNat 64 k) = some 0
  rights : ∀ k < sect.pages * PAGESIZE, ∃ t,
    translate m cr3 (start sect + BitVec.ofNat 64 k) = some t ∧
    t.rights.us = true ∧ t.rights.nx = false

def PagesApart (sect sect' : ImageSectionHeader) : Prop :=
  pageOf (start sect) + sect.pages ≤ pageOf (start sect') ∨
    pageOf (start sect') + sect'.pages ≤ pageOf (start sect)

instance : Std.Symm PagesApart := ⟨fun _ _ apart => apart.symm⟩

def sectionHeaders : Nat → List Byte → Option (List ImageSectionHeader)
  | 0, _ => some []
  | n + 1, sect => do
    let header ← readSection sect
    let headers ← sectionHeaders n (sect.drop SECT_HDR_LEN)
    some (header :: headers)

theorem sectionHeaders_succ {n : Nat} {sect : List Byte} {headers : List ImageSectionHeader}
    (read : sectionHeaders (n + 1) sect = some headers) :
    ∃ header headers', headers = header :: headers' ∧ readSection sect = some header ∧
      sectionHeaders n (sect.drop SECT_HDR_LEN) = some headers' := by
  simp only [sectionHeaders, Option.bind_eq_bind] at read
  obtain ⟨header, here, rest⟩ := Option.bind_eq_some_iff.mp read
  obtain ⟨headers', later, last⟩ := Option.bind_eq_some_iff.mp rest
  exact ⟨header, headers', (Option.some.inj last).symm, here, later⟩

/-- An image whose sections start on pages of their own and have their raw data in the file. -/
structure Loadable (dhdr : List Byte) (headers : List ImageSectionHeader) : Prop where
  aligned : ∀ sect ∈ headers, sect.virtualAddr.toNat = sect.virtualAddr.toNat / PAGESIZE * PAGESIZE
  nonempty : ∀ sect ∈ headers, sect.virtualSize ≠ 0
  fits : ∀ sect ∈ headers, sect.rawDataSize.toNat ≤ sect.pages * PAGESIZE
  inside : ∀ sect ∈ headers, sect.rawDataPtr.toNat + sect.rawDataSize.toNat ≤ dhdr.length
  apart : headers.Pairwise PagesApart

private theorem start_toNat (sect : ImageSectionHeader) :
    (start sect).toNat = sect.virtualAddr.toNat := by
  have small := sect.virtualAddr.isLt
  rw [start, BitVec.toNat_setWidth, Nat.mod_eq_of_lt (by omega)]

private theorem pages_bound (sect : ImageSectionHeader) : sect.pages ≤ 0x100000 := by
  have small := sect.virtualSize.isLt
  rw [sect.pages_eq]
  omega

private theorem start_add {sect : ImageSectionHeader}
    (aligned : sect.virtualAddr.toNat = sect.virtualAddr.toNat / PAGESIZE * PAGESIZE) {k : Nat}
    (inside : k < sect.pages * PAGESIZE) :
    Lower (start sect + BitVec.ofNat 64 k) ∧
      pageOf (start sect + BitVec.ofNat 64 k) = pageOf (start sect) + k / 4096 ∧
      (start sect + BitVec.ofNat 64 k).toNat % 4096 = k % 4096 := by
  have small := sect.virtualAddr.isLt
  have bound := pages_bound sect
  rw [PAGESIZE] at aligned inside
  have value : (start sect + BitVec.ofNat 64 k).toNat = sect.virtualAddr.toNat + k := by
    rw [BitVec.toNat_add, start_toNat, BitVec.toNat_ofNat]
    omega
  refine ⟨?_, ?_, ?_⟩
  · rw [Lower, value]
    omega
  · rw [pageOf, pageOf, value, start_toNat]
    omega
  · rw [value]
    omega

end Images

section Copies

variable {σ : Type} (src : FrameSource σ) (base : Mem) (boot : Nat) (roots : Set Nat)

def sectionByte (data : List Byte) (k : Nat) : Byte := if k < data.length then data.getD k 0 else 0

/-- The frames from `i` on hold section `sect`, and no page table. -/
structure InFrames (data : List Byte) (sect : ImageSectionHeader) (i : Nat) (s : σ) : Prop where
  apart : ∀ f ∈ span i sect.pages, Apart src base boot roots s f
  limit : (i + sect.pages) * PAGESIZE ≤ 0x10000000000000
  bytes : ∀ k < sect.pages * PAGESIZE, src.mem s (i * PAGESIZE + k) = sectionByte data k

variable {src base boot roots} {data : List Byte} {sect : ImageSectionHeader} {i : Nat} {s s' : σ}

private theorem frame_of_byte {n k : Nat} (inside : k < n * PAGESIZE) :
    (i * PAGESIZE + k) / PAGESIZE ∈ span i n := by
  rw [mem_span]
  rw [PAGESIZE] at *
  omega

theorem InFrames.kept (here : InFrames src base boot roots data sect i s)
    (kept : ApartKept src base boot roots s s') : InFrames src base boot roots data sect i s' where
  apart f inside := (kept f (here.apart f inside)).1
  limit := here.limit
  bytes k inside := by
    rw [(kept _ (here.apart _ (frame_of_byte inside))).2 _ rfl, here.bytes k inside]

private theorem copied_inFrames {heap : FrameHeap σ} {s : σ}
    (inv : Spaces heap.toFrameSource base boot roots s)
    (nonzero : (heap.mmAllocFrame s sect.pages).1 ≠ 0)
    (fits : data.length ≤ sect.pages * PAGESIZE) :
    ∃ i, (heap.mmAllocFrame s sect.pages).1 = i * PAGESIZE ∧
      ∀ s', s' = copySection heap data (BitVec.ofNat 64 (i * PAGESIZE))
        (heap.mmAllocFrame s sect.pages).2 →
        Spaces heap.toFrameSource base boot roots s' ∧ LeavesKept roots (heap.mem s) (heap.mem s') ∧
        ApartKept heap.toFrameSource base boot roots s s' ∧
        InFrames heap.toFrameSource base boot roots data sect i s' := by
  obtain ⟨i, ret, limit, block⟩ := Spaces.block_apart inv nonzero
  obtain ⟨inv₁, _, leaves₁⟩ := inv.alloc sect.pages
  have kept₁ := Spaces.alloc_apart inv sect.pages
  have address : (BitVec.ofNat 64 (i * PAGESIZE)).toNat = i * PAGESIZE := by
    rw [BitVec.toNat_ofNat]
    refine Nat.mod_eq_of_lt (lt_of_le_of_lt ?_ (lt_of_le_of_lt limit (by norm_num)))
    exact Nat.mul_le_mul_right _ (Nat.le_add_right _ _)
  refine ⟨i, ret, ?_⟩
  rintro s' rfl
  rw [copySection, address, rtlMemcpy_eq_write]
  have outside : ∀ x, x / PAGESIZE ∉ span i sect.pages →
      write (heap.mem (heap.mmAllocFrame s sect.pages).2) (i * PAGESIZE) data.length
        (fun k => data.getD k 0) x = heap.mem (heap.mmAllocFrame s sect.pages).2 x := by
    intro x out
    refine write_outside _ _ ?_
    by_contra inside
    obtain ⟨k, rfl⟩ := Nat.exists_eq_add_of_le (show i * PAGESIZE ≤ x by omega)
    exact out (frame_of_byte (by omega))
  obtain ⟨inv₂, leaves₂, apart₂⟩ := Spaces.write_apart inv₁ fun x not_apart =>
    outside x fun inside => not_apart (block _ inside).2
  refine ⟨inv₂, ?_, ?_, ⟨fun f inside => apart₂ f (block f inside).2, limit, ?_⟩⟩
  · intro r hr v lower
    rw [heap.mem_setMem, leaves₂ r hr v lower, leaves₁ r hr v lower]
  · intro f apart
    obtain ⟨apart₁, same⟩ := kept₁ f apart
    refine ⟨apart₂ f apart₁, fun x here => ?_⟩
    rw [heap.mem_setMem, outside x, same x here]
    exact fun inside => (block _ inside).1 (here ▸ apart.held)
  · intro k inside
    rw [heap.mem_setMem, sectionByte]
    split
    · rename_i raw
      exact write_inside _ _ raw
    · rename_i tail
      rw [write_outside _ _ (by omega)]
      refine heap.zeroed s sect.pages _ nonzero ?_ ?_
      · rw [ret]
        exact Nat.le_add_right _ _
      · rw [ret]
        exact Nat.add_lt_add_left inside _

end Copies

section Sections

variable {σ τ η : Type} [DecidableEq η] {heap : FrameHeap σ} {tlsf : Tlsf τ}
  {kernelBase : BitVec 64}
  {base : Mem} {boot : Nat} {roots : Set Nat} {r : Nat} {dhdr : List Byte} {box : η}
  {sect : ImageSectionHeader} {s : BoxState σ τ η}

/-- The pages that the loader maps for a section: none if its size wraps. -/
def Maps (sect : ImageSectionHeader) (virtAddr : BitVec 64) : Prop :=
  sect.virtualSize.toNat ≤ 0xFFFFF000 ∧ pageOf (start sect) ≤ pageOf virtAddr ∧
    pageOf virtAddr < pageOf (start sect) + sect.pages

instance (sect : ImageSectionHeader) (virtAddr : BitVec 64) : Decidable (Maps sect virtAddr) :=
  inferInstanceAs (Decidable (_ ∧ _))

/-- The leaf entry of a page of a section in the frames from `i` on. -/
def sectionLeaf (sect : ImageSectionHeader) (i : Nat) (virtAddr : BitVec 64) : BitVec 64 :=
  leafFor (BitVec.ofNat 64 (i * PAGESIZE) +
    BitVec.ofNat 64 ((pageOf virtAddr - pageOf (start sect)) * PAGESIZE)) PAGE_USER_EXEC_READ

private theorem alignDown_of_page {v : BitVec 64} (page : v.toNat = v.toNat / PAGESIZE * PAGESIZE) :
    alignDown v (BitVec.ofNat 64 PAGESIZE) = v := by
  apply BitVec.eq_of_toNat_eq
  rw [alignDown_toNat]
  rw [PAGESIZE] at page
  exact page.symm

private theorem sectionRegion_allocated {f : σ} (nonzero : (heap.mmAllocFrame f sect.pages).1 ≠ 0) :
    sectionRegion kernelBase (mmAllocPage heap.toFrameSource kernelBase sect.pages f).1 sect =
      ⟨BitVec.ofNat 64 (heap.mmAllocFrame f sect.pages).1, start sect,
        (alignUp sect.virtualSize (BitVec.ofNat 32 PAGESIZE)).setWidth 64⟩ := by
  rw [mmAllocPage_done nonzero, sectionRegion, virtToPhys, physToVirt, BitVec.add_sub_cancel]
  rfl

private theorem loadSection_placed (inv : Spaces heap.toFrameSource base boot roots s.frames)
    (hr : r ∈ roots)
    (aligned : sect.virtualAddr.toNat = sect.virtualAddr.toNat / PAGESIZE * PAGESIZE)
    (nonempty : sect.virtualSize ≠ 0) (fits : sect.rawDataSize.toNat ≤ sect.pages * PAGESIZE)
    (supplied : SectionSupplied heap tlsf kernelBase (BitVec.ofNat 64 r) dhdr sect s) {fuel : Nat}
    {status : NtStatus} {s' : BoxState σ τ η}
    (call : loadSection heap tlsf kernelBase (BitVec.ofNat 64 r) fuel dhdr box sect s = some
    (status, s')) :
    status = .success ∧ ∃ data i,
      readBytes (dhdr.drop sect.rawDataPtr.toNat) sect.rawDataSize.toNat = some data ∧
      Spaces heap.toFrameSource base boot roots s'.frames ∧
      ApartKept heap.toFrameSource base boot roots s.frames s'.frames ∧
      InFrames heap.toFrameSource base boot roots data sect i s'.frames ∧
      ∀ v, Lower v → leafEntry (heap.mem s'.frames) r v =
        if Maps sect v then sectionLeaf sect i v else leafEntry (heap.mem s.frames) r v := by
  obtain ⟨descriptor, window, tables⟩ := supplied
  obtain ⟨success, result⟩ := exBoxAllocate_pages (sect.virtualSize.setWidth 64)
    (mmAllocPage heap.toFrameSource kernelBase sect.pages s.frames) rfl
    (exBoxAllocate heap tlsf kernelBase (some box) (sect.virtualSize.setWidth 64) .pages true s) rfl
  have done := success.mpr ⟨mt (wide_size sect).mp nonempty, descriptor, window⟩
  obtain ⟨allocated, frames⟩ := result done
  obtain ⟨status_eq, data, region, read, region_eq, rfl⟩ := (loadSection_success call _ rfl).2 done
  refine ⟨status_eq, data, ?_⟩
  have nonzero : (heap.mmAllocFrame s.frames sect.pages).1 ≠ 0 := by
    intro zero
    rw [mmAllocPage_refused zero] at window
    exact window rfl
  have length : data.length = sect.rawDataSize.toNat := by
    obtain ⟨enough, rfl⟩ := readBytes_eq_some.mp read
    exact List.length_take_of_le enough
  obtain ⟨i, ret, copied⟩ := copied_inFrames inv nonzero (by rw [length]; exact fits)
  obtain ⟨inv₁, leaves₁, kept₁, inFrames⟩ := copied _ rfl
  have limit := inFrames.limit
  have region_is : region = ⟨BitVec.ofNat 64 (i * PAGESIZE), start sect,
      (alignUp sect.virtualSize (BitVec.ofNat 32 PAGESIZE)).setWidth 64⟩ := by
    rw [region_eq, allocated, Option.getD_some, sectionRegion_allocated nonzero, ret]
  have pBase : (BitVec.ofNat 64 (i * PAGESIZE)).toNat = i * PAGESIZE := by
    rw [BitVec.toNat_ofNat]
    refine Nat.mod_eq_of_lt (lt_of_le_of_lt ?_ (lt_of_le_of_lt limit (by norm_num)))
    exact Nat.mul_le_mul_right _ (Nat.le_add_right _ _)
  have aligned_region : region.aligned.pBase = BitVec.ofNat 64 (i * PAGESIZE) ∧
      region.aligned.vBase = start sect := by
    rw [region_is, MmRegion.aligned]
    refine ⟨alignDown_of_page ?_, alignDown_of_page ?_⟩
    · rw [pBase, Nat.mul_div_cancel _ page_pos]
    · rw [start_toNat]
      exact aligned
  have pages :
      region.aligned.pages = if sect.virtualSize.toNat ≤ 0xFFFFF000 then sect.pages else 0 := by
    rw [region_eq]
    exact region_pages kernelBase _ sect
  have frames₁ : copySection heap data region.pBase (exBoxAllocate heap tlsf kernelBase (some box)
      (sect.virtualSize.setWidth 64) .pages true s).2.2.frames =
      copySection heap data (BitVec.ofNat 64 (i * PAGESIZE))
        (heap.mmAllocFrame s.frames sect.pages).2 := by
    rw [frames, region_is, mmAllocPage_frames]
  have low :
      region.aligned.vBase.toNat + (0 + region.aligned.pages) * PAGESIZE ≤ 0x800000000000 := by
    have small := sect.virtualAddr.isLt
    have bound := pages_bound sect
    rw [aligned_region.2, start_toNat, pages, PAGESIZE]
    split
    · omega
    · omega
  have kept₂ := mapLoop_apart hr region.aligned PAGE_USER_EXEC_READ region.aligned.pages 0 inv₁ low
  obtain ⟨k, few, inv₂, all, _, mapped⟩ := mapLoop_spec hr region.aligned PAGE_USER_EXEC_READ
    region.aligned.pages 0 inv₁ low _ rfl
  rw [Nat.zero_mul] at kept₂ all mapped inv₂
  have tables' := (mapLoop_success_iff _ _ _).mpr (tables data region read (by
    rw [region_eq, allocated, Option.getD_some]))
  rw [mmAllocPage_frames] at tables'
  have region_pBase : region.pBase = BitVec.ofNat 64 (i * PAGESIZE) := by rw [region_is]
  rw [region_pBase] at tables'
  obtain rfl := all.mp tables'
  refine ⟨i, read, ?_, ?_, ?_, ?_⟩
  · rw [frames₁]
    exact inv₂
  · rw [frames₁]
    exact kept₁.trans kept₂
  · rw [frames₁]
    exact inFrames.kept kept₂
  · intro v lower
    rw [frames₁, mapped r hr v lower, leaves₁ r hr v lower, aligned_region.1,
      aligned_region.2, pages]
    by_cases wraps : sect.virtualSize.toNat ≤ 0xFFFFF000
    · rw [if_pos wraps, Nat.add_zero, Nat.zero_add]
      by_cases here : Maps sect v
      · rw [if_pos here, if_pos ⟨rfl, here.2⟩, sectionLeaf]
      · rw [if_neg here, if_neg fun inside => here ⟨wraps, inside.2⟩]
    · rw [if_neg wraps, if_neg (by omega), if_neg fun here => wraps here.1]

/-- What a run of the loader's loop over `headers` does to the current address space. -/
structure Loaded (heap : FrameHeap σ) (base : Mem) (boot : Nat) (roots : Set Nat) (r : Nat)
    (dhdr : List Byte) (headers : List ImageSectionHeader) (f f' : σ) : Prop where
  spaces : Spaces heap.toFrameSource base boot roots f'
  kept : ApartKept heap.toFrameSource base boot roots f f'
  elsewhere : ∀ v, Lower v → (∀ sect ∈ headers, ¬Maps sect v) →
    leafEntry (heap.mem f') r v = leafEntry (heap.mem f) r v
  placed : headers.Pairwise PagesApart → ∀ sect ∈ headers, ∃ data i,
    readBytes (dhdr.drop sect.rawDataPtr.toNat) sect.rawDataSize.toNat = some data ∧
    InFrames heap.toFrameSource base boot roots data sect i f' ∧
    ∀ v, Lower v → Maps sect v → leafEntry (heap.mem f') r v = sectionLeaf sect i v

private theorem PagesApart.maps {sect sect' : ImageSectionHeader} (apart : PagesApart sect sect')
    {v : BitVec 64} (here : Maps sect v) : ¬Maps sect' v := by
  intro there
  obtain ⟨_, low, high⟩ := here
  obtain ⟨_, low', high'⟩ := there
  rcases apart with before | after
  · omega
  · omega

private theorem loadSections_loaded {n fuel : Nat} {sects : List Byte}
    {headers : List ImageSectionHeader}
    (inv : Spaces heap.toFrameSource base boot roots s.frames) (hr : r ∈ roots)
    (read : sectionHeaders n sects = some headers) (aligned : ∀ sect ∈ headers,
    sect.virtualAddr.toNat = sect.virtualAddr.toNat / PAGESIZE * PAGESIZE)
    (nonempty : ∀ sect ∈ headers, sect.virtualSize ≠ 0)
    (fits : ∀ sect ∈ headers, sect.rawDataSize.toNat ≤ sect.pages * PAGESIZE)
    (supplied : InTurn heap tlsf kernelBase (BitVec.ofNat 64 r) dhdr
      (SectionSupplied heap tlsf kernelBase (BitVec.ofNat 64 r) dhdr) box n sects s)
    {status : NtStatus} {s' : BoxState σ τ η}
    (call : loadSections heap tlsf kernelBase (BitVec.ofNat 64 r) fuel dhdr box n sects s =
      some (status, s')) : Loaded heap base boot roots r dhdr headers s.frames s'.frames := by
  induction n generalizing sects headers s with
  | zero =>
    obtain rfl := Option.some.inj read
    obtain ⟨_, rfl⟩ := Prod.mk.inj (Option.some.inj call)
    exact ⟨inv, ApartKept.refl, fun _ _ _ => rfl, fun _ _ none => by cases none⟩
  | succ n ih =>
    obtain ⟨header, headers', rfl, here, later⟩ := sectionHeaders_succ read
    obtain ⟨granted, onward⟩ := supplied header here
    rw [loadSections, here] at call
    simp only at call
    cases turn : loadSection heap tlsf kernelBase (BitVec.ofNat 64 r) fuel dhdr box header s with
    | none =>
      rw [turn] at call
      cases call
    | some res =>
      obtain ⟨turned, mid⟩ := res
      rw [turn] at call
      obtain ⟨rfl, data, i, bytes, inv₁, kept₁, inFrames, leaves₁⟩ := loadSection_placed inv hr
        (aligned _ List.mem_cons_self) (nonempty _ List.mem_cons_self) (fits _ List.mem_cons_self)
        granted turn
      obtain ⟨inv₂, kept₂, elsewhere, placed⟩ := ih inv₁ later
        (fun sect member => aligned sect (List.mem_cons_of_mem _ member))
        (fun sect member => nonempty sect (List.mem_cons_of_mem _ member))
        (fun sect member => fits sect (List.mem_cons_of_mem _ member)) (onward fuel mid turn) call
      refine ⟨inv₂, kept₁.trans kept₂, ?_, ?_⟩
      · intro v lower none
        rw [elsewhere v lower fun sect member => none sect (List.mem_cons_of_mem _ member),
          leaves₁ v lower, if_neg (none header List.mem_cons_self)]
      · intro apart sect member
        obtain ⟨first, others⟩ := List.pairwise_cons.mp apart
        rcases List.mem_cons.mp member with rfl | member
        · refine ⟨data, i, bytes, inFrames.kept kept₂, fun v lower mapped => ?_⟩
          rw [elsewhere v lower fun sect' member' => (first sect' member').maps mapped,
            leaves₁ v lower, if_pos mapped]
        · exact placed others sect member

theorem sectionPlaced_of_frames {f : σ} (inv : Spaces heap.toFrameSource base boot roots f)
    (hr : r ∈ roots)
    (aligned : sect.virtualAddr.toNat = sect.virtualAddr.toNat / PAGESIZE * PAGESIZE)
    (rounds : sect.virtualSize.toNat ≤ 0xFFFFF000) {data : List Byte} {i : Nat}
    (read : readBytes (dhdr.drop sect.rawDataPtr.toNat) sect.rawDataSize.toNat = some data)
    (fits : sect.rawDataSize.toNat ≤ sect.pages * PAGESIZE)
    (inFrames : InFrames heap.toFrameSource base boot roots data sect i f)
    (leaves : ∀ v, Lower v → Maps sect v → leafEntry (heap.mem f) r v = sectionLeaf sect i v) :
    SectionPlaced (heap.mem f) (BitVec.ofNat 64 r) dhdr sect := by
  obtain ⟨enough, data_eq⟩ := readBytes_eq_some.mp read
  have length : data.length = sect.rawDataSize.toNat := by
    rw [data_eq]
    exact List.length_take_of_le enough
  have translated : ∀ k < sect.pages * PAGESIZE,
      translate (heap.mem f) (BitVec.ofNat 64 r) (start sect + BitVec.ofNat 64 k) =
        some ⟨(i + k / 4096) * 4096, askedRights PAGE_USER_EXEC_READ⟩ := by
    intro k inside
    obtain ⟨lower, page, _⟩ := start_add aligned inside
    have limit := inFrames.limit
    rw [PAGESIZE] at inside limit
    have mapped : Maps sect (start sect + BitVec.ofNat 64 k) := by
      refine ⟨rounds, ?_, ?_⟩
      · omega
      · omega
    have here : (i + k / 4096) * 4096 < 0x10000000000000 := by omega
    have sum : i * 4096 + k / 4096 * 4096 = (i + k / 4096) * 4096 := by ring
    have target : (BitVec.ofNat 64 (i * PAGESIZE) + BitVec.ofNat 64 ((pageOf (start sect +
        BitVec.ofNat 64 k) - pageOf (start sect)) * PAGESIZE)).toNat = (i + k / 4096) * 4096 := by
      rw [page, Nat.add_sub_cancel_left, PAGESIZE, ← BitVec.ofNat_add, sum, BitVec.toNat_ofNat]
      exact Nat.mod_eq_of_lt (lt_trans here (by norm_num))
    rw [inv.translate_lower lower hr, leaves _ lower mapped, sectionLeaf,
      leafTranslation_leafFor (by rw [target]; exact here), target,
        Nat.mul_div_cancel _ (by norm_num)]
  have bytes : ∀ k < sect.pages * PAGESIZE,
      readVirt (heap.mem f) (BitVec.ofNat 64 r) (start sect + BitVec.ofNat 64 k) =
        some (sectionByte data k) := by
    intro k inside
    obtain ⟨_, _, offset⟩ := start_add aligned inside
    have address : (i + k / 4096) * 4096 + k % 4096 = i * PAGESIZE + k := by
      rw [PAGESIZE]
      omega
    rw [readVirt, translated k inside, Option.map_some, offset, address, ← inFrames.bytes k inside]
  refine ⟨fun k raw => ?_, fun k tail inside => ?_, fun k inside =>
    ⟨_, translated k inside, ?_, ?_⟩⟩
  · rw [bytes k (lt_of_lt_of_le raw fits), sectionByte, if_pos (length ▸ raw),
      List.getD_eq_getElem?_getD, data_eq, List.getElem?_take_of_lt raw, List.getElem?_drop]
    have there : sect.rawDataPtr.toNat + k < dhdr.length := by
      rw [List.length_drop] at enough
      omega
    rw [List.getElem?_eq_getElem there, Option.getD_some]
  · rw [bytes k inside, sectionByte, if_neg (by omega)]
  · exact (by decide : (askedRights PAGE_USER_EXEC_READ).us = true)
  · exact (by decide : (askedRights PAGE_USER_EXEC_READ).nx = false)

end Sections

section Programs

variable {σ τ η : Type} [DecidableEq η] {heap : FrameHeap σ} {tlsf : Tlsf τ}
  {kernelBase : BitVec 64}
  {boot : Nat} {roots : Set Nat} {r : Nat} {box : η} {s : BoxState σ τ η} {img : List Byte}
  {path : Option CString} {dhdr peHdr sects : List Byte} {numsect : Nat}
  {headers : List ImageSectionHeader}

private theorem Loadable.sectionsInside (image : Loadable dhdr headers)
    (read : sectionHeaders numsect sects = some headers) : SectionsInside dhdr numsect sects := by
  have inside := image.inside
  clear image
  induction numsect generalizing sects headers with
  | zero => trivial
  | succ n ih =>
    obtain ⟨header, headers', rfl, here, later⟩ := sectionHeaders_succ read
    refine ⟨header, here, ?_, ih later fun sect member =>
      inside sect (List.mem_cons_of_mem _ member)⟩
    have bound := inside header List.mem_cons_self
    rw [ne_eq, readBytes_eq_none, List.length_drop]
    omega

/-- The program is in the address space `cr3`, and its entry point is known. -/
structure ImagePlaced (heap : FrameHeap σ) (cr3 : BitVec 64) (dhdr peHdr : List Byte)
    (headers : List ImageSectionHeader) (res : NtStatus × Option (BitVec 64) × BoxState σ τ η) :
    Prop where
  status : res.1 = .success
  entry : (readLE (peHdr.drop (IMAGE_PE_HEADER_SIZE + 16)) 4).map (BitVec.ofNat 64) = res.2.1
  sections : ∀ sect ∈ headers, SectionPlaced (heap.mem res.2.2.frames) cr3 dhdr sect

theorem keLoadFromBootPack_loaded (map : DirectMap kernelBase) {base : Mem}
    (inv : Spaces heap.toFrameSource base boot roots s.frames) (current : r ∈ roots)
    (program : IsProgram img path dhdr peHdr numsect sects)
    (read : sectionHeaders numsect sects = some headers) (image : Loadable dhdr headers)
    (entry : readLE (peHdr.drop (IMAGE_PE_HEADER_SIZE + 16)) 4 ≠ none)
    (supplied : InTurn heap tlsf kernelBase (BitVec.ofNat 64 r) dhdr
      (SectionSupplied heap tlsf kernelBase (BitVec.ofNat 64 r) dhdr) box numsect sects
      (exInitPtrBox (some box) s).2) :
    ∃ address s', readLE (peHdr.drop (IMAGE_PE_HEADER_SIZE + 16)) 4 = some address ∧
      keLoadFromBootPack heap tlsf kernelBase (BitVec.ofNat 64 r) img path (some box) s =
        some (.success, some (BitVec.ofNat 64 address), s') ∧
      Loaded heap base boot roots r dhdr headers s.frames s'.frames := by
  obtain ⟨⟨status, s'⟩, call⟩ := loadSections_returns map
    (BoxRun.start s : BoxRun heap tlsf kernelBase box _ []) (Nat.zero_add numsect).le
    (image.sectionsInside read)
  obtain ⟨address, known⟩ := Option.ne_none_iff_exists'.mp entry
  refine ⟨address, s', known, ?_, ?_⟩
  · rw [keLoadFromBootPack_program program box, call, known]
    rfl
  · exact loadSections_loaded (s := (exInitPtrBox (some box) s).2) inv current read image.aligned
      image.nonempty image.fits supplied call

private theorem Loaded.wraps_unmapped {base : Mem} {f f' : σ}
    (loaded : Loaded heap base boot roots r dhdr headers f f')
    (inv : Spaces heap.toFrameSource base boot roots f) (current : r ∈ roots)
    (image : Loadable dhdr headers) {sect : ImageSectionHeader} (member : sect ∈ headers)
    (wraps : ¬sect.virtualSize.toNat ≤ 0xFFFFF000) :
    0 < sect.pages * PAGESIZE ∧ translate (heap.mem f') (BitVec.ofNat 64 r)
      (start sect + BitVec.ofNat 64 0) =
      translate (heap.mem f) (BitVec.ofNat 64 r) (start sect) := by
  have positive : 0 < sect.pages := by
    rw [sect.pages_eq]
    omega
  have some_page := Nat.mul_pos positive page_pos
  obtain ⟨lower, at_start, _⟩ := start_add (image.aligned sect member) some_page
  have zero : start sect + BitVec.ofNat 64 0 = start sect := BitVec.add_zero _
  rw [zero] at lower at_start ⊢
  have nowhere : ∀ sect' ∈ headers, ¬Maps sect' (start sect) := by
    intro sect' member' mapped
    have other : sect ≠ sect' := by
      rintro rfl
      exact wraps mapped.1
    rcases image.apart.forall member member' other with before | after
    · have := mapped.2.1
      omega
    · have := mapped.2.2
      omega
  refine ⟨some_page, ?_⟩
  rw [loaded.spaces.translate_lower lower current, loaded.elsewhere _ lower nowhere,
    inv.translate_lower lower current]

/-- With enough memory an image is loaded to its place unless the size of a section wraps; the
pages of such a section are as they were. -/
theorem image_placed_iff (map : DirectMap kernelBase) {c : σ} (page : IsPage boot)
    (fresh : ∀ t, Shared (heap.mem c) boot t → heap.held c (t / PAGESIZE))
    (run : SpaceRun heap.toFrameSource boot c s.frames roots) (current : r ∈ roots)
    (program : IsProgram img path dhdr peHdr numsect sects)
    (read : sectionHeaders numsect sects = some headers) (image : Loadable dhdr headers)
    (entry : readLE (peHdr.drop (IMAGE_PE_HEADER_SIZE + 16)) 4 ≠ none)
    (supplied : InTurn heap tlsf kernelBase (BitVec.ofNat 64 r) dhdr
      (SectionSupplied heap tlsf kernelBase (BitVec.ofNat 64 r) dhdr) box numsect sects
      (exInitPtrBox (some box) s).2) :
    ∃ res, keLoadFromBootPack heap tlsf kernelBase (BitVec.ofNat 64 r) img path
      (some box) s = some res ∧
      ((∀ sect ∈ headers, sect.virtualSize.toNat ≤ 0xFFFFF000) →
        ImagePlaced heap (BitVec.ofNat 64 r) dhdr peHdr headers res) ∧
      ((∀ sect ∈ headers, translate (heap.mem s.frames) (BitVec.ofNat 64 r) (start sect) = none) →
        (ImagePlaced heap (BitVec.ofNat 64 r) dhdr peHdr headers res ↔
          ∀ sect ∈ headers, sect.virtualSize.toNat ≤ 0xFFFFF000)) := by
  have inv := space_run_inv page fresh run
  obtain ⟨address, s', known, call, loaded⟩ :=
    keLoadFromBootPack_loaded map inv current program read
    image entry supplied
  have forward : (∀ sect ∈ headers, sect.virtualSize.toNat ≤ 0xFFFFF000) →
      ImagePlaced heap (BitVec.ofNat 64 r) dhdr peHdr headers
        (.success, some (BitVec.ofNat 64 address), s') := by
    intro rounds
    refine ⟨rfl, by rw [known]; rfl, fun sect member => ?_⟩
    obtain ⟨data, i, bytes, inFrames, leaves⟩ := loaded.placed image.apart sect member
    exact sectionPlaced_of_frames loaded.spaces current (image.aligned sect member)
      (rounds sect member)
      bytes (image.fits sect member) inFrames leaves
  refine ⟨_, call, forward, fun empty => ⟨fun all sect member => ?_, forward⟩⟩
  by_contra wraps
  obtain ⟨some_page, same⟩ := loaded.wraps_unmapped inv current image member wraps
  obtain ⟨t, there, _⟩ := (all.sections sect member).rights 0 some_page
  rw [same, empty sect member] at there
  cases there

end Programs

section Examples

open Algae.Mm.Phys (PhysState mmAllocFrame mmAllocFrame_spec Clear testBit_setFrames)
open Algae.Mm.PhysRuns (eightFrames)

def rawSection (virtualSize : BitVec 32) : ImageSectionHeader := ⟨virtualSize, 0x1000, 3, 148⟩

theorem rawSection_loadable {dhdr : List Byte} (long : 151 ≤ dhdr.length) {virtualSize : BitVec 32}
    (nonempty : virtualSize ≠ 0) : Loadable dhdr [rawSection virtualSize] := by
  refine ⟨?_, ?_, ?_, ?_, List.pairwise_singleton _ _⟩
  · intro sect member
    rw [List.mem_singleton.mp member, PAGESIZE]
    exact (by decide : (0x1000#32).toNat = (0x1000#32).toNat / 4096 * 4096)
  · intro sect member
    rw [List.mem_singleton.mp member]
    exact nonempty
  · intro sect member
    have positive : 0 < virtualSize.toNat :=
      Nat.pos_of_ne_zero fun zero => nonempty (BitVec.eq_of_toNat_eq zero)
    rw [List.mem_singleton.mp member, ImageSectionHeader.pages_eq, PAGESIZE]
    change 3 ≤ (virtualSize.toNat + 4095) / 4096 * 4096
    omega
  · intro sect member
    rw [List.mem_singleton.mp member]
    exact long

def firstSpaceBox : BoxState {s : PhysState // Ready s} (List Pointer) Unit :=
  { emptyBox with frames := (mmuCreateVas bitmapSource 0 eightFramesReady).2.2 }

theorem smallPack_headers : sectionHeaders 1 (smallPack.drop 124) = some [rawSection 3] := by
  decide +kernel

theorem firstSpaceBox_run :
    SpaceRun bitmapHeap.toFrameSource 0 eightFramesReady firstSpaceBox.frames {0x1000} :=
  first_space eightFrames_made

theorem smallPack_supplied : InTurn bitmapHeap twoPool 0xFFFF800000000000 (BitVec.ofNat 64 0x1000)
    (smallPack.drop 16)
    (SectionSupplied bitmapHeap twoPool 0xFFFF800000000000 (BitVec.ofNat 64 0x1000)
      (smallPack.drop 16)) () 1 (smallPack.drop 124) (exInitPtrBox (some ()) firstSpaceBox).2 := by
  have only : readSection (smallPack.drop 124) = some (rawSection 3) := by decide +kernel
  have nonzero :
    (bitmapHeap.mmAllocFrame firstSpaceBox.frames (rawSection 3).pages).1 ≠ 0 := by decide +kernel
  have room :
      3 ≤ bitmapHeap.room
        (bitmapHeap.mmAllocFrame firstSpaceBox.frames (rawSection 3).pages).2 := by
    decide +kernel
  have one : (rawSection 3).pages = 1 := by decide +kernel
  have fresh : ∀ t, Shared (bitmapHeap.mem eightFramesReady) 0 t →
      bitmapHeap.held eightFramesReady (t / PAGESIZE) := eightFrames_fresh
  have inv := space_run_inv zero_page fresh firstSpaceBox_run
  intro header read
  obtain rfl := Option.some.inj (only.symm.trans read)
  refine ⟨⟨by decide +kernel, by decide +kernel, ?_⟩, fun _ _ _ => True.intro⟩
  rintro data region read rfl
  have length : data.length = 3 := by
    obtain ⟨enough, rfl⟩ := readBytes_eq_some.mp read
    exact List.length_take_of_le enough
  obtain ⟨i, ret, copied⟩ := copied_inFrames inv nonzero (by rw [length, one, PAGESIZE]; decide)
  obtain ⟨inv₁, _⟩ := copied _ rfl
  rw [region_pages, if_pos (by decide), one, tablesFound_single, ← one, mmAllocPage_frames]
  change (mmuMapSingle _ _ _ _ _ (copySection bitmapHeap data (sectionRegion _ (mmAllocPage
    bitmapHeap.toFrameSource 0xFFFF800000000000 (rawSection 3).pages firstSpaceBox.frames).1
      _).pBase
    (bitmapHeap.mmAllocFrame firstSpaceBox.frames (rawSection 3).pages).2)).1 = _
  rw [sectionRegion_allocated nonzero, ret]
  refine mmuMapSingle_room inv₁ (Set.mem_singleton _) (by decide +kernel) ?_ _ _
  rw [copySection, bitmapHeap.room_setMem]
  exact room

theorem image_placed_iff_smallPack :
    ∃ res, keLoadFromBootPack bitmapHeap twoPool 0xFFFF800000000000
      (BitVec.ofNat 64 0x1000) smallPack
        (some smallPath) (some ()) firstSpaceBox = some res ∧
      ImagePlaced bitmapHeap (BitVec.ofNat 64 0x1000) (smallPack.drop 16) (smallPack.drop 80)
        [rawSection 3] res := by
  have long : 151 ≤ (smallPack.drop 16).length := by decide +kernel
  have entry :
    readLE ((smallPack.drop 80).drop (IMAGE_PE_HEADER_SIZE + 16)) 4 ≠ none := by decide +kernel
  have fresh : ∀ t, Shared (bitmapHeap.mem eightFramesReady) 0 t →
      bitmapHeap.held eightFramesReady (t / PAGESIZE) := eightFrames_fresh
  obtain ⟨res, call, placed, _⟩ :=
    image_placed_iff directMap_base zero_page fresh firstSpaceBox_run (Set.mem_singleton _)
    smallPack_program smallPack_headers (rawSection_loadable long (by decide)) entry
      smallPack_supplied
  refine ⟨res, call, placed fun sect member => ?_⟩
  rw [List.mem_singleton.mp member]
  decide

def manyFrames : PhysState :=
  { eightFrames with
    bitmap := fun i => if i = 0 then 1 else 0
    bitmapSize := 0x40000
    highestFrameIdx := 0x200000
    framesFree := 0x1FFFFF }

def manyFramesReady : {s : PhysState // Ready s} := ⟨manyFrames, by decide, by decide⟩

private theorem manyFrames_made :
    (mmuCreateVas bitmapSource 0 manyFramesReady).2.1 = some ⟨0x1000⟩ := by
  decide +kernel

private theorem manyFrames_fresh (t : Nat)
    (shared : Shared (bitmapSource.mem manyFramesReady) 0 t) :
    bitmapSource.held manyFramesReady (t / PAGESIZE) := by
  have shared' : Shared eightFrames.mem 0 t := shared
  rw [eightFrames_shared shared', Nat.zero_div]
  exact fun _ => manyFramesReady.property.zero

private theorem manyFrames_free :
    (mmuCreateVas bitmapSource 0 manyFramesReady).2.2.val.highestFrameIdx = 0x200000 ∧
    ∀ j, 2 ≤ j → testBit (mmuCreateVas bitmapSource 0 manyFramesReady).2.2.val.bitmap
      j = false := by
  have clear : ∀ j, 1 ≤ j → testBit manyFrames.bitmap j = false := by
    intro j positive
    rw [testBit_eq]
    by_cases first : j >>> 3 = 0
    · have small : j < 8 := by
        rw [Nat.shiftRight_eq_div_pow] at first
        omega
      have low : ∀ k < 8, 1 ≤ k → (1 : Byte).getLsbD (k % 8) = false := by decide
      simp only [manyFrames, first, if_true]
      exact low j small positive
    · simp only [manyFrames, if_neg first]
      exact BitVec.getLsbD_zero
  have kept : ∀ p c (s : {s : PhysState // Ready s}) n,
      (copyUpper bitmapSource p c s n).val.highestFrameIdx = s.val.highestFrameIdx ∧
        (copyUpper bitmapSource p c s n).val.bitmap = s.val.bitmap := by
    intro p c s n
    induction n with
    | zero => exact ⟨rfl, rfl⟩
    | succ n ih => exact ih
  rcases mmAllocFrame_spec manyFrames 1 manyFramesReady.property.bound
      (fun _ => manyFramesReady.property.zero) with
    ⟨i, positive, lowest, ret, bitmap, _, bound⟩ | ⟨none, _⟩
  · have nonzero : (bitmapSource.mmAllocFrame manyFramesReady 1).1 ≠ 0 := by
      change (mmAllocFrame manyFrames 1).1 ≠ 0
      rw [ret]
      exact Nat.mul_ne_zero positive.ne' page_pos.ne'
    have early : i ≤ 1 := lowest.lowest 1 (by decide) fun j low _ => clear j low
    rw [mmuCreateVas_made nonzero]
    obtain ⟨highest, same⟩ := kept (bitmapSource.mmAllocFrame manyFramesReady 1).1
      ((0 : BitVec 64) &&& PTE_ADDR_MASK).toNat (bitmapSource.mmAllocFrame manyFramesReady 1).2 512
    refine ⟨highest.trans bound, fun j late => ?_⟩
    have after : (bitmapSource.mmAllocFrame manyFramesReady 1).2.val.bitmap =
        (mmAllocFrame manyFrames 1).2.bitmap := rfl
    rw [same, after, bitmap, testBit_setFrames, clear j (by omega), decide_eq_false (by omega)]
    rfl
  · exact absurd (fun j low _ => clear j low) (none 1 (by decide))

def largePack : List Byte := sectionPack 0xFFFFF001

private theorem largePack_program :
    IsProgram largePack (some smallPath) (largePack.drop 16) (largePack.drop 80) 1
      (largePack.drop 124) where
  file := ⟨16, by decide +kernel, rfl⟩
  header := by decide +kernel
  sects := ⟨20, by decide +kernel, by decide +kernel⟩
  numsect := by decide +kernel

private theorem largePack_headers :
    sectionHeaders 1 (largePack.drop 124) = some [rawSection 0xFFFFF001] := by
  decide +kernel

def manyFramesBox : BoxState {s : PhysState // Ready s} (List Pointer) Unit :=
  { emptyBox with frames := (mmuCreateVas bitmapSource 0 manyFramesReady).2.2 }

private theorem large_pages : (rawSection 0xFFFFF001).pages = 0x100000 := by
  rw [ImageSectionHeader.pages_eq]
  decide

private theorem mmAllocPage_free (s : {s : PhysState // Ready s}) {k n : Nat}
    (fits : k + (n + 1) ≤ s.val.highestFrameIdx)
    (free : ∀ j, k ≤ j → testBit s.val.bitmap j = false) :
    (mmAllocPage bitmapSource 0xFFFF800000000000 n s).1 ≠ 0 := by
  have bound := s.property.bound
  rcases mmAllocFrame_spec s.val n bound (fun _ => s.property.zero) with
    ⟨i, positive, lowest, ret, _⟩ | ⟨none, _⟩
  · have address : (bitmapSource.mmAllocFrame s n).1 = i * PAGESIZE := ret
    have below := lowest.fits
    have page : i * PAGESIZE ≠ 0 := Nat.mul_ne_zero positive.ne' page_pos.ne'
    rw [mmAllocPage_done (by rw [address]; exact page), address, physToVirt, PAGESIZE]
    intro zero
    have value := congrArg BitVec.toNat zero
    rw [BitVec.toNat_add, BitVec.toNat_ofNat] at value
    change (i * 4096 % 0x10000000000000000 + 0xFFFF800000000000) % 0x10000000000000000 = 0 at value
    omega
  · exact absurd (fun j low _ => free j low) (none k fits)

private theorem largePack_supplied :
    InTurn bitmapHeap twoPool 0xFFFF800000000000 (BitVec.ofNat 64 0x1000)
    (largePack.drop 16)
    (SectionSupplied bitmapHeap twoPool 0xFFFF800000000000 (BitVec.ofNat 64 0x1000)
      (largePack.drop 16)) () 1 (largePack.drop 124) (exInitPtrBox (some ()) manyFramesBox).2 := by
  have only : readSection (largePack.drop 124) = some (rawSection 0xFFFFF001) := by decide +kernel
  obtain ⟨highest, free⟩ := manyFrames_free
  intro header read
  obtain rfl := Option.some.inj (only.symm.trans read)
  refine ⟨⟨by decide +kernel, ?_, ?_⟩, fun _ _ _ => True.intro⟩
  · refine mmAllocPage_free (mmuCreateVas bitmapSource 0 manyFramesReady).2.2 (k := 2) ?_ free
    rw [highest, large_pages]
    decide
  · rintro data region _ rfl
    rw [region_pages, if_neg (by decide)]
    exact True.intro

/-- An image with one section of 4 GiB is loaded with success in a machine of 8 GiB, but
nothing of it is mapped. -/
theorem large_section_unmapped :
    SpaceRun bitmapHeap.toFrameSource 0 manyFramesReady manyFramesBox.frames {0x1000} ∧
    Loadable (largePack.drop 16) [rawSection 0xFFFFF001] ∧
    InTurn bitmapHeap twoPool 0xFFFF800000000000 (BitVec.ofNat 64 0x1000) (largePack.drop 16)
      (SectionSupplied bitmapHeap twoPool 0xFFFF800000000000 (BitVec.ofNat 64 0x1000)
        (largePack.drop 16)) () 1 (largePack.drop 124) (exInitPtrBox (some ()) manyFramesBox).2 ∧
    ∃ res, keLoadFromBootPack bitmapHeap twoPool 0xFFFF800000000000
      (BitVec.ofNat 64 0x1000) largePack
        (some smallPath) (some ()) manyFramesBox = some res ∧
      ¬ImagePlaced bitmapHeap (BitVec.ofNat 64 0x1000) (largePack.drop 16) (largePack.drop 80)
        [rawSection 0xFFFFF001] res := by
  have long : 151 ≤ (largePack.drop 16).length := by decide +kernel
  have entry :
    readLE ((largePack.drop 80).drop (IMAGE_PE_HEADER_SIZE + 16)) 4 ≠ none := by decide +kernel
  have image := rawSection_loadable long (show (0xFFFFF001 : BitVec 32) ≠ 0 by decide)
  have fresh : ∀ t, Shared (bitmapHeap.mem manyFramesReady) 0 t →
      bitmapHeap.held manyFramesReady (t / PAGESIZE) := manyFrames_fresh
  have run : SpaceRun bitmapHeap.toFrameSource 0 manyFramesReady manyFramesBox.frames {0x1000} :=
    first_space manyFrames_made
  have inv := space_run_inv zero_page fresh run
  obtain ⟨address, s', _, call, loaded⟩ := keLoadFromBootPack_loaded directMap_base inv
    (Set.mem_singleton _) largePack_program largePack_headers image entry largePack_supplied
  refine ⟨run, image, largePack_supplied, _, call, fun placed => ?_⟩
  obtain ⟨some_page, same⟩ := loaded.wraps_unmapped inv (Set.mem_singleton _) image
    (List.mem_singleton_self _) (by decide)
  obtain ⟨t, there, _⟩ := (placed.sections _ (List.mem_singleton_self _)).rights 0 some_page
  have unmapped := first_space_unmapped manyFrames_fresh manyFrames_made
    (start (rawSection 0xFFFFF001)) (by decide)
  cases (there.symm.trans same).trans unmapped

end Examples

end Algae.Ke.LoadedImage
