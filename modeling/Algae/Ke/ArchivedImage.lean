/- A program from the directory that is archived to the address space it runs in. -/

import Algae.Ke.LoadedImage
import Algae.Tools.OmarCreate

set_option autoImplicit false
set_option relaxedAutoImplicit false

namespace Algae.Ke.ArchivedImage

open Algae.Lib.ByteMemory Algae.Lib.ByteImage Algae.Rtl.String Algae.Sdk.Defs
  Algae.Mm.Frames Algae.Mm.Heap
open Algae.Mm.Page Algae.Ex.Pool Algae.Ex.Box Algae.Platform.Mmu Algae.Platform.PageTables
open Algae.Platform.AddressSpaces Algae.Platform.TableFrames Algae.Ke.BootPack Algae.Ke.Loader
  Algae.Ke.LoadedImage
open Algae.Tools.OmarFormat Algae.Tools.OmarCreate

structure IsImage (data peHdr : List Byte) (numsect : Nat) (sects : List Byte)
    (headers : List ImageSectionHeader) :
    Prop where
  read : sectionHeaders numsect sects = some headers
  header : peVerifyHeader data = some (some peHdr)
  sects : ∃ e_opthdr_sz, readLE (peHdr.drop 20) 2 = some e_opthdr_sz ∧
    sects = peHdr.drop (IMAGE_PE_HEADER_SIZE + e_opthdr_sz)
  numsect : readLE (peHdr.drop 6) 2 = some numsect
  entry : readLE (peHdr.drop (IMAGE_PE_HEADER_SIZE + 16)) 4 ≠ none
  loadable : Loadable data headers

section Reads

variable {s t : List Byte} (more : s <+: t)
include more

private theorem readBytes_more {n : Nat} {bytes : List Byte} (read : readBytes s n = some bytes) :
    readBytes t n = some bytes := by
  obtain ⟨rest, rfl⟩ := more
  obtain ⟨fits, rfl⟩ := readBytes_eq_some.mp read
  exact readBytes_append fits rest

private theorem readLE_more {i n v : Nat} (read : readLE (s.drop i) n = some v) :
    readLE (t.drop i) n = some v := by
  obtain ⟨bytes, here, rfl⟩ := Option.map_eq_some_iff.mp read
  rw [readLE, readBytes_more (more.drop i) here, Option.map_some]

private theorem rtlMemcmp_more {bytes : List Byte} {differ : Int}
    (run : rtlMemcmp s bytes = some differ) :
    rtlMemcmp t bytes = some differ := by
  obtain ⟨rest, rfl⟩ := more
  induction bytes generalizing s with
  | nil => cases s <;> simpa [rtlMemcmp] using run
  | cons b bytes ih =>
    cases s with
    | nil => cases run
    | cons a s =>
      rw [rtlMemcmp] at run
      rw [List.cons_append, rtlMemcmp]
      by_cases same : a = b
      · rw [if_pos same] at run ⊢
        exact ih run
      · rw [if_neg same] at run ⊢
        exact run

private theorem readSection_more {header : ImageSectionHeader}
    (read : readSection s = some header) :
    readSection t = some header := by
  simp only [readSection, Option.bind_eq_bind] at read
  obtain ⟨virtualSize, size, read⟩ := Option.bind_eq_some_iff.mp read
  obtain ⟨virtualAddr, addr, read⟩ := Option.bind_eq_some_iff.mp read
  obtain ⟨rawDataSize, rawSize, read⟩ := Option.bind_eq_some_iff.mp read
  obtain ⟨rawDataPtr, rawPtr, read⟩ := Option.bind_eq_some_iff.mp read
  simp only [readSection, readLE_more more size, readLE_more more addr, readLE_more more rawSize,
    readLE_more more rawPtr, Option.bind_eq_bind, Option.bind_some]
  exact read

private theorem sectionHeaders_more {n : Nat} {headers : List ImageSectionHeader}
    (read : sectionHeaders n s = some headers) : sectionHeaders n t = some headers := by
  induction n generalizing s t headers with
  | zero => exact read
  | succ n ih =>
    obtain ⟨header, headers', rfl, here, later⟩ := sectionHeaders_succ read
    simp only [sectionHeaders, readSection_more more here, ih (more.drop SECT_HDR_LEN) later,
      Option.bind_eq_bind, Option.bind_some]

private theorem peVerifyHeader_more {peHdr : List Byte}
    (verified : peVerifyHeader s = some (some peHdr)) :
    ∃ peHdr', peVerifyHeader t = some (some peHdr') ∧ peHdr <+: peHdr' := by
  simp only [peVerifyHeader, Option.bind_eq_bind] at verified
  obtain ⟨e_magic, magic, verified⟩ := Option.bind_eq_some_iff.mp verified
  have magic' : readLE t 2 = some e_magic := readLE_more more (i := 0) magic
  by_cases dos : e_magic = 0x5A4D
  · rw [if_neg (not_not.mpr dos)] at verified
    obtain ⟨e_lfanew, lfanew, verified⟩ := Option.bind_eq_some_iff.mp verified
    obtain ⟨differ, compared, verified⟩ := Option.bind_eq_some_iff.mp verified
    by_cases pe : differ = 0
    · rw [if_neg (not_not.mpr pe)] at verified
      obtain ⟨e_machine, machine, verified⟩ := Option.bind_eq_some_iff.mp verified
      by_cases amd64 : e_machine = IMAGE_FILE_MACHINE_AMD64
      · rw [if_neg (not_not.mpr amd64)] at verified
        obtain rfl := Option.some.inj (Option.some.inj verified)
        refine ⟨t.drop e_lfanew, ?_, more.drop e_lfanew⟩
        simp only [peVerifyHeader, magic', readLE_more more lfanew,
          rtlMemcmp_more (more.drop e_lfanew) compared,
          readLE_more (more.drop e_lfanew) machine, Option.bind_eq_bind, Option.bind_some, dos,
            pe, amd64, ne_eq,
          not_true, if_false]
      · rw [if_pos amd64] at verified
        cases verified
    · rw [if_pos pe] at verified
      cases verified
  · rw [if_pos dos] at verified
    cases verified

end Reads

section Images

variable {σ τ η : Type} [DecidableEq η] {heap : FrameHeap σ} {tlsf : Tlsf τ}
  {kernelBase cr3 : BitVec 64}
  {data dhdr peHdr sects : List Byte} {numsect : Nat} {headers : List ImageSectionHeader} {box : η}

private theorem raw_more (more : data <+: dhdr) {sect : ImageSectionHeader}
    (inside : sect.rawDataPtr.toNat + sect.rawDataSize.toNat ≤ data.length) :
    readBytes (dhdr.drop sect.rawDataPtr.toNat) sect.rawDataSize.toNat =
      readBytes (data.drop sect.rawDataPtr.toNat) sect.rawDataSize.toNat := by
  have read : readBytes (data.drop sect.rawDataPtr.toNat) sect.rawDataSize.toNat =
      some ((data.drop sect.rawDataPtr.toNat).take sect.rawDataSize.toNat) := by
    rw [readBytes, List.length_drop, if_pos (by omega)]
  rw [read, readBytes_more (more.drop sect.rawDataPtr.toNat) read]

private theorem supplied_more (more : data <+: dhdr) {sects' : List Byte}
    (onward : sects <+: sects') (read : sectionHeaders numsect sects = some headers)
    (inside : ∀ sect ∈ headers, sect.rawDataPtr.toNat + sect.rawDataSize.toNat ≤ data.length)
    {s : BoxState σ τ η} (supplied : InTurn heap tlsf kernelBase cr3 data
      (SectionSupplied heap tlsf kernelBase cr3 data) box numsect sects s) :
    InTurn heap tlsf kernelBase cr3 dhdr (SectionSupplied heap tlsf kernelBase cr3 dhdr) box numsect
      sects' s := by
  induction numsect generalizing sects sects' headers s with
  | zero => trivial
  | succ n ih =>
    obtain ⟨header, headers', rfl, here, later⟩ := sectionHeaders_succ read
    intro header' read'
    obtain rfl := Option.some.inj ((readSection_more onward here).symm.trans read')
    obtain ⟨found, next⟩ := supplied header here
    have same := raw_more more (inside header List.mem_cons_self)
    refine ⟨⟨found.descriptor, found.frames, fun bytes region raw => ?_⟩, fun fuel s' turn => ?_⟩
    · rw [same] at raw
      exact found.tables bytes region raw
    · rw [loadSection, same] at turn
      exact ih (onward.drop SECT_HDR_LEN) later
        (fun sect member => inside sect (List.mem_cons_of_mem _ member))
        (next fuel s' turn)

theorem IsImage.program {img : List Byte} {path : Option CString} {rawData : Nat}
    (image : IsImage data peHdr numsect sects headers)
    (found : keBootPackGet img path = some (some rawData))
    (more : data <+: img.drop rawData) : ∃ peHdr' sects', peHdr <+: peHdr' ∧ sects <+: sects' ∧
      IsProgram img path (img.drop rawData) peHdr' numsect sects' := by
  obtain ⟨peHdr', verified, onward⟩ := peVerifyHeader_more more image.header
  obtain ⟨e_opthdr_sz, opthdr, rfl⟩ := image.sects
  exact ⟨peHdr', _, onward, onward.drop _, ⟨rawData, found, rfl⟩, verified,
    ⟨e_opthdr_sz, readLE_more onward opthdr, rfl⟩, readLE_more onward image.numsect⟩

private theorem loadable_more (more : data <+: dhdr) (image : Loadable data headers) :
    Loadable dhdr headers :=
  { image with inside := fun sect member => Nat.le_trans (image.inside sect member) more.length_le }

private theorem sectionPlaced_more (more : data <+: dhdr) {m : Mem} {sect : ImageSectionHeader}
    (inside : sect.rawDataPtr.toNat + sect.rawDataSize.toNat ≤ data.length)
    (placed : SectionPlaced m cr3 dhdr sect) :
    SectionPlaced m cr3 data sect := by
  refine { placed with data := fun k small => ?_ }
  obtain ⟨rest, rfl⟩ := more
  rw [placed.data k small, List.getElem?_append_left (by omega)]

end Images

section Archives

variable {base dirname rel : CString} {tree : Listing} {data : List Byte}

private theorem archive_file_found (pure : slash ∉ dirname) (valid : Valid base dirname [] tree)
    (full : ∀ f ∈ files [] tree, f.2 ≠ []) (mode : Nat) (member : (rel, data) ∈ files [] tree) :
    ∃ off, keBootPackGet (archive base dirname mode tree) (some (slash :: rel)) = some (some off) ∧
      data <+: (archive base dirname mode tree).drop off := by
  rw [files_eq, List.mem_filterMap] at member
  obtain ⟨r, member, file⟩ := member
  obtain ⟨rfl, rfl⟩ : r.name = rel ∧ r.body.take r.len = data := by
    rw [fileOf] at file
    split at file
    · cases file
    · exact Prod.mk.inj (Option.some.inj file)
  obtain ⟨off, run, more, at_data⟩ := record_found pure valid full mode member
  refine ⟨off, run, ?_⟩
  rw [at_data]
  exact (List.take_prefix r.len r.body).trans (List.prefix_append _ _)

variable {σ τ η : Type} [DecidableEq η] {heap : FrameHeap σ} {tlsf : Tlsf τ}
  {kernelBase : BitVec 64}
  {boot r : Nat} {c : σ} {roots : Set Nat} {peHdr sects : List Byte} {numsect : Nat}
  {headers : List ImageSectionHeader} {box : η} {s : BoxState σ τ η}

/-- With enough memory the program at `rel` in the directory that was archived is loaded to its
place. -/
theorem archived_program_loaded (pure : slash ∉ dirname) (valid : Valid base dirname [] tree)
    (full : ∀ f ∈ files [] tree, f.2 ≠ []) (mode : Nat) (member : (rel, data) ∈ files [] tree)
    (image : IsImage data peHdr numsect sects headers)
    (rounds : ∀ sect ∈ headers, sect.virtualSize.toNat ≤ 0xFFFFF000)
    (map : DirectMap kernelBase) (page : IsPage boot)
    (fresh : ∀ t, Shared (heap.mem c) boot t → heap.held c (t / PAGESIZE))
    (run : SpaceRun heap.toFrameSource boot c s.frames roots) (current : r ∈ roots)
    (supplied : InTurn heap tlsf kernelBase (BitVec.ofNat 64 r) data
      (SectionSupplied heap tlsf kernelBase (BitVec.ofNat 64 r) data) box numsect sects
      (exInitPtrBox (some box) s).2) :
    ∃ res, keLoadFromBootPack heap tlsf kernelBase (BitVec.ofNat 64 r)
      (archive base dirname mode tree)
        (some (slash :: rel)) (some box) s = some res ∧
      ImagePlaced heap (BitVec.ofNat 64 r) data peHdr headers res := by
  obtain ⟨off, found, more⟩ := archive_file_found pure valid full mode member
  obtain ⟨peHdr', sects', onward, further, program⟩ := image.program found more
  obtain ⟨address, entry⟩ := Option.ne_none_iff_exists'.mp image.entry
  have entry' := readLE_more onward entry
  have inside := image.loadable.inside
  have image' := loadable_more more image.loadable
  obtain ⟨address', s', known, call, loaded⟩ :=
    keLoadFromBootPack_loaded map (space_run_inv page fresh run) current
    program (sectionHeaders_more further image.read) image' (entry' ▸ Option.some_ne_none _)
    (supplied_more more further image.read inside supplied)
  obtain rfl := Option.some.inj (entry'.symm.trans known)
  refine ⟨_, call, rfl, by rw [entry]; rfl, fun sect member => ?_⟩
  obtain ⟨raw, i, bytes, inFrames, leaves⟩ := loaded.placed image'.apart sect member
  exact sectionPlaced_more more (inside sect member) (sectionPlaced_of_frames loaded.spaces current
    (image'.aligned sect member) (rounds sect member) bytes (image'.fits sect member)
      inFrames leaves)

end Archives

def smallImage : List Byte := smallPack.drop 16

private theorem smallImage_image :
    IsImage smallImage (smallPack.drop 80) 1 (smallPack.drop 124) [rawSection 3] where
  read := smallPack_headers
  header := smallPack_program.header
  sects := smallPack_program.sects
  numsect := smallPack_program.numsect
  entry := by decide +kernel
  loadable :=
    have long : 151 ≤ smallImage.length := by decide +kernel
    rawSection_loadable long (by decide)

def oneImage : Listing :=
  .reg bName 0o100755 smallImage .nil

theorem archived_program_loaded_oneImage :
    ∃ res, keLoadFromBootPack bitmapHeap twoPool 0xFFFF800000000000 (BitVec.ofNat 64 0x1000)
        (archive aName aName 0 oneImage) (some (slash :: bName))
        (some ()) firstSpaceBox = some res ∧
      ImagePlaced bitmapHeap (BitVec.ofNat 64 0x1000) smallImage (smallPack.drop 80)
        [rawSection 3] res := by
  have valid : Valid aName aName [] oneImage :=
    ⟨⟨by decide, by decide, by decide, by decide, by decide, by decide⟩, by decide +kernel, trivial⟩
  have member : (bName, smallImage) ∈ files [] oneImage := List.mem_singleton_self _
  have full : ∀ f ∈ files [] oneImage, f.2 ≠ [] := by
    intro f inside
    rw [List.mem_singleton.mp inside]
    decide +kernel
  refine archived_program_loaded (by decide) valid full 0 member smallImage_image
    (fun sect inside => ?_)
    directMap_base zero_page eightFrames_fresh firstSpaceBox_run (Set.mem_singleton _)
      smallPack_supplied
  rw [List.mem_singleton.mp inside]
  decide

end Algae.Ke.ArchivedImage
