/- The program loader: sections of a PE image from the boot pack are copied to new frames
   and mapped, and what of this may fail without a report. -/

import Algae.Ex.Box
import Algae.Ke.BootPack
import Algae.Platform.TableFrames

set_option autoImplicit false
set_option relaxedAutoImplicit false

namespace Algae.Ke.Loader

open Algae.Lib.ByteMemory Algae.Lib.ByteImage Algae.Rtl.String
open Algae.Sdk.Defs Algae.Mm.Frames Algae.Mm.Heap Algae.Mm.Page Algae.Ex.Pool Algae.Ex.Box
open Algae.Platform.Mmu Algae.Platform.TableFrames Algae.Ke.BootPack

def IMAGE_PE_HEADER_SIZE : Nat := 24

def SECT_HDR_LEN : Nat := 40

def IMAGE_FILE_MACHINE_AMD64 : Nat := 0x8664

def PE_MAGIC : List Byte := [0x50, 0x45, 0, 0]

/-- The fields of `IMAGE_SECTION_HEADER` that the loader reads. -/
structure ImageSectionHeader where
  virtualSize : BitVec 32
  virtualAddr : BitVec 32
  rawDataSize : BitVec 32
  rawDataPtr : BitVec 32
  deriving DecidableEq, Repr

/-- The section header that starts these bytes; `none` is a read past their end. -/
def readSection (sect : List Byte) : Option ImageSectionHeader := do
  let virtualSize ← readLE (sect.drop 8) 4
  let virtualAddr ← readLE (sect.drop 12) 4
  let rawDataSize ← readLE (sect.drop 16) 4
  let rawDataPtr ← readLE (sect.drop 20) 4
  some ⟨BitVec.ofNat 32 virtualSize, BitVec.ofNat 32 virtualAddr, BitVec.ofNat 32 rawDataSize,
    BitVec.ofNat 32 rawDataPtr⟩

/-- `hdr` are the bytes from the DOS header to the end of the module; the second `Option`
is the returned pointer. -/
def peVerifyHeader (hdr : List Byte) : Option (Option (List Byte)) := do
  let e_magic ← readLE hdr 2
  if e_magic ≠ 0x5A4D then
    some none
  else
    let e_lfanew ← readLE (hdr.drop 60) 4
    let peHdr := hdr.drop e_lfanew
    let differ ← rtlMemcmp peHdr PE_MAGIC
    if differ ≠ 0 then
      some none
    else
      let e_machine ← readLE (peHdr.drop 4) 2
      if e_machine ≠ IMAGE_FILE_MACHINE_AMD64 then some none else some (some peHdr)

/-- The region of a section whose frames are mapped at `mapWindow`. -/
def sectionRegion (kernelBase mapWindow : BitVec 64) (sect : ImageSectionHeader) : MmRegion where
  pBase := virtToPhys kernelBase mapWindow
  vBase := sect.virtualAddr.setWidth 64
  byteCount := (alignUp sect.virtualSize (BitVec.ofNat 32 PAGESIZE)).setWidth 64

section Code

variable {σ τ η : Type} [DecidableEq η] (heap : FrameHeap σ) (tlsf : Tlsf τ)
  (kernelBase cr3 : BitVec 64)

/-- The copy goes to the frames behind `mapWindow`, in the direct map. -/
def copySection (data : List Byte) (pBase : BitVec 64) (s : σ) : σ :=
  heap.setMem s (rtlMemcpy (heap.mem s) pBase.toNat (fun k => data.getD k 0) data.length)

/-- A turn of the loop for the section `sect` of the file `dhdr`, with `fuel` for the list
of a box that is released. -/
def loadSection (fuel : Nat) (dhdr : List Byte) (box : η) (sect : ImageSectionHeader)
    (s : BoxState σ τ η) : Option (NtStatus × BoxState σ τ η) :=
  let (status, mapWindow, s) :=
    exBoxAllocate heap tlsf kernelBase (some box) (sect.virtualSize.setWidth 64) .pages true s
  if status ≠ .success then
    (exBoxRelease heap tlsf fuel (some box) .any s).map fun s => (status, s)
  else
    let region := sectionRegion kernelBase (mapWindow.getD 0) sect
    (readBytes (dhdr.drop sect.rawDataPtr.toNat) sect.rawDataSize.toNat).map fun data =>
      let frames := copySection heap data region.pBase s.frames
      let (_, frames) :=
        mmMapPages heap.toFrameSource (some ⟨cr3⟩) (some region) PAGE_USER_EXEC_READ frames
      (.success, { s with frames := frames })

/-- The loop with `n` sections left, whose headers start at `sect`. -/
def loadSections (fuel : Nat) (dhdr : List Byte) (box : η) :
    Nat → List Byte → BoxState σ τ η → Option (NtStatus × BoxState σ τ η)
  | 0, _, s => some (.success, s)
  | n + 1, sect, s =>
    match readSection sect with
    | none => none
    | some header =>
      match loadSection heap tlsf kernelBase cr3 fuel dhdr box header s with
      | none => none
      | some (status, s) =>
        if status ≠ .success then
          some (status, s)
        else
          loadSections fuel dhdr box n (sect.drop SECT_HDR_LEN) s

/-- `cr3` is the register that mmGetCurrentVas reads. A box that is released holds no more
entries than there are sections. -/
def loadPe64 (peHdr dhdr : List Byte) (box : η) (s : BoxState σ τ η) :
    Option (NtStatus × BoxState σ τ η) := do
  let e_opthdr_sz ← readLE (peHdr.drop 20) 2
  let sect := peHdr.drop (IMAGE_PE_HEADER_SIZE + e_opthdr_sz)
  let (_, s) := exInitPtrBox (some box) s
  let e_numsect ← readLE (peHdr.drop 6) 2
  loadSections heap tlsf kernelBase cr3 e_numsect dhdr box e_numsect sect s

/-- `img` are the bytes of the boot pack. A NULL result is `none`, else it is the address of
its box; the second component is the stored entry point. `none` is a read past the end of the
module. -/
def keLoadFromBootPack (img : List Byte) (path : Option CString) (result : Option η)
    (s : BoxState σ τ η) : Option (NtStatus × Option (BitVec 64) × BoxState σ τ η) :=
  match path, result with
  | none, _ => some (.invalidHandle, none, s)
  | some _, none => some (.invalidHandle, none, s)
  | some path, some box =>
    match keBootPackGet img (some path) with
    | none => none
    | some none => some (.fileUnavl, none, s)
    | some (some rawData) =>
      match peVerifyHeader (img.drop rawData) with
      | none => none
      | some none => some (.procNoExec, none, s)
      | some (some peHdr) => do
        let (_, s) ← loadPe64 heap tlsf kernelBase cr3 peHdr (img.drop rawData) box s
        let addressOfEntryPoint ← readLE (peHdr.drop (IMAGE_PE_HEADER_SIZE + 16)) 4
        some (.success, some (BitVec.ofNat 64 addressOfEntryPoint), s)

end Code

section Pages

def ImageSectionHeader.pages (sect : ImageSectionHeader) : Nat :=
  (alignUp (sect.virtualSize.setWidth 64) (BitVec.ofNat 64 PAGESIZE)).toNat / PAGESIZE

theorem ImageSectionHeader.pages_eq (sect : ImageSectionHeader) :
    sect.pages = (sect.virtualSize.toNat + 4095) / 4096 := by
  have small := sect.virtualSize.isLt
  have word : 2 ^ 64 = 0x10000000000000000 := rfl
  have wide : (sect.virtualSize.setWidth 64).toNat = sect.virtualSize.toNat := by
    rw [BitVec.toNat_setWidth, Nat.mod_eq_of_lt (by omega)]
  rw [pages, PAGESIZE, alignUp_page (by norm_num), wide, word, Nat.mod_eq_of_lt (by omega),
    Nat.mul_div_cancel _ (by norm_num)]

theorem wide_size (sect : ImageSectionHeader) : sect.virtualSize.setWidth 64 = 0 ↔
    sect.virtualSize = 0 := by
  refine ⟨fun zero => ?_, fun zero => by rw [zero]; rfl⟩
  have value := congrArg BitVec.toNat zero
  have small := sect.virtualSize.isLt
  rw [BitVec.toNat_setWidth, Nat.mod_eq_of_lt (by omega)] at value
  exact BitVec.eq_of_toNat_eq value

theorem region_pages (kernelBase mapWindow : BitVec 64) (sect : ImageSectionHeader) :
    (sectionRegion kernelBase mapWindow sect).aligned.pages =
      if sect.virtualSize.toNat ≤ 0xFFFFF000 then sect.pages else 0 := by
  have small := sect.virtualSize.isLt
  have word : 2 ^ 64 = 0x10000000000000000 := rfl
  have half : 2 ^ 32 = 0x100000000 := rfl
  have count : ((alignUp sect.virtualSize (BitVec.ofNat 32 4096)).setWidth 64).toNat =
      (sect.virtualSize.toNat + 4095) % 0x100000000 / 4096 * 4096 := by
    rw [BitVec.toNat_setWidth, alignUp_page (by norm_num), half, word, Nat.mod_eq_of_lt (by omega)]
  rw [sect.pages_eq, MmRegion.pages, MmRegion.aligned, sectionRegion]
  simp only [PAGESIZE]
  rw [alignUp_page (by norm_num), count, word]
  split
  · omega
  · omega

end Pages

section Failures

variable {σ τ η : Type} [DecidableEq η] (heap : FrameHeap σ) (tlsf : Tlsf τ)
  (kernelBase cr3 : BitVec 64) (dhdr : List Byte)

/-- Section `sect` was allocated, copied, and mapped up to its last page. -/
def SectionLoaded (box : η) (sect : ImageSectionHeader) (s s' : BoxState σ τ η) : Prop :=
  ∃ mapWindow data mid frames,
    exBoxAllocate heap tlsf kernelBase (some box) (sect.virtualSize.setWidth 64) .pages true s =
      (.success, some mapWindow, mid) ∧
    readBytes (dhdr.drop sect.rawDataPtr.toNat) sect.rawDataSize.toNat = some data ∧
    mapLoop heap.toFrameSource (some ⟨cr3⟩) (sectionRegion kernelBase mapWindow sect).aligned
        PAGE_USER_EXEC_READ (sectionRegion kernelBase mapWindow sect).aligned.pages 0
        (copySection heap data (sectionRegion kernelBase mapWindow sect).pBase mid.frames) =
      (.success, sect.pages * PAGESIZE, frames) ∧
    s' = { mid with frames := frames }

/-- The `n` sections with headers from `sect` on were loaded one after the other. -/
def AllLoaded (box : η) : Nat → List Byte → BoxState σ τ η → BoxState σ τ η → Prop
  | 0, _, s, s' => s' = s
  | n + 1, sect, s, s' => ∃ header mid, readSection sect = some header ∧
      SectionLoaded heap tlsf kernelBase cr3 dhdr box header s mid ∧
      AllLoaded box n (sect.drop SECT_HDR_LEN) mid s'

/-- What section `sect` asks for is there: a descriptor, frames, and the page tables of all
its pages. -/
structure SectionSupplied (sect : ImageSectionHeader) (s : BoxState σ τ η) : Prop where
  descriptor : (exAllocatePool tlsf PTRBOX_ELEMENT_SIZE s.pool).1 ≠ none
  frames : (mmAllocPage heap.toFrameSource kernelBase sect.pages s.frames).1 ≠ 0
  tables : ∀ data region,
    readBytes (dhdr.drop sect.rawDataPtr.toNat) sect.rawDataSize.toNat = some data →
    region = sectionRegion kernelBase
      (mmAllocPage heap.toFrameSource kernelBase sect.pages s.frames).1 sect →
    TablesFound heap.toFrameSource (some ⟨cr3⟩) region.aligned PAGE_USER_EXEC_READ
      region.aligned.pages 0
      (copySection heap data region.pBase
        (mmAllocPage heap.toFrameSource kernelBase sect.pages s.frames).2)

structure SectionServed (sect : ImageSectionHeader) (s : BoxState σ τ η) : Prop
    extends SectionSupplied heap tlsf kernelBase cr3 dhdr sect s where
  nonempty : sect.virtualSize ≠ 0
  rounds : sect.virtualSize.toNat ≤ 0xFFFFF000

/-- The condition `p` on each of the `n` sections with headers from `sect` on, when its turn
comes. -/
def InTurn (p : ImageSectionHeader → BoxState σ τ η → Prop) (box : η) :
    Nat → List Byte → BoxState σ τ η → Prop
  | 0, _, _ => True
  | n + 1, sect, s => ∀ header, readSection sect = some header → p header s ∧
      ∀ fuel s', loadSection heap tlsf kernelBase cr3 fuel dhdr box header s = some (.success, s') →
        InTurn p box n (sect.drop SECT_HDR_LEN) s'

def AllServed (box : η) (n : Nat) (sect : List Byte) (s : BoxState σ τ η) : Prop :=
  InTurn heap tlsf kernelBase cr3 dhdr (SectionServed heap tlsf kernelBase cr3 dhdr) box n sect s

variable {heap tlsf kernelBase cr3 dhdr} {box : η} {sect : ImageSectionHeader} {s : BoxState σ τ η}

theorem loadSection_success {fuel : Nat} {status : NtStatus} {s' : BoxState σ τ η}
    (call : loadSection heap tlsf kernelBase cr3 fuel dhdr box sect s = some (status, s'))
    (alloc : NtStatus × Option (BitVec 64) × BoxState σ τ η)
    (allocated : alloc = exBoxAllocate heap tlsf kernelBase (some box)
    (sect.virtualSize.setWidth 64)
      .pages true s) :
    (alloc.1 ≠ .success → status ≠ .success) ∧
    (alloc.1 = .success → status = .success ∧
      ∃ data region,
        readBytes (dhdr.drop sect.rawDataPtr.toNat) sect.rawDataSize.toNat = some data ∧
        region = sectionRegion kernelBase (alloc.2.1.getD 0) sect ∧
        s' = { alloc.2.2 with frames := (mapLoop heap.toFrameSource (some ⟨cr3⟩) region.aligned
          PAGE_USER_EXEC_READ region.aligned.pages 0
          (copySection heap data region.pBase alloc.2.2.frames)).2.2 }) := by
  rw [loadSection] at call
  simp only [← allocated] at call
  by_cases done : alloc.1 = .success
  · rw [if_neg (not_not.mpr done)] at call
    refine ⟨fun failed => absurd done failed, fun _ => ?_⟩
    obtain ⟨data, read, result⟩ := Option.map_eq_some_iff.mp call
    obtain ⟨rfl, rfl⟩ := Prod.mk.inj result
    refine ⟨rfl, data, _, read, rfl, ?_⟩
    rw [mmMapPages]
    simp only
    split
    · rfl
    · rfl
  · rw [if_pos done] at call
    obtain ⟨_, _, result⟩ := Option.map_eq_some_iff.mp call
    obtain ⟨rfl, _⟩ := Prod.mk.inj result
    exact ⟨fun failed => failed, fun success => absurd success done⟩

private theorem section_loaded_iff {fuel : Nat} {status : NtStatus} {s' : BoxState σ τ η}
    (call : loadSection heap tlsf kernelBase cr3 fuel dhdr box sect s = some (status, s')) :
    (status = .success ∧ SectionLoaded heap tlsf kernelBase cr3 dhdr box sect s s') ↔
      SectionServed heap tlsf kernelBase cr3 dhdr sect s := by
  obtain ⟨success, result⟩ := exBoxAllocate_pages (sect.virtualSize.setWidth 64)
    (mmAllocPage heap.toFrameSource kernelBase sect.pages s.frames) rfl
    (exBoxAllocate heap tlsf kernelBase (some box) (sect.virtualSize.setWidth 64) .pages true s) rfl
  obtain ⟨_, goes_on⟩ := loadSection_success call _ rfl
  have empty := wide_size sect
  have pages := region_pages kernelBase
    (mmAllocPage heap.toFrameSource kernelBase sect.pages s.frames).1 sect
  have some_pages : sect.virtualSize ≠ 0 → 0 < sect.pages := by
    intro nonzero
    have positive : 0 < sect.virtualSize.toNat := by
      rw [Nat.pos_iff_ne_zero]
      exact fun zero => nonzero (BitVec.eq_of_toNat_eq zero)
    rw [sect.pages_eq]
    omega
  constructor
  · rintro ⟨_, mapWindow, data, mid, frames, alloc, read, mapped, _⟩
    rw [alloc] at success result
    obtain ⟨nonzero, descriptor, window⟩ := success.mp rfl
    obtain ⟨same, held⟩ := result rfl
    obtain rfl : mapWindow = _ := Option.some.inj (Prod.mk.inj (Prod.mk.inj same).2).1
    change mid.frames = _ at held
    rw [held] at mapped
    refine ⟨⟨descriptor, window, ?_⟩, mt empty.mpr nonzero, ?_⟩
    · rintro data' region read' rfl
      obtain rfl := Option.some.inj (read.symm.trans read')
      exact (mapLoop_success_iff _ _ _).mp (congrArg Prod.fst mapped)
    · by_contra large
      have reached := mapLoop_reaches _ _ _ (congrArg Prod.fst mapped)
      rw [mapped, pages, if_neg large, Nat.zero_mul] at reached
      have := Nat.mul_pos (some_pages (mt empty.mpr nonzero)) page_pos
      change sect.pages * PAGESIZE = 0 at reached
      omega
  · rintro ⟨⟨descriptor, window, tables⟩, nonzero, few⟩
    have done := success.mpr ⟨mt empty.mp nonzero, descriptor, window⟩
    obtain ⟨same, held⟩ := result done
    obtain ⟨status_eq, data, region, read, region_eq, result_eq⟩ := goes_on done
    rw [same, Option.getD_some] at region_eq
    have mapped := (mapLoop_success_iff _ _ _).mpr (tables data region read region_eq)
    have reached := mapLoop_reaches _ _ _ mapped
    rw [region_eq, pages, if_pos few, Nat.zero_add, ← region_eq] at reached
    refine ⟨status_eq, _, data, _, _, same, read, ?_, result_eq⟩
    rw [held]
    rw [region_eq] at mapped reached ⊢
    rw [pages, if_pos few] at mapped ⊢
    exact Prod.ext mapped (Prod.ext reached rfl)

theorem SectionLoaded.turn {mid : BoxState σ τ η}
    (loaded : SectionLoaded heap tlsf kernelBase cr3 dhdr box sect s mid) (fuel : Nat) :
    loadSection heap tlsf kernelBase cr3 fuel dhdr box sect s = some (.success, mid) := by
  obtain ⟨mapWindow, data, after, frames, alloc, read, mapped, rfl⟩ := loaded
  rw [loadSection, alloc]
  simp only [ne_eq, not_true_eq_false, if_false, Option.getD_some, read,
    Option.map_some, mmMapPages]
  rw [mapped]
  rfl

private theorem sections_loaded_iff {fuel n : Nat} {sects : List Byte} {status : NtStatus}
    {s' : BoxState σ τ η}
    (call : loadSections heap tlsf kernelBase cr3 fuel dhdr box n sects s = some (status, s')) :
    AllLoaded heap tlsf kernelBase cr3 dhdr box n sects s s' ↔
      AllServed heap tlsf kernelBase cr3 dhdr box n sects s := by
  induction n generalizing sects s with
  | zero =>
    obtain ⟨_, rfl⟩ := Prod.mk.inj (Option.some.inj call)
    exact iff_of_true rfl trivial
  | succ n ih =>
    rw [loadSections] at call
    cases read : readSection sects with
    | none =>
      rw [read] at call
      cases call
    | some header =>
      rw [read] at call
      simp only at call
      cases turn : loadSection heap tlsf kernelBase cr3 fuel dhdr box header s with
      | none =>
        rw [turn] at call
        cases call
      | some res =>
        obtain ⟨turned, mid⟩ := res
        rw [turn] at call
        simp only at call
        have section_iff := section_loaded_iff turn
        constructor
        · rintro ⟨header', mid', read', loaded, rest⟩ _ same
          obtain rfl := Option.some.inj (read.symm.trans read')
          obtain rfl := Option.some.inj (read.symm.trans same)
          obtain ⟨rfl, rfl⟩ := Prod.mk.inj (Option.some.inj ((loaded.turn fuel).symm.trans turn))
          refine ⟨section_iff.mp ⟨rfl, loaded⟩, fun fuel' s'' turn' => ?_⟩
          obtain ⟨_, rfl⟩ := Prod.mk.inj (Option.some.inj ((loaded.turn fuel').symm.trans turn'))
          exact (ih call).mp rest
        · intro served
          obtain ⟨here, rest⟩ := served header read
          obtain ⟨rfl, loaded⟩ := section_iff.mpr here
          exact ⟨header, mid, read, loaded, (ih call).mpr (rest fuel mid turn)⟩

end Failures

section Programs

/-- The file at `path` is a PE image for this machine: its bytes `dhdr` up to the end of the
module, those from its PE header on, and the number and the bytes of its section headers. -/
structure IsProgram (img : List Byte) (path : Option CString) (dhdr peHdr : List Byte)
    (numsect : Nat) (sects : List Byte) : Prop where
  file : ∃ rawData, keBootPackGet img path = some (some rawData) ∧ dhdr = img.drop rawData
  header : peVerifyHeader dhdr = some (some peHdr)
  sects : ∃ e_opthdr_sz, readLE (peHdr.drop 20) 2 = some e_opthdr_sz ∧
    sects = peHdr.drop (IMAGE_PE_HEADER_SIZE + e_opthdr_sz)
  numsect : readLE (peHdr.drop 6) 2 = some numsect

/-- The headers and the raw data of `n` sections lie in the module. -/
def SectionsInside (dhdr : List Byte) : Nat → List Byte → Prop
  | 0, _ => True
  | n + 1, sect => ∃ header, readSection sect = some header ∧
      readBytes (dhdr.drop header.rawDataPtr.toNat) header.rawDataSize.toNat ≠ none ∧
      SectionsInside dhdr n (sect.drop SECT_HDR_LEN)

/-- Looking for the file ends in the module, and a program lies in it. -/
structure FileInside (img : List Byte) (path : Option CString) : Prop where
  found : keBootPackGet img path ≠ none
  header : ∀ rawData, keBootPackGet img path = some (some rawData) →
    peVerifyHeader (img.drop rawData) ≠ none
  program : ∀ rawData peHdr, keBootPackGet img path = some (some rawData) →
    peVerifyHeader (img.drop rawData) = some (some peHdr) →
    ∃ numsect sects, IsProgram img path (img.drop rawData) peHdr numsect sects ∧
      readLE (peHdr.drop (IMAGE_PE_HEADER_SIZE + 16)) 4 ≠ none ∧
      SectionsInside (img.drop rawData) numsect sects

variable {σ τ η : Type} [DecidableEq η] (heap : FrameHeap σ) (tlsf : Tlsf τ)
  (kernelBase cr3 : BitVec 64)

/-- Every frame and pool block is free again, and nothing is mapped that was not before. -/
structure Undone (s s' : BoxState σ τ η) : Prop where
  frames : ∀ f, heap.held s'.frames f → heap.held s.frames f
  blocks : poolUsed tlsf s'.pool ⊆ poolUsed tlsf s.pool
  pages : ∀ virtAddr, translate (heap.mem s'.frames) cr3 virtAddr = translate
    (heap.mem s.frames) cr3 virtAddr

/-- Success means that every section was loaded; anything else was undone. -/
def LoadedOrUndone (img : List Byte) (path : Option CString) (result : Option η)
    (s : BoxState σ τ η) (res : NtStatus × Option (BitVec 64) × BoxState σ τ η) : Prop :=
  (res.1 = .success → ∃ box dhdr peHdr numsect sects, result = some box ∧
    IsProgram img path dhdr peHdr numsect sects ∧
    AllLoaded heap tlsf kernelBase cr3 dhdr box numsect sects
      (exInitPtrBox (some box) s).2 res.2.2) ∧
  (res.1 ≠ .success → Undone heap tlsf cr3 s res.2.2)

variable {heap tlsf kernelBase cr3} {img : List Byte} {path : Option CString}
  {dhdr peHdr sects : List Byte} {numsect : Nat} {s : BoxState σ τ η}

theorem keLoadFromBootPack_program (program : IsProgram img path dhdr peHdr numsect sects)
    (box : η) :
    keLoadFromBootPack heap tlsf kernelBase cr3 img path (some box) s =
      (loadSections heap tlsf kernelBase cr3 numsect dhdr box numsect sects
        (exInitPtrBox (some box) s).2).bind fun res =>
      (readLE (peHdr.drop (IMAGE_PE_HEADER_SIZE + 16)) 4).map fun entry =>
        (.success, some (BitVec.ofNat 64 entry), res.2) := by
  obtain ⟨⟨rawData, found, rfl⟩, header, ⟨size, opthdr, rfl⟩, count⟩ := program
  cases path with
  | none => cases found
  | some path =>
    rw [keLoadFromBootPack]
    simp only [found, header, loadPe64, opthdr, count, Option.bind_eq_bind, Option.bind_some]
    cases readLE (peHdr.drop (IMAGE_PE_HEADER_SIZE + 16)) 4 with
    | none => rfl
    | some entry => rfl

private theorem program_succeeds (program : IsProgram img path dhdr peHdr numsect sects) {box : η}
    {res : NtStatus × Option (BitVec 64) × BoxState σ τ η}
    (call : keLoadFromBootPack heap tlsf kernelBase cr3 img path (some box) s = some res) :
    res.1 = .success := by
  rw [keLoadFromBootPack_program program box] at call
  obtain ⟨_, _, last⟩ := Option.bind_eq_some_iff.mp call
  obtain ⟨_, _, rfl⟩ := Option.map_eq_some_iff.mp last
  rfl

private theorem keLoadFromBootPack_error {result : Option η}
    (no_program : ∀ box dhdr peHdr numsect sects, result = some box →
      ¬IsProgram img path dhdr peHdr numsect sects)
    {res : NtStatus × Option (BitVec 64) × BoxState σ τ η}
    (call : keLoadFromBootPack heap tlsf kernelBase cr3 img path result s = some res) :
    res.1 ≠ .success ∧ res.2.2 = s := by
  cases path with
  | none =>
    obtain rfl := Option.some.inj call
    exact ⟨by simp, rfl⟩
  | some path =>
    cases result with
    | none =>
      obtain rfl := Option.some.inj call
      exact ⟨by simp, rfl⟩
    | some box =>
      rw [keLoadFromBootPack] at call
      simp only at call
      rcases found : keBootPackGet img (some path) with _ | _ | rawData
      · rw [found] at call
        cases call
      · rw [found] at call
        obtain rfl := Option.some.inj call
        exact ⟨by simp, rfl⟩
      · rw [found] at call
        simp only at call
        rcases header : peVerifyHeader (img.drop rawData) with _ | _ | peHdr
        · rw [header] at call
          cases call
        · rw [header] at call
          obtain rfl := Option.some.inj call
          exact ⟨by simp, rfl⟩
        · rw [header] at call
          simp only [loadPe64, Option.bind_eq_bind] at call
          cases opthdr : readLE (peHdr.drop 20) 2 with
          | none =>
            rw [opthdr] at call
            cases call
          | some size =>
            cases count : readLE (peHdr.drop 6) 2 with
            | none =>
              rw [opthdr, count] at call
              cases call
            | some numsect =>
              exact absurd ⟨⟨rawData, found, rfl⟩, header, ⟨size, opthdr, rfl⟩, count⟩
                (no_program box _ peHdr numsect _ rfl)

theorem IsProgram.unique {dhdr' peHdr' sects' : List Byte} {numsect' : Nat}
    (program : IsProgram img path dhdr peHdr numsect sects)
    (program' : IsProgram img path dhdr' peHdr' numsect' sects') :
    dhdr' = dhdr ∧ peHdr' = peHdr ∧ numsect' = numsect ∧ sects' = sects := by
  obtain ⟨⟨rawData, found, rfl⟩, header, ⟨size, opthdr, rfl⟩, count⟩ := program
  obtain ⟨⟨rawData', found', rfl⟩, header', ⟨size', opthdr', rfl⟩, count'⟩ := program'
  obtain rfl := Option.some.inj (Option.some.inj (found.symm.trans found'))
  obtain rfl := Option.some.inj (Option.some.inj (header.symm.trans header'))
  obtain rfl := Option.some.inj (opthdr.symm.trans opthdr')
  exact ⟨rfl, rfl, Option.some.inj (count'.symm.trans count), rfl⟩

private theorem loadSection_returns (map : DirectMap kernelBase) (cr3 : BitVec 64) {box : η}
    {entries : List Entry}
    (run : BoxRun heap tlsf kernelBase box s entries) {fuel : Nat} (enough : entries.length ≤ fuel)
    {sect : ImageSectionHeader}
    (inside : readBytes (dhdr.drop sect.rawDataPtr.toNat) sect.rawDataSize.toNat ≠ none) :
    ∃ status s', loadSection heap tlsf kernelBase cr3 fuel dhdr box sect s = some (status, s') ∧
      (status = .success → ∃ e, BoxRun heap tlsf kernelBase box s' (entries ++ [e])) := by
  obtain ⟨success, result⟩ := exBoxAllocate_pages (sect.virtualSize.setWidth 64)
    (mmAllocPage heap.toFrameSource kernelBase sect.pages s.frames) rfl
    (exBoxAllocate heap tlsf kernelBase (some box) (sect.virtualSize.setWidth 64) .pages true s) rfl
  by_cases done :
    (exBoxAllocate heap tlsf kernelBase (some box) (sect.virtualSize.setWidth 64) .pages
      true s).1 = .success
  · obtain ⟨data, read⟩ := Option.ne_none_iff_exists'.mp inside
    obtain ⟨elem, descriptor⟩ := Option.ne_none_iff_exists'.mp (success.mp done).2.1
    have filled := run.alloc descriptor (result done).1
    obtain ⟨res, call⟩ :
        ∃ res, loadSection heap tlsf kernelBase cr3 fuel dhdr box sect s = some res := by
      rw [loadSection]
      simp only
      rw [if_neg (not_not.mpr done), read]
      exact ⟨_, rfl⟩
    obtain ⟨_, _, _, _, _, after⟩ := (loadSection_success call _ rfl).2 done
    refine ⟨res.1, res.2, call, fun _ => ⟨_, filled.other ?_ ?_ ?_ ?_ ?_⟩⟩
    · rw [after]
      exact (box_run_inv map filled).queue
    · rw [after]
    · intro _ _
      rw [after]
    · rw [after]
      exact (box_run_inv map filled).blocks
    · intro e member f held
      rw [after]
      exact mapLoop_held _ _
        ((heap.held_setMem _ _ _).mpr ((box_run_inv map filled).frames e member f held))
  · obtain ⟨s', released⟩ := exBoxRelease_returns map (run.refused map done) .any enough
    refine ⟨_, s', ?_, fun same => absurd same done⟩
    rw [loadSection]
    simp only
    rw [if_pos done, released]
    rfl

theorem loadSections_returns (map : DirectMap kernelBase) {box : η} {fuel n : Nat}
    {entries : List Entry}
    (run : BoxRun heap tlsf kernelBase box s entries) (enough : entries.length + n ≤ fuel)
    (inside : SectionsInside dhdr n sects) :
    ∃ res, loadSections heap tlsf kernelBase cr3 fuel dhdr box n sects s = some res := by
  induction n generalizing sects s entries with
  | zero => exact ⟨_, rfl⟩
  | succ n ih =>
    obtain ⟨header, read, data, rest⟩ := inside
    obtain ⟨status, s', turn, more⟩ := loadSection_returns map cr3 run
      (show entries.length ≤ fuel by omega) data
    rw [loadSections, read]
    simp only [turn]
    by_cases done : status = .success
    · rw [if_neg (not_not.mpr done)]
      obtain ⟨e, run'⟩ := more done
      exact ih run' (by rw [List.length_append, List.length_singleton]; omega) rest
    · rw [if_pos done]
      exact ⟨_, rfl⟩

private theorem keLoadFromBootPack_returns (map : DirectMap kernelBase)
    (inside : FileInside img path) (result : Option η) (s : BoxState σ τ η) :
    ∃ res, keLoadFromBootPack heap tlsf kernelBase cr3 img path result s = some res := by
  cases path with
  | none => exact ⟨_, rfl⟩
  | some path =>
    cases result with
    | none => exact ⟨_, rfl⟩
    | some box =>
      rcases found : keBootPackGet img (some path) with _ | _ | rawData
      · exact absurd found inside.found
      · rw [keLoadFromBootPack, found]
        exact ⟨_, rfl⟩
      · rcases header : peVerifyHeader (img.drop rawData) with _ | _ | peHdr
        · exact absurd header (inside.header rawData found)
        · simp only [keLoadFromBootPack, found, header]
          exact ⟨_, rfl⟩
        · obtain ⟨numsect, sects, program, entry, rest⟩ := inside.program rawData peHdr found header
          obtain ⟨_, loaded⟩ := loadSections_returns map
            (BoxRun.start s : BoxRun heap tlsf kernelBase box _ []) (Nat.zero_add numsect).le rest
          obtain ⟨_, read⟩ := Option.ne_none_iff_exists'.mp entry
          rw [keLoadFromBootPack_program program box, loaded, read]
          exact ⟨_, rfl⟩

/-- A load fails without a trace or loads everything exactly if whatever the sections of the
program ask for is there; else it reports a success that is none. -/
theorem load_reports_failure_iff (map : DirectMap kernelBase) (img : List Byte)
    (path : Option CString) (result : Option η) (s : BoxState σ τ η) :
    (FileInside img path → ∃ res, keLoadFromBootPack heap tlsf kernelBase cr3 img path result
    s = some res) ∧
    ∀ res, keLoadFromBootPack heap tlsf kernelBase cr3 img path result s = some res →
      (LoadedOrUndone heap tlsf kernelBase cr3 img path result s res ↔
        ∀ box dhdr peHdr numsect sects, result = some box →
          IsProgram img path dhdr peHdr numsect sects →
          AllServed heap tlsf kernelBase cr3 dhdr box numsect sects
            (exInitPtrBox (some box) s).2) := by
  constructor
  · exact fun inside => keLoadFromBootPack_returns map inside result s
  · intro res call
    by_cases given : ∃ box dhdr peHdr numsect sects, result = some box ∧
        IsProgram img path dhdr peHdr numsect sects
    · obtain ⟨box, dhdr, peHdr, numsect, sects, rfl, program⟩ := given
      rw [keLoadFromBootPack_program program box] at call
      obtain ⟨⟨status, s'⟩, loaded, last⟩ := Option.bind_eq_some_iff.mp call
      obtain ⟨entry, _, rfl⟩ := Option.map_eq_some_iff.mp last
      have sections_iff := sections_loaded_iff loaded
      constructor
      · rintro ⟨promised, _⟩ box' dhdr' peHdr' numsect' sects' same program'
        obtain ⟨box'', dhdr'', peHdr'', numsect'', sects'', same'', program'', all⟩ := promised rfl
        obtain rfl := Option.some.inj same
        obtain rfl := Option.some.inj same''
        obtain ⟨rfl, rfl, rfl, rfl⟩ := program.unique program'
        obtain ⟨rfl, rfl, rfl, rfl⟩ := program.unique program''
        exact sections_iff.mp all
      · intro served
        refine ⟨fun _ => ⟨box, dhdr, peHdr, numsect, sects, rfl, program, ?_⟩, fun failed =>
          absurd rfl failed⟩
        exact sections_iff.mpr (served box dhdr peHdr numsect sects rfl program)
    · have no_program : ∀ box dhdr peHdr numsect sects, result = some box →
          ¬IsProgram img path dhdr peHdr numsect sects :=
        fun box dhdr peHdr numsect sects same program =>
          given ⟨box, dhdr, peHdr, numsect, sects, same, program⟩
      obtain ⟨failed, same⟩ := keLoadFromBootPack_error no_program call
      refine iff_of_true ⟨fun done => absurd done failed, fun _ => ?_⟩ ?_
      · rw [same]
        exact ⟨fun _ held => held, subset_rfl, fun _ => rfl⟩
      · exact fun box dhdr peHdr numsect sects same program =>
          absurd program (no_program box dhdr peHdr numsect sects same)

end Programs

section Images

open Algae.Tools.OmarFormat
open Algae.Mm.Phys (PhysState)
open Algae.Platform.AddressSpaces (eightFramesReady zero_page)

/-- A PE image with one section at 0x1000, of three bytes in the file. -/
def sectionImage (virtualSize : Nat) : List Byte :=
  leBytes 2 0x5A4D ++ List.replicate 58 0 ++ leBytes 4 64 ++
  PE_MAGIC ++ leBytes 2 IMAGE_FILE_MACHINE_AMD64 ++ leBytes 2 1 ++ List.replicate 12
    0 ++ leBytes 2 20 ++
  List.replicate 18 0 ++ leBytes 4 0x1000 ++
  List.replicate 8 0 ++ leBytes 4 virtualSize ++ leBytes 4 0x1000 ++ leBytes 4 3 ++ leBytes 4 148 ++
  List.replicate 16 0 ++ [0x58, 0x59, 0x5A]

def sectionPack (virtualSize : Nat) : List Byte :=
  Record.encode {
    type := OMAR_REG
    name := [⟨0x78, x_ne_nul⟩]
    len := 151
    rev := 2
    mode := 0o100644
    body := sectionImage virtualSize ++ List.replicate 345 0 } ++ OMAR_EOF

def smallPack : List Byte := sectionPack 3

def smallPath : CString := [⟨0x2F, slash_ne_nul⟩, ⟨0x78, x_ne_nul⟩]

theorem smallPack_program :
    IsProgram smallPack (some smallPath) (smallPack.drop 16) (smallPack.drop 80) 1
      (smallPack.drop 124) where
  file := ⟨16, by decide +kernel, rfl⟩
  header := by decide +kernel
  sects := ⟨20, by decide +kernel, by decide +kernel⟩
  numsect := by decide +kernel

private theorem smallPack_inside : FileInside smallPack (some smallPath) := by
  have found : keBootPackGet smallPack (some smallPath) = some (some 16) := by decide +kernel
  have data : ∃ header, readSection (smallPack.drop 124) = some header ∧
      readBytes ((smallPack.drop 16).drop header.rawDataPtr.toNat)
        header.rawDataSize.toNat ≠ none :=
    ⟨⟨3, 0x1000, 3, 148⟩, by decide +kernel, by decide +kernel⟩
  refine ⟨by rw [found]; simp, ?_, ?_⟩
  · intro rawData same
    obtain rfl := Option.some.inj (Option.some.inj (found.symm.trans same))
    rw [smallPack_program.header]
    simp
  · intro rawData peHdr same header
    obtain rfl := Option.some.inj (Option.some.inj (found.symm.trans same))
    obtain rfl := Option.some.inj (Option.some.inj (smallPack_program.header.symm.trans header))
    obtain ⟨header, read, bytes⟩ := data
    exact ⟨1, _, smallPack_program, by decide +kernel, header, read, bytes, trivial⟩

def noPool : BoxState {s : PhysState // Ready s} (List Pointer) Unit :=
  { emptyBox with pool := ⟨false, []⟩ }

/-- No section is allocated, and still the load reports a success. -/
theorem unallocated_program_succeeds :
    ∃ res, keLoadFromBootPack bitmapHeap twoPool 0xFFFF800000000000 0 smallPack
      (some smallPath) (some ())
        noPool = some res ∧
      ¬LoadedOrUndone bitmapHeap twoPool 0xFFFF800000000000 0 smallPack (some smallPath)
        (some ()) noPool
        res := by
  obtain ⟨res, call⟩ := keLoadFromBootPack_returns directMap_base smallPack_inside (some ()) noPool
  refine ⟨res, call, fun promised => ?_⟩
  obtain ⟨_, _, _, _, _, same, program, all⟩ := promised.1 (program_succeeds smallPack_program call)
  obtain rfl := Option.some.inj same
  obtain ⟨rfl, rfl, rfl, rfl⟩ := smallPack_program.unique program
  obtain ⟨_, _, _, ⟨_, _, _, _, alloc, _⟩, _⟩ := all
  obtain ⟨_, descriptor, _⟩ := (exBoxAllocate_pages _ _ rfl _ alloc.symm).1.mp rfl
  exact descriptor rfl

private theorem smallPack_served :
    AllServed bitmapHeap twoPool 0xFFFF800000000000 0 (smallPack.drop 16) () 1
    (smallPack.drop 124) (exInitPtrBox (some ()) emptyBox).2 := by
  have only : readSection (smallPack.drop 124) = some ⟨3, 0x1000, 3, 148⟩ := by decide +kernel
  intro header read
  obtain rfl := Option.some.inj (only.symm.trans read)
  refine ⟨⟨⟨by decide +kernel, by decide +kernel, ?_⟩, by decide, by decide⟩, fun _ _ _ => trivial⟩
  rintro data region read rfl
  have bytes :
    readBytes ((smallPack.drop 16).drop 148) 3 = some [0x58, 0x59, 0x5A] := by decide +kernel
  obtain rfl := Option.some.inj (bytes.symm.trans read)
  have one : (ImageSectionHeader.mk 3 0x1000 3 148).pages = 1 := by decide +kernel
  rw [region_pages, if_pos (by decide), one, tablesFound_single]
  exact (mmuMapSingle_rooted zero_page (fun _ => by decide +kernel) (by decide +kernel)).mpr
    (by decide +kernel)

theorem load_reports_failure_iff_smallPack :
    ∃ res, keLoadFromBootPack bitmapHeap twoPool 0xFFFF800000000000 0 smallPack
      (some smallPath) (some ())
        emptyBox = some res ∧
      LoadedOrUndone bitmapHeap twoPool 0xFFFF800000000000 0 smallPack (some smallPath)
        (some ()) emptyBox
        res := by
  obtain ⟨returns, exact_when⟩ :=
    @load_reports_failure_iff _ _ _ _ bitmapHeap twoPool _ 0 directMap_base
    smallPack (some smallPath) (some ()) emptyBox
  obtain ⟨res, call⟩ := returns smallPack_inside
  refine ⟨res, call, (exact_when res call).mpr ?_⟩
  intro box dhdr peHdr numsect sects same program
  obtain rfl := Option.some.inj same
  obtain ⟨rfl, rfl, rfl, rfl⟩ := smallPack_program.unique program
  exact smallPack_served

end Images

end Algae.Ke.Loader
