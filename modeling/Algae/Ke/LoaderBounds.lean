/- Where the program loader reads and writes: the bytes of the file that it looks at, and the
   frames that it copies sections to. -/

import Algae.Ke.Loader

set_option autoImplicit false
set_option relaxedAutoImplicit false

namespace Algae.Ke.LoaderBounds

open Algae.Lib.ByteMemory Algae.Lib.ByteImage Algae.Lib.FirstFit Algae.Rtl.String
open Algae.Sdk.Defs Algae.Mm.Frames Algae.Mm.Heap Algae.Mm.Page Algae.Ex.Pool Algae.Ex.Box
open Algae.Platform.Mmu Algae.Ke.BootPack Algae.Ke.Loader

/-- An access of the loader: to bytes of the file, from an offset on, or to the memory behind
a window that exBoxAllocate returned between two states. -/
inductive Access (σ : Type)
  | read (offset count : Nat)
  | write (addr count : Nat) (before after : σ)

/-- What is left of exTrace's buffer behind `loader: discovered section "`. -/
def DISCOVERED_ROOM : Nat := 256 - 1 - 28

/-- What is left of it behind `loader: failed to map "`. -/
def FAILED_ROOM : Nat := 256 - 1 - 23

/-- How many bytes printStr reads at `s` when its buffer has room for so many. -/
def printStrReads (m : Mem) : Nat → Nat → Nat
  | _, 0 => 0
  | s, room + 1 => if m s = 0 then 1 else 1 + printStrReads m (s + 1) room

def sectionAt (m : Mem) (sect : Nat) : ImageSectionHeader where
  virtualSize := BitVec.ofNat 32 (loadLE m (sect + 8) 4)
  virtualAddr := BitVec.ofNat 32 (loadLE m (sect + 12) 4)
  rawDataSize := BitVec.ofNat 32 (loadLE m (sect + 16) 4)
  rawDataPtr := BitVec.ofNat 32 (loadLE m (sect + 20) 4)

/-- The raw data of a section, wherever in memory its bytes are. -/
def rawData (m : Mem) (sect : ImageSectionHeader) : List Byte :=
  (List.range sect.rawDataSize.toNat).map fun k => m (sect.rawDataPtr.toNat + k)

section Code

variable {σ τ η : Type} [DecidableEq η] (heap : FrameHeap σ) (tlsf : Tlsf τ)
  (kernelBase cr3 : BitVec 64) (m : Mem)

/-- A turn of the loop for the header at `sect`, with the accesses that are its own: those of
the page mapper and of the allocators are not. `m` is memory from the DOS header on. The
state is `none` where the loop returns. -/
def turnAccesses (box : η) (sect : Nat) (s : BoxState σ τ η) :
    List (Access σ) × Option (BoxState σ τ η) :=
  let header := sectionAt m sect
  let discovered := [.read sect (printStrReads m sect DISCOVERED_ROOM), .read (sect + 8) 4]
  let (status, mapWindow, mid) :=
    exBoxAllocate heap tlsf kernelBase (some box) (header.virtualSize.setWidth 64) .pages true s
  if status ≠ .success then
    (discovered ++ [.read sect (printStrReads m sect FAILED_ROOM)], none)
  else
    let region := sectionRegion kernelBase (mapWindow.getD 0) header
    let frames := copySection heap (rawData m header) region.pBase mid.frames
    let (_, frames) :=
      mmMapPages heap.toFrameSource (some ⟨cr3⟩) (some region) PAGE_USER_EXEC_READ frames
    (discovered ++ [.read (sect + 12) 4, .read (sect + 8) 4, .read (sect + 20) 4,
      .read (sect + 16) 4,
        .read header.rawDataPtr.toNat header.rawDataSize.toNat,
        .write region.pBase.toNat header.rawDataSize.toNat s.frames mid.frames],
      some { mid with frames := frames })

/-- The loop with `n` sections left. Every test of it reads e_numsect. -/
def loopAccesses (peHdr : Nat) (box : η) :
    Nat → Nat → BoxState σ τ η → List (Access σ) × Option (BoxState σ τ η)
  | 0, _, s => ([.read (peHdr + 6) 2], some s)
  | n + 1, sect, s =>
    match turnAccesses heap tlsf kernelBase cr3 m box sect s with
    | (accesses, none) => (.read (peHdr + 6) 2 :: accesses, none)
    | (accesses, some s) =>
      let (more, last) := loopAccesses peHdr box n (sect + SECT_HDR_LEN) s
      (.read (peHdr + 6) 2 :: (accesses ++ more), last)

def loadPe64Accesses (peHdr : Nat) (box : η) (s : BoxState σ τ η) :
    List (Access σ) × Option (BoxState σ τ η) :=
  let e_opthdr_sz := loadLE m (peHdr + 20) 2
  let sect := peHdr + IMAGE_PE_HEADER_SIZE + e_opthdr_sz
  let (_, s) := exInitPtrBox (some box) s
  let (accesses, last) :=
    loopAccesses heap tlsf kernelBase cr3 m peHdr box (loadLE m (peHdr + 6) 2) sect s
  (.read (peHdr + 20) 2 :: accesses, last)

end Code

section Agreement

variable {σ τ η : Type} [DecidableEq η] {heap : FrameHeap σ} {tlsf : Tlsf τ}
  {kernelBase cr3 : BitVec 64} {m : Mem} {dhdr : List Byte}

def Holds (m : Mem) (dhdr : List Byte) : Prop := ∀ k b, dhdr[k]? = some b → m k = b

theorem Holds.readBytes (holds : Holds m dhdr) {offset count : Nat} {bytes : List Byte}
    (read : readBytes (dhdr.drop offset) count = some bytes) :
    bytes = (List.range count).map fun k => m (offset + k) := by
  obtain ⟨fits, rfl⟩ := readBytes_eq_some.mp read
  rw [List.length_drop] at fits
  apply List.ext_getElem
  · rw [List.length_take, List.length_drop, List.length_map, List.length_range]
    omega
  · intro k below _
    rw [List.length_take, List.length_drop] at below
    have inside : offset + k < dhdr.length := by omega
    rw [List.getElem_take, List.getElem_drop, List.getElem_map, List.getElem_range]
    exact (holds _ _ (List.getElem?_eq_getElem inside)).symm

private theorem leNat_range (m : Mem) (offset count : Nat) :
    leNat ((List.range count).map fun k => m (offset + k)) = loadLE m offset count := by
  induction count generalizing offset with
  | zero => rfl
  | succ count ih =>
    rw [List.range_succ_eq_map, List.map_cons, List.map_map, leNat, loadLE, ← ih (offset + 1)]
    congr 3
    apply List.map_congr_left
    intro k _
    rw [Function.comp_apply, Nat.add_assoc, Nat.add_comm 1]

theorem Holds.readLE (holds : Holds m dhdr) {offset count value : Nat}
    (read : readLE (dhdr.drop offset) count = some value) : loadLE m offset count = value := by
  obtain ⟨bytes, whole, rfl⟩ := Option.map_eq_some_iff.mp read
  rw [holds.readBytes whole, leNat_range]

theorem Holds.readSection (holds : Holds m dhdr) {sect : Nat} {header : ImageSectionHeader}
    (read : readSection (dhdr.drop sect) = some header) : sectionAt m sect = header := by
  simp only [Loader.readSection, Option.bind_eq_bind, List.drop_drop, Option.bind_eq_some_iff]
    at read
  obtain ⟨virtualSize, size, virtualAddr, addr, rawDataSize, rawSize, rawDataPtr, ptr, same⟩ := read
  obtain rfl := Option.some.inj same
  rw [sectionAt, holds.readLE size, holds.readLE addr, holds.readLE rawSize, holds.readLE ptr]

private theorem turnAccesses_follows (holds : Holds m dhdr) {box : η} {fuel sect : Nat}
    {s s' : BoxState σ τ η} {status : NtStatus}
    (turn : loadSection heap tlsf kernelBase cr3 fuel dhdr box (sectionAt m sect) s = some
    (status, s')) :
    (turnAccesses heap tlsf kernelBase cr3 m box sect s).2 =
      if status = .success then some s' else none := by
  rw [turnAccesses]
  rw [loadSection] at turn
  generalize exBoxAllocate heap tlsf kernelBase (some box)
    ((sectionAt m sect).virtualSize.setWidth 64)
    .pages true s = allocated at turn ⊢
  obtain ⟨result, mapWindow, mid⟩ := allocated
  simp only at turn ⊢
  by_cases done : result = .success
  · rw [if_neg (not_not.mpr done)] at turn ⊢
    obtain ⟨data, read, same⟩ := Option.map_eq_some_iff.mp turn
    obtain ⟨rfl, rfl⟩ := Prod.mk.inj same
    rw [if_pos rfl, rawData, ← holds.readBytes read]
  · rw [if_pos done] at turn ⊢
    obtain ⟨_, _, same⟩ := Option.map_eq_some_iff.mp turn
    obtain ⟨rfl, _⟩ := Prod.mk.inj same
    rw [if_neg done]

private theorem loopAccesses_follows (holds : Holds m dhdr) {box : η} {peHdr fuel n sect : Nat}
    {s s' : BoxState σ τ η} {status : NtStatus}
    (run : loadSections heap tlsf kernelBase cr3 fuel dhdr box n (dhdr.drop sect) s = some
    (status, s')) :
    (loopAccesses heap tlsf kernelBase cr3 m peHdr box n sect s).2 =
      if status = .success then some s' else none := by
  induction n generalizing sect s with
  | zero =>
    obtain ⟨rfl, rfl⟩ := Prod.mk.inj (Option.some.inj run)
    rfl
  | succ n ih =>
    rw [loadSections] at run
    cases read : readSection (dhdr.drop sect) with
    | none =>
      rw [read] at run
      cases run
    | some header =>
      rw [read] at run
      simp only at run
      cases turn : loadSection heap tlsf kernelBase cr3 fuel dhdr box header s with
      | none =>
        rw [turn] at run
        cases run
      | some res =>
        obtain ⟨turned, mid⟩ := res
        rw [turn] at run
        simp only at run
        rw [← holds.readSection read] at turn
        have next := turnAccesses_follows holds turn
        rw [loopAccesses]
        generalize turnAccesses heap tlsf kernelBase cr3 m box sect s = logged at next ⊢
        obtain ⟨accesses, _⟩ := logged
        simp only at next
        subst next
        by_cases done : turned = .success
        · rw [if_neg (not_not.mpr done), List.drop_drop] at run
          rw [if_pos done]
          exact ih run
        · rw [if_pos done] at run
          obtain ⟨rfl, _⟩ := Prod.mk.inj (Option.some.inj run)
          rw [if_neg done, if_neg done]

private theorem loadPe64Accesses_follows (holds : Holds m dhdr) {box : η} {peHdr : Nat}
    {s s' : BoxState σ τ η} {status : NtStatus}
    (run : loadPe64 heap tlsf kernelBase cr3 (dhdr.drop peHdr) dhdr box s = some (status, s')) :
    (loadPe64Accesses heap tlsf kernelBase cr3 m peHdr box s).2 =
      if status = .success then some s' else none := by
  simp only [loadPe64, Option.bind_eq_bind, List.drop_drop, Option.bind_eq_some_iff] at run
  obtain ⟨e_opthdr_sz, opthdr, e_numsect, numsect, run⟩ := run
  rw [loadPe64Accesses, holds.readLE opthdr, holds.readLE numsect]
  rw [← Nat.add_assoc] at run
  exact loopAccesses_follows holds run

end Agreement

section Bounds

variable {σ τ η : Type} [DecidableEq η] (heap : FrameHeap σ) (tlsf : Tlsf τ)
  (kernelBase cr3 : BitVec 64) (m : Mem)

/-- The access is to the `len` bytes of the file, or to frames that were free before
exBoxAllocate was called and are not after. -/
def Access.Within (len : Nat) : Access σ → Prop
  | .read offset count => ∀ k < count, offset + k < len
  | .write addr count before after => ∀ k < count,
      heap.held after ((addr + k) / PAGESIZE) ∧ ¬heap.held before ((addr + k) / PAGESIZE)

/-- What the file has to say of the section at `sect`: its name ends in the file or is cut
short there, and what else is read of its header is there. If it gets frames, its raw data is
in the file, and no longer than they are. -/
structure SectionInBounds (len : Nat) (box : η) (sect : Nat) (s : BoxState σ τ η) : Prop where
  name : sect + printStrReads m sect DISCOVERED_ROOM ≤ len
  virtualSize : sect + 12 ≤ len
  copied : (exBoxAllocate heap tlsf kernelBase (some box)
    ((sectionAt m sect).virtualSize.setWidth 64)
      .pages true s).1 = .success →
    sect + 24 ≤ len ∧
    ((sectionAt m sect).rawDataSize ≠ 0 →
      (sectionAt m sect).rawDataPtr.toNat + (sectionAt m sect).rawDataSize.toNat ≤ len) ∧
    (sectionAt m sect).rawDataSize.toNat ≤ (sectionAt m sect).pages * PAGESIZE
  refused :
    (exBoxAllocate heap tlsf kernelBase (some box) ((sectionAt m sect).virtualSize.setWidth 64)
      .pages true s).1 ≠ .success → sect + printStrReads m sect FAILED_ROOM ≤ len

/-- The same of each of the `n` sections with headers from `sect` on, when its turn comes. -/
def AllInBounds (len : Nat) (box : η) : Nat → Nat → BoxState σ τ η → Prop
  | 0, _, _ => True
  | n + 1, sect, s => SectionInBounds heap tlsf kernelBase m len box sect s ∧
      ∀ s', (turnAccesses heap tlsf kernelBase cr3 m box sect s).2 = some s' →
        AllInBounds len box n (sect + SECT_HDR_LEN) s'

variable {heap tlsf kernelBase cr3 m} {len : Nat} {box : η}

private theorem read_within {offset count : Nat} :
    (Access.read offset count : Access σ).Within heap len ↔ (0 < count → offset + count ≤ len) := by
  constructor
  · intro within positive
    have last := within (count - 1) (by omega)
    omega
  · intro fits k below
    have := fits (by omega)
    omega

private theorem read_pos {offset count : Nat} (positive : 0 < count) :
    (Access.read offset count : Access σ).Within heap len ↔ offset + count ≤ len := by
  rw [read_within]
  exact ⟨fun fits => fits positive, fun fits _ => fits⟩

private theorem printStrReads_pos (m : Mem) (s : Nat) {room : Nat} (positive : 0 < room) :
    0 < printStrReads m s room := by
  obtain ⟨room, rfl⟩ := Nat.exists_eq_succ_of_ne_zero positive.ne'
  rw [printStrReads]
  split
  · exact Nat.one_pos
  · omega

private theorem byte_in_span {i n k : Nat} : (i * PAGESIZE + k) / PAGESIZE ∈ span i n ↔
    k < n * PAGESIZE := by
  have here : (i * PAGESIZE + k) / PAGESIZE = i + k / PAGESIZE := by
    rw [Nat.mul_comm, Nat.mul_add_div page_pos]
  rw [here, mem_span, ← Nat.div_lt_iff_lt_mul page_pos]
  exact ⟨fun inside => Nat.lt_of_add_lt_add_left inside.2,
    fun below => ⟨Nat.le_add_right _ _, Nat.add_lt_add_left below i⟩⟩

private theorem window_frames {sect : ImageSectionHeader} {s mid : BoxState σ τ η}
    {window : Option (BitVec 64)}
    (done : exBoxAllocate heap tlsf kernelBase (some box) (sect.virtualSize.setWidth 64)
    .pages true s =
      (.success, window, mid)) :
    ∃ i, (sectionRegion kernelBase (window.getD 0) sect).pBase.toNat = i * PAGESIZE ∧
      ∀ f, heap.held mid.frames f ∧ ¬heap.held s.frames f ↔ f ∈ span i sect.pages := by
  obtain ⟨success, result⟩ := exBoxAllocate_pages (sect.virtualSize.setWidth 64)
    (mmAllocPage heap.toFrameSource kernelBase sect.pages s.frames) rfl _ done.symm
  obtain ⟨same, frames⟩ := result rfl
  have given := (success.mp rfl).2.2
  obtain rfl := (Prod.mk.inj (Prod.mk.inj same).2).1
  have nonzero : (heap.mmAllocFrame s.frames sect.pages).1 ≠ 0 := by
    intro zero
    exact given (by rw [mmAllocPage_refused zero])
  change mid.frames = _ at frames
  rw [mmAllocPage_frames] at frames
  obtain ⟨i, ret, limit, fresh⟩ := heap.fresh s.frames sect.pages nonzero
  refine ⟨i, ?_, fun f => ⟨?_, fun inside => ?_⟩⟩
  · rw [Option.getD_some, mmAllocPage_done nonzero, sectionRegion, virtToPhys, physToVirt,
      BitVec.add_sub_cancel, BitVec.toNat_ofNat, ret, Nat.mod_eq_of_lt]
    rw [Nat.add_mul] at limit
    exact (Nat.le_add_right _ _).trans_lt (limit.trans_lt (by norm_num))
  · rintro ⟨held, before⟩
    rw [frames] at held
    have taken := ((heap.grown s.frames sect.pages f held).resolve_left before).2
    rwa [ret, Nat.mul_div_cancel _ page_pos] at taken
  · rw [frames]
    exact ⟨(fresh f inside).2, (fresh f inside).1⟩

private theorem copy_within {sect : ImageSectionHeader} {s mid : BoxState σ τ η}
    {window : Option (BitVec 64)}
    (done : exBoxAllocate heap tlsf kernelBase (some box) (sect.virtualSize.setWidth 64)
    .pages true s =
      (.success, window, mid)) {count : Nat} :
    (Access.write (sectionRegion kernelBase (window.getD 0) sect).pBase.toNat count s.frames
      mid.frames).Within heap len ↔ count ≤ sect.pages * PAGESIZE := by
  obtain ⟨i, base, taken⟩ := window_frames done
  simp only [Access.Within, base, taken, byte_in_span]
  constructor
  · intro within
    by_contra long
    exact Nat.lt_irrefl _ (within (sect.pages * PAGESIZE) (by omega))
  · intro fits k below
    omega

private theorem turn_within (m : Mem) (sect : Nat) (s : BoxState σ τ η) :
    (∀ a ∈ (turnAccesses heap tlsf kernelBase cr3 m box sect s).1, a.Within heap len) ↔
      SectionInBounds heap tlsf kernelBase m len box sect s := by
  have name : 0 < printStrReads m sect DISCOVERED_ROOM := printStrReads_pos m sect (by decide)
  have again : 0 < printStrReads m sect FAILED_ROOM := printStrReads_pos m sect (by decide)
  rw [turnAccesses]
  generalize call : exBoxAllocate heap tlsf kernelBase (some box)
    ((sectionAt m sect).virtualSize.setWidth 64) .pages true s = allocated
  obtain ⟨status, window, mid⟩ := allocated
  have result : (exBoxAllocate heap tlsf kernelBase (some box)
      ((sectionAt m sect).virtualSize.setWidth 64) .pages true s).1 = status :=
        congrArg Prod.fst call
  simp only
  by_cases done : status = .success
  · subst done
    rw [if_neg (not_not.mpr rfl)]
    simp only [List.cons_append, List.nil_append, List.forall_mem_cons, copy_within call,
      read_pos name, read_pos (show 0 < 4 by decide), read_within]
    constructor
    · rintro ⟨name, size, _, _, ptr, _, data, fits, _⟩
      refine ⟨name, by omega, fun _ => ⟨by omega, fun nonempty => data ?_, fits⟩,
        fun refused => absurd result refused⟩
      exact Nat.pos_of_ne_zero fun zero => nonempty (BitVec.eq_of_toNat_eq zero)
    · intro inside
      obtain ⟨header, data, fits⟩ := inside.copied result
      refine ⟨inside.name, by omega, by omega, by omega, by omega, by omega,
        fun positive => data ?_, fits, by simp⟩
      rintro zero
      rw [zero] at positive
      exact Nat.lt_irrefl 0 positive
  · rw [if_pos done]
    simp only [List.cons_append, List.nil_append, List.forall_mem_cons,
      read_pos name, read_pos again, read_pos (show 0 < 4 by decide)]
    constructor
    · rintro ⟨name, size, failed, _⟩
      exact ⟨name, by omega, fun success => absurd (result.symm.trans success) done,
        fun _ => failed⟩
    · intro inside
      have size := inside.virtualSize
      exact ⟨inside.name, by omega,
        inside.refused fun success => done (result.symm.trans success), by simp⟩

private theorem loop_within {peHdr : Nat} {n sect : Nat} {s : BoxState σ τ η} :
    (∀ a ∈ (loopAccesses heap tlsf kernelBase cr3 m peHdr box n sect s).1, a.Within heap len) ↔
      peHdr + 8 ≤ len ∧ AllInBounds heap tlsf kernelBase cr3 m len box n sect s := by
  have numsect : (Access.read (peHdr + 6) 2 : Access σ).Within heap len ↔ peHdr + 8 ≤ len :=
    read_pos (by decide)
  induction n generalizing sect s with
  | zero => simp [loopAccesses, AllInBounds, numsect]
  | succ n ih =>
    have turn : (∀ a ∈ (turnAccesses heap tlsf kernelBase cr3 m box sect s).1, a.Within heap len) ↔
        SectionInBounds heap tlsf kernelBase m len box sect s := turn_within m sect s
    rw [loopAccesses, AllInBounds, ← turn]
    generalize turnAccesses heap tlsf kernelBase cr3 m box sect s = logged
    obtain ⟨accesses, _ | next⟩ := logged
    · simp only [List.forall_mem_cons, numsect, reduceCtorEq, false_imp_iff, implies_true, and_true]
    · simp only [List.forall_mem_cons, List.forall_mem_append, numsect, ih, Option.some.injEq,
        forall_eq']
      exact ⟨fun ⟨a, b, _, c⟩ => ⟨a, b, c⟩, fun ⟨a, b, c⟩ => ⟨a, b, a, c⟩⟩

private theorem loadPe64_within (m : Mem) (peHdr : Nat) (box : η) (s : BoxState σ τ η) :
    (∀ a ∈ (loadPe64Accesses heap tlsf kernelBase cr3 m peHdr box s).1, a.Within heap len) ↔
      peHdr + 22 ≤ len ∧
      AllInBounds heap tlsf kernelBase cr3 m len box (loadLE m (peHdr + 6) 2)
        (peHdr + IMAGE_PE_HEADER_SIZE + loadLE m (peHdr + 20) 2) (exInitPtrBox (some box) s).2 := by
  have opthdr : (Access.read (peHdr + 20) 2 : Access σ).Within heap len ↔ peHdr + 22 ≤ len :=
    read_pos (by decide)
  rw [loadPe64Accesses]
  simp only [List.forall_mem_cons, opthdr, loop_within]
  exact ⟨fun ⟨a, _, b⟩ => ⟨a, b⟩, fun ⟨a, b⟩ => ⟨a, by omega, b⟩⟩

end Bounds

section Files

/-- Memory from an offset in the module on, with `rest` behind the module. -/
def memoryFrom (img : List Byte) (rest : Mem) (offset : Nat) : Mem :=
  fun k => (img[offset + k]?).getD (rest k)

/-- keLoadFromBootPack finds `file` at `path`, with its PE header at the offset `peHdr`. -/
structure PresentedFile (img : List Byte) (path : Option CString) (file : BootpackNode)
    (peHdr : Nat) :
    Prop where
  found : ∃ slash name, path = some (slash :: name) ∧ slash.val = 0x2F ∧
    bootPackGetFile img (some name) true = some (.success, some file)
  e_lfanew : readLE ((img.drop file.data).drop 60) 4 = some peHdr
  header : peVerifyHeader (img.drop file.data) = some (some ((img.drop file.data).drop peHdr))

variable {σ τ η : Type} [DecidableEq η] (heap : FrameHeap σ) (tlsf : Tlsf τ)
  (kernelBase cr3 : BitVec 64)
  (img : List Byte) (rest : Mem) (path : Option CString) (box : η) (s : BoxState σ τ η)

/-- loadPe64 reads only the file at `path` and copies only to the frames of its sections. -/
def LoadInBounds : Prop :=
  ∀ file peHdr, PresentedFile img path file peHdr →
    ∀ a ∈ (loadPe64Accesses heap tlsf kernelBase cr3 (memoryFrom img rest file.data) peHdr box s).1,
      a.Within heap file.length

def FileInBounds : Prop :=
  ∀ file peHdr, PresentedFile img path file peHdr →
    peHdr + 22 ≤ file.length ∧
    AllInBounds heap tlsf kernelBase cr3 (memoryFrom img rest file.data) file.length box
      (loadLE (memoryFrom img rest file.data) (peHdr + 6) 2)
      (peHdr + IMAGE_PE_HEADER_SIZE + loadLE (memoryFrom img rest file.data) (peHdr + 20) 2)
      (exInitPtrBox (some box) s).2

variable {heap tlsf kernelBase cr3 img path box s}

private theorem memoryFrom_holds (offset : Nat) :
    Holds (memoryFrom img rest offset) (img.drop offset) := by
  intro k b here
  rw [List.getElem?_drop] at here
  rw [memoryFrom, here, Option.getD_some]

theorem PresentedFile.run {file : BootpackNode} {peHdr : Nat}
    (presented : PresentedFile img path file peHdr)
    {res : NtStatus × Option (BitVec 64) × BoxState σ τ η}
    (call : keLoadFromBootPack heap tlsf kernelBase cr3 img path (some box) s = some res) :
    ∃ status,
      (loadPe64Accesses heap tlsf kernelBase cr3 (memoryFrom img rest file.data) peHdr box s).2 =
      if status = NtStatus.success then some res.2.2 else none := by
  obtain ⟨slash, name, rfl, root, found⟩ := presented.found
  have got : keBootPackGet img (some (slash :: name)) = some (some file.data) := by
    rw [keBootPackGet, if_neg (not_not.mpr root), found]
  rw [keLoadFromBootPack] at call
  simp only [got, presented.header, Option.bind_eq_bind] at call
  obtain ⟨⟨status, last⟩, loaded, call⟩ := Option.bind_eq_some_iff.mp call
  obtain ⟨entry, _, same⟩ := Option.bind_eq_some_iff.mp call
  obtain rfl := Option.some.inj same
  exact ⟨status, loadPe64Accesses_follows (memoryFrom_holds rest file.data) loaded⟩

variable (heap tlsf kernelBase cr3 img path box s)

/-- loadPe64 stays in bounds exactly for the files whose headers do: nothing that they say is
checked. -/
theorem load_in_bounds_iff :
    LoadInBounds heap tlsf kernelBase cr3 img rest path box s ↔
      FileInBounds heap tlsf kernelBase cr3 img rest path box s := by
  refine forall_congr' fun file => forall_congr' fun peHdr => forall_congr' fun _ => ?_
  exact loadPe64_within (memoryFrom img rest file.data) peHdr box s

/-- The small image, with a section of 8195 bytes of raw data in one page. -/
def overlongPack : List Byte := smallPack.set 141 0x20

private theorem overlongPack_presented :
    PresentedFile overlongPack (some smallPath) ⟨151, 16⟩ 64 where
  found := ⟨⟨0x2F, by decide⟩, [⟨0x78, by decide⟩], rfl, rfl, by decide +kernel⟩
  e_lfanew := by decide +kernel
  header := by decide +kernel

/-- Its copy goes past the end of the page, and reads past the end of the file. -/
theorem overlong_section_overflows :
    ¬LoadInBounds bitmapHeap twoPool 0xFFFF800000000000 0 overlongPack (fun _ => 0)
      (some smallPath) ()
      emptyBox := by
  intro inside
  obtain ⟨_, sections⟩ := (loadPe64_within _ _ _ _).mp (inside _ _ overlongPack_presented)
  have only :
    loadLE (memoryFrom overlongPack (fun _ => 0) 16) (64 + 6) 2 = 0 + 1 := by decide +kernel
  have header : sectionAt (memoryFrom overlongPack (fun _ => 0) 16)
      (64 + IMAGE_PE_HEADER_SIZE + loadLE (memoryFrom overlongPack (fun _ => 0) 16) (64 + 20) 2) =
        ⟨3, 0x1000, 8195, 148⟩ := by decide +kernel
  rw [only, AllInBounds] at sections
  have copied := sections.1.copied
  rw [header] at copied
  obtain ⟨_, _, fits⟩ := copied ((exBoxAllocate_pages _ _ rfl _ rfl).1.mpr
    ⟨by decide, by decide +kernel, by decide +kernel⟩)
  have one : (⟨3, 0x1000, 8195, 148⟩ : ImageSectionHeader).pages = 1 := by
    rw [ImageSectionHeader.pages_eq]
    decide
  rw [one, PAGESIZE] at fits
  exact absurd fits (by decide)

end Files

end Algae.Ke.LoaderBounds
