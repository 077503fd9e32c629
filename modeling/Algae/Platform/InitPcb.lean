/- Initialising a process control block: the user stack, the address space and the stack's
   mapping, by the number of frames that are left. -/

import Algae.Mm.Page
import Algae.Platform.Process
import Algae.Platform.TableFrames

set_option autoImplicit false
set_option relaxedAutoImplicit false

namespace Algae.Platform.InitPcb

open Algae.Lib.ByteMemory Algae.Lib.FirstFit Algae.Lib.RadixForest
open Algae.Sdk.Defs Algae.Mm.Frames Algae.Mm.Heap Algae.Mm.Page
open Algae.Platform.Mmu Algae.Platform.PageTables Algae.Platform.AddressSpaces
open Algae.Platform.TableFrames
open Algae.Platform.Process (TrapFrame)

def STACK_TOP : BitVec 64 := 0xBFFFFFFF

def PROCESS_KERNEL : BitVec 16 := 1

def KERNEL_CS : BitVec 8 := 0x08
def KERNEL_DS : BitVec 8 := 0x10
def USER_CS : BitVec 8 := 0x18
def USER_DS : BitVec 8 := 0x20

structure Pcb extends Algae.Platform.Process.Pcb where
  stackPhysBase : BitVec 64
  deriving DecidableEq, Repr

def zeroFrame : TrapFrame := ⟨0, 0, 0, 0, 0, 0, 0, 0, 0, 0, 0, 0, 0, 0, 0, 0, 0, 0, 0, 0, 0, 0⟩

section Code

variable {σ : Type} (heap : FrameHeap σ)

/-- `cr3` is the register that mmuCreateVas reads. The status of mmuCreateVas is dropped:
when it fails, `pcb->vas` keeps what it was. -/
def halInitPcb (cr3 : BitVec 64) (pcb : Option Pcb) (flags : BitVec 16) (s : σ) :
    NtStatus × Option Pcb × σ :=
  match pcb with
  | none => (.invalidHandle, none, s)
  | some pcb =>
    let ds := if flags &&& PROCESS_KERNEL ≠ 0 then KERNEL_DS else USER_DS ||| 3
    let cs := if flags &&& PROCESS_KERNEL ≠ 0 then KERNEL_CS else USER_CS ||| 3
    let (stackPhysBase, s) := heap.mmAllocFrame s 1
    let pcb := { pcb with stackPhysBase := BitVec.ofNat 64 stackPhysBase }
    if stackPhysBase = 0 then
      (.noMemory, some pcb, s)
    else
      let pcb := { pcb with
        tf := { zeroFrame with
          cs := cs.setWidth 64
          ss := ds.setWidth 64
          rflags := 0x202
          rsp := STACK_TOP } }
      let (_, vas, s) := mmuCreateVas heap.toFrameSource cr3 s
      let pcb := { pcb with vas := vas.getD pcb.vas }
      let region : MmRegion := ⟨pcb.stackPhysBase, STACK_TOP, BitVec.ofNat 64 PAGESIZE⟩
      let (stackBase, s) :=
        mmMapPages heap.toFrameSource (some pcb.vas) (some region) PAGE_USER_READWRITE s
      if stackBase = 0 then
        (.noMemory, some pcb, heap.mmFreeFrame s pcb.stackPhysBase.toNat 1)
      else
        (.success, some pcb, s)

end Code

def STACK_PAGE : BitVec 64 := alignDown STACK_TOP (BitVec.ofNat 64 PAGESIZE)

theorem stack_page : STACK_PAGE = 0xBFFFF000 := by
  rw [STACK_PAGE, PAGESIZE]
  decide

private theorem stack_lower : Lower STACK_PAGE := by
  rw [stack_page]
  decide

section Steps

variable {σ : Type} {heap : FrameHeap σ} {s : σ}

/-- What halInitPcb does with the stack's page once the stack has a frame. -/
private def stackMapped (heap : FrameHeap σ) (cr3 : BitVec 64) (pcb : Pcb) (s : σ) : NtStatus × σ :=
  let c := mmuCreateVas heap.toFrameSource cr3 (heap.mmAllocFrame s 1).2
  mmuMapSingle heap.toFrameSource (some (c.2.1.getD pcb.vas)) STACK_PAGE
    (alignDown (BitVec.ofNat 64 (heap.mmAllocFrame s 1).1) (BitVec.ofNat 64 PAGESIZE))
    PAGE_USER_READWRITE c.2.2

private theorem halInitPcb_refused (cr3 : BitVec 64) (pcb : Pcb) (flags : BitVec 16)
    (zero : (heap.mmAllocFrame s 1).1 = 0) :
    (halInitPcb heap cr3 (some pcb) flags s).1 = .noMemory ∧
      (halInitPcb heap cr3 (some pcb) flags s).2.2 = (heap.mmAllocFrame s 1).2 := by
  rw [halInitPcb]
  simp only [zero, if_true]
  exact ⟨trivial, trivial⟩

private theorem halInitPcb_mapped (cr3 : BitVec 64) (pcb : Pcb) (flags : BitVec 16)
    (nonzero : (heap.mmAllocFrame s 1).1 ≠ 0) :
    ((stackMapped heap cr3 pcb s).1 ≠ .success →
      (halInitPcb heap cr3 (some pcb) flags s).1 = .noMemory ∧
      (halInitPcb heap cr3 (some pcb) flags s).2.2 =
        heap.mmFreeFrame (stackMapped heap cr3 pcb s).2 (heap.mmAllocFrame s 1).1 1) ∧
    ((stackMapped heap cr3 pcb s).1 = .success →
      (halInitPcb heap cr3 (some pcb) flags s).1 = .success ∧
      (halInitPcb heap cr3 (some pcb) flags s).2.2 = (stackMapped heap cr3 pcb s).2 ∧
      ∃ pcb', (halInitPcb heap cr3 (some pcb) flags s).2.1 = some pcb' ∧
        pcb'.stackPhysBase = BitVec.ofNat 64 (heap.mmAllocFrame s 1).1 ∧
        pcb'.vas = (mmuCreateVas heap.toFrameSource cr3 (heap.mmAllocFrame s 1).2).2.1.getD
          pcb.vas) := by
  have address : (BitVec.ofNat 64 (heap.mmAllocFrame s 1).1).toNat = (heap.mmAllocFrame s 1).1 :=
    (frame_page heap.toFrameSource s nonzero).1.toNat
  have page : (alignDown STACK_TOP (BitVec.ofNat 64 PAGESIZE)) ≠ 0 := by
    rw [← STACK_PAGE, stack_page]
    decide
  refine ⟨fun failed => ?_, fun done => ?_⟩
  · rw [stackMapped, STACK_PAGE] at failed
    rw [halInitPcb, stackMapped]
    simp only [if_neg nonzero, mmMapPages_single, if_pos failed, if_true, address]
    exact ⟨trivial, rfl⟩
  · rw [stackMapped, STACK_PAGE] at done
    rw [halInitPcb, stackMapped]
    simp only [if_neg nonzero, mmMapPages_single, if_neg (not_not.mpr done), if_neg page]
    exact ⟨trivial, rfl, _, rfl, rfl, rfl⟩

end Steps

section Outcomes

variable {σ : Type} {heap : FrameHeap σ} {s : σ} {cr3 : BitVec 64} {pcb : Pcb} {flags : BitVec 16}

def Taken (heap : FrameHeap σ) (before after : σ) (address : BitVec 64) : Prop :=
  ∃ f, address.toNat = f * PAGESIZE ∧ ¬heap.held before f ∧ heap.held after f

/-- The PCB of a process that was just created: an address space of its own that maps the
user stack, and nothing else in the lower half, and shares the upper half. -/
structure Created (heap : FrameHeap σ) (cr3 : BitVec 64) (before after : σ) (pcb : Pcb) : Prop where
  root : Taken heap before after pcb.vas.cr3
  stack : Taken heap before after pcb.stackPhysBase
  lower : ∀ v, Lower v → translate (heap.mem after) pcb.vas.cr3 v =
    if pageOf v = pageOf STACK_PAGE then some
      ⟨pcb.stackPhysBase.toNat, askedRights PAGE_USER_READWRITE⟩
    else none
  upper : ∀ v, Upper v → translate (heap.mem after) pcb.vas.cr3 v = translate
    (heap.mem before) cr3 v

def NothingTaken (heap : FrameHeap σ) (before after : σ) : Prop :=
  ∀ f, heap.held after f → heap.held before f

/-- The stale `pcb->vas`, if it is used, leads to no page table for the stack's page. -/
def StaleMisses (heap : FrameHeap σ) (pcb : Pcb) (s : σ) : Prop :=
  (mmuGetLevelPhys heap.toFrameSource (some pcb.vas) STACK_PAGE .pt false
    (heap.mmAllocFrame s 1).2).1 = 0

theorem initPcb_no_stack (cr3 : BitVec 64) (pcb : Pcb) (flags : BitVec 16)
    (room : heap.room s = 0) :
    (halInitPcb heap cr3 (some pcb) flags s).1 = .noMemory ∧
      NothingTaken heap s (halInitPcb heap cr3 (some pcb) flags s).2.2 := by
  have zero := (heap.room_refused s).mpr room
  obtain ⟨status, state⟩ := halInitPcb_refused cr3 pcb flags zero
  refine ⟨status, fun f held => ?_⟩
  rw [state] at held
  exact (heap.refused_held zero f).mp held

private theorem stack_aligned : alignDown STACK_PAGE (BitVec.ofNat 64 PAGESIZE) = STACK_PAGE := by
  rw [stack_page, PAGESIZE]
  decide

private theorem stale_mapped (cr3 : BitVec 64) (pcb : Pcb) (room : heap.room s = 1) :
    ((stackMapped heap cr3 pcb s).1 = .success ↔ ¬StaleMisses heap pcb s) ∧
    (∀ f, heap.held (stackMapped heap cr3 pcb s).2 f ↔ heap.held (heap.mmAllocFrame s 1).2 f) ∧
    ∀ f, heap.managed (stackMapped heap cr3 pcb s).2 f ↔ heap.managed s f := by
  have left : heap.room (heap.mmAllocFrame s 1).2 = 0 := by rw [heap.room_alloc, room]
  have zero := (heap.room_refused _).mpr left
  have none_left : heap.room (heap.mmAllocFrame (heap.mmAllocFrame s 1).2 1).2 = 0 := by
    rw [heap.room_alloc, left]
  have call := (mmuCreateVas_refused zero : mmuCreateVas _ cr3 _ = _)
  have lookup := descend_exhausted (v := STACK_PAGE) MapLevel.pt.above pcb.vas.cr3.toNat none_left
  have memory := descend_lookup_congr (v := STACK_PAGE) MapLevel.pt.above pcb.vas.cr3.toNat
    (heap.refused_mem _ 1 zero)
  refine ⟨?_, ?_, ?_⟩
  · rw [stackMapped, call]
    simp only [Option.getD_none]
    rw [mmuMapSingle_success, stack_aligned, StaleMisses]
    simp only [mmuGetLevelPhys]
    rw [lookup.1, memory]
  · intro f
    rw [stackMapped, call, mmuMapSingle]
    simp only [Option.getD_none, stack_aligned, mmuGetLevelPhys]
    split
    · rw [lookup.2, heap.refused_held zero]
    · rw [held_setEntry, lookup.2, heap.refused_held zero]
  · intro f
    rw [stackMapped, call, mmuMapSingle]
    simp only [Option.getD_none, stack_aligned, mmuGetLevelPhys]
    split
    · rw [managed_descend, heap.managed_alloc, heap.managed_alloc]
    · rw [setEntry, heap.managed_setMem, managed_descend, heap.managed_alloc, heap.managed_alloc]

private theorem stack_frame_misses (nonzero : (heap.mmAllocFrame s 1).1 ≠ 0)
    (same : pcb.vas.cr3.toNat = (heap.mmAllocFrame s 1).1) : StaleMisses heap pcb s := by
  obtain ⟨_, _, _, empty⟩ := frame_page heap.toFrameSource s nonzero
  have absent : has (entry (heap.mem (heap.mmAllocFrame s 1).2) pcb.vas.cr3.toNat
      (hwIndex STACK_PAGE .pml4)) PTE_P = false := by
    rw [same, empty _ (hwIndex_lt _ _)]
    decide
  rw [StaleMisses]
  simp only [mmuGetLevelPhys, MapLevel.above, descend_missing absent]

/-- With one frame left the call fails, and gives it back, exactly if the stale address
space misses; otherwise it succeeds without an address space of its own. -/
theorem initPcb_stale (cr3 : BitVec 64) (pcb : Pcb) (flags : BitVec 16) (room : heap.room s = 1) :
    (StaleMisses heap pcb s → (halInitPcb heap cr3 (some pcb) flags s).1 = .noMemory ∧
      NothingTaken heap s (halInitPcb heap cr3 (some pcb) flags s).2.2) ∧
    (¬StaleMisses heap pcb s → (halInitPcb heap cr3 (some pcb) flags s).1 = .success ∧
      ∃ pcb', (halInitPcb heap cr3 (some pcb) flags s).2.1 = some pcb' ∧
        ¬Created heap cr3 s (halInitPcb heap cr3 (some pcb) flags s).2.2 pcb') := by
  have nonzero : (heap.mmAllocFrame s 1).1 ≠ 0 := by
    rw [ne_eq, heap.room_refused, room]
    decide
  obtain ⟨failed, done⟩ := halInitPcb_mapped cr3 pcb flags nonzero
  obtain ⟨status, held, managed⟩ := stale_mapped cr3 pcb room
  refine ⟨fun misses => ?_, fun hits => ?_⟩
  · obtain ⟨refused, state⟩ := failed fun success => status.mp success misses
    refine ⟨refused, fun f after => ?_⟩
    rw [state] at after
    exact heap.free_taken nonzero (held f).mp managed after
  · obtain ⟨success, state, pcb', result, _, vas⟩ := done (status.mpr hits)
    refine ⟨success, pcb', result, fun created => ?_⟩
    obtain ⟨f, root, free, taken⟩ := created.root
    have left : heap.room (heap.mmAllocFrame s 1).2 = 0 := by rw [heap.room_alloc, room]
    have call := @mmuCreateVas_refused _ heap.toFrameSource cr3 _ ((heap.room_refused _).mpr left)
    rw [call, Option.getD_none] at vas
    rw [state, held f] at taken
    obtain ⟨page, _⟩ := frame_page heap.toFrameSource s nonzero
    rcases heap.grown s 1 f taken with before | ⟨_, first, last⟩
    · exact free before
    · obtain rfl : f = (heap.mmAllocFrame s 1).1 / PAGESIZE := by omega
      rw [vas, ← page.aligned] at root
      exact hits (stack_frame_misses nonzero root)

end Outcomes

section Space

variable {σ : Type} {heap : FrameHeap σ} {s : σ} {cr3 : BitVec 64} {pcb : Pcb} {flags : BitVec 16}

private theorem space_made
    (fresh : ∀ t, Shared (heap.mem s) (cr3 &&& PTE_ADDR_MASK).toNat t → heap.held s (t / PAGESIZE))
    (room : 2 ≤ heap.room s) :
    ∃ p s₂, mmuCreateVas heap.toFrameSource cr3 (heap.mmAllocFrame s 1).2 =
        (.success, some ⟨BitVec.ofNat 64 p⟩, s₂) ∧
      IsPage p ∧ ¬heap.held (heap.mmAllocFrame s 1).2 (p / PAGESIZE) ∧ heap.held s₂ (p / PAGESIZE) ∧
      heap.room s₂ = heap.room s - 2 ∧
      has (entry (heap.mem s₂) p (hwIndex STACK_PAGE .pml4)) PTE_P = false ∧
      Spaces heap.toFrameSource (heap.mem s) (cr3 &&& PTE_ADDR_MASK).toNat {p} s₂ ∧
      ∀ v, Lower v → leafEntry (heap.mem s₂) p v = 0 := by
  have begun : Spaces heap.toFrameSource (heap.mem s) (cr3 &&& PTE_ADDR_MASK).toNat ∅ s :=
    Spaces.start (isPage_mask cr3) fresh
  obtain ⟨inv, _⟩ := begun.alloc 1
  have nonzero : (heap.mmAllocFrame (heap.mmAllocFrame s 1).2 1).1 ≠ 0 := by
    rw [ne_eq, heap.room_refused, heap.room_alloc]
    omega
  have call := @mmuCreateVas_made _ heap.toFrameSource cr3 _ nonzero
  rcases mmuCreateVas_spec inv (Or.inl rfl) _ rfl with ⟨refused, _⟩ | ⟨p, _, vas, _, _,
    made, _, empty⟩
  · rw [call] at refused
    cases refused
  obtain ⟨page, unheld, held, _⟩ := frame_page heap.toFrameSource _ nonzero
  rw [call] at vas made empty
  obtain rfl : (heap.mmAllocFrame (heap.mmAllocFrame s 1).2 1).1 = p := by
    have same := congrArg (fun vas => vas.cr3.toNat) (Option.some.inj vas)
    simp only at same
    rwa [page.toNat, (made.root_page (Set.mem_insert _ _)).toNat] at same
  rw [insert_empty_eq] at made
  have boot : heap.held (heap.mmAllocFrame s 1).2 ((cr3 &&& PTE_ADDR_MASK).toNat / PAGESIZE) :=
    heap.stays_held s 1 _ (fresh _ ⟨0, Or.inl rfl⟩)
  have apart :
      (cr3 &&& PTE_ADDR_MASK).toNat ≠ (heap.mmAllocFrame (heap.mmAllocFrame s 1).2 1).1 := by
    intro same
    rw [same] at boot
    exact unheld boot
  obtain ⟨_, _, copied⟩ := copyUpper_spec heap.toFrameSource
    (heap.mmAllocFrame (heap.mmAllocFrame s 1).2 1).2 page.aligned (isPage_mask cr3).aligned apart
    (le_refl 512)
  refine ⟨_, _, call, page, unheld, (copyUpper_held _ _ _ _ _).mpr held, ?_, ?_, made, empty⟩
  · rw [room_copyUpper, heap.room_alloc, heap.room_alloc]
    omega
  · rw [copied _ (hwIndex_lt _ _), if_pos stack_lower.pml4]
    decide

private theorem stackMapped_made (pcb : Pcb) {vas : MmuVas} {status : NtStatus} {s₂ : σ}
    (call : mmuCreateVas heap.toFrameSource cr3 (heap.mmAllocFrame s 1).2 =
    (status, some vas, s₂)) :
    stackMapped heap cr3 pcb s = mmuMapSingle heap.toFrameSource (some vas) STACK_PAGE
      (alignDown (BitVec.ofNat 64 (heap.mmAllocFrame s 1).1) (BitVec.ofNat 64 PAGESIZE))
      PAGE_USER_READWRITE s₂ := by
  rw [stackMapped, call]
  rfl

theorem initPcb_leaks (pcb : Pcb) (flags : BitVec 16)
    (fresh : ∀ t, Shared (heap.mem s) (cr3 &&& PTE_ADDR_MASK).toNat t → heap.held s (t / PAGESIZE))
    (some_room : 2 ≤ heap.room s) (short : heap.room s < 5) :
    (halInitPcb heap cr3 (some pcb) flags s).1 = .noMemory ∧
      ¬NothingTaken heap s (halInitPcb heap cr3 (some pcb) flags s).2.2 := by
  have nonzero : (heap.mmAllocFrame s 1).1 ≠ 0 := by
    rw [ne_eq, heap.room_refused]
    omega
  obtain ⟨p, s₂, call, page, unheld, held, room, absent, _⟩ := space_made fresh some_room
  have mapped := stackMapped_made pcb call
  have refused : (stackMapped heap cr3 pcb s).1 ≠ .success := by
    rw [mapped, ne_eq, mmuMapSingle_rooted page held absent, room]
    omega
  obtain ⟨status, state⟩ := (halInitPcb_mapped cr3 pcb flags nonzero).1 refused
  refine ⟨status, fun nothing => ?_⟩
  obtain ⟨stack, _, stack_held, _⟩ := frame_page heap.toFrameSource s nonzero
  have before : ¬heap.held s (p / PAGESIZE) := fun old => unheld (heap.stays_held s 1 _ old)
  refine before (nothing _ ?_)
  obtain ⟨i, ret, limit, _⟩ := heap.fresh s 1 nonzero
  rw [state, ret, heap.freed _ i 1 _ (index_pos nonzero ret) (block_fits limit)]
  refine ⟨?_, ?_⟩
  · rw [mapped]
    exact mmuMapSingle_held held
  · rintro ⟨_, first, last⟩
    obtain rfl : i = p / PAGESIZE := by omega
    rw [ret, Nat.mul_div_cancel _ page_pos] at stack_held
    exact unheld stack_held

theorem initPcb_created (pcb : Pcb) (flags : BitVec 16)
    (fresh : ∀ t, Shared (heap.mem s) (cr3 &&& PTE_ADDR_MASK).toNat t → heap.held s (t / PAGESIZE))
    (enough : 5 ≤ heap.room s) :
    (halInitPcb heap cr3 (some pcb) flags s).1 = .success ∧
      ∃ pcb', (halInitPcb heap cr3 (some pcb) flags s).2.1 = some pcb' ∧
        Created heap cr3 s (halInitPcb heap cr3 (some pcb) flags s).2.2 pcb' := by
  have nonzero : (heap.mmAllocFrame s 1).1 ≠ 0 := by
    rw [ne_eq, heap.room_refused]
    omega
  obtain ⟨p, s₂, call, page, unheld, held, room, absent, inv, leaves⟩ := space_made fresh (by omega)
  obtain ⟨stack, stack_free, stack_held, _⟩ := frame_page heap.toFrameSource s nonzero
  obtain ⟨inv₃, outcome⟩ := mmuMapSingle_spec inv rfl stack_lower
    (alignDown (BitVec.ofNat 64 (heap.mmAllocFrame s 1).1) (BitVec.ofNat 64 PAGESIZE))
    PAGE_USER_READWRITE _ rfl
  have mapped := stackMapped_made pcb call
  rw [← mapped] at inv₃ outcome
  have success : (stackMapped heap cr3 pcb s).1 = .success := by
    rw [mapped, mmuMapSingle_rooted page held absent, room]
    omega
  rcases outcome with ⟨refused, _⟩ | ⟨_, updated⟩
  · rw [success] at refused
    cases refused
  obtain ⟨status, state, pcb', result, base, vas⟩ :=
    (halInitPcb_mapped cr3 pcb flags nonzero).2 success
  rw [call, Option.getD_some] at vas
  refine ⟨status, pcb', result, ?_⟩
  rw [state]
  have kept : ∀ f, heap.held (heap.mmAllocFrame s 1).2 f →
      heap.held (stackMapped heap cr3 pcb s).2 f := by
    intro f before
    have made :
      s₂ = (mmuCreateVas heap.toFrameSource cr3 (heap.mmAllocFrame s 1).2).2.2 := by rw [call]
    rw [mapped]
    refine mmuMapSingle_held ?_
    rw [made, mmuCreateVas_made (by rw [ne_eq, heap.room_refused, heap.room_alloc]; omega),
      copyUpper_held]
    exact heap.stays_held _ 1 f before
  refine ⟨?_, ?_, ?_, ?_⟩
  · refine ⟨p / PAGESIZE, ?_, fun old => unheld (heap.stays_held s 1 _ old), ?_⟩
    · rw [vas, page.toNat]
      exact page.aligned
    · rw [mapped]
      exact mmuMapSingle_held held
  · refine ⟨(heap.mmAllocFrame s 1).1 / PAGESIZE, ?_, stack_free, kept _ stack_held⟩
    rw [base, stack.toNat]
    exact stack.aligned
  · intro v lower
    rw [vas, inv₃.translate_lower lower rfl, updated p rfl v lower, leaves v lower]
    by_cases same : pageOf v = pageOf STACK_PAGE
    · have aligned := stack.aligned
      have limit := stack.limit
      rw [PAGESIZE] at aligned
      have address : (alignDown (BitVec.ofNat 64 (heap.mmAllocFrame s 1).1)
          (BitVec.ofNat 64 PAGESIZE)).toNat = (heap.mmAllocFrame s 1).1 := by
        rw [alignDown_toNat, stack.toNat]
        exact aligned.symm
      rw [if_pos ⟨rfl, same⟩, if_pos same, leafTranslation_leafFor (by rwa [address]),
        address, base, stack.toNat, ← aligned]
    · rw [if_neg (fun h => same h.2), if_neg same]
      decide
  · intro v upper
    rw [vas, inv₃.translate_upper upper rfl]
    rfl

end Space

end Algae.Platform.InitPcb
