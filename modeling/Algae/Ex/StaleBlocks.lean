/- Pool blocks are not cleared: what a process name and a new processor's region still show
   of the block that was there before. -/

import Algae.Ex.CreateProcess
import Algae.Platform.MpEntry

set_option autoImplicit false
set_option relaxedAutoImplicit false

namespace Algae.Ex.StaleBlocks

open Algae.Lib.ByteMemory Algae.Rtl.Queue
open Algae.Rtl.String
open Algae.Sdk.Defs Algae.Mm.Frames Algae.Mm.Heap Algae.Ex.Pool Algae.Ex.CreateProcess
open Algae.Ke.Sched (ProcPtr)
open Algae.Platform.Process (SchedState TrapFrame halSchedSwitch)
open Algae.Platform.MpEntry (AP_MAX)
open Algae.Platform.Mmu (PTE_ADDR_MASK)
open Algae.Platform.PageTables (Shared)
open Algae.Platform.InitPcb (Pcb initPcb_created)
open Algae.Platform.AddressSpaces (eightFramesReady eightFrames_fresh)
open Algae.Mm.Phys (PhysState)

/-! Process names. -/

section Names

def fieldBytes (v : BitVec 64) : List Byte := (List.range 8).map fun i => (v >>> (8 * i)).setWidth 8

/-- What a reader of `process->name` sees. The bytes after the name are the padding and the
PCB's first fields; the address of the stack's frame has a zero byte. -/
def nameString (process : Process) : CString :=
  cString ((List.range 36).map process.name ++ fieldBytes process.pcb.vas.cr3 ++
    fieldBytes process.pcb.stackPhysBase)

private theorem rtlStrlen_eq (s : CString) : rtlStrlen s = s.length := by
  induction s with
  | nil => rfl
  | cons c s ih => rw [rtlStrlen, ih, List.length_cons]

private theorem cString_followed (s : CString) (c : Byte) (rest : List Byte) :
    cString (CString.bytes s ++ c :: rest) = s ↔ c = 0 := by
  induction s with
  | nil =>
    rw [CString.bytes, List.map_nil, List.nil_append, cString]
    by_cases zero : c = 0
    · rw [dif_neg (not_not.mpr zero)]
      exact iff_of_true rfl zero
    · rw [dif_pos zero]
      exact iff_of_false (List.cons_ne_nil _ _) zero
  | cons d s ih =>
    rw [CString.bytes, List.map_cons, List.cons_append, cString, dif_pos d.property]
    exact (List.cons_inj_right d).trans ih

def cutName (name : CString) : CString := name.take PROCESS_NAMELEN

def nameEnd (name : CString) : Nat := min PROCESS_NAMELEN name.length

private theorem nameString_eq_iff (name : CString) (process : Process) (stale : Nat → Byte)
    (copied : process.name = rtlMemcpy stale 0 (fun i => (CString.bytes name).getD i 0)
      (min PROCESS_NAMELEN (rtlStrlen name))) :
    nameString process = cutName name ↔ stale (nameEnd name) = 0 := by
  have few : nameEnd name ≤ 32 := Nat.min_le_left _ _
  rw [rtlStrlen_eq, rtlMemcpy_eq_write] at copied
  have bytes : ∀ i, process.name i =
      if i < nameEnd name then (CString.bytes name).getD i 0 else stale i := by
    intro i
    rw [copied, write]
    simp [nameEnd]
  have head :
      ((List.range 36).map process.name).take (nameEnd name) = CString.bytes (cutName name) := by
    apply List.ext_getElem
    · simp only [List.length_take, List.length_map, List.length_range, CString.bytes,
        cutName, nameEnd, PROCESS_NAMELEN]
      omega
    · intro i low _
      have inside : i < nameEnd name := by
        rw [List.length_take] at low
        omega
      have there : i < name.length := lt_of_lt_of_le inside (Nat.min_le_right _ _)
      simp [bytes, inside, CString.bytes, cutName, there]
  have split : (List.range 36).map process.name = CString.bytes (cutName name) ++
      stale (nameEnd name) :: ((List.range 36).map process.name).drop (nameEnd name + 1) := by
    have there : nameEnd name < ((List.range 36).map process.name).length := by
      rw [List.length_map, List.length_range]
      omega
    have next : ((List.range 36).map process.name)[nameEnd name] = stale (nameEnd name) := by
      rw [List.getElem_map, List.getElem_range, bytes, if_neg (lt_irrefl _)]
    rw [← head, ← next, ← List.drop_eq_getElem_cons there, List.take_append_drop]
  rw [nameString, split, List.append_assoc, List.append_assoc, List.cons_append]
  exact cString_followed _ _ _

end Names

section Created

variable {σ τ : Type} {heap : FrameHeap σ} {tlsf : Tlsf τ} {cr3 : BitVec 64}

def withProcess (s : ExState σ τ) (p : Pointer) (b : Process) : ExState σ τ :=
  { s with processes := Function.update s.processes p b }

def SameName (name : CString) (process₁ process₂ : Process) : Prop :=
  nameString process₁ = nameString process₂ ∧ nameString process₁ = cutName name

def createdProcess (heap : FrameHeap σ) (tlsf : Tlsf τ) (cr3 : BitVec 64) (name : CString)
    (flags : BitVec 16) (s : ExState σ τ) (p : Pointer) (b : Process) : Process :=
  (exCreateProcess heap tlsf cr3 (some name) flags (withProcess s p b)).2.2.processes p

private theorem created_name_iff {s : ExState σ τ} {p : Pointer} {b : Process} {name : CString}
    {flags : BitVec 16} (block : (exAllocatePool tlsf PROCESS_SIZE s.pool).1 = some p)
    (made : (exCreateProcess heap tlsf cr3 (some name) flags (withProcess s p b)).1 = .success) :
    nameString (createdProcess heap tlsf cr3 name flags s p b) = cutName name ↔
      b.name (nameEnd name) = 0 := by
  have handed : (exAllocatePool tlsf PROCESS_SIZE (withProcess s p b).pool).1 = some p := block
  obtain ⟨status, _, _, stored⟩ := exCreateProcess_outcome heap cr3 name flags handed _ rfl _ rfl
  obtain ⟨_, _, copied⟩ := stored (status.symm.trans made)
  have stale : (withProcess s p b).processes p = b := Function.update_self _ _ _
  rw [stale] at copied
  exact nameString_eq_iff name _ b.name copied

private theorem same_name_iff {s : ExState σ τ} {p : Pointer} {b₁ b₂ : Process} {name : CString}
    {flags : BitVec 16} (block : (exAllocatePool tlsf PROCESS_SIZE s.pool).1 = some p)
    (made₁ : (exCreateProcess heap tlsf cr3 (some name) flags (withProcess s p b₁)).1 = .success)
    (made₂ : (exCreateProcess heap tlsf cr3 (some name) flags (withProcess s p b₂)).1 = .success) :
    SameName name (createdProcess heap tlsf cr3 name flags s p b₁)
      (createdProcess heap tlsf cr3 name flags s p b₂) ↔
      b₁.name (nameEnd name) = 0 ∧ b₂.name (nameEnd name) = 0 := by
  have first := created_name_iff block made₁
  have second := created_name_iff block made₂
  constructor
  · rintro ⟨same, cut⟩
    exact ⟨first.mp cut, second.mp (same.symm.trans cut)⟩
  · rintro ⟨zero₁, zero₂⟩
    exact ⟨(first.mpr zero₁).trans (second.mpr zero₂).symm, first.mpr zero₁⟩

end Created

/-! Processor regions. -/

/-- What a pool block holds where a KPCR has these fields; `queue` without its lock. -/
structure KpcrBlock where
  rsp0 : BitVec 64
  syscallStack : BitVec 64
  tqh_first : Option ProcPtr
  tqh_last : Link Pointer ProcPtr
  nelem : BitVec 64
  lock : Bool
  curProc : Option ProcPtr
  self : Option Pointer

/-- The machine while application processors come up. KPCRs are named by their addresses. -/
structure ApState (σ τ : Type) where
  frames : σ
  pool : PoolState τ
  apList : List Pointer
  sched : SchedState Pointer
  lock : Pointer → Bool
  self : Pointer → Option Pointer
  rsp0 : Pointer → BitVec 64
  syscallStack : Pointer → BitVec 64

def ApState.withBlock {σ τ : Type} (s : ApState σ τ) (k : Pointer) (b : KpcrBlock) : ApState σ τ :=
  { s with
    sched := { s.sched with
      queues := { s.sched.queues with
        tqh_first := Function.update s.sched.queues.tqh_first k b.tqh_first
        tqh_last := Function.update s.sched.queues.tqh_last k b.tqh_last
        nelem := Function.update s.sched.queues.nelem k b.nelem }
      curProc := Function.update s.sched.curProc k b.curProc }
    lock := Function.update s.lock k b.lock
    self := Function.update s.self k b.self
    rsp0 := Function.update s.rsp0 k b.rsp0
    syscallStack := Function.update s.syscallStack k b.syscallStack }

def KPCR_SIZE : Nat := 8464

section Entry

variable {σ τ : Type} (heap : FrameHeap σ) (tlsf : Tlsf τ) (kernelBase : BitVec 64)

/-- The fields that halCpuInit sets, apart from the descriptor tables, with the kernel stack that
cpuInitTss takes for the task state segment; `none` is the bug check. -/
def halCpuInit (kpcr : Pointer) (s : ApState σ τ) : Option (ApState σ τ) :=
  let s := { s with sched := { s.sched with queues := tailqInit s.sched.queues kpcr } }
  let (rsp0, frames) := heap.mmAllocFrame s.frames 1
  if rsp0 = 0 then
    none
  else
    let rsp0 := BitVec.ofNat 64 rsp0 + BitVec.ofNat 64 PAGESIZE + kernelBase
    let s := { s with frames := frames, rsp0 := Function.update s.rsp0 kpcr rsp0 }
    let s := { s with self := Function.update s.self kpcr (some kpcr) }
    let (syscallStack, frames) := heap.mmAllocFrame s.frames 1
    if syscallStack = 0 then
      none
    else
      let syscallStack :=
        BitVec.ofNat 64 syscallStack + (kernelBase + (BitVec.ofNat 64 PAGESIZE - 1))
      some { s with
        frames := frames
        syscallStack := Function.update s.syscallStack kpcr syscallStack }

/-- The entry of an application processor up to the release of its lock, with the KPCR it
made; `none` is a failed assertion. -/
def mpApEntry (s : ApState σ τ) : Option (Pointer × ApState σ τ) :=
  match exAllocatePool tlsf KPCR_SIZE s.pool with
  | (none, _) => none
  | (some kpcr, pool) =>
    let s := { s with pool := pool, apList := s.apList ++ [kpcr] }
    if s.apList.length < AP_MAX then
      let s := { s with sched := { s.sched with queues := tailqInit s.sched.queues kpcr } }
      (halCpuInit heap kernelBase kpcr s).map fun s => (kpcr, s)
    else
      none

/-- The first switch on the core whose KPCR `gs` points to. A lock that is set and that
nobody holds spins for ever, `none`. -/
def firstSwitch (garbage : Option ProcPtr) (gs : Pointer) (frame : TrapFrame) (s : ApState σ τ) :
    Option (TrapFrame × SchedState Pointer) :=
  match s.self gs with
  | none => halSchedSwitch garbage none frame s.sched
  | some core =>
    if s.lock core = true ∧ (s.sched.curProc core ≠ none ∨ s.sched.queues.nelem core ≠ 0) then
      none
    else
      halSchedSwitch garbage (some core) frame s.sched

variable {heap tlsf kernelBase}

private theorem tailqInit_withBlock (s : ApState σ τ) (k : Pointer) (b : KpcrBlock) :
    tailqInit (s.withBlock k b).sched.queues k = tailqInit s.sched.queues k := by
  simp only [tailqInit, ApState.withBlock, Tailqs.store, Tailqs.setLast, Tailqs.setNelem,
    Function.update_idem]

private theorem mpApEntry_fields {s s' : ApState σ τ} {k k' : Pointer} {b : KpcrBlock}
    (region : (exAllocatePool tlsf KPCR_SIZE s.pool).1 = some k)
    (up : mpApEntry heap tlsf kernelBase (s.withBlock k b) = some (k', s')) :
    k' = k ∧ s'.sched = { s.sched with
      queues := tailqInit (tailqInit s.sched.queues k) k
      curProc := Function.update s.sched.curProc k b.curProc } ∧
    s'.lock k = b.lock ∧ s'.self k = some k := by
  have allocated : exAllocatePool tlsf KPCR_SIZE (s.withBlock k b).pool = (some k, _) :=
    Prod.ext region rfl
  rw [mpApEntry, allocated] at up
  simp only at up
  split at up
  · obtain ⟨final, inited, same⟩ := Option.map_eq_some_iff.mp up
    obtain ⟨rfl, rfl⟩ := Prod.mk.inj same
    rw [halCpuInit] at inited
    simp only at inited
    split at inited
    · cases inited
    · split at inited
      · cases inited
      · obtain rfl := Option.some.inj inited
        refine ⟨rfl, ?_, ?_, ?_⟩
        · simp only [tailqInit_withBlock]
          rfl
        · exact Function.update_self _ _ _
        · exact Function.update_self _ _ _
  · cases up

private theorem mpApEntry_up {s : ApState σ τ} {k : Pointer}
    (region : (exAllocatePool tlsf KPCR_SIZE s.pool).1 = some k)
    (few : (s.apList ++ [k]).length < AP_MAX) (rsp0 : (heap.mmAllocFrame s.frames 1).1 ≠ 0)
    (stack : (heap.mmAllocFrame (heap.mmAllocFrame s.frames 1).2 1).1 ≠ 0) (b : KpcrBlock) :
    ∃ s', mpApEntry heap tlsf kernelBase (s.withBlock k b) = some (k, s') := by
  have allocated : exAllocatePool tlsf KPCR_SIZE (s.withBlock k b).pool = (some k, _) :=
    Prod.ext region rfl
  rw [mpApEntry, allocated]
  simp only
  rw [if_pos (show ((s.withBlock k b).apList ++ [k]).length < AP_MAX from few), halCpuInit]
  simp only
  rw [if_neg (show ¬(heap.mmAllocFrame (s.withBlock k b).frames 1).1 = 0 from rsp0),
    if_neg (show ¬(heap.mmAllocFrame (heap.mmAllocFrame (s.withBlock k b).frames 1).2 1).1 =
      0 from stack)]
  exact ⟨_, rfl⟩

end Entry

section TwoRuns

variable {σ τ : Type} {heap : FrameHeap σ} {tlsf : Tlsf τ} {kernelBase : BitVec 64}

structure SameRegion (k : Pointer) (s₁ s₂ : ApState σ τ) : Prop where
  curProc : s₁.sched.curProc k = s₂.sched.curProc k
  queue : Holds s₁.sched.queues k [] ∧ Holds s₂.sched.queues k []
  lock : s₁.lock k = s₂.lock k
  switch : ∀ garbage frame, firstSwitch garbage k frame s₁ = firstSwitch garbage k frame s₂

private theorem same_region_iff {s s₁ s₂ : ApState σ τ} {k : Pointer} {b₁ b₂ : KpcrBlock}
    (region : (exAllocatePool tlsf KPCR_SIZE s.pool).1 = some k)
    (up₁ : mpApEntry heap tlsf kernelBase (s.withBlock k b₁) = some (k, s₁))
    (up₂ : mpApEntry heap tlsf kernelBase (s.withBlock k b₂) = some (k, s₂)) :
    SameRegion k s₁ s₂ ↔ b₁.curProc = b₂.curProc ∧ b₁.lock = b₂.lock := by
  obtain ⟨_, sched₁, lock₁, self₁⟩ := mpApEntry_fields region up₁
  obtain ⟨_, sched₂, lock₂, self₂⟩ := mpApEntry_fields region up₂
  constructor
  · intro same
    have cur := same.curProc
    have lock := same.lock
    simp only [sched₁, sched₂, Function.update_self] at cur
    rw [lock₁, lock₂] at lock
    exact ⟨cur, lock⟩
  · rintro ⟨cur, lock⟩
    have sched : s₁.sched = s₂.sched := by rw [sched₁, sched₂, cur]
    refine ⟨?_, ⟨?_, ?_⟩, ?_, ?_⟩
    · rw [sched]
    · rw [sched₁]
      exact holds_init _ _
    · rw [sched₂]
      exact holds_init _ _
    · rw [lock₁, lock₂, lock]
    · intro garbage frame
      simp only [firstSwitch, self₁, self₂, lock₁, lock₂, lock, sched]

/-- For every two contents of the blocks, nothing of them shows exactly if the byte after
the copied name was 0, and the stale current process and queue lock were the same. -/
theorem stale_contents_unused_iff {cr3 : BitVec 64} {e : ExState σ τ} {p : Pointer}
    {b₁ b₂ : Process} {name : CString} {flags : BitVec 16}
    (block : (exAllocatePool tlsf PROCESS_SIZE e.pool).1 = some p)
    (made₁ : (exCreateProcess heap tlsf cr3 (some name) flags (withProcess e p b₁)).1 = .success)
    (made₂ : (exCreateProcess heap tlsf cr3 (some name) flags (withProcess e p b₂)).1 = .success)
    {s s₁ s₂ : ApState σ τ} {k : Pointer} {c₁ c₂ : KpcrBlock}
    (region : (exAllocatePool tlsf KPCR_SIZE s.pool).1 = some k)
    (up₁ : mpApEntry heap tlsf kernelBase (s.withBlock k c₁) = some (k, s₁))
    (up₂ : mpApEntry heap tlsf kernelBase (s.withBlock k c₂) = some (k, s₂)) :
    SameName name (createdProcess heap tlsf cr3 name flags e p b₁)
        (createdProcess heap tlsf cr3 name flags e p b₂) ∧ SameRegion k s₁ s₂ ↔
    (b₁.name (nameEnd name) = 0 ∧ b₂.name (nameEnd name) = 0) ∧
      c₁.curProc = c₂.curProc ∧ c₁.lock = c₂.lock :=
  and_congr (same_name_iff block made₁ made₂) (same_region_iff region up₁ up₂)

end TwoRuns

section Blocks

def theBlock : Pointer := ⟨0x10000, frame_sixteen_ne_null⟩

def nameBlock (c : Byte) : Process := { idleProcess with name := fun _ => c }

/-- A processor block that names `curProc` as the current process. -/
def regionBlock (lock : Bool) (curProc : Option ProcPtr) : KpcrBlock :=
  ⟨0xAA, 0xAA, none, .first theBlock, 0xAA, lock, curProc, none⟩

def entryState : ApState {s : PhysState // Ready s} (List Pointer) where
  frames := eightFramesReady
  pool := ⟨true, []⟩
  apList := []
  sched := {
    queues := ⟨fun _ => none, fun _ => .first theBlock, fun _ => 0, fun _ => none,
      fun _ => .first theBlock⟩
    curProc := fun _ => none
    pcb := fun _ => (idleProcess.pcb).toPcb
    cr3 := 0 }
  lock := fun _ => false
  self := fun _ => none
  rsp0 := fun _ => 0
  syscallStack := fun _ => 0

/-- The region that the entry code makes of a block at `theBlock`. -/
def entered (b : KpcrBlock) :
    Option (Pointer × ApState {s : PhysState // Ready s} (List Pointer)) :=
  mpApEntry bitmapHeap onePool 0xFFFF800000000000 (entryState.withBlock theBlock b)

def createdIn (b : Process) : Process :=
  createdProcess bitmapHeap onePool 0 [⟨0x69, by decide⟩] 0
    (createState eightFramesReady) theBlock b

private theorem createdIn_done (b : Process) :
    (exCreateProcess bitmapHeap onePool 0 (some [⟨0x69, by decide⟩]) 0
      (withProcess (createState eightFramesReady) theBlock b)).1 = .success := by
  have block : (exAllocatePool onePool PROCESS_SIZE (createState eightFramesReady).pool).1 =
      some theBlock := by decide +kernel
  have enough : 5 ≤ bitmapHeap.room eightFramesReady := by decide +kernel
  have zero : ((0 : BitVec 64) &&& PTE_ADDR_MASK).toNat = 0 := by decide
  have fresh :
    ∀ t, Shared (bitmapHeap.mem eightFramesReady) ((0 : BitVec 64) &&& PTE_ADDR_MASK).toNat t →
      bitmapHeap.held eightFramesReady (t / PAGESIZE) := by
    rw [zero]
    exact eightFrames_fresh
  obtain ⟨status, _⟩ := exCreateProcess_outcome bitmapHeap 0 [⟨0x69, by decide⟩] 0
    (s := withProcess (createState eightFramesReady) theBlock b) block _ rfl _ rfl
  exact status.trans (initPcb_created _ _ fresh enough).1

private theorem entered_some (b : KpcrBlock) : ∃ s, entered b = some (theBlock, s) := by
  have region : (exAllocatePool onePool KPCR_SIZE entryState.pool).1 = some theBlock := by
    decide +kernel
  have rsp0 : (bitmapHeap.mmAllocFrame eightFramesReady 1).1 ≠ 0 := by decide +kernel
  have stack :
      (bitmapHeap.mmAllocFrame (bitmapHeap.mmAllocFrame eightFramesReady 1).2 1).1 ≠ 0 := by
    decide +kernel
  exact mpApEntry_up region (by decide) rsp0 stack b

theorem stale_contents_unused_iff_clean : ∃ s₁ s₂,
    entered (regionBlock false none) = some (theBlock, s₁) ∧
    entered { regionBlock false none with nelem := 3 } = some (theBlock, s₂) ∧
    SameName [⟨0x69, by decide⟩] (createdIn (nameBlock 0))
      (createdIn { nameBlock 0 with name := fun i => if i = 1 then 0 else 0x41 }) ∧
    SameRegion theBlock s₁ s₂ := by
  obtain ⟨s₁, up₁⟩ := entered_some (regionBlock false none)
  obtain ⟨s₂, up₂⟩ := entered_some { regionBlock false none with nelem := 3 }
  refine ⟨s₁, s₂, up₁, up₂, (stale_contents_unused_iff (by decide +kernel) (createdIn_done _)
    (createdIn_done _) (by decide +kernel) up₁ up₂).mpr ?_⟩
  exact ⟨⟨rfl, by decide⟩, rfl, rfl⟩

/-- What was behind the name shows, and so do the old lock and current process. -/
theorem stale_contents_show : ∃ s₁ s₂,
    entered (regionBlock false none) = some (theBlock, s₁) ∧
    entered (regionBlock true (some ⟨0x7000, by decide⟩)) = some (theBlock, s₂) ∧
    ¬SameName [⟨0x69, by decide⟩] (createdIn (nameBlock 0)) (createdIn (nameBlock 0x41)) ∧
    ¬SameRegion theBlock s₁ s₂ := by
  obtain ⟨s₁, up₁⟩ := entered_some (regionBlock false none)
  obtain ⟨s₂, up₂⟩ := entered_some (regionBlock true (some ⟨0x7000, by decide⟩))
  refine ⟨s₁, s₂, up₁, up₂, ?_, ?_⟩
  · intro same
    have zero :=
      ((same_name_iff (by decide +kernel) (createdIn_done _) (createdIn_done _)).mp same).2
    exact absurd zero (by decide)
  · intro same
    have lock := ((same_region_iff (by decide +kernel) up₁ up₂).mp same).2
    exact absurd lock (by decide)

end Blocks

end Algae.Ex.StaleBlocks
