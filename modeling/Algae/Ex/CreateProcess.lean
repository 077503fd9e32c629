/- Process creation: what is taken from the pool and the frame allocator, and what is
   given back when one of them runs out. -/

import Algae.Ex.Pool
import Algae.Platform.InitPcb

set_option autoImplicit false
set_option relaxedAutoImplicit false

namespace Algae.Ex.CreateProcess

open Algae.Lib.ByteMemory
open Algae.Rtl.String (CString CString.bytes rtlMemcpy)
open Algae.Sdk.Defs Algae.Mm.Frames Algae.Mm.Heap Algae.Ex.Pool
open Algae.Mm.Phys (PhysState)
open Algae.Mm.PhysRuns (eightFrames)
open Algae.Platform.Mmu Algae.Platform.PageTables Algae.Platform.InitPcb
open Algae.Platform.AddressSpaces (eightFramesReady eightFrames_fresh)

def PROCESS_NAMELEN : Nat := 32

def PROCESS_SIZE : Nat := 248

/-- `PROCESS` without its queue link. `name` are the bytes from the name on: 32 of the
array and 4 of padding up to the PCB. -/
structure Process where
  pid : BitVec 32
  name : Nat → Byte
  pcb : Pcb

/-- `processes` is what the pool's memory holds, read as processes. -/
structure ExState (σ τ : Type) where
  frames : σ
  pool : PoolState τ
  nextPid : BitVec 64
  processes : Pointer → Process

def rtlStrlen : CString → Nat
  | [] => 0
  | _ :: s => rtlStrlen s + 1

section Code

variable {σ τ : Type} (heap : FrameHeap σ) (tlsf : Tlsf τ)

def keInitProcess (cr3 : BitVec 64) (process : Option Process) (flags : BitVec 16) (s : σ) :
    NtStatus × Option Process × σ :=
  match process with
  | none => (.invalidHandle, none, s)
  | some process =>
    let (status, pcb, s) := halInitPcb heap cr3 (some process.pcb) flags s
    (status, some { process with pcb := pcb.getD process.pcb }, s)

def exCreateProcess (cr3 : BitVec 64) (name : Option CString) (flags : BitVec 16)
    (s : ExState σ τ) :
    NtStatus × Option Pointer × ExState σ τ :=
  match name with
  | none => (.invalidHandle, none, s)
  | some name =>
    let nameLen := rtlStrlen name
    match exAllocatePool tlsf PROCESS_SIZE s.pool with
    | (none, pool) => (.noMemory, none, { s with pool := pool })
    | (some process, pool) =>
      let block := s.processes process
      let block := { block with
        name := rtlMemcpy block.name 0 (fun i => (CString.bytes name).getD i 0)
          (min PROCESS_NAMELEN nameLen)
        pid := s.nextPid.setWidth 32 }
      let nextPid := s.nextPid + 1
      let (status, inited, frames) := keInitProcess heap cr3 (some block) flags s.frames
      let processes := Function.update s.processes process (inited.getD block)
      if status ≠ .success then
        (status, none, ⟨frames, exFreePool tlsf process pool, nextPid, processes⟩)
      else
        (status, some process, ⟨frames, pool, nextPid, processes⟩)

end Code

section Outcomes

variable {σ τ : Type} (heap : FrameHeap σ) {tlsf : Tlsf τ} (cr3 : BitVec 64) (name : CString)
  (flags : BitVec 16) {s : ExState σ τ}

theorem exCreateProcess_outcome {p : Pointer}
    (block : (exAllocatePool tlsf PROCESS_SIZE s.pool).1 = some p)
    (res : NtStatus × Option Pointer × ExState σ τ)
    (call : res = exCreateProcess heap tlsf cr3 (some name) flags s)
    (inited : NtStatus × Option Pcb × σ)
    (init : inited = halInitPcb heap cr3 (some (s.processes p).pcb) flags s.frames) :
    res.1 = inited.1 ∧ res.2.2.frames = inited.2.2 ∧
    (inited.1 ≠ .success → res.2.2.pool =
      exFreePool tlsf p (exAllocatePool tlsf PROCESS_SIZE s.pool).2) ∧
    (inited.1 = .success → res.2.1 = some p ∧
      (∀ pcb, inited.2.1 = some pcb → (res.2.2.processes p).pcb = pcb) ∧
      (res.2.2.processes p).name = rtlMemcpy (s.processes p).name 0
        (fun i => (CString.bytes name).getD i 0) (min PROCESS_NAMELEN (rtlStrlen name))) := by
  generalize pool : exAllocatePool tlsf PROCESS_SIZE s.pool = allocated at block
  obtain ⟨_, pool'⟩ := allocated
  simp only at block
  subst block
  rw [exCreateProcess] at call
  simp only [pool, keInitProcess, ← init] at call
  by_cases done : inited.1 = .success
  · rw [if_neg (not_not.mpr done)] at call
    subst call
    refine ⟨rfl, rfl, fun failed => absurd done failed, fun _ => ⟨rfl, ?_, ?_⟩⟩
    · intro pcb result
      simp only [Function.update_self, Option.getD_some, result]
    · simp only [Function.update_self, Option.getD_some]
  · rw [if_pos done] at call
    subst call
    exact ⟨rfl, rfl, fun _ => rfl, fun success => absurd success done⟩

private theorem exCreateProcess_no_block
    (block : (exAllocatePool tlsf PROCESS_SIZE s.pool).1 = none) :
    exCreateProcess heap tlsf cr3 (some name) flags s =
      (.noMemory, none, { s with pool := (exAllocatePool tlsf PROCESS_SIZE s.pool).2 }) := by
  have pool : exAllocatePool tlsf PROCESS_SIZE s.pool = (none, _) := Prod.ext block rfl
  rw [exCreateProcess, pool]

private theorem pool_restored {p : Pointer}
    (block : (exAllocatePool tlsf PROCESS_SIZE s.pool).1 = some p) :
    poolUsed tlsf (exFreePool tlsf p (exAllocatePool tlsf PROCESS_SIZE s.pool).2) =
      poolUsed tlsf s.pool := by
  obtain ⟨new, used⟩ := exAllocatePool_taken tlsf block
  rw [poolUsed_exFreePool, used, Set.insert_sdiff_self_of_notMem new]

end Outcomes

section AllOrNothing

variable {σ τ : Type} (heap : FrameHeap σ) (tlsf : Tlsf τ)

/-- A failed creation took nothing; a successful one made an address space with the stack. -/
def AllOrNothing (cr3 : BitVec 64) (before : ExState σ τ)
    (res : NtStatus × Option Pointer × ExState σ τ) : Prop :=
  (res.1 ≠ .success → NothingTaken heap before.frames res.2.2.frames ∧
    poolUsed tlsf res.2.2.pool ⊆ poolUsed tlsf before.pool) ∧
  (res.1 = .success → ∃ p, res.2.1 = some p ∧
    Created heap cr3 before.frames res.2.2.frames (res.2.2.processes p).pcb)

/-- The creation does not run out of frames between the stack and the last page table. -/
def EnoughOrNone (name : Option CString) (s : ExState σ τ) : Prop :=
  name = none ∨
  match (exAllocatePool tlsf PROCESS_SIZE s.pool).1 with
  | none => True
  | some p => heap.room s.frames = 0 ∨ 5 ≤ heap.room s.frames ∨
      (heap.room s.frames = 1 ∧ StaleMisses heap (s.processes p).pcb s.frames)

variable {heap tlsf}

theorem create_all_or_nothing_iff {cr3 : BitVec 64} {s : ExState σ τ}
    (fresh : ∀ t, Shared (heap.mem s.frames) (cr3 &&& PTE_ADDR_MASK).toNat t →
      heap.held s.frames (t / PAGESIZE)) (name : Option CString) (flags : BitVec 16) :
    AllOrNothing heap tlsf cr3 s (exCreateProcess heap tlsf cr3 name flags s) ↔
      EnoughOrNone heap tlsf name s := by
  cases name with
  | none =>
    refine iff_of_true ⟨fun _ => ⟨fun _ held => held, subset_rfl⟩, fun done => ?_⟩ (Or.inl rfl)
    cases done
  | some name =>
    cases block : (exAllocatePool tlsf PROCESS_SIZE s.pool).1 with
    | none =>
      have call := exCreateProcess_no_block heap cr3 name flags block
      refine iff_of_true ⟨fun _ => ?_, fun done => ?_⟩ (Or.inr (by rw [block]; trivial))
      · rw [call]
        exact ⟨fun _ held => held, (exAllocatePool_refused tlsf block).subset⟩
      · rw [call] at done
        cases done
    | some p =>
      have safe : EnoughOrNone heap tlsf (some name) s ↔ heap.room s.frames = 0 ∨
          5 ≤ heap.room s.frames ∨
          (heap.room s.frames = 1 ∧ StaleMisses heap (s.processes p).pcb s.frames) := by
        rw [EnoughOrNone, block]
        exact or_iff_right fun null => by cases null
      obtain ⟨status, frames, pool, made⟩ := exCreateProcess_outcome heap cr3 name flags
        block _ rfl _ rfl
      have undone : (halInitPcb heap cr3 (some (s.processes p).pcb) flags s.frames).1 = .noMemory →
          (AllOrNothing heap tlsf cr3 s (exCreateProcess heap tlsf cr3 (some name) flags s) ↔
            NothingTaken heap s.frames
              (halInitPcb heap cr3 (some (s.processes p).pcb) flags s.frames).2.2) := by
        intro failed
        have short :
            (halInitPcb heap cr3 (some (s.processes p).pcb) flags s.frames).1 ≠ .success := by
          rw [failed]
          decide
        rw [AllOrNothing, status, failed, frames, pool short, pool_restored block]
        simp
      have kept : (halInitPcb heap cr3 (some (s.processes p).pcb) flags s.frames).1 = .success →
          ∀ pcb, (halInitPcb heap cr3 (some (s.processes p).pcb) flags s.frames).2.1 = some pcb →
          (AllOrNothing heap tlsf cr3 s (exCreateProcess heap tlsf cr3 (some name) flags s) ↔
            Created heap cr3 s.frames
              (halInitPcb heap cr3 (some (s.processes p).pcb) flags s.frames).2.2 pcb) := by
        intro done pcb result
        obtain ⟨stored, inited, _⟩ := made done
        rw [AllOrNothing, status, done, frames, stored]
        simp only [ne_eq, not_true_eq_false, false_implies, true_and, true_implies,
          Option.some.injEq, exists_eq_left', inited pcb result]
      rw [safe]
      by_cases none_left : heap.room s.frames = 0
      · obtain ⟨failed, nothing⟩ := initPcb_no_stack cr3 (s.processes p).pcb flags
          none_left
        exact iff_of_true ((undone failed).mpr nothing) (Or.inl none_left)
      · by_cases last : heap.room s.frames = 1
        · obtain ⟨missed, hit⟩ := initPcb_stale cr3 (s.processes p).pcb flags last
          by_cases misses : StaleMisses heap (s.processes p).pcb s.frames
          · obtain ⟨failed, nothing⟩ := missed misses
            exact iff_of_true ((undone failed).mpr nothing) (Or.inr (Or.inr ⟨last, misses⟩))
          · obtain ⟨done, pcb, result, foreign⟩ := hit misses
            refine iff_of_false (mt (kept done pcb result).mp foreign) ?_
            rintro (zero | many | ⟨_, stale⟩)
            · exact none_left zero
            · omega
            · exact misses stale
        · by_cases short : heap.room s.frames < 5
          · obtain ⟨failed, leaked⟩ := initPcb_leaks (s.processes p).pcb flags fresh
              (show 2 ≤ heap.room s.frames by omega) short
            refine iff_of_false (mt (undone failed).mp leaked) ?_
            omega
          · obtain ⟨done, pcb, result, created⟩ := initPcb_created (s.processes p).pcb flags
              fresh (show 5 ≤ heap.room s.frames by omega)
            refine iff_of_true ((kept done pcb result).mpr created) (Or.inr (Or.inl ?_))
            omega

def onePool : Tlsf (List Pointer) := blockTlsf [⟨0x10000, frame_sixteen_ne_null⟩]

def idleProcess : Process := ⟨0, fun _ => 0, ⟨⟨⟨0⟩, zeroFrame⟩, 0⟩⟩

def createState (frames : {s : PhysState // Ready s}) :
    ExState {s : PhysState // Ready s} (List Pointer) :=
  ⟨frames, ⟨true, []⟩, 1, fun _ => idleProcess⟩

theorem create_all_or_nothing_iff_eightFrames :
    AllOrNothing bitmapHeap onePool 0 (createState eightFramesReady)
      (exCreateProcess bitmapHeap onePool 0 (some [⟨0x69, by decide⟩]) 0
      (createState eightFramesReady)) := by
  refine (create_all_or_nothing_iff ?_ _ _).mpr (Or.inr ?_)
  · have zero : ((0 : BitVec 64) &&& PTE_ADDR_MASK).toNat = 0 := by decide
    rw [zero]
    exact eightFrames_fresh
  · have block : (exAllocatePool onePool PROCESS_SIZE (createState eightFramesReady).pool).1 =
        some ⟨0x10000, by decide⟩ := by decide +kernel
    rw [block]
    exact Or.inr (Or.inl (by decide +kernel))

def threeFree : PhysState := { eightFrames with bitmap := fun i => if i = 0 then 0xF1 else 0xFF }

def threeFreeReady : {s : PhysState // Ready s} := ⟨threeFree, by decide, by decide⟩

/-- Out of frames for the page tables, the creation fails and frame 2 stays in use. -/
theorem failed_creation_keeps_pml4 :
    ¬AllOrNothing bitmapHeap onePool 0 (createState threeFreeReady)
      (exCreateProcess bitmapHeap onePool 0 (some [⟨0x69, by decide⟩]) 0
      (createState threeFreeReady)) := by
  intro sound
  have held := (sound.1 (by decide +kernel)).1 2 (fun _ => by decide +kernel) (by decide +kernel)
  exact absurd held (by decide +kernel)

end AllOrNothing

end Algae.Ex.CreateProcess
