/- The five places that turn a frame into a stack: whether pushes from the pointer they
   install stay in the frame. -/

import Algae.Platform.ApStart
import Algae.Platform.InitPcb

set_option autoImplicit false
set_option relaxedAutoImplicit false

namespace Algae.Platform.Stacks

open Algae.Lib.ByteMemory Algae.Lib.FirstFit
open Algae.Sdk.Defs Algae.Mm.Frames Algae.Mm.Heap Algae.Mm.Page
open Algae.Platform.Mmu Algae.Platform.PageTables Algae.Platform.AddressSpaces
open Algae.Platform.TableFrames Algae.Platform.InitPcb
open Algae.Platform.Mp Algae.Platform.ApStart
open Algae.Mm.Phys (PhysState mmAllocFrame mmAllocFrame_takes)
open Algae.Mm.PhysRuns (eightFrames)

def STACK_SIZE_PAGES : Nat := 1

structure TssStack where
  stackLow : BitVec 32
  stackHigh : BitVec 32
  deriving DecidableEq, Repr

def TssStack.stackBase (stack : TssStack) : BitVec 64 := stack.stackHigh ++ stack.stackLow

def TssStack.ofBase (stackBase : BitVec 64) : TssStack :=
  ⟨stackBase.setWidth 32, (stackBase >>> 32).setWidth 32⟩

/-- The stack pointers of the task state segment; `istLo i` and `istHi i` are the fields
of the entry with number `i + 1`. -/
structure TssEntry where
  rsp0Lo : BitVec 32
  rsp0Hi : BitVec 32
  istLo : Fin 7 → BitVec 32
  istHi : Fin 7 → BitVec 32

def TssEntry.rsp0 (tss : TssEntry) : BitVec 64 := tss.rsp0Hi ++ tss.rsp0Lo

def TssEntry.ist (tss : TssEntry) (i : Fin 7) : BitVec 64 := tss.istHi i ++ tss.istLo i

section Code

def allocKernelStack (kernelBase : BitVec 64) (entry : TssEntry) (s : PhysState) :
    Option TssEntry × PhysState :=
  let (rsp0, s) := mmAllocFrame s STACK_SIZE_PAGES
  if rsp0 = 0 then
    (none, s)
  else
    let rsp0 := BitVec.ofNat 64 rsp0 + BitVec.ofNat 64 (STACK_SIZE_PAGES * PAGESIZE)
    let rsp0 := rsp0 + kernelBase
    (some { entry with
      rsp0Lo := (rsp0 &&& 0xFFFFFFFF).setWidth 32
      rsp0Hi := ((rsp0 >>> 32) &&& 0xFFFFFFFF).setWidth 32 }, s)

def tssAllocateStack (kernelBase : BitVec 64) (result : Option TssStack) (s : PhysState) :
    NtStatus × Option TssStack × PhysState :=
  match result with
  | none => (.invalidHandle, none, s)
  | some _ =>
    let (stackBase, s) := mmAllocFrame s STACK_SIZE_PAGES
    if stackBase = 0 then
      (.noMemory, some (.ofBase 0), s)
    else
      (.success, some (.ofBase (physToVirt kernelBase (BitVec.ofNat 64 stackBase))), s)

def tssSetIntrStack (kpcr : Option TssEntry) (istNumber : BitVec 8) (stack : Option TssStack) :
    NtStatus × Option TssEntry :=
  match kpcr, stack with
  | some tss, some stack =>
    if low : istNumber.toNat < 7 then
      (.success, some { tss with
        istLo := Function.update tss.istLo ⟨istNumber.toNat, low⟩ stack.stackLow
        istHi := Function.update tss.istHi ⟨istNumber.toNat, low⟩ stack.stackHigh })
    else
      (.invalidParam, some tss)
  | kpcr, _ => (.invalidHandle, kpcr)

/-- The end of halCpuInit: `mcb->syscallStack`, or the bug check. -/
def syscallStack (kernelBase : BitVec 64) (s : PhysState) : Option (BitVec 64) × PhysState :=
  let (frame, s) := mmAllocFrame s 1
  if frame = 0 then
    (none, s)
  else
    (some (BitVec.ofNat 64 frame + (kernelBase + BitVec.ofNat 64 (PAGESIZE - 1))), s)

end Code

/-! Which memory an address of each kind is. -/

def directMap (kernelBase a : BitVec 64) : Option Nat := some (virtToPhys kernelBase a).toNat

/-- An address while the trampoline runs: low memory is mapped to itself. -/
def lowMap (a : BitVec 64) : Option Nat := some a.toNat

def userMap (m : Mem) (cr3 a : BitVec 64) : Option Nat :=
  (translate m cr3 a).map fun t => t.phys + a.toNat % PAGESIZE

inductive StackSite
  | rsp0
  | interrupt (i : Fin 7)
  | boot
  | syscall
  | user
  deriving DecidableEq, Repr

/-- `sp` is installed as the stack pointer of a stack whose frame is at `base`; `phys`
is what its addresses mean there. -/
inductive Installed (kernelBase : BitVec 64) :
    StackSite → BitVec 64 → Nat → (BitVec 64 → Option Nat) → Prop
  | rsp0 {s s' : PhysState} {entry entry' : TssEntry} (bound : s.highestFrameIdx < 0x10000000000000)
      (call : allocKernelStack kernelBase entry s = (some entry', s')) :
      Installed kernelBase .rsp0 entry'.rsp0 (mmAllocFrame s 1).1 (directMap kernelBase)
  | interrupt {s s' : PhysState} {result stack : TssStack} {tss tss' : TssEntry}
      {istNumber : BitVec 8} {i : Fin 7} (bound : s.highestFrameIdx < 0x10000000000000)
      (allocated : tssAllocateStack kernelBase (some result) s = (.success, some stack, s'))
      (set : tssSetIntrStack (some tss) istNumber (some stack) = (.success, some tss'))
      (index : istNumber.toNat = i) :
      Installed kernelBase (.interrupt i) (tss'.ist i) (mmAllocFrame s 1).1 (directMap kernelBase)
  | boot {s t : PhysState} {arg apicId base : Nat} {bootstrap : Bootstrap}
      (bound : s.highestFrameIdx < 0x10000000000000) (other : apicId ≠ arg)
      (frame : (mmAllocFrame { s with
        mem := storeLE (storeLE s.mem BOOTSTRAP_DESC_BASE 8 bootstrap.pml4Pa)
          (BOOTSTRAP_DESC_BASE + 8) 8 bootstrap.entryPa } 1).1 = base)
      (done : localApicLookup arg bootstrap s apicId = some t) :
      Installed kernelBase .boot (BitVec.ofNat 64 (loadStackBase t)) base lowMap
  | syscall {s s' : PhysState} {sp : BitVec 64} (bound : s.highestFrameIdx < 0x10000000000000)
      (call : syscallStack kernelBase s = (some sp, s')) :
      Installed kernelBase .syscall sp (mmAllocFrame s 1).1 (directMap kernelBase)
  | user {σ : Type} {heap : FrameHeap σ} {s s' : σ} {cr3 : BitVec 64} {pcb pcb' : Pcb}
      {flags : BitVec 16} (tables : ∀ t, Shared (heap.mem s) (cr3 &&& PTE_ADDR_MASK).toNat t →
        heap.held s (t / PAGESIZE))
      (made : (mmuCreateVas heap.toFrameSource cr3 (heap.mmAllocFrame s 1).2).1 = .success)
      (call : halInitPcb heap cr3 (some pcb) flags s = (.success, some pcb', s')) :
      Installed kernelBase .user pcb'.tf.rsp (heap.mmAllocFrame s 1).1
        (userMap (heap.mem s') pcb'.vas.cr3)

/-- Every byte of every push, up to PAGESIZE - 8 bytes of them, is one of the frame. -/
def StaysInside (phys : BitVec 64 → Option Nat) (sp : BitVec 64) (base : Nat) : Prop :=
  ∀ k b, 1 ≤ k → 8 * k ≤ PAGESIZE - 8 → b < 8 →
    ∃ x, phys (sp - BitVec.ofNat 64 (8 * k) + BitVec.ofNat 64 b) = some x ∧
      base ≤ x ∧ x < base + PAGESIZE

/-- The sites that start at the end of the frame, or a byte before it. -/
def StackSite.StartsAtTop : StackSite → Prop
  | .rsp0 | .syscall | .user => True
  | .interrupt _ | .boot => False

section Words

private theorem low_half (y : BitVec 64) : (y &&& 0xFFFFFFFF).setWidth 32 = y.setWidth 32 := by
  have ones : (0xFFFFFFFF : BitVec 64).setWidth 32 = BitVec.allOnes 32 := by decide
  rw [BitVec.setWidth_and, ones, BitVec.and_allOnes]

theorem halves (x : BitVec 64) : (x >>> 32).setWidth 32 ++ x.setWidth 32 = x := by
  apply BitVec.eq_of_getLsbD_eq
  intro i hi
  by_cases low : i < 32
  · rw [BitVec.getLsbD_append, if_pos low]
    simp [low]
  · have back : 32 + (i - 32) = i := by omega
    have small : i - 32 < 32 := by omega
    rw [BitVec.getLsbD_append, if_neg low]
    simp [back, small]

@[simp] theorem TssStack.stackBase_ofBase (stackBase : BitVec 64) :
    (TssStack.ofBase stackBase).stackBase = stackBase := halves stackBase

private theorem pushed_direct (kernelBase : BitVec 64) {base off k b : Nat}
    (below : 8 * k ≤ base + off) :
    virtToPhys kernelBase (BitVec.ofNat 64 (base + off) + kernelBase - BitVec.ofNat 64 (8 * k) +
      BitVec.ofNat 64 b) = BitVec.ofNat 64 (base + off - 8 * k + b) := by
  rw [virtToPhys]
  bv_omega

end Words

section Sites

variable {kernelBase : BitVec 64}

private theorem frame_base {s : PhysState} (bound : s.highestFrameIdx < 0x10000000000000)
    (nonzero : (mmAllocFrame s 1).1 ≠ 0) :
    8 ≤ (mmAllocFrame s 1).1 ∧ (mmAllocFrame s 1).1 + PAGESIZE ≤ 0x10000000000000000 := by
  obtain ⟨i, ret, fits, _⟩ := mmAllocFrame_takes bound (by norm_num) nonzero
  rw [ret] at nonzero ⊢
  rw [PAGESIZE] at *
  omega

private theorem direct_top {base off : Nat} (limit : base + PAGESIZE ≤ 0x10000000000000000)
    (low : PAGESIZE - 1 ≤ off) (high : off ≤ PAGESIZE) :
    StaysInside (directMap kernelBase) (BitVec.ofNat 64 (base + off) + kernelBase) base := by
  intro k b _ short byte
  rw [PAGESIZE] at *
  have below : 8 * k ≤ base + off := by omega
  have small : base + off - 8 * k + b < 2 ^ 64 := by
    norm_num
    omega
  refine ⟨base + off - 8 * k + b, ?_, by omega, by omega⟩
  rw [directMap, pushed_direct kernelBase below, BitVec.toNat_ofNat, Nat.mod_eq_of_lt small]

private theorem base_outside {phys : BitVec 64 → Option Nat} {sp : BitVec 64} {base : Nat}
    (some_base : 8 ≤ base) (first : phys (sp - BitVec.ofNat 64 (8 * 1) + BitVec.ofNat 64 0) =
      some (base - 8)) : ¬StaysInside phys sp base := by
  intro inside
  obtain ⟨x, at_x, above, _⟩ := inside 1 0 le_rfl (by rw [PAGESIZE]; decide) (by decide)
  obtain rfl := Option.some.inj (first.symm.trans at_x)
  omega

private theorem direct_bottom {base : Nat} (some_base : 8 ≤ base)
    (limit : base + PAGESIZE ≤ 0x10000000000000000) :
    ¬StaysInside (directMap kernelBase) (BitVec.ofNat 64 base + kernelBase) base := by
  apply base_outside some_base
  have small : base - 8 < 2 ^ 64 := by
    norm_num
    rw [PAGESIZE] at limit
    omega
  have first := @pushed_direct kernelBase base 0 1 0 some_base
  rw [Nat.add_zero, Nat.add_zero] at first
  rw [directMap, first, BitVec.toNat_ofNat, Nat.mod_eq_of_lt small]

private theorem rsp0_inside {s s' : PhysState} {entry entry' : TssEntry}
    (bound : s.highestFrameIdx < 0x10000000000000)
    (call : allocKernelStack kernelBase entry s = (some entry', s')) :
    StaysInside (directMap kernelBase) entry'.rsp0 (mmAllocFrame s 1).1 := by
  have pages : STACK_SIZE_PAGES = 1 := rfl
  rw [allocKernelStack, pages] at call
  simp only at call
  split at call
  · cases (Prod.mk.inj call).1
  · rename_i nonzero
    obtain ⟨_, limit⟩ := frame_base bound nonzero
    obtain rfl := Option.some.inj (Prod.mk.inj call).1
    rw [TssEntry.rsp0, low_half, low_half, halves, Nat.one_mul, ← BitVec.ofNat_add]
    exact direct_top limit (Nat.sub_le _ _) le_rfl

private theorem syscall_inside {s s' : PhysState} {sp : BitVec 64}
    (bound : s.highestFrameIdx < 0x10000000000000)
    (call : syscallStack kernelBase s = (some sp, s')) :
    StaysInside (directMap kernelBase) sp (mmAllocFrame s 1).1 := by
  rw [syscallStack] at call
  simp only at call
  split at call
  · cases (Prod.mk.inj call).1
  · rename_i nonzero
    obtain ⟨_, limit⟩ := frame_base bound nonzero
    obtain rfl := Option.some.inj (Prod.mk.inj call).1
    rw [BitVec.add_comm kernelBase, ← BitVec.add_assoc, ← BitVec.ofNat_add]
    exact direct_top limit le_rfl (Nat.sub_le _ _)

private theorem interrupt_outside {s s' : PhysState} {result stack : TssStack} {tss tss' : TssEntry}
    {istNumber : BitVec 8} {i : Fin 7} (bound : s.highestFrameIdx < 0x10000000000000)
    (allocated : tssAllocateStack kernelBase (some result) s = (.success, some stack, s'))
    (set : tssSetIntrStack (some tss) istNumber (some stack) = (.success, some tss'))
    (index : istNumber.toNat = i) :
    ¬StaysInside (directMap kernelBase) (tss'.ist i) (mmAllocFrame s 1).1 := by
  have pages : STACK_SIZE_PAGES = 1 := rfl
  rw [tssAllocateStack, pages] at allocated
  simp only at allocated
  split at allocated
  · cases (Prod.mk.inj allocated).1
  · rename_i nonzero
    obtain ⟨some_base, limit⟩ := frame_base bound nonzero
    obtain rfl := Option.some.inj (Prod.mk.inj (Prod.mk.inj allocated).2).1
    have low : istNumber.toNat < 7 := index ▸ i.isLt
    obtain rfl : i = ⟨istNumber.toNat, low⟩ := Fin.ext index.symm
    rw [tssSetIntrStack] at set
    simp only [dif_pos low] at set
    obtain rfl := Option.some.inj (Prod.mk.inj set).2
    simp only [TssEntry.ist, Function.update_self]
    rw [← TssStack.stackBase, TssStack.stackBase_ofBase, physToVirt]
    exact direct_bottom some_base limit

private theorem boot_frame {s t : PhysState} {arg apicId base : Nat}
    {bootstrap : Bootstrap} (bound : s.highestFrameIdx < 0x10000000000000) (other : apicId ≠ arg)
    (frame : (mmAllocFrame { s with
      mem := storeLE (storeLE s.mem BOOTSTRAP_DESC_BASE 8 bootstrap.pml4Pa)
        (BOOTSTRAP_DESC_BASE + 8) 8 bootstrap.entryPa } 1).1 = base)
    (done : localApicLookup arg bootstrap s apicId = some t) :
    loadStackBase t = base ∧ 8 ≤ base ∧ base + PAGESIZE ≤ 0x10000000000000000 := by
  rw [localApicLookup, if_neg other] at done
  simp only [frame] at done
  split at done
  · cases done
  · rename_i nonzero
    obtain rfl := Option.some.inj done
    set s1 := { s with
      mem := storeLE (storeLE s.mem BOOTSTRAP_DESC_BASE 8 bootstrap.pml4Pa)
        (BOOTSTRAP_DESC_BASE + 8) 8 bootstrap.entryPa }
    have limits : 8 ≤ base ∧ base + PAGESIZE ≤ 0x10000000000000000 := by
      have returned := frame_base (s := s1) bound (frame ▸ nonzero)
      rwa [frame] at returned
    have word : base < 256 ^ 8 := by
      norm_num
      rw [PAGESIZE] at limits
      omega
    refine ⟨?_, limits⟩
    change loadLE (storeLE _ (BOOTSTRAP_DESC_BASE + 16) 8 _) (BOOTSTRAP_DESC_BASE + 16) 8 = _
    rw [loadLE_storeLE, Nat.mod_eq_of_lt word]

private theorem boot_outside {base : Nat} (some_base : 8 ≤ base)
    (limit : base + PAGESIZE ≤ 0x10000000000000000) :
    ¬StaysInside lowMap (BitVec.ofNat 64 base) base := by
  apply base_outside some_base
  have small : base - 8 < 2 ^ 64 := by
    norm_num
    rw [PAGESIZE] at limit
    omega
  have first : BitVec.ofNat 64 base - BitVec.ofNat 64 (8 * 1) + BitVec.ofNat 64 0 =
      BitVec.ofNat 64 (base - 8) := by
    bv_omega
  rw [lowMap, first, BitVec.toNat_ofNat, Nat.mod_eq_of_lt small]

private theorem user_stack {σ : Type} {heap : FrameHeap σ} {s s' : σ} {cr3 : BitVec 64}
    {pcb pcb' : Pcb} {flags : BitVec 16}
    (call : halInitPcb heap cr3 (some pcb) flags s = (.success, some pcb', s')) :
    (heap.mmAllocFrame s 1).1 ≠ 0 ∧ pcb'.tf.rsp = STACK_TOP ∧
      pcb'.stackPhysBase = BitVec.ofNat 64 (heap.mmAllocFrame s 1).1 := by
  rw [halInitPcb] at call
  simp only at call
  split at call
  · cases (Prod.mk.inj call).1
  · rename_i nonzero
    split at call
    · cases (Prod.mk.inj call).1
    · obtain rfl := Option.some.inj (Prod.mk.inj (Prod.mk.inj call).2).1
      exact ⟨nonzero, rfl, rfl⟩

private theorem user_room {σ : Type} {heap : FrameHeap σ} {s s' : σ} {cr3 : BitVec 64}
    {pcb pcb' : Pcb} {flags : BitVec 16}
    (tables : ∀ t, Shared (heap.mem s) (cr3 &&& PTE_ADDR_MASK).toNat t → heap.held s (t / PAGESIZE))
    (made : (mmuCreateVas heap.toFrameSource cr3 (heap.mmAllocFrame s 1).2).1 = .success)
    (call : halInitPcb heap cr3 (some pcb) flags s = (.success, some pcb', s')) :
    5 ≤ heap.room s := by
  by_contra few
  have status : (halInitPcb heap cr3 (some pcb) flags s).1 = .success := by rw [call]
  rcases Nat.lt_or_ge (heap.room s) 2 with short | enough
  · rcases Nat.eq_zero_or_pos (heap.room s) with none | one
    · exact (user_stack call).1 ((heap.room_refused s).mpr none)
    · have left : (heap.mmAllocFrame (heap.mmAllocFrame s 1).2 1).1 = 0 := by
        rw [heap.room_refused, heap.room_alloc]
        omega
      rw [mmuCreateVas_refused left] at made
      cases made
  · have refused := (initPcb_leaks pcb flags tables enough (Nat.lt_of_not_le few)).1
    rw [status] at refused
    cases refused

private theorem user_inside {σ : Type} {heap : FrameHeap σ} {s s' : σ} {cr3 : BitVec 64}
    {pcb pcb' : Pcb} {flags : BitVec 16}
    (tables : ∀ t, Shared (heap.mem s) (cr3 &&& PTE_ADDR_MASK).toNat t → heap.held s (t / PAGESIZE))
    (made : (mmuCreateVas heap.toFrameSource cr3 (heap.mmAllocFrame s 1).2).1 = .success)
    (call : halInitPcb heap cr3 (some pcb) flags s = (.success, some pcb', s')) :
    StaysInside (userMap (heap.mem s') pcb'.vas.cr3) pcb'.tf.rsp (heap.mmAllocFrame s 1).1 := by
  obtain ⟨nonzero, rsp, stack⟩ := user_stack call
  obtain ⟨_, _, result, created⟩ := initPcb_created pcb flags tables (user_room tables made call)
  rw [call] at result created
  obtain rfl := Option.some.inj result
  obtain ⟨i, ret, limit, _⟩ := heap.fresh s 1 nonzero
  intro k b _ short byte
  rw [rsp]
  generalize address : STACK_TOP - BitVec.ofNat 64 (8 * k) + BitVec.ofNat 64 b = a
  have value : a.toNat = 0xBFFFFFFF - 8 * k + b := by
    rw [PAGESIZE] at short
    rw [← address, STACK_TOP]
    bv_omega
  rw [PAGESIZE] at short
  have lower : Lower a := by
    rw [Lower, value]
    omega
  have page : pageOf a = pageOf STACK_PAGE := by
    rw [stack_page, pageOf, pageOf, value]
    change _ = 0xBFFFF000 / 4096
    omega
  have base : pcb'.stackPhysBase.toNat = (heap.mmAllocFrame s 1).1 := by
    rw [stack, BitVec.toNat_ofNat, Nat.mod_eq_of_lt]
    rw [ret]
    rw [PAGESIZE] at limit ⊢
    norm_num
    omega
  refine ⟨(heap.mmAllocFrame s 1).1 + a.toNat % PAGESIZE, ?_, Nat.le_add_right _ _,
    Nat.add_lt_add_left (Nat.mod_lt _ page_pos) _⟩
  rw [userMap, created.lower a lower, if_pos page, Option.map_some, base]

/-- Pushes stay in the stack's frame exactly for the stacks whose pointer starts at the end
of the frame; the interrupt stacks and the boot stack start at its base. -/
theorem stack_stays_inside_iff {site : StackSite} {sp : BitVec 64} {base : Nat}
    {phys : BitVec 64 → Option Nat} (installed : Installed kernelBase site sp base phys) :
    StaysInside phys sp base ↔ site.StartsAtTop := by
  cases installed with
  | rsp0 bound call => exact iff_of_true (rsp0_inside bound call) True.intro
  | interrupt bound allocated set index =>
    exact iff_of_false (interrupt_outside bound allocated set index) id
  | boot bound other frame done =>
    obtain ⟨names, some_base, limit⟩ := boot_frame bound other frame done
    rw [names]
    exact iff_of_false (boot_outside some_base limit) id
  | syscall bound call => exact iff_of_true (syscall_inside bound call) True.intro
  | user tables made call => exact iff_of_true (user_inside tables made call) True.intro

end Sites

def noStacks : TssEntry := ⟨0, 0, fun _ => 0, fun _ => 0⟩

private theorem first_frame : (mmAllocFrame eightFrames 1).1 ≠ 0 := by decide +kernel

theorem stack_stays_inside_iff_rsp0 : ∃ entry : TssEntry,
    (allocKernelStack 0xFFFF800000000000 noStacks eightFrames).1 = some entry ∧
    StaysInside (directMap 0xFFFF800000000000) entry.rsp0 (mmAllocFrame eightFrames 1).1 := by
  have pages : STACK_SIZE_PAGES = 1 := rfl
  have call : ∃ entry, allocKernelStack 0xFFFF800000000000 noStacks eightFrames =
      (some entry, (mmAllocFrame eightFrames 1).2) := by
    rw [allocKernelStack, pages]
    simp only [if_neg first_frame]
    exact ⟨_, rfl⟩
  obtain ⟨entry, call⟩ := call
  exact ⟨entry, by rw [call], (stack_stays_inside_iff (.rsp0 (by decide) call)).mpr True.intro⟩

/-- The timer's interrupt stack starts at the base of its frame: its first push is in the
frame before. -/
theorem interrupt_stack_outside : ¬∀ (site : StackSite) (sp : BitVec 64) (base : Nat)
    (phys : BitVec 64 → Option Nat), Installed 0xFFFF800000000000 site sp base phys →
      StaysInside phys sp base := by
  intro claim
  have pages : STACK_SIZE_PAGES = 1 := rfl
  have allocated : ∃ stack, tssAllocateStack 0xFFFF800000000000 (some ⟨0, 0⟩) eightFrames =
      (.success, some stack, (mmAllocFrame eightFrames 1).2) := by
    rw [tssAllocateStack, pages]
    simp only [if_neg first_frame]
    exact ⟨_, rfl⟩
  obtain ⟨stack, allocated⟩ := allocated
  have set : ∃ tss, tssSetIntrStack (some noStacks) 0 (some stack) = (.success, some tss) :=
    ⟨_, rfl⟩
  obtain ⟨tss, set⟩ := set
  have bound : eightFrames.highestFrameIdx < 0x10000000000000 := by decide
  exact interrupt_outside bound allocated set (i := 0) rfl
    (claim _ _ _ _ (.interrupt bound allocated set rfl))

end Algae.Platform.Stacks
