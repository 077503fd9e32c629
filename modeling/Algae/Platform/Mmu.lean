/- The page-table code of the amd64 port, over any source of frames, and the
   four-level walk of the hardware. The direct map is left out: PHYS_TO_VIRT and
   VIRT_TO_PHYS undo each other, so tables are named by physical address. -/

import Algae.Mm.Frames

set_option autoImplicit false
set_option relaxedAutoImplicit false

namespace Algae.Platform.Mmu

open Algae.Lib.ByteMemory
open Algae.Sdk.Defs Algae.Mm.Frames

def PTE_ADDR_MASK : BitVec 64 := 0x000FFFFFFFFFF000#64
def PTE_P : BitVec 64 := bit 0
def PTE_RW : BitVec 64 := bit 1
def PTE_US : BitVec 64 := bit 2
def PTE_PS : BitVec 64 := bit 7
def PTE_NX : BitVec 64 := bit 63

def PAGE_READONLY : Nat := 0x00
def PAGE_READWRITE : Nat := 0x01
def PAGE_EXECUTE_READ : Nat := 0x02
def PAGE_USER_READONLY : Nat := 0x03
def PAGE_USER_READWRITE : Nat := 0x04
def PAGE_USER_EXEC_READ : Nat := 0x05

inductive MapLevel
  | pt | pd | pdpt | pml4
  deriving DecidableEq, Repr

/-- The levels the loop `while (curLevel > level)` visits, top down. -/
def MapLevel.above : MapLevel → List MapLevel
  | .pt => [.pml4, .pdpt, .pd]
  | .pd => [.pml4, .pdpt]
  | .pdpt => [.pml4]
  | .pml4 => []

structure MmuVas where
  cr3 : BitVec 64
  deriving DecidableEq, Repr

def mmuGetLevelIdx (virtAddr : BitVec 64) : MapLevel → Nat
  | .pt => ((virtAddr >>> 12) &&& 0x1FF).toNat
  | .pd => ((virtAddr >>> 21) &&& 0x1FF).toNat
  | .pdpt => ((virtAddr >>> 30) &&& 0x1FF).toNat
  | .pml4 => ((virtAddr >>> 39) &&& 0x1FF).toNat

def entry (m : Mem) (table i : Nat) : BitVec 64 := load64 m (table + 8 * i)

def mmuGetTableFlags (mapType : Nat) : BitVec 64 :=
  let pteFlags := PTE_P ||| PTE_NX
  if mapType = PAGE_READONLY then pteFlags
  else if mapType = PAGE_READWRITE then pteFlags ||| PTE_RW
  else if mapType = PAGE_EXECUTE_READ then pteFlags &&& ~~~PTE_NX
  else if mapType = PAGE_USER_READONLY then pteFlags ||| PTE_US
  else if mapType = PAGE_USER_READWRITE then pteFlags ||| (PTE_RW ||| PTE_US)
  else if mapType = PAGE_USER_EXEC_READ then (pteFlags &&& ~~~PTE_NX) ||| PTE_US
  else pteFlags

section Code

variable {σ : Type} (src : FrameSource σ)

def setEntry (s : σ) (table i : Nat) (e : BitVec 64) : σ :=
  src.setMem s (store64 (src.mem s) (table + 8 * i) e)

def descend (virtAddr : BitVec 64) (alloc : Bool) : List MapLevel → Nat → σ → Nat × σ
  | [], curTable, s => (curTable, s)
  | curLevel :: levels, curTable, s =>
    let levelIdx := mmuGetLevelIdx virtAddr curLevel
    let tmpVal := entry (src.mem s) curTable levelIdx
    if tmpVal &&& PTE_P ≠ 0 then
      descend virtAddr alloc levels (tmpVal &&& PTE_ADDR_MASK).toNat s
    else if !alloc then
      (0, s)
    else
      let (tmpVal, s) := src.mmAllocFrame s 1
      if tmpVal = 0 then
        (0, s)
      else
        let s := setEntry src s curTable levelIdx (BitVec.ofNat 64 tmpVal)
        let s := setEntry src s curTable levelIdx
          (entry (src.mem s) curTable levelIdx ||| (PTE_P ||| PTE_RW ||| PTE_US))
        descend virtAddr alloc levels tmpVal s

def mmuGetLevelPhys (vas : Option MmuVas) (virtAddr : BitVec 64) (level : MapLevel) (alloc : Bool)
    (s : σ) : Nat × σ :=
  match vas with
  | none => (0, s)
  | some vas => descend src virtAddr alloc level.above vas.cr3.toNat s

def mmuMapSingle (vas : Option MmuVas) (vBase pBase : BitVec 64) (mFlags : Nat) (s : σ) :
    NtStatus × σ :=
  match vas with
  | none => (.invalidHandle, s)
  | some vas =>
    let vBase := alignDown vBase (BitVec.ofNat 64 PAGESIZE)
    let pBase := alignDown pBase (BitVec.ofNat 64 PAGESIZE)
    let (ptePhys, s) := mmuGetLevelPhys src (some vas) vBase .pt true s
    if ptePhys = 0 then
      (.notMapped, s)
    else
      (.success, setEntry src s ptePhys (mmuGetLevelIdx vBase .pt)
        (pBase ||| mmuGetTableFlags mFlags))

def mmuUnmapSingle (vas : Option MmuVas) (vBase : BitVec 64) (s : σ) : NtStatus × σ :=
  match vas with
  | none => (.invalidHandle, s)
  | some vas =>
    let vBase := alignDown vBase (BitVec.ofNat 64 PAGESIZE)
    let (ptePhys, s) := mmuGetLevelPhys src (some vas) vBase .pt false s
    if ptePhys = 0 then
      (.success, s)
    else
      (.success, setEntry src s ptePhys (mmuGetLevelIdx vBase .pt) 0)

def copyUpper (vBase vBaseSrc : Nat) (s : σ) : Nat → σ
  | 0 => s
  | i + 1 =>
    let s := copyUpper vBase vBaseSrc s i
    setEntry src s vBase i (if i < 256 then 0 else entry (src.mem s) vBaseSrc i)

def mmuCreateVas (cr3 : BitVec 64) (s : σ) : NtStatus × Option MmuVas × σ :=
  let vBaseSrc := (cr3 &&& PTE_ADDR_MASK).toNat
  let (pBase, s) := src.mmAllocFrame s 1
  if pBase = 0 then
    (.noMemory, none, s)
  else
    (.success, some ⟨BitVec.ofNat 64 pBase⟩, copyUpper src pBase vBaseSrc s 512)

end Code

/-! The hardware: what the processor makes of the tables. -/

structure Rights where
  rw : Bool
  us : Bool
  nx : Bool
  deriving DecidableEq, Repr

def Rights.all : Rights := ⟨true, true, false⟩

def has (e flag : BitVec 64) : Bool := e &&& flag != 0

def Rights.meet (r : Rights) (e : BitVec 64) : Rights :=
  ⟨r.rw && has e PTE_RW, r.us && has e PTE_US, r.nx || has e PTE_NX⟩

/-- The physical page behind a virtual page, with the effective rights. -/
structure Translation where
  phys : Nat
  rights : Rights
  deriving DecidableEq, Repr

/-- The address bits below the ones an entry of this level selects. -/
def MapLevel.shift : MapLevel → Nat
  | .pt => 12
  | .pd => 21
  | .pdpt => 30
  | .pml4 => 39

def hwIndex (virtAddr : BitVec 64) (level : MapLevel) : Nat :=
  virtAddr.toNat / 2 ^ level.shift % 512

/-- Whether an entry of this level maps a page itself. At the top level the size
bit is reserved and faults. -/
def isLeaf (e : BitVec 64) : MapLevel → Bool
  | .pt => true
  | .pd => has e PTE_PS
  | .pdpt => has e PTE_PS
  | .pml4 => false

def faults (e : BitVec 64) (level : MapLevel) : Bool :=
  !has e PTE_P || (level == .pml4 && has e PTE_PS)

/-- The 4 KiB page of `virtAddr` inside the page that a leaf entry maps. -/
def leafPage (e virtAddr : BitVec 64) (level : MapLevel) : Nat :=
  (e &&& PTE_ADDR_MASK).toNat / 2 ^ level.shift * 2 ^ level.shift +
    virtAddr.toNat % 2 ^ level.shift / 4096 * 4096

def walk (m : Mem) (virtAddr : BitVec 64) : List MapLevel → Nat → Rights → Option Translation
  | [], _, _ => none
  | level :: levels, table, rights =>
    let e := entry m table (hwIndex virtAddr level)
    if faults e level then
      none
    else if isLeaf e level then
      some ⟨leafPage e virtAddr level, rights.meet e⟩
    else
      walk m virtAddr levels (e &&& PTE_ADDR_MASK).toNat (rights.meet e)

def translate (m : Mem) (cr3 virtAddr : BitVec 64) : Option Translation :=
  walk m virtAddr [.pml4, .pdpt, .pd, .pt] (cr3 &&& PTE_ADDR_MASK).toNat Rights.all

def Visits (m : Mem) (virtAddr : BitVec 64) : List MapLevel → Nat → Nat → Prop
  | [], _, _ => False
  | level :: levels, table, t =>
    let e := entry m table (hwIndex virtAddr level)
    t = table ∨ (faults e level = false ∧ isLeaf e level = false ∧
      Visits m virtAddr levels (e &&& PTE_ADDR_MASK).toNat t)

theorem walk_cons (m : Mem) (virtAddr : BitVec 64) (level : MapLevel) (levels : List MapLevel)
    (table : Nat) (rights : Rights) : walk m virtAddr (level :: levels) table rights =
      if faults (entry m table (hwIndex virtAddr level)) level then none
      else if isLeaf (entry m table (hwIndex virtAddr level)) level then
        some ⟨leafPage (entry m table (hwIndex virtAddr level)) virtAddr level,
          rights.meet (entry m table (hwIndex virtAddr level))⟩
      else
        walk m virtAddr levels (entry m table (hwIndex virtAddr level) &&& PTE_ADDR_MASK).toNat
          (rights.meet (entry m table (hwIndex virtAddr level))) := rfl

theorem walk_congr {m m' : Mem} {virtAddr : BitVec 64} {levels : List MapLevel} {table : Nat}
    {rights : Rights} (same : ∀ t, Visits m virtAddr levels table t → ∀ i < 512,
      entry m' t i = entry m t i) :
    walk m' virtAddr levels table rights = walk m virtAddr levels table rights := by
  induction levels generalizing table rights with
  | nil => rfl
  | cons level levels ih =>
    have index : hwIndex virtAddr level < 512 := Nat.mod_lt _ (by norm_num)
    have head : entry m' table (hwIndex virtAddr level) = entry m table (hwIndex virtAddr level) :=
      same table (Or.inl rfl) _ index
    simp only [walk, head]
    split_ifs with fault leaf
    · rfl
    · rfl
    · exact ih fun t visits => same t (Or.inr ⟨by simpa using fault, by simpa using leaf, visits⟩)

end Algae.Platform.Mmu
