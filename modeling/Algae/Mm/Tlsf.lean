/- The TLSF heap: block headers in the memory of a pool, free lists threaded through the free
   blocks, and the two levels of bitmaps over the lists. -/

import Algae.Lib.TwoLevelIndex
import Algae.Rtl.String
import Algae.Sdk.Defs

set_option autoImplicit false
set_option relaxedAutoImplicit false

namespace Algae.Mm.Tlsf

open Algae.Lib.ByteMemory Algae.Lib.TwoLevelIndex Algae.Sdk.Defs
open Algae.Rtl.String (rtlMemcpy)

def SL_INDEX_COUNT_LOG2 : Nat := 5

def ALIGN_SIZE : Nat := 8

def SL_INDEX_COUNT : Nat := 32

def FL_INDEX_SHIFT : Nat := 8

def FL_INDEX_COUNT : Nat := 25

def SMALL_BLOCK_SIZE : Nat := 256

def blockHeaderFreeBit : BitVec 64 := 1

def blockHeaderPrevFreeBit : BitVec 64 := 2

def blockHeaderOverhead : Nat := 8

def blockStartOffset : Nat := 16

def blockHeaderSize : Nat := 32

def blockSizeMin : Nat := 24

def blockSizeMax : Nat := 0x100000000

/-- A failed tlsf_assert ends in keBugCheck. -/
def tlsfAssert (cond : Prop) [Decidable cond] : Option Unit := if cond then some () else none

/-- `control_t`, with the memory that it and its blocks lie in. The address of the structure is
that of its block_null, whose links are words of the memory. -/
structure Control where
  mem : Mem
  flBitmap : BitVec 32
  slBitmap : Nat → BitVec 32
  blocks : Nat → Nat → Nat

/-! The fields of a block header are prev_phys_block at offset 0, size at 8, next_free at 16 and
    prev_free at 24. -/

def blockSize (m : Mem) (block : Nat) : Nat :=
  (load64 m (block + 8) &&& ~~~(blockHeaderFreeBit ||| blockHeaderPrevFreeBit)).toNat

def blockSetSize (m : Mem) (block size : Nat) : Mem :=
  store64 m (block + 8)
    (BitVec.ofNat 64 size
      ||| (load64 m (block + 8) &&& (blockHeaderFreeBit ||| blockHeaderPrevFreeBit)))

def blockIsLast (m : Mem) (block : Nat) : Bool := blockSize m block = 0

def blockIsFree (m : Mem) (block : Nat) : Bool := load64 m (block + 8) &&& blockHeaderFreeBit ≠ 0

def blockSetFree (m : Mem) (block : Nat) : Mem :=
  store64 m (block + 8) (load64 m (block + 8) ||| blockHeaderFreeBit)

def blockSetUsed (m : Mem) (block : Nat) : Mem :=
  store64 m (block + 8) (load64 m (block + 8) &&& ~~~blockHeaderFreeBit)

def blockIsPrevFree (m : Mem) (block : Nat) :
    Bool := load64 m (block + 8) &&& blockHeaderPrevFreeBit ≠ 0

def blockSetPrevFree (m : Mem) (block : Nat) : Mem :=
  store64 m (block + 8) (load64 m (block + 8) ||| blockHeaderPrevFreeBit)

def blockSetPrevUsed (m : Mem) (block : Nat) : Mem :=
  store64 m (block + 8) (load64 m (block + 8) &&& ~~~blockHeaderPrevFreeBit)

def nextFree (m : Mem) (block : Nat) : Nat := (load64 m (block + 16)).toNat

def prevFree (m : Mem) (block : Nat) : Nat := (load64 m (block + 24)).toNat

def setNextFree (m : Mem) (block next : Nat) : Mem := store64 m (block + 16) (BitVec.ofNat 64 next)

def setPrevFree (m : Mem) (block prev : Nat) : Mem := store64 m (block + 24) (BitVec.ofNat 64 prev)

def blockFromPtr (ptr : Nat) : Nat := toUSize (ptr - blockStartOffset)

def blockToPtr (block : Nat) : Nat := block + blockStartOffset

def offsetToBlock (ptr : Nat) (size : Int) : Nat := toUSize (ptr + size)

def blockPrev (m : Mem) (block : Nat) : Option Nat := do
  tlsfAssert (blockIsPrevFree m block)
  some (load64 m block).toNat

def blockNext (m : Mem) (block : Nat) : Option Nat := do
  let next := offsetToBlock (blockToPtr block) (blockSize m block - blockHeaderOverhead)
  tlsfAssert (!blockIsLast m block)
  some next

def blockLinkNext (m : Mem) (block : Nat) : Option (Nat × Mem) := do
  let next ← blockNext m block
  some (next, store64 m next (BitVec.ofNat 64 block))

def blockMarkAsFree (m : Mem) (block : Nat) : Option Mem := do
  let (next, m) ← blockLinkNext m block
  some (blockSetFree (blockSetPrevFree m next) block)

def blockMarkAsUsed (m : Mem) (block : Nat) : Option Mem := do
  let next ← blockNext m block
  some (blockSetUsed (blockSetPrevUsed m next) block)

def tlsfAlignUp (x align : Nat) : Option Nat := do
  let align := BitVec.ofNat 64 align
  tlsfAssert (0 = align &&& (align - 1))
  some (alignUp (BitVec.ofNat 64 x) align).toNat

def tlsfAlignDown (x align : Nat) : Option Nat := do
  let align := BitVec.ofNat 64 align
  tlsfAssert (0 = align &&& (align - 1))
  some (BitVec.ofNat 64 x - (BitVec.ofNat 64 x &&& (align - 1))).toNat

def alignPtr (ptr align : Nat) : Option Nat := tlsfAlignUp ptr align

def adjustRequestSize (size align : Nat) : Option Nat :=
  if size ≠ 0 then do
    let aligned ← tlsfAlignUp size align
    some (if aligned < blockSizeMax then max aligned blockSizeMin else 0)
  else
    some 0

def builtinClz (word : BitVec 32) : Int := 31 - Nat.log2 word.toNat

def tlsfFls (word : BitVec 32) : Int := (if word ≠ 0 then 32 - builtinClz word else 0) - 1

def tlsfFfs (word : BitVec 32) : Int :=
  (match lowestBit word with
    | some i => (i : Int) + 1
    | none => 0) - 1

def tlsfFlsSizet (size : Nat) : Int :=
  let high := BitVec.ofNat 32 (size >>> 32)
  if high ≠ 0 then 32 + tlsfFls high else tlsfFls (BitVec.ofNat 32 size)

def mappingInsert (size : Nat) : Nat × Nat :=
  if size < SMALL_BLOCK_SIZE then
    (0, size / (SMALL_BLOCK_SIZE / SL_INDEX_COUNT))
  else
    let fl := tlsfFlsSizet size
    let sl := (size >>> (fl - SL_INDEX_COUNT_LOG2).toNat) ^^^ (1 <<< SL_INDEX_COUNT_LOG2)
    ((fl - (FL_INDEX_SHIFT - 1)).toNat, sl)

def mappingSearch (size : Nat) : Nat × Nat :=
  if size ≥ SMALL_BLOCK_SIZE then
    mappingInsert (size + (1 <<< (tlsfFlsSizet size - SL_INDEX_COUNT_LOG2).toNat - 1))
  else
    mappingInsert size

def inArrays (fl sl : Nat) : Option Unit :=
  if fl < FL_INDEX_COUNT ∧ sl < SL_INDEX_COUNT then some () else none

def searchSecondLevel (s : Control) (fl : Nat) (slMap : BitVec 32) : Option (Nat × Nat × Nat) := do
  tlsfAssert (slMap ≠ 0)
  let sl := (tlsfFfs slMap).toNat
  inArrays fl sl
  some (s.blocks fl sl, fl, sl)

/-- The block, 0 if there is none, and the indices that the caller reads back. -/
def searchSuitableBlock (s : Control) (fl sl : Nat) : Option (Nat × Nat × Nat) := do
  inArrays fl sl
  let slMap := bitsFrom (s.slBitmap fl) sl
  if slMap = 0 then
    let flMap := bitsFrom s.flBitmap (fl + 1)
    if flMap = 0 then
      some (0, fl, sl)
    else
      let fl := (tlsfFfs flMap).toNat
      inArrays fl 0
      searchSecondLevel s fl (s.slBitmap fl)
  else
    searchSecondLevel s fl slMap

variable (control : Nat)

/-- The part of remove_free_block that makes the block after a removed head the head. -/
def removeHead (s : Control) (next fl sl : Nat) : Control :=
  let s := { s with blocks := Function.update s.blocks fl (Function.update (s.blocks fl) sl next) }
  if next = control then
    let s := { s with slBitmap := Function.update s.slBitmap fl (withoutBit (s.slBitmap fl) sl) }
    if s.slBitmap fl = 0 then { s with flBitmap := withoutBit s.flBitmap fl } else s
  else
    s

def removeFreeBlock (block fl sl : Nat) (s : Control) : Option Control := do
  let prev := prevFree s.mem block
  let next := nextFree s.mem block
  tlsfAssert (prev ≠ 0)
  tlsfAssert (next ≠ 0)
  let s := { s with mem := setNextFree (setPrevFree s.mem next prev) prev next }
  inArrays fl sl
  some (if s.blocks fl sl = block then removeHead control s next fl sl else s)

def insertFreeBlock (block fl sl : Nat) (s : Control) : Option Control := do
  inArrays fl sl
  let current := s.blocks fl sl
  tlsfAssert (current ≠ 0)
  tlsfAssert (block ≠ 0)
  let m := setNextFree s.mem block current
  let m := setPrevFree m block control
  let m := setPrevFree m current block
  tlsfAssert (some (blockToPtr block) = alignPtr (blockToPtr block) ALIGN_SIZE)
  some { mem := m,
         flBitmap := withBit s.flBitmap fl,
         slBitmap := Function.update s.slBitmap fl (withBit (s.slBitmap fl) sl),
         blocks := Function.update s.blocks fl (Function.update (s.blocks fl) sl block) }

def blockRemove (block : Nat) (s : Control) : Option Control :=
  removeFreeBlock control block (mappingInsert (blockSize s.mem block)).1
    (mappingInsert (blockSize s.mem block)).2 s

def blockInsert (block : Nat) (s : Control) : Option Control :=
  insertFreeBlock control block (mappingInsert (blockSize s.mem block)).1
    (mappingInsert (blockSize s.mem block)).2 s

def blockCanSplit (m : Mem) (block size : Nat) : Bool := blockHeaderSize + size ≤ blockSize m block

def blockSplit (m : Mem) (block size : Nat) : Option (Nat × Mem) := do
  let remaining := offsetToBlock (blockToPtr block) (size - blockHeaderOverhead)
  let remainSize := toUSize (blockSize m block - (size + blockHeaderOverhead))
  tlsfAssert (some (blockToPtr remaining) = alignPtr (blockToPtr remaining) ALIGN_SIZE)
  tlsfAssert (blockSize m block = toUSize (remainSize + size + blockHeaderOverhead))
  let m := blockSetSize m remaining remainSize
  tlsfAssert (blockSizeMin ≤ blockSize m remaining)
  let m := blockSetSize m block size
  let m ← blockMarkAsFree m remaining
  some (remaining, m)

def blockAbsorb (m : Mem) (prev block : Nat) : Option (Nat × Mem) := do
  tlsfAssert (!blockIsLast m prev)
  let m := store64 m (prev + 8)
    (load64 m (prev + 8) + BitVec.ofNat 64 (blockSize m block + blockHeaderOverhead))
  let (_, m) ← blockLinkNext m prev
  some (prev, m)

def blockMergePrev (block : Nat) (s : Control) : Option (Nat × Control) :=
  if blockIsPrevFree s.mem block then do
    let prev ← blockPrev s.mem block
    tlsfAssert (prev ≠ 0)
    tlsfAssert (blockIsFree s.mem prev)
    let s ← blockRemove control prev s
    let (block, m) ← blockAbsorb s.mem prev block
    some (block, { s with mem := m })
  else
    some (block, s)

def blockMergeNext (block : Nat) (s : Control) : Option (Nat × Control) := do
  let next ← blockNext s.mem block
  tlsfAssert (next ≠ 0)
  if blockIsFree s.mem next then do
    tlsfAssert (!blockIsLast s.mem block)
    let s ← blockRemove control next s
    let (block, m) ← blockAbsorb s.mem block next
    some (block, { s with mem := m })
  else
    some (block, s)

def blockTrimFree (block size : Nat) (s : Control) : Option Control := do
  tlsfAssert (blockIsFree s.mem block)
  if blockCanSplit s.mem block size then do
    let (remainingBlock, m) ← blockSplit s.mem block size
    let (_, m) ← blockLinkNext m block
    blockInsert control remainingBlock { s with mem := blockSetPrevFree m remainingBlock }
  else
    some s

def blockTrimUsed (block size : Nat) (s : Control) : Option Control := do
  tlsfAssert (!blockIsFree s.mem block)
  if blockCanSplit s.mem block size then do
    let (remainingBlock, m) ← blockSplit s.mem block size
    let (remainingBlock, s) ← blockMergeNext control remainingBlock
      { s with mem := blockSetPrevUsed m remainingBlock }
    blockInsert control remainingBlock s
  else
    some s

def blockTrimFreeLeading (block size : Nat) (s : Control) : Option (Nat × Control) :=
  if blockCanSplit s.mem block size then do
    let (remainingBlock, m) ← blockSplit s.mem block (toUSize (size - blockHeaderOverhead))
    let m := blockSetPrevFree m remainingBlock
    let (_, m) ← blockLinkNext m block
    let s ← blockInsert control block { s with mem := m }
    some (remainingBlock, s)
  else
    some (block, s)

/-- The first half of block_locate_free: the block, 0 if there is none, and its list. -/
def locateFree (size : Nat) (s : Control) : Option (Nat × Nat × Nat) :=
  if size ≠ 0 then
    if (mappingSearch size).1 < FL_INDEX_COUNT then
      searchSuitableBlock s (mappingSearch size).1 (mappingSearch size).2
    else
      some (0, mappingSearch size)
  else
    some (0, 0, 0)

def blockLocateFree (size : Nat) (s : Control) : Option (Nat × Control) := do
  let (block, fl, sl) ← locateFree size s
  if block ≠ 0 then do
    tlsfAssert (size ≤ blockSize s.mem block)
    let s ← removeFreeBlock control block fl sl s
    some (block, s)
  else
    some (block, s)

def blockPrepareUsed (block size : Nat) (s : Control) : Option (Nat × Control) :=
  if block ≠ 0 then do
    tlsfAssert (size ≠ 0)
    let s ← blockTrimFree control block size s
    let m ← blockMarkAsUsed s.mem block
    some (blockToPtr block, { s with mem := m })
  else
    some (0, s)

def tlsfMalloc (size : Nat) (s : Control) : Option (Nat × Control) := do
  let adjust ← adjustRequestSize size ALIGN_SIZE
  let (block, s) ← blockLocateFree control adjust s
  blockPrepareUsed control block adjust s

/-- The aligned address in a block, and its distance from the block's start. A gap too small
for a block of its own is moved to the next boundary. -/
def alignGap (ptr align : Nat) : Option (Nat × Nat) := do
  let gapMinimum := blockHeaderSize
  let aligned ← alignPtr ptr align
  let gap := toUSize (aligned - ptr)
  if gap ≠ 0 ∧ gap < gapMinimum then do
    let gapRemain := gapMinimum - gap
    let offset := max gapRemain align
    let aligned ← alignPtr (aligned + offset) align
    some (aligned, toUSize (aligned - ptr))
  else
    some (aligned, gap)

def tlsfMemalign (align size : Nat) (s : Control) : Option (Nat × Control) := do
  let adjust ← adjustRequestSize size ALIGN_SIZE
  let gapMinimum := blockHeaderSize
  let sizeWithGap ← adjustRequestSize (toUSize (adjust + align + gapMinimum)) align
  let alignedSize := if adjust ≠ 0 ∧ align > ALIGN_SIZE then sizeWithGap else adjust
  let (block, s) ← blockLocateFree control alignedSize s
  tlsfAssert (blockHeaderSize = blockSizeMin + blockHeaderOverhead)
  if block ≠ 0 then do
    let (_, gap) ← alignGap (blockToPtr block) align
    if gap ≠ 0 then do
      tlsfAssert (gapMinimum ≤ gap)
      let (block, s) ← blockTrimFreeLeading control block gap s
      blockPrepareUsed control block adjust s
    else
      blockPrepareUsed control block adjust s
  else
    blockPrepareUsed control block adjust s

def tlsfFree (ptr : Nat) (s : Control) : Option Control :=
  if ptr ≠ 0 then do
    let block := blockFromPtr ptr
    tlsfAssert (!blockIsFree s.mem block)
    let m ← blockMarkAsFree s.mem block
    let (block, s) ← blockMergePrev control block { s with mem := m }
    let (block, s) ← blockMergeNext control block s
    blockInsert control block s
  else
    some s

def tlsfRealloc (ptr size : Nat) (s : Control) : Option (Nat × Control) :=
  if ptr ≠ 0 ∧ size = 0 then do
    let s ← tlsfFree control ptr s
    some (0, s)
  else if ptr = 0 then
    tlsfMalloc control size s
  else do
    let block := blockFromPtr ptr
    let next ← blockNext s.mem block
    let cursize := blockSize s.mem block
    let combined := toUSize (cursize + blockSize s.mem next + blockHeaderOverhead)
    let adjust ← adjustRequestSize size ALIGN_SIZE
    tlsfAssert (!blockIsFree s.mem block)
    if adjust > cursize ∧ (!blockIsFree s.mem next ∨ adjust > combined) then do
      let (p, s) ← tlsfMalloc control size s
      if p ≠ 0 then do
        let minsize := min cursize size
        let s ← tlsfFree control ptr
          { s with mem := rtlMemcpy s.mem p (fun i => s.mem (ptr + i)) minsize }
        some (p, s)
      else
        some (p, s)
    else if adjust > cursize then do
      let (_, s) ← blockMergeNext control block s
      let m ← blockMarkAsUsed s.mem block
      let s ← blockTrimUsed control block adjust { s with mem := m }
      some (ptr, s)
    else do
      let s ← blockTrimUsed control block adjust s
      some (ptr, s)

def controlConstruct (s : Control) : Control where
  mem := setPrevFree (setNextFree s.mem control control) control control
  flBitmap := 0
  slBitmap i := if i < FL_INDEX_COUNT then 0 else s.slBitmap i
  blocks i j := if i < FL_INDEX_COUNT ∧ j < SL_INDEX_COUNT then control else s.blocks i j

def tlsfPoolOverhead : Nat := 2 * blockHeaderOverhead

def tlsfAddPool (mem bytes : Nat) (s : Control) : Option (Nat × Control) := do
  let poolBytes ← tlsfAlignDown (toUSize (bytes - tlsfPoolOverhead)) ALIGN_SIZE
  if mem % ALIGN_SIZE ≠ 0 then
    some (0, s)
  else if poolBytes < blockSizeMin ∨ poolBytes > blockSizeMax then
    some (0, s)
  else do
    let block := offsetToBlock mem (-blockHeaderOverhead)
    let m := blockSetPrevUsed (blockSetFree (blockSetSize s.mem block poolBytes) block) block
    let s ← blockInsert control block { s with mem := m }
    let (next, m) ← blockLinkNext s.mem block
    let m := blockSetPrevFree (blockSetUsed (blockSetSize m next 0) next) next
    some (mem, { s with mem := m })

def tlsfSize : Nat := 6536

def tlsfCreate (mem : Nat) (s : Control) : Nat × Control :=
  if mem % ALIGN_SIZE ≠ 0 then (0, s) else (mem, controlConstruct mem s)

def tlsfCreateWithPool (mem bytes : Nat) (s : Control) : Option (Nat × Control) := do
  let (tlsf, s) := tlsfCreate mem s
  let (_, s) ← tlsfAddPool tlsf (mem + tlsfSize) (toUSize (bytes - tlsfSize)) s
  some (tlsf, s)

def tlsfBlockSize (m : Mem) (ptr : Nat) :
    Nat := if ptr ≠ 0 then blockSize m (blockFromPtr ptr) else 0

end Algae.Mm.Tlsf
