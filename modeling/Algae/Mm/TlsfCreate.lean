/- A new heap: one free block and the sentinel. -/

import Algae.Mm.TlsfAlloc

set_option autoImplicit false
set_option relaxedAutoImplicit false

namespace Algae.Mm.TlsfCreate

open Algae.Lib.Allocation (Region Keeps)
open Algae.Lib.ByteMemory Algae.Lib.Tiling Algae.Lib.TwoLevelIndex Algae.Lib.ThreadedList
  Algae.Sdk.Defs
open Algae.Mm.Tlsf Algae.Mm.TlsfWords Algae.Mm.TlsfBlocks Algae.Mm.TlsfLists Algae.Mm.TlsfHeap
open Algae.Mm.TlsfHeld Algae.Mm.TlsfAlloc

def poolArena (control mem size : Nat) (some_control : 0 < control) (below : control + 32 ≤ mem)
    (small : size < 0x100000000) (word : mem + size + 16 < 0x10000000000000000) : Arena where
  control := control
  pool := mem - 8
  limit := mem + size + 16
  some_control := some_control
  below := by omega
  span := by omega
  word := word

def wholeBlock (mem size : Nat) : Block := ⟨mem - 8, size, true, false⟩

def sentinel (mem size : Nat) : Block := ⟨mem + size, 0, false, true⟩

section Construct

variable {control : Nat} {s : Control}

private theorem controlConstruct_lists (m : Mem) :
    FreeLists control { controlConstruct control s with mem := m } fun _ => [] where
  threads _ := threaded_nil
  nodup _ := List.nodup_nil
  single _ _ _ none := by cases none
  inside _ some_left := absurd rfl some_left
  indexed := {
    heads := fun _ row col => if_pos ⟨row, col⟩
    bits := fun c row => by
      have clear : (controlConstruct control s).slBitmap c.1 = 0 := if_pos row
      simp [clear]
    summary := fun i => by
      have rows : (controlConstruct control s).flBitmap = 0 := rfl
      constructor
      · intro set
        rw [rows] at set
        simp at set
      · rintro ⟨row, some_left⟩
        exact absurd (if_pos row) some_left }

end Construct

section Pool

variable {control mem size : Nat} {s : Control}

private theorem blockSetFlags (m : Mem) (block : Nat) (aligned : 8 ∣ size)
    (small : size < 0x100000000) :
    ∃ m', blockSetPrevUsed (blockSetFree (blockSetSize m block size) block) block = m' ∧
      load64 m' (block + 8) = headerWord size true false ∧
      ∀ x, x < block + 8 ∨ block + 16 ≤ x → m' x = m x := by
  refine ⟨_, rfl, ?_, fun x apart => ?_⟩
  · simp only [blockSetPrevUsed, blockSetFree, blockSetSize, load64_store64,
      setSize_word aligned small]
    rw [headerWord_or_free aligned small, headerWord_and_prevFree aligned small]
  · simp (disch := omega) only [blockSetPrevUsed, blockSetFree, blockSetSize, store64_outside]

private theorem blockSetSentinel (m : Mem) (block : Nat) :
    ∃ m', blockSetPrevFree (blockSetUsed (blockSetSize m block 0) block) block = m' ∧
      load64 m' (block + 8) = headerWord 0 false true ∧
      ∀ x, x < block + 8 ∨ block + 16 ≤ x → m' x = m x := by
  have aligned : 8 ∣ 0 := Nat.dvd_zero 8
  have small : 0 < 0x100000000 := by omega
  refine ⟨_, rfl, ?_, fun x apart => ?_⟩
  · simp only [blockSetPrevFree, blockSetUsed, blockSetSize, load64_store64,
      setSize_word aligned small]
    rw [headerWord_and_free aligned small, headerWord_or_prevFree aligned small]
  · simp (disch := omega) only [blockSetPrevFree, blockSetUsed, blockSetSize, store64_outside]

private theorem pool_spots (some_control : 0 < control) (below : control + 32 ≤ mem)
    (word : mem + 32 < 0x10000000000000000) : Spots {x | x = control ∨ x = mem - 8} where
  clear x mx y my other := by
    unfold Clear
    rcases mx with rfl | rfl <;> rcases my with rfl | rfl <;> omega
  nonzero x mx := by
    rcases mx with rfl | rfl <;> omega
  word x mx := by
    rcases mx with rfl | rfl <;> omega

/-- A size that a pool can have, and where it can lie. -/
structure PoolFits (control mem size : Nat) : Prop where
  some_control : 0 < control
  below : control + 32 ≤ mem
  mem_aligned : 8 ∣ mem
  size_aligned : 8 ∣ size
  least : 24 ≤ size
  small : size < 0x100000000
  word : mem + size + 16 < 0x10000000000000000

def PoolFits.arena (fits : PoolFits control mem size) : Arena :=
  poolArena control mem size fits.some_control fits.below fits.small fits.word

theorem PoolFits.laid (fits : PoolFits control mem size) :
    Laid fits.arena [wholeBlock mem size, sentinel mem size] := by
  have below := fits.below
  have least := fits.least
  refine path_pair.mpr ⟨rfl, ?_, rfl⟩
  have positive : (wholeBlock mem size).size ≠ 0 := by
    unfold wholeBlock
    dsimp only
    omega
  have stop : mem + size = (wholeBlock mem size).stop := by
    unfold Block.stop wholeBlock
    dsimp only
    omega
  rw [Block.leave, if_neg positive, ← stop]
  rfl

private theorem PoolFits.blocks_fit (fits : PoolFits control mem size) :
    (wholeBlock mem size).Fits fits.arena ∧ (sentinel mem size).Fits fits.arena := by
  obtain ⟨some_control, below, mem_aligned, size_aligned, least, small, word⟩ := fits
  have first : ∃ k, mem = 8 + 8 * k := by
    obtain ⟨k, rfl⟩ := mem_aligned
    exact ⟨k - 1, by omega⟩
  obtain ⟨k, rfl⟩ := first
  obtain ⟨l, rfl⟩ := size_aligned
  constructor
  · refine ⟨le_refl _, ?_, ⟨k, ?_⟩, ⟨l, rfl⟩, small, Or.inr least, fun zero => ?_⟩
    · unfold Block.stop wholeBlock PoolFits.arena poolArena
      dsimp only
      omega
    · unfold wholeBlock
      dsimp only
      omega
    · unfold wholeBlock at zero
      dsimp only at zero
      omega
  · refine ⟨?_, ?_, ⟨1 + k + l, ?_⟩,
      ⟨0, rfl⟩, by unfold sentinel; dsimp only; omega, Or.inl ⟨rfl, rfl⟩, fun _ => ?_⟩
    · unfold sentinel PoolFits.arena poolArena
      dsimp only
      omega
    · unfold Block.stop sentinel PoolFits.arena poolArena
      dsimp only
      omega
    · unfold sentinel
      dsimp only
      omega
    · rfl

/-- What a new pool holds, with its block in its list. -/
structure Fresh (control mem size : Nat) (s : Control) : Prop where
  lists : FreeLists control s (Function.update (fun _ => []) (mappingInsert size) [mem - 8])
  whole_word : load64 s.mem (mem - 8 + 8) = headerWord size true false
  link : load64 s.mem (mem + size) = BitVec.ofNat 64 (mem - 8)
  sentinel_word : load64 s.mem (mem + size + 8) = headerWord 0 false true

private theorem mem_only {c c' : Nat × Nat} {x y : Nat} :
    y ∈ Function.update (fun _ => []) c [x] c' ↔ c' = c ∧ y = x := by
  rw [Function.update_apply]
  split
  · rename_i same
    simp [same]
  · rename_i other
    simp [other]

theorem Fresh.heap (fits : PoolFits control mem size) (fresh : Fresh control mem size s) :
    Heap fits.arena s [wholeBlock mem size, sentinel mem size] := by
  have free : freeAddrs [wholeBlock mem size, sentinel mem size] = {mem - 8} := by
    rw [freeAddrs_cons, freeAddrs_cons]
    simp [freeAddrs, wholeBlock, sentinel]
  have stop : (wholeBlock mem size).stop = mem + size := by
    have below := fits.below
    unfold Block.stop wholeBlock
    dsimp only
    omega
  refine ⟨⟨fits.laid, by simpa using fits.blocks_fit, ?_, _, fresh.lists, ?_, ?_⟩, ?_⟩
  · have whole : Header s.mem (wholeBlock mem size) :=
      ⟨fresh.whole_word, fun _ => stop ▸ fresh.link⟩
    have last : Header s.mem (sentinel mem size) := ⟨fresh.sentinel_word, fun used => by cases used⟩
    simpa using ⟨whole, last⟩
  · intro x
    rw [free]
    simp only [mem_only, exists_and_right, exists_eq, true_and, Set.mem_singleton_iff]
  · intro c x inside
    obtain ⟨rfl, rfl⟩ := mem_only.mp inside
    exact ⟨wholeBlock mem size, by simp, rfl, rfl, rfl⟩
  · intro b member is_free
    simp only [List.mem_cons, List.not_mem_nil, or_false] at member
    rcases member with rfl | rfl
    · rfl
    · cases is_free

private theorem tlsfAddPool_fresh (fits : PoolFits control mem size) {bytes : Nat}
    (overhead : 16 ≤ bytes)
    (limit : bytes < 0x10000000000000000) (rounded : (bytes - 16) / 8 * 8 = size) :
    ∃ s', tlsfAddPool control mem bytes (controlConstruct control s) = some (mem, s') ∧
      Fresh control mem size s' ∧ ∀ x, x < control ∨ mem + size + 16 ≤ x → s'.mem x = s.mem x := by
  obtain ⟨some_control, below, ⟨k, mem_eq⟩, size_aligned, least, small, word⟩ := fits
  have row := mappingInsert_row small
  have col := (mappingInsert_listed (show size < 0x10000000000000000 by omega)).2.2
  have spots := pool_spots some_control below (show mem + 32 < 0x10000000000000000 by omega)
  have known : Known control {x | x = control ∨ x = mem - 8} fun _ => [] :=
    ⟨Or.inl rfl, fun _ _ none => by cases none⟩
  have read : ∀ m, load64 m (mem - 8 + 8) = headerWord size true false →
      blockSize m (mem - 8) = size := by
    intro m load
    rw [blockSize, load, headerWord_size size_aligned small]
  obtain ⟨m₁, flags, whole_word, same₁⟩ :=
    blockSetFlags (controlConstruct control s).mem (mem - 8) size_aligned small
  obtain ⟨s₂, insert, lists, only⟩ :=
    (controlConstruct_lists (s := s) m₁).insert spots known (Or.inr rfl)
    (show mem - 8 ≠ control by omega) (fun _ none => by cases none)
      (show 8 ∣ mem - 8 from ⟨k - 1, by omega⟩) row col
  have whole_word₂ : load64 s₂.mem (mem - 8 + 8) = headerWord size true false := by
    rw [← whole_word]
    refine load64_congr fun i bound => only _ ?_
    rintro x (rfl | rfl) <;> omega
  have next := blockNext_of_size (read _ whole_word₂) (by omega)
    (show mem - 8 + 8 + size < 0x10000000000000000 by omega)
  rw [show mem - 8 + 8 + size = mem + size by omega] at next
  obtain ⟨m₃, flags', sentinel_word, same₃⟩ :=
    blockSetSentinel (store64 s₂.mem (mem + size) (BitVec.ofNat 64 (mem - 8))) (mem + size)
  have kept : ∀ x, x < mem + size ∨ mem + size + 16 ≤ x → m₃ x = s₂.mem x := by
    intro x apart
    rw [same₃ x (by omega), store64_outside _ _ (by omega)]
  refine ⟨{ s₂ with mem := m₃ }, ?_, ⟨?_, ?_, ?_, sentinel_word⟩, fun x apart => ?_⟩
  · have down :
        tlsfAlignDown (toUSize ((bytes : Int) - tlsfPoolOverhead)) ALIGN_SIZE = some size := by
      rw [show (bytes : Int) - (tlsfPoolOverhead : Nat) = ((bytes - 16 : Nat) : Int) by
        unfold tlsfPoolOverhead blockHeaderOverhead; omega, toUSize_natCast (by omega),
        tlsfAlignDown_eq _ (by omega), rounded]
    have block : offsetToBlock mem (-blockHeaderOverhead) = mem - 8 := by
      rw [offsetToBlock,
          show (mem : Int) + -(blockHeaderOverhead : Nat) = ((mem - 8 : Nat) : Int) by
        unfold blockHeaderOverhead; omega, toUSize_natCast (by omega)]
    have in_limits : ¬(size < blockSizeMin ∨ size > blockSizeMax) := by
      unfold blockSizeMin blockSizeMax
      omega
    have placed : ¬mem % ALIGN_SIZE ≠ 0 := by
      unfold ALIGN_SIZE
      omega
    simp only [tlsfAddPool, down, if_neg placed, if_neg in_limits, block, flags, blockInsert,
      read _ whole_word, insert, blockLinkNext, next, flags', Option.bind_eq_bind, Option.bind_some]
  · refine lists.setMem fun c x inside i low high => kept _ ?_
    obtain ⟨_, rfl⟩ := mem_only.mp inside
    omega
  · rw [← whole_word₂]
    exact load64_congr fun i bound => kept _ (by omega)
  · exact (load64_congr fun i bound => same₃ _ (by omega)).trans (load64_store64 _ _ _)
  · have spared : s₂.mem x = m₁ x := by
      refine only x ?_
      rintro y (rfl | rfl) <;> omega
    dsimp only
    rw [kept x (by omega), spared, same₁ x (by omega)]
    unfold controlConstruct setPrevFree setNextFree
    dsimp only
    rw [store64_outside _ _ (by omega), store64_outside _ _ (by omega)]

end Pool

section Whole

/-- Memory that a heap can be made in: the control structure takes 6536 bytes, the two headers
of the pool 16. -/
structure HeapFits (mem bytes : Nat) : Prop where
  nonnull : 0 < mem
  aligned : 8 ∣ mem
  least : 6576 ≤ bytes
  most : bytes < 0x100000000 + 6552
  word : mem + bytes < 0x10000000000000000

def poolSize (bytes : Nat) : Nat := (bytes - 6552) / 8 * 8

def newBlocks (mem bytes : Nat) : List Block :=
  [wholeBlock (mem + 6536) (poolSize bytes), sentinel (mem + 6536) (poolSize bytes)]

variable {mem bytes : Nat}

theorem HeapFits.pool (fits : HeapFits mem bytes) : PoolFits mem (mem + 6536) (poolSize bytes) := by
  obtain ⟨nonnull, ⟨k, rfl⟩, least, most, word⟩ := fits
  unfold poolSize
  exact ⟨nonnull, by omega, ⟨k + 817, by omega⟩, ⟨_, Nat.mul_comm _ _⟩, by omega, by omega,
    by omega⟩

def HeapFits.arena (fits : HeapFits mem bytes) : Arena := fits.pool.arena

theorem HeapFits.arena_bounds (fits : HeapFits mem bytes) :
    fits.arena.control = mem ∧ fits.arena.pool = mem + 6528 ∧ fits.arena.limit ≤ mem + bytes := by
  have least := fits.least
  refine ⟨rfl, rfl, ?_⟩
  change mem + 6536 + poolSize bytes + 16 ≤ mem + bytes
  unfold poolSize
  omega

theorem tlsfCreateWithPool_heap (fits : HeapFits mem bytes) (s : Control) :
    ∃ s', tlsfCreateWithPool mem bytes s = some (mem, s') ∧
      Heap fits.arena s' (newBlocks mem bytes) ∧
      ∀ x, x < mem ∨ fits.arena.limit ≤ x → s'.mem x = s.mem x := by
  have least := fits.least
  have word := fits.word
  have placed : ¬mem % ALIGN_SIZE ≠ 0 := by
    have aligned := fits.aligned
    unfold ALIGN_SIZE
    omega
  have rest : toUSize ((bytes : Int) - tlsfSize) = bytes - 6536 := by
    rw [show (bytes : Int) - (tlsfSize : Nat) =
      ((bytes - 6536 : Nat) : Int) by unfold tlsfSize; omega]
    exact toUSize_natCast (by omega)
  obtain ⟨s', call, fresh, same⟩ :=
    tlsfAddPool_fresh (s := s) fits.pool (show 16 ≤ bytes - 6536 by omega) (by omega)
    (show (bytes - 6536 - 16) / 8 * 8 = poolSize bytes by unfold poolSize; omega)
  change tlsfAddPool mem (mem + tlsfSize) _ _ = _ at call
  refine ⟨s', ?_, fresh.heap fits.pool, same⟩
  simp only [tlsfCreateWithPool, tlsfCreate, if_neg placed, rest, call, Option.bind_eq_bind,
    Option.bind_some]

end Whole

section Sizes

variable {control mem size : Nat} {s : Control}

private theorem setFlags_size (word : BitVec 64) (aligned : 8 ∣ size)
    (fits : size < 0x10000000000000000) :
    ((BitVec.ofNat 64 size ||| (word &&& (blockHeaderFreeBit ||| blockHeaderPrevFreeBit))
    ||| blockHeaderFreeBit) &&&
      ~~~blockHeaderPrevFreeBit &&& ~~~(blockHeaderFreeBit ||| blockHeaderPrevFreeBit)).toNat =
        size := by
  have same :
    (BitVec.ofNat 64 size ||| (word &&& (blockHeaderFreeBit ||| blockHeaderPrevFreeBit)) |||
      blockHeaderFreeBit) &&& ~~~blockHeaderPrevFreeBit
        &&& ~~~(blockHeaderFreeBit ||| blockHeaderPrevFreeBit) =
      BitVec.ofNat 64 size := by
    apply BitVec.eq_of_getLsbD_eq
    intro i below
    have bit : (BitVec.ofNat 64 size).getLsbD i = size.testBit i := by
      rw [BitVec.getLsbD, BitVec.toNat_ofNat, Nat.mod_eq_of_lt fits]
    simp only [BitVec.getLsbD_and, BitVec.getLsbD_or, BitVec.getLsbD_not, freeBit_getLsbD,
      prevFreeBit_getLsbD, bit]
    by_cases first : i = 0
    · simp [first, sizeBits_low aligned (show 0 < 3 by omega)]
    · by_cases second : i = 1
      · simp [second, sizeBits_low aligned (show 1 < 3 by omega)]
      · simp [first, second, below]
  rw [same, BitVec.toNat_ofNat, Nat.mod_eq_of_lt fits]

theorem tlsfAddPool_largest (some_mem : 8 ≤ mem) (mem_aligned : 8 ∣ mem)
    (word : mem < 0x10000000000000000)
    {bytes : Nat} (overhead : 16 ≤ bytes) (limit : bytes < 0x10000000000000000)
    (rounded : (bytes - 16) / 8 * 8 = 0x100000000) : tlsfAddPool control mem bytes s = none := by
  have down :
      tlsfAlignDown (toUSize ((bytes : Int) - tlsfPoolOverhead)) ALIGN_SIZE = some 0x100000000 := by
    rw [show (bytes : Int) - (tlsfPoolOverhead : Nat) = ((bytes - 16 : Nat) : Int) by
      unfold tlsfPoolOverhead blockHeaderOverhead; omega, toUSize_natCast (by omega),
      tlsfAlignDown_eq _ (by omega), rounded]
  have block : offsetToBlock mem (-blockHeaderOverhead) = mem - 8 := by
    rw [offsetToBlock, show (mem : Int) + -(blockHeaderOverhead : Nat) = ((mem - 8 : Nat) : Int) by
      unfold blockHeaderOverhead; omega, toUSize_natCast (by omega)]
  have placed : ¬mem % ALIGN_SIZE ≠ 0 := by
    unfold ALIGN_SIZE
    omega
  have in_limits : ¬(0x100000000 < blockSizeMin ∨ 0x100000000 > blockSizeMax) := by
    unfold blockSizeMin blockSizeMax
    omega
  have read :
    blockSize
      (blockSetPrevUsed (blockSetFree (blockSetSize s.mem (mem - 8) 0x100000000) (mem - 8))
        (mem - 8))
      (mem - 8) = 0x100000000 := by
    simp only [blockSize, blockSetPrevUsed, blockSetFree, blockSetSize, load64_store64]
    exact setFlags_size _ (by omega) (by omega)
  have row : mappingInsert 0x100000000 = (25, 0) :=
    (mappingInsert_large (k := 24) (by omega) (by omega)).1
  have beyond : inArrays 25 0 = none := rfl
  simp only [tlsfAddPool, down, if_neg placed, if_neg in_limits, block, blockInsert, read, row,
    insertFreeBlock, beyond, Option.bind_eq_bind, Option.bind_some, Option.bind_none]

theorem tlsfAddPool_refused {bytes : Nat} (mem_aligned : 8 ∣ mem)
    (limit : bytes < 0x10000000000000000)
    (refused : bytes < 16 ∨ (bytes - 16) / 8 * 8 < 24 ∨ 0x100000000 < (bytes - 16) / 8 * 8) :
    tlsfAddPool control mem bytes s = some (0, s) := by
  have placed : ¬mem % ALIGN_SIZE ≠ 0 := by
    unfold ALIGN_SIZE
    omega
  have word : toUSize ((bytes : Int) - tlsfPoolOverhead) < 0x10000000000000000 ∧
      (toUSize ((bytes : Int) - tlsfPoolOverhead) / 8 * 8 < blockSizeMin ∨
        toUSize ((bytes : Int) - tlsfPoolOverhead) / 8 * 8 > blockSizeMax) := by
    unfold toUSize tlsfPoolOverhead blockHeaderOverhead blockSizeMin blockSizeMax
    omega
  simp only [tlsfAddPool, tlsfAlignDown_eq _ word.1, if_neg placed, if_pos word.2,
    Option.bind_eq_bind, Option.bind_some]

theorem tlsfMalloc_empty {request : Nat} (word : request < 0x10000000000000000) :
    tlsfMalloc control request (controlConstruct control s) = some
      (0, controlConstruct control s) := by
  obtain ⟨aligned, small, sized⟩ := adjusted_sized request
  rcases sized with zero | least
  · exact tlsfMalloc_zero word zero _
  · have lists : FreeLists control (controlConstruct control s) fun _ => [] :=
      controlConstruct_lists _
    have summary := lists.indexed.summary
    have none : locateFree (adjusted request) (controlConstruct control s) =
        some (0, mappingSearch (adjusted request)) := by
      have rounded := roundUp_lt small
      have column :=
        (mappingInsert_listed (show roundUp (adjusted request) < 0x10000000000000000 by omega)).2.2
      rw [← mappingSearch_eq (by omega)] at column
      rw [locateFree, if_pos (by omega)]
      by_cases row : (mappingSearch (adjusted request)).1 < FL_INDEX_COUNT
      · rw [if_pos row, searchSuitableBlock_eq summary row column]
        cases found :
          search (controlConstruct control s).flBitmap (controlConstruct control s).slBitmap
            (mappingSearch (adjusted request)).1 (mappingSearch (adjusted request)).2 with
        | none => rfl
        | some c =>
          obtain ⟨inside, _, set, _⟩ := search_some summary row found
          exact absurd rfl ((lists.indexed.bits c inside).mp set)
      · rw [if_neg row]
    simp only [tlsfMalloc, adjustRequestSize_eq word, blockLocateFree, none, blockPrepareUsed,
      ne_eq, not_true, if_false, Option.bind_eq_bind, Option.bind_some]

end Sizes

end Algae.Mm.TlsfCreate
