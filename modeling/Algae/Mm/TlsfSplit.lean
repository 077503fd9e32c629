/- Splitting a block: the front keeps its address, and the remainder becomes a free block. -/

import Algae.Mm.TlsfHeld

set_option autoImplicit false
set_option relaxedAutoImplicit false

namespace Algae.Mm.TlsfSplit

open Algae.Lib.Allocation (Region Keeps)
open Algae.Lib.ByteMemory Algae.Lib.Tiling Algae.Sdk.Defs Algae.Mm.Tlsf Algae.Mm.TlsfWords
open Algae.Mm.TlsfBlocks Algae.Mm.TlsfHeap Algae.Mm.TlsfHeld

def front (b : Block) (size : Nat) : Block := { b with size := size }

def remainder (b : Block) (size : Nat) (free prev : Bool) : Block where
  addr := b.addr + 8 + size
  size := b.size - (size + 8)
  free := free
  prevFree := prev

structure Cuts (b : Block) (size : Nat) : Prop where
  aligned : 8 ∣ size
  room : 32 + size ≤ b.size

/-- A size that leaves a block as large as a block must be. -/
structure Splits (b : Block) (size : Nat) : Prop extends Cuts b size where
  least : 24 ≤ size

/-- What block_split makes of memory. The remainder has the flag of what was there before. -/
structure SplitMem (m m' : Mem) (b n : Block) (size : Nat) : Prop where
  front_word : load64 m' (b.addr + 8) = headerWord size b.free b.prevFree
  rest_word : ∃ prev, load64 m' (b.addr + 8 + size + 8) = headerWord (b.size - (size + 8)) true prev
  link : load64 m' n.addr = BitVec.ofNat 64 (b.addr + 8 + size)
  next_word : load64 m' (n.addr + 8) = headerWord n.size n.free true
  same : ∀ x, x < b.addr + 8 ∨ b.addr + 16 ≤ x → x < b.addr + 8 + size + 8 ∨
    b.addr + 8 + size + 16 ≤ x →
    x < n.addr ∨ n.addr + 16 ≤ x → m' x = m x

section Pieces

variable {a : Arena} {m : Mem} {b n : Block} {size : Nat} (pair : Neighbours a m b n)
  (cuts : Cuts b size)
include pair cuts

theorem remainder_stop (free prev : Bool) : (remainder b size free prev).stop = n.addr := by
  have adjacent := pair.adjacent
  have room := cuts.room
  unfold Block.stop at adjacent
  unfold Block.stop remainder
  dsimp only
  omega

theorem remainder_fits (free prev : Bool) : (remainder b size free prev).Fits a where
  first := by
    have first := pair.fits.first
    unfold remainder
    dsimp only
    omega
  last := by
    rw [remainder_stop pair cuts, pair.adjacent]
    exact pair.fits.last
  addr_aligned := by
    have one := pair.fits.addr_aligned
    have two := cuts.aligned
    unfold remainder
    dsimp only
    omega
  size_aligned := by
    have one := pair.fits.size_aligned
    have two := cuts.aligned
    unfold remainder
    dsimp only
    omega
  small := by
    have small := pair.fits.small
    unfold remainder
    dsimp only
    omega
  sized := by
    have room := cuts.room
    refine Or.inr ?_
    unfold remainder
    dsimp only
    omega
  ends zero := by
    have room := cuts.room
    unfold remainder at zero
    dsimp only at zero
    omega

def cutMem (m : Mem) (b : Block) (size : Nat) : Mem :=
  store64
    (store64 m (b.addr + 8 + size + 8)
      (headerWord (b.size - (size + 8)) ((load64 m (b.addr + 8 + size + 8)).getLsbD 0)
        ((load64 m (b.addr + 8 + size + 8)).getLsbD 1)))
    (b.addr + 8) (headerWord size b.free b.prevFree)

private theorem blockSplit_eq : blockSplit m b.addr size =
    (blockMarkAsFree (cutMem m b size) (b.addr + 8 + size)).map (b.addr + 8 + size, ·) := by
  have word := pair.fits.stop_word
  have room := cuts.room
  have small := pair.fits.small
  have rest_fits := remainder_fits pair cuts false false
  have rest_aligned : 8 ∣ b.size - (size + 8) := rest_fits.size_aligned
  have addr_aligned : 8 ∣ b.addr + 8 + size := rest_fits.addr_aligned
  unfold Block.stop at word
  have offset :
      offsetToBlock (blockToPtr b.addr) ((size : Int) - blockHeaderOverhead) =
        b.addr + 8 + size := by
    rw [offsetToBlock, blockToPtr, show blockStartOffset = 16 from rfl,
      show blockHeaderOverhead = 8 from rfl,
      show ((b.addr + 16 : Nat) : Int) + ((size : Int) - (8 : Nat)) =
        ((b.addr + 8 + size : Nat) : Int) by omega]
    exact toUSize_natCast (by omega)
  have remain :
      toUSize ((b.size : Int) - ((size : Int) + blockHeaderOverhead)) = b.size - (size + 8) := by
    rw [show blockHeaderOverhead = 8 from rfl,
      show (b.size : Int) - ((size : Int) + (8 : Nat)) =
        ((b.size - (size + 8) : Nat) : Int) by omega]
    exact toUSize_natCast (by omega)
  have total :
      b.size = toUSize
        (((b.size - (size + 8) : Nat) : Int) + (size : Int) + blockHeaderOverhead) := by
    rw [show blockHeaderOverhead = 8 from rfl,
      show ((b.size - (size + 8) : Nat) : Int) + (size : Int) + (8 : Nat) = (b.size : Int) by omega]
    exact (toUSize_natCast (by omega)).symm
  have placed :
      alignPtr (blockToPtr (b.addr + 8 + size)) ALIGN_SIZE = some
        (blockToPtr (b.addr + 8 + size)) := by
    unfold blockToPtr blockStartOffset
    exact alignPtr_aligned (by omega) (by omega)
  have enough : blockSizeMin ≤ blockSize (store64 m (b.addr + 8 + size + 8)
      (headerWord (b.size - (size + 8)) ((load64 m (b.addr + 8 + size + 8)).getLsbD 0)
        ((load64 m (b.addr + 8 + size + 8)).getLsbD 1))) (b.addr + 8 + size) := by
    rw [blockSize, load64_store64, headerWord_size rest_aligned (by omega)]
    unfold blockSizeMin
    omega
  have cut : BitVec.ofNat 64 size ||| (headerWord b.size b.free b.prevFree &&&
      (blockHeaderFreeBit ||| blockHeaderPrevFreeBit)) = headerWord size b.free b.prevFree := by
    rw [setSize_word cuts.aligned (by omega), headerWord_getLsbD pair.fits.size_aligned small,
      headerWord_getLsbD pair.fits.size_aligned small]
    rfl
  simp only [blockSplit, blockSize_eq pair.fits pair.word, offset, remain,
    tlsfAssert_pos placed.symm, tlsfAssert_pos total, blockSetSize,
      setSize_word rest_aligned (show b.size - (size + 8) < 0x100000000 by omega),
    tlsfAssert_pos enough, Option.bind_eq_bind, Option.bind_some]
  rw [load64_store64_disjoint _ _ (by omega), pair.word, cut]
  exact (Option.map_eq_bind).symm

theorem blockSplit_mem :
    ∃ m', blockSplit m b.addr size = some (b.addr + 8 + size, m') ∧ SplitMem m m' b n size := by
  have order := pair.order
  have adjacent := pair.adjacent
  have room := cuts.room
  unfold Block.stop at adjacent
  rw [blockSplit_eq pair cuts]
  generalize free_eq : (load64 m (b.addr + 8 + size + 8)).getLsbD 0 = free
  generalize prev_eq : (load64 m (b.addr + 8 + size + 8)).getLsbD 1 = prev
  have cut : Neighbours a (cutMem m b size) (remainder b size free prev) n := by
    unfold cutMem
    rw [free_eq, prev_eq]
    refine ⟨remainder_fits pair cuts free prev, ?_, ?_, pair.next_fits, ?_,
      (remainder_stop pair cuts free prev).symm⟩
    · unfold remainder
      dsimp only
      simp (disch := omega) only [load64_store64_disjoint, load64_store64]
    · unfold remainder
      dsimp only
      omega
    · simp (disch := omega) only [load64_store64_disjoint]
      exact pair.next_word
  have mark := cut.blockMarkAsFree
  unfold remainder cutMem at mark
  dsimp only at mark
  rw [cutMem, mark]
  refine ⟨_, rfl, ?_, ⟨prev, ?_⟩, ?_, ?_, ?_⟩
  · simp (disch := omega) only [load64_store64_disjoint, load64_store64]
  · simp (disch := omega) only [load64_store64]
  · simp (disch := omega) only [load64_store64_disjoint, load64_store64]
  · simp (disch := omega) only [load64_store64_disjoint, load64_store64]
  · intro x off_front off_rest off_next
    simp (disch := omega) only [store64_outside]

end Pieces

section Split

variable {a : Arena} {s : Control} {xs ys : List Block} {b n : Block} {size : Nat}

private theorem front_fits {m : Mem} (pair : Neighbours a m b n) (splits : Splits b size) :
    (front b size).Fits a where
  first := pair.fits.first
  last := by
    have last := pair.fits.last
    have room := splits.room
    unfold Block.stop at last
    unfold Block.stop front
    dsimp only
    omega
  addr_aligned := pair.fits.addr_aligned
  size_aligned := splits.aligned
  small := by
    have small := pair.fits.small
    have room := splits.room
    unfold front
    dsimp only
    omega
  sized := Or.inr splits.least
  ends zero := absurd zero (Nat.ne_of_gt (Nat.lt_of_lt_of_le (Nat.zero_lt_succ 23) splits.least))

/-- The remainder of a split, with its flag set, and no less the front if it is free. -/
structure Parted (m m' : Mem) (b n : Block) (size : Nat) : Prop where
  front_word : load64 m' (b.addr + 8) = headerWord size b.free b.prevFree
  front_link : b.free = true → load64 m' (b.addr + 8 + size) = BitVec.ofNat 64 b.addr
  rest_word : load64 m' (b.addr + 8 + size + 8) = headerWord (b.size - (size + 8)) true b.free
  link : load64 m' n.addr = BitVec.ofNat 64 (b.addr + 8 + size)
  next_word : load64 m' (n.addr + 8) = headerWord n.size n.free true
  same : ∀ x, x < b.addr + 8 ∨ b.addr + 16 ≤ x →
    x < b.addr + 8 + size + (if b.free = true then 0 else 8) ∨ b.addr + 8 + size + 16 ≤ x →
    x < n.addr ∨ n.addr + 16 ≤ x → m' x = m x

theorem holds_part (held : Held a s xs b n ys) (splits : Splits b size) {m' : Mem}
    (parted : Parted s.mem m' b n size) :
    Holds a { s with mem := m' }
      (xs ++ [front b size, remainder b size true b.free] ++ { n with prevFree := true } :: ys)
      (freeAddrs (xs ++ { n with prevFree := true } :: ys)) ∧
    Keeps (a.outside ∪ live (xs ++ n :: ys)) s.mem m' := by
  have pair := held.pair
  have order := pair.order
  have adjacent := pair.adjacent
  have room := splits.room
  have least := splits.least
  have front_fits := front_fits pair splits
  have rest_fits := remainder_fits pair splits.toCuts true b.free
  have rest_stop := remainder_stop pair splits.toCuts true b.free
  unfold Block.stop at adjacent
  have others :
      freeAddrs (xs ++ { n with prevFree := true } :: ys) = freeAddrs (xs ++ n :: ys) := by
    rw [freeAddrs_append, freeAddrs_append, freeAddrs_cons, freeAddrs_cons]
  rw [others]
  refine held.holds.reshape { n with prevFree := true } held.holds.unlisted ?_ ?_ ?_
    ⟨rfl, rfl, rfl⟩ parted.next_word ?_
  · rintro x (high | low)
    · exact parted.same x (by omega) (by omega) (by omega)
    · have low := low b (by simp)
      refine parted.same x (by omega) (Or.inl ?_) (by omega)
      split <;> omega
  · simpa using ⟨front_fits, rest_fits⟩
  · have front_header : Header m' (front b size) := ⟨parted.front_word, parted.front_link⟩
    have rest_header : Header m' (remainder b size true b.free) := by
      refine ⟨parted.rest_word, fun _ => ?_⟩
      rw [rest_stop]
      exact parted.link
    simpa using ⟨front_header, rest_header⟩
  · intro r leads
    obtain ⟨enter, _⟩ := path_singleton.mp leads
    refine path_pair.mpr ⟨enter, ?_, ?_⟩
    · have positive : ¬size = 0 := by omega
      exact (if_neg positive).symm
    · have positive : (remainder b size true b.free).size ≠ 0 := by
        unfold remainder
        dsimp only
        omega
      rw [Block.leave, if_neg positive, rest_stop]
      rfl

theorem held_rest (held : Held a s xs b n ys) (splits : Splits b size) {m' : Mem}
    (h : Holds a { s with mem := m' }
      (xs ++ [front b size, remainder b size true b.free] ++ { n with prevFree := true } :: ys)
      (freeAddrs (xs ++ { n with prevFree := true } :: ys))) (used : b.free = false) :
    Held a { s with mem := m' } (xs ++ [front b size]) (remainder b size true b.free)
      { n with prevFree := true } ys where
  holds := by
    have others : freeAddrs (xs ++ [front b size] ++ { n with prevFree := true } :: ys) =
        freeAddrs (xs ++ { n with prevFree := true } :: ys) := by
      rw [List.append_assoc, List.singleton_append]
      exact freeAddrs_used used
    rw [others]
    simpa using h
  sized := by
    have room := splits.room
    unfold remainder
    dsimp only
    omega
  coalesced c member free := by
    simp only [List.mem_append, List.mem_singleton] at member
    rcases member with (early | rfl) | late
    · exact held.coalesced c (List.mem_append_left _ early) free
    · rw [show (front b size).free = b.free from rfl, used] at free
      cases free
    · exact held.coalesced c (List.mem_append_right _ late) free

end Split

section Trim

variable {a : Arena} {s : Control} {xs ys : List Block} {m : Mem} {b n : Block} {size : Nat}

theorem blockLinkNext_front (pair : Neighbours a m b n) (splits : Splits b size) {m' : Mem}
    (word : load64 m' (b.addr + 8) = headerWord size b.free b.prevFree) :
    blockLinkNext m' b.addr =
      some (b.addr + 8 + size, store64 m' (b.addr + 8 + size) (BitVec.ofNat 64 b.addr)) := by
  have least := splits.least
  have fits := front_fits pair splits
  have stop := fits.stop_word
  unfold Block.stop front at stop
  dsimp only at stop
  have read : blockSize m' b.addr = size := blockSize_eq (b := front b size) fits word
  have next := blockNext_of_size read (by omega) (by omega)
  simp only [blockLinkNext, next, Option.bind_eq_bind, Option.bind_some]

section Rest

variable (pair : Neighbours a m b n) (cuts : Cuts b size)
include pair cuts

private theorem remainder_small :
    8 ∣ b.size - (size + 8) ∧ b.size - (size + 8) < 0x100000000 := by
  have fits := remainder_fits pair cuts true true
  exact ⟨fits.size_aligned, fits.small⟩

theorem blockSetPrevFree_rest (m' : Mem) {prev : Bool}
    (word : load64 m' (b.addr + 8 + size + 8) = headerWord (b.size - (size + 8)) true prev) :
    blockSetPrevFree m' (b.addr + 8 + size) =
      store64 m' (b.addr + 8 + size + 8) (headerWord (b.size - (size + 8)) true true) := by
  obtain ⟨aligned, small⟩ := remainder_small pair cuts
  rw [blockSetPrevFree, word, headerWord_or_prevFree aligned small]

theorem blockSetPrevUsed_rest (m' : Mem) {prev : Bool}
    (word : load64 m' (b.addr + 8 + size + 8) = headerWord (b.size - (size + 8)) true prev) :
    blockSetPrevUsed m' (b.addr + 8 + size) =
      store64 m' (b.addr + 8 + size + 8) (headerWord (b.size - (size + 8)) true false) := by
  obtain ⟨aligned, small⟩ := remainder_small pair cuts
  rw [blockSetPrevUsed, word, headerWord_and_prevFree aligned small]

end Rest

theorem parted_free (pair : Neighbours a m b n) (splits : Splits b size) (m' : Mem)
    (free : b.free = true) {m₁ : Mem} (split : SplitMem m m₁ b n size)
    (rest : load64 m' (b.addr + 8 + size + 8) = headerWord (b.size - (size + 8)) true true)
    (link : load64 m' (b.addr + 8 + size) = BitVec.ofNat 64 b.addr)
    (same : ∀ x, x < b.addr + 8 + size ∨ b.addr + 8 + size + 16 ≤ x → m' x = m₁ x) :
    Parted m m' b n size := by
  have order := pair.order
  have adjacent := pair.adjacent
  have room := splits.room
  have least := splits.least
  unfold Block.stop at adjacent
  have kept : ∀ w, w + 8 ≤ b.addr + 8 + size ∨ b.addr + 8 + size + 16 ≤ w →
      load64 m' w = load64 m₁ w :=
    fun w apart => load64_congr fun i below => same _ (by omega)
  refine ⟨?_,
    fun _ => link, by rw [free]; exact rest, ?_, ?_, fun x off_front off_rest off_next => ?_⟩
  · rw [kept _ (by omega), split.front_word]
  · rw [kept _ (by omega), split.link]
  · rw [kept _ (by omega), split.next_word]
  · rw [if_pos free] at off_rest
    rw [same x (by omega), split.same x off_front (by omega) off_next]

end Trim

section TrimFree

variable {a : Arena} {s : Control} {xs ys : List Block} {b n : Block} {size : Nat}

private theorem blockTrimFree_part (held : Held a s xs b n ys) (splits : Splits b size)
    (free : b.free = true) (next_used : n.free = false) :
    ∃ s', blockTrimFree a.control b.addr size s = some s' ∧
      Held a s' xs (front b size) (remainder b size true true) ({ n with prevFree := true } :: ys) ∧
      Keeps (a.outside ∪ live (xs ++ n :: ys)) s.mem s'.mem := by
  have pair := held.pair
  have room := splits.room
  have least := splits.least
  obtain ⟨m₁, call, split⟩ := blockSplit_mem pair splits.toCuts
  obtain ⟨prev, rest_word⟩ := split.rest_word
  have link := blockLinkNext_front pair splits split.front_word
  have flag :=
    blockSetPrevFree_rest pair splits.toCuts
      (store64 m₁ (b.addr + 8 + size) (BitVec.ofNat 64 b.addr))
    (by rw [load64_store64_disjoint _ _ (by omega)]; exact rest_word)
  have parted := parted_free pair splits
    (store64 (store64 m₁ (b.addr + 8 + size) (BitVec.ofNat 64 b.addr)) (b.addr + 8 + size + 8)
      (headerWord (b.size - (size + 8)) true true)) free split
    (by rw [load64_store64])
      (by simp (disch := omega) only [load64_store64_disjoint, load64_store64])
    (fun x apart => by simp (disch := omega) only [store64_outside])
  obtain ⟨holds, keeps⟩ := holds_part held splits parted
  rw [free] at holds
  have member : remainder b size true true ∈
      xs ++ [front b size, remainder b size true true] ++
        { n with prevFree := true } :: ys := by simp
  obtain ⟨s', insert, holds', keeps'⟩ := holds.insert member rfl (holds.unlisted _ (by simp))
  refine ⟨s', ?_, ⟨?_, ?_, ?_⟩, ?_⟩
  · have can : blockCanSplit s.mem b.addr size = true := by
      rw [blockCanSplit_eq pair.fits pair.word, decide_eq_true room]
    simp only [blockTrimFree, blockIsFree_eq pair.fits pair.word, tlsfAssert_pos free, can,
      if_true, call, link,
      flag, Option.bind_eq_bind, Option.bind_some]
    exact insert
  · rw [freeAddrs_insert (b := remainder b size true true) rfl]
    simpa using holds'
  · unfold front
    dsimp only
    omega
  · intro c inside is_free
    simp only [List.mem_append, List.mem_cons] at inside
    rcases inside with early | rfl | late
    · exact held.coalesced c (List.mem_append_left _ early) is_free
    · rw [next_used] at is_free
      cases is_free
    · exact held.coalesced c (List.mem_append_right _ late) is_free
  · have fewer := keeps_fewer _ _ _ keeps'
    rw [live_flag xs ys n true] at fewer
    exact keeps.trans fewer

theorem trimFree_held (held : Held a s xs b n ys) (free : b.free = true)
    (next_used : n.free = false) (least : 24 ≤ size) (aligned : 8 ∣ size) (enough : size ≤ b.size) :
    ∃ s' b' n' ys', blockTrimFree a.control b.addr size s = some s' ∧ Held a s' xs b' n' ys' ∧
      b'.addr = b.addr ∧ b'.prevFree = b.prevFree ∧ size ≤ b'.size ∧ b'.size < size + 32 ∧
      live (xs ++ n' :: ys') = live (xs ++ n :: ys) ∧
        Keeps (a.outside ∪ live (xs ++ n :: ys)) s.mem s'.mem := by
  by_cases room : 32 + size ≤ b.size
  · obtain ⟨s', call, held', keeps⟩ :=
      blockTrimFree_part held ⟨⟨aligned, room⟩, least⟩ free next_used
    refine ⟨s', _, _, _, call, held', rfl, rfl, le_refl size, Nat.lt_add_of_pos_right (by omega),
      ?_, keeps⟩
    rw [live_skip rfl, live_flag]
  · have pair := held.pair
    have can : blockCanSplit s.mem b.addr size = false := by
      rw [blockCanSplit_eq pair.fits pair.word, decide_eq_false room]
    refine ⟨s, b, n, ys, ?_, held, rfl, rfl, enough, by omega, rfl, Keeps.refl _ _⟩
    simp only [blockTrimFree, blockIsFree_eq pair.fits pair.word, tlsfAssert_pos free, can,
      Bool.false_eq_true, if_false, Option.bind_eq_bind, Option.bind_some]

end TrimFree

end Algae.Mm.TlsfSplit
