/- The blocks of a pool: what their headers hold, how they lie next to each other, and what
   becomes of the others when some of them change. -/

import Mathlib.Order.WithBot
import Algae.Lib.Allocation
import Algae.Lib.Tiling
import Algae.Mm.TlsfWords

set_option autoImplicit false
set_option relaxedAutoImplicit false

namespace Algae.Mm.TlsfBlocks

open Algae.Lib.Allocation (Region)
open Algae.Lib.ByteMemory Algae.Lib.Tiling Algae.Sdk.Defs Algae.Mm.Tlsf Algae.Mm.TlsfWords

structure Block where
  addr : Nat
  size : Nat
  free : Bool
  prevFree : Bool
  deriving DecidableEq, Repr

def Block.stop (b : Block) : Nat := b.addr + 8 + b.size

/-- Where a pool lies. The structure that controls it is below its first block, of which only
the fields from the size on are in the pool. -/
structure Arena where
  control : Nat
  pool : Nat
  limit : Nat
  some_control : 0 < control
  below : control + 32 ≤ pool + 8
  span : limit < pool + 0x100000000 + 24
  word : limit < 0x10000000000000000

def Arena.outside (a : Arena) : Set Region := {r | r.1 + r.2 ≤ a.control ∨ a.limit ≤ r.1}

/-- The sentinel has no size and is never free. It is where the pool ends. -/
structure Block.Fits (a : Arena) (b : Block) : Prop where
  first : a.pool ≤ b.addr
  last : b.stop + 8 ≤ a.limit
  addr_aligned : 8 ∣ b.addr
  size_aligned : 8 ∣ b.size
  small : b.size < 0x100000000
  sized : b.size = 0 ∧ b.free = false ∨ 24 ≤ b.size
  ends : b.size = 0 → b.stop + 8 = a.limit

/-- What memory holds of a block. The address of a free block is also in the next block. -/
structure Header (m : Mem) (b : Block) : Prop where
  word : load64 m (b.addr + 8) = headerWord b.size b.free b.prevFree
  link : b.free = true → load64 m b.stop = BitVec.ofNat 64 b.addr

/-- A block begins at an address, where it is told whether the block before it is free. -/
def Block.enter (b : Block) : Option (Nat × Bool) := some (b.addr, b.prevFree)

def Block.leave (b : Block) : Option (Nat × Bool) :=
  if b.size = 0 then none else some (b.stop, b.free)

def Laid (a : Arena) (bs : List Block) : Prop :=
  Path Block.enter Block.leave (some (a.pool, false)) bs none

section Fits

variable {a : Arena} {b : Block} (fits : b.Fits a)
include fits

theorem Block.Fits.addr_word : b.addr + 16 < 0x10000000000000000 := by
  have last := fits.last
  have word := a.word
  unfold Block.stop at last
  omega

theorem Block.Fits.stop_word : b.stop + 8 < 0x10000000000000000 :=
  Nat.lt_of_le_of_lt fits.last a.word

theorem Block.Fits.size_of_free (free : b.free = true) : 24 ≤ b.size := by
  rcases fits.sized with ⟨_, used⟩ | large
  · rw [free] at used
    cases used
  · exact large

theorem Block.Fits.size_of_pos (positive : b.size ≠ 0) : 24 ≤ b.size := by
  rcases fits.sized with ⟨zero, _⟩ | large
  · exact absurd zero positive
  · exact large

end Fits

section Reads

variable {a : Arena} {b : Block} {m : Mem} (fits : b.Fits a)
  (word : load64 m (b.addr + 8) = headerWord b.size b.free b.prevFree)
include fits word

theorem blockSize_eq : blockSize m b.addr = b.size := by
  rw [blockSize, word]
  exact headerWord_size fits.size_aligned fits.small

theorem blockIsLast_eq : blockIsLast m b.addr = decide (b.size = 0) := by
  rw [blockIsLast, blockSize_eq fits word]

theorem blockIsFree_eq : blockIsFree m b.addr = b.free := by
  rw [blockIsFree, word]
  exact Bool.eq_iff_iff.mpr
    (decide_eq_true_iff.trans (headerWord_isFree fits.size_aligned fits.small))

theorem blockIsPrevFree_eq : blockIsPrevFree m b.addr = b.prevFree := by
  rw [blockIsPrevFree, word]
  exact Bool.eq_iff_iff.mpr
    (decide_eq_true_iff.trans (headerWord_isPrevFree fits.size_aligned fits.small))

theorem blockCanSplit_eq (size : Nat) :
    blockCanSplit m b.addr size = decide (32 + size ≤ b.size) := by
  rw [blockCanSplit, blockSize_eq fits word]
  rfl

end Reads

theorem blockNext_of_size {m : Mem} {addr size : Nat} (read : blockSize m addr = size)
    (positive : size ≠ 0)
    (word : addr + 8 + size < 0x10000000000000000) : blockNext m addr = some (addr + 8 + size) := by
  have next :
      offsetToBlock (blockToPtr addr) ((size : Int) - blockHeaderOverhead) = addr + 8 + size := by
    rw [offsetToBlock, blockToPtr, show blockStartOffset = 16 from rfl,
      show blockHeaderOverhead = 8 from rfl,
      show ((addr + 16 : Nat) : Int) + ((size : Int) - (8 : Nat)) =
        ((addr + 8 + size : Nat) : Int) by omega]
    exact toUSize_natCast word
  have more : (!blockIsLast m addr) = true := by
    simp [blockIsLast, read, positive]
  simp only [blockNext, read, next, tlsfAssert_pos more, Option.bind_eq_bind, Option.bind_some]

section Place

variable {a : Arena} {bs : List Block}

def rank : Option (Nat × Bool) → WithTop Nat
  | none => ⊤
  | some (addr, _) => addr

private theorem rank_enter (b : Block) : rank b.enter = (b.addr : WithTop Nat) := rfl

private theorem rank_forth (b : Block) : rank b.enter ≤ rank b.leave := by
  unfold Block.leave
  split
  · exact le_top
  · have forth : b.addr ≤ b.stop := by
      unfold Block.stop
      omega
    exact WithTop.coe_le_coe.mpr forth

theorem Laid.ordered (laid : Laid a bs) : bs.Pairwise fun b c => b.stop ≤ c.addr ∧ b.size ≠ 0 := by
  have pairs := Path.pairwise rank laid fun b _ => rank_forth b
  refine pairs.imp fun {b c} before => ?_
  rw [rank_enter] at before
  unfold Block.leave at before
  split at before
  · exact absurd (top_le_iff.mp before) (WithTop.coe_ne_top)
  · rename_i positive
    exact ⟨WithTop.coe_le_coe.mp before, positive⟩

def Block.Apart (b c : Block) : Prop := b.stop ≤ c.addr ∨ c.stop ≤ b.addr

instance : Std.Symm Block.Apart := ⟨fun _ _ => Or.symm⟩

theorem Laid.apart (laid : Laid a bs) {b c : Block} (mb : b ∈ bs) (mc : c ∈ bs) (other : b ≠ c) :
    b.stop ≤ c.addr ∨ c.stop ≤ b.addr := by
  have pairs : bs.Pairwise Block.Apart := laid.ordered.imp fun before => Or.inl before.1
  exact pairs.forall mb mc other

theorem Laid.eq_of_addr (laid : Laid a bs) {b c : Block} (mb : b ∈ bs) (mc : c ∈ bs)
    (same : b.addr = c.addr) : b = c := by
  by_contra other
  have apart := laid.apart mb mc other
  unfold Block.stop at apart
  omega

theorem Laid.elsewhere {xs mid ys : List Block} (laid : Laid a (xs ++ mid ++ ys)) {b c : Block}
    (mb : b ∈ mid) (mc : c ∈ xs ++ ys) : c.addr ≠ b.addr := by
  have outer := List.pairwise_append.mp laid.ordered
  rcases List.mem_append.mp mc with early | late
  · have before := ((List.pairwise_append.mp outer.1).2.2 c early b mb).1
    unfold Block.stop at before
    omega
  · have after := (outer.2.2 b (List.mem_append_right _ mb) c late).1
    unfold Block.stop at after
    omega

theorem Laid.next {xs ys : List Block} {b : Block} (laid : Laid a (xs ++ b :: ys))
    (positive : b.size ≠ 0) :
    ∃ n rest, ys = n :: rest ∧ n.addr = b.stop ∧ n.prevFree = b.free := by
  have leave : b.leave = some (b.stop, b.free) := if_neg positive
  obtain ⟨n, rest, rfl, enter⟩ := Path.next laid (by simp [leave])
  rw [leave] at enter
  obtain ⟨same, flag⟩ := Prod.mk.inj (Option.some.inj enter)
  exact ⟨n, rest, rfl, same, flag⟩

theorem Laid.previous {xs ys : List Block} {b : Block} (laid : Laid a (xs ++ b :: ys))
    (free : b.prevFree = true) : ∃ front p, xs = front ++ [p] ∧ p.stop = b.addr ∧
    p.free = true := by
  obtain ⟨front, p, rfl, leave⟩ := Path.previous laid (by simp [Block.enter, free])
  unfold Block.leave Block.enter at leave
  split at leave
  · cases leave
  · obtain ⟨same, flag⟩ := Prod.mk.inj (Option.some.inj leave)
    exact ⟨front, p, rfl, same, flag.trans free⟩

end Place

section Change

/-- The part of a pool that a change of the blocks `mid` touches: from the size field of the
first to that of the block `n` behind them. -/
def Outside (mid : List Block) (n : Block) (x : Nat) : Prop :=
  n.addr + 16 ≤ x ∨ ∀ b ∈ mid, x < b.addr + 8

variable {a : Arena} {xs mid ys : List Block} {n : Block} {m m' : Mem}

theorem Laid.before (laid : Laid a (xs ++ mid ++ n :: ys)) {b : Block} (member : b ∈ xs) :
    b.stop ≤ n.addr ∧ ∀ c ∈ mid, b.stop ≤ c.addr := by
  have pairs := laid.ordered
  rw [List.append_assoc] at pairs
  have across := (List.pairwise_append.mp pairs).2.2 b member
  refine ⟨(across n (by simp)).1, fun c inside => (across c (by simp [inside])).1⟩

theorem Laid.after (laid : Laid a (xs ++ mid ++ n :: ys)) {b : Block} (member : b ∈ ys) :
    n.stop ≤ b.addr ∧ n.size ≠ 0 := by
  have pairs := (List.pairwise_append.mp laid.ordered).2.1
  exact (List.pairwise_cons.mp pairs).1 b member

theorem Laid.outside_before (laid : Laid a (xs ++ mid ++ n :: ys)) {b : Block}
    (member : b ∈ xs) {x : Nat} (low : x < b.stop + 8) : Outside mid n x :=
  Or.inr fun c inside => by
    have order := (laid.before member).2 c inside
    omega

theorem Laid.outside_after (laid : Laid a (xs ++ mid ++ n :: ys)) (fits : n.Fits a) {b : Block}
    (member : b ∈ ys) {x : Nat} (high : b.addr + 8 ≤ x) : Outside mid n x := by
  obtain ⟨order, positive⟩ := laid.after member
  have large := fits.size_of_pos positive
  unfold Block.stop at order
  exact Or.inl (by omega)

theorem Header.outside {b : Block} (header : Header m b) (fits : b.Fits a)
    (same : ∀ x, b.addr + 8 ≤ x → x < b.stop + 8 → m' x = m x) : Header m' b where
  word := by
    rw [← header.word]
    refine load64_congr fun i below => same _ (by omega) ?_
    unfold Block.stop
    omega
  link free := by
    have large := fits.size_of_free free
    rw [← header.link free]
    refine load64_congr fun i below => same _ ?_ (by omega)
    unfold Block.stop
    omega

theorem headers_replace {mid' : List Block} {n' : Block} (laid : Laid a (xs ++ mid ++ n :: ys))
    (fits : ∀ b ∈ xs ++ mid ++ n :: ys, b.Fits a) (headers : ∀ b ∈ xs ++ mid ++ n :: ys, Header m b)
    (same : ∀ x, Outside mid n x → m' x = m x) (changed : ∀ b ∈ mid', Header m' b)
    (like : n'.addr = n.addr ∧ n'.size = n.size ∧ n'.free = n.free)
    (next : load64 m' (n.addr + 8) = headerWord n.size n.free n'.prevFree) :
    ∀ b ∈ xs ++ mid' ++ n' :: ys, Header m' b := by
  have n_member : n ∈ xs ++ mid ++ n :: ys := by simp
  intro b member
  rw [List.append_assoc, List.mem_append, List.mem_append, List.mem_cons] at member
  rcases member with early | inside | rfl | late
  · have old : b ∈ xs ++ mid ++ n :: ys := by simp [early]
    refine (headers b old).outside (fits b old) fun x low high => same x ?_
    exact laid.outside_before early high
  · exact changed b inside
  · obtain ⟨addr, size, free⟩ := like
    have stop : b.stop = n.stop := by
      rw [Block.stop, Block.stop, addr, size]
    constructor
    · rw [addr, size, free]
      exact next
    · intro is_free
      rw [free] at is_free
      have large := (fits n n_member).size_of_free is_free
      rw [stop, addr, ← (headers n n_member).link is_free]
      refine load64_congr fun i below => same _ (Or.inl ?_)
      unfold Block.stop
      omega
  · have old : b ∈ xs ++ mid ++ n :: ys := by simp [late]
    refine (headers b old).outside (fits b old) fun x low high => same x ?_
    exact laid.outside_after (fits n n_member) late low

end Change

end Algae.Mm.TlsfBlocks
