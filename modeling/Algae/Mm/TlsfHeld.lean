/- A block of the heap that is in no list: taken from its list or not yet in one. Every operation
   on the heap takes a block, changes it together with its neighbours, and gives it back. -/

import Algae.Mm.TlsfHeap

set_option autoImplicit false
set_option relaxedAutoImplicit false

namespace Algae.Mm.TlsfHeld

open Algae.Lib.Allocation (Region Keeps)
open Algae.Lib.ByteMemory Algae.Lib.Tiling Algae.Lib.TwoLevelIndex Algae.Sdk.Defs Algae.Mm.Tlsf
open Algae.Mm.TlsfWords Algae.Mm.TlsfBlocks Algae.Mm.TlsfHeap

/-- What the block operations compute, once the headers they read are known. -/
structure Neighbours (a : Arena) (m : Mem) (b n : Block) : Prop where
  fits : b.Fits a
  word : load64 m (b.addr + 8) = headerWord b.size b.free b.prevFree
  sized : b.size ≠ 0
  next_fits : n.Fits a
  next_word : load64 m (n.addr + 8) = headerWord n.size n.free n.prevFree
  adjacent : n.addr = b.stop

section Writes

variable {a : Arena} {m : Mem} {b n : Block} (pair : Neighbours a m b n)
include pair

theorem Neighbours.order : b.addr + 32 ≤ n.addr ∧ n.addr + 16 < 0x10000000000000000 := by
  have large := pair.fits.size_of_pos pair.sized
  have word := pair.next_fits.addr_word
  have adjacent := pair.adjacent
  unfold Block.stop at adjacent
  omega

theorem Neighbours.blockNext : blockNext m b.addr = some n.addr := by
  have read := blockSize_eq pair.fits pair.word
  have word := pair.fits.stop_word
  have adjacent := pair.adjacent
  unfold Block.stop at word adjacent
  rw [blockNext_of_size read pair.sized (by omega), adjacent]

theorem Neighbours.blockLinkNext :
    blockLinkNext m b.addr = some (n.addr, store64 m n.addr (BitVec.ofNat 64 b.addr)) := by
  simp only [Tlsf.blockLinkNext, pair.blockNext, Option.bind_eq_bind, Option.bind_some]

theorem Neighbours.blockMarkAsFree : blockMarkAsFree m b.addr =
    some (store64 (store64 (store64 m n.addr (BitVec.ofNat 64 b.addr))
      (n.addr + 8) (headerWord n.size n.free true)) (b.addr + 8)
      (headerWord b.size true b.prevFree)) := by
  have order := pair.order
  simp (disch := omega) only [Tlsf.blockMarkAsFree, pair.blockLinkNext, Option.bind_eq_bind,
    Option.bind_some,
    blockSetFree, blockSetPrevFree, load64_store64_disjoint, pair.word, pair.next_word]
  rw [headerWord_or_prevFree pair.next_fits.size_aligned pair.next_fits.small,
    headerWord_or_free pair.fits.size_aligned pair.fits.small]

theorem Neighbours.blockMarkAsUsed : blockMarkAsUsed m b.addr =
    some (store64 (store64 m (n.addr + 8) (headerWord n.size n.free false))
      (b.addr + 8) (headerWord b.size false b.prevFree)) := by
  have order := pair.order
  simp (disch := omega) only [Tlsf.blockMarkAsUsed, pair.blockNext, Option.bind_eq_bind,
    Option.bind_some,
    blockSetUsed, blockSetPrevUsed, load64_store64_disjoint, pair.word, pair.next_word]
  rw [headerWord_and_prevFree pair.next_fits.size_aligned pair.next_fits.small,
    headerWord_and_free pair.fits.size_aligned pair.fits.small]

end Writes

/-- The block `b` is in no list; `n` is behind it, `xs` and `ys` are the other blocks. No two
others that are free lie next to each other. -/
structure Held (a : Arena) (s : Control) (xs : List Block) (b n : Block) (ys : List Block) :
    Prop where
  holds : Holds a s (xs ++ [b] ++ n :: ys) (freeAddrs (xs ++ n :: ys))
  sized : b.size ≠ 0
  coalesced : ∀ c ∈ xs ++ ys, c.free = true → c.prevFree = false

/-- Between two operations every free block is listed, and none lies next to another. -/
structure Heap (a : Arena) (s : Control) (bs : List Block) : Prop where
  holds : Holds a s bs (freeAddrs bs)
  coalesced : ∀ c ∈ bs, c.free = true → c.prevFree = false

section Become

variable {a : Arena} {s : Control} {xs mid ys : List Block} {n : Block}

theorem held_of_become (h : Holds a s (xs ++ mid ++ n :: ys) (freeAddrs (xs ++ n :: ys))) (m' : Mem)
    (b' : Block) (fits : b'.Fits a) (sized : b'.size ≠ 0) (adjacent : b'.stop = n.addr)
    (enter : ∀ r, Path Block.enter Block.leave r mid n.enter → r = b'.enter)
    (same : ∀ x, Outside mid n x → m' x = s.mem x) (header : Header m' b')
    (next : load64 m' (n.addr + 8) = headerWord n.size n.free b'.free)
    (coalesced : ∀ c ∈ xs ++ ys, c.free = true → c.prevFree = false) :
    Held a { s with mem := m' } xs b' { n with prevFree := b'.free } ys ∧
      Keeps (a.outside ∪ live (xs ++ n :: ys)) s.mem m' := by
  have path : ∀ r, Path Block.enter Block.leave r mid n.enter →
      Path Block.enter Block.leave r [b'] { n with prevFree := b'.free }.enter := by
    intro r leads
    refine path_singleton.mpr ⟨(enter r leads).symm, ?_⟩
    simp only [Block.leave, Block.enter, if_neg sized, adjacent]
  obtain ⟨holds, keeps⟩ := h.reshape { n with prevFree := b'.free } h.unlisted same
    (by simpa using fits) (by simpa using header) ⟨rfl, rfl, rfl⟩ next path
  have others :
      freeAddrs (xs ++ { n with prevFree := b'.free } :: ys) = freeAddrs (xs ++ n :: ys) := by
    rw [freeAddrs_append, freeAddrs_append, freeAddrs_cons, freeAddrs_cons]
  exact ⟨⟨others ▸ holds, sized, coalesced⟩, keeps⟩

end Become

section Held

variable {a : Arena} {s : Control} {xs ys : List Block} {b n : Block} (held : Held a s xs b n ys)
include held

theorem Held.adjacent : n.addr = b.stop ∧ n.prevFree = b.free := by
  have laid := held.holds.laid
  rw [List.append_assoc, List.singleton_append] at laid
  obtain ⟨n', rest, same, addr, flag⟩ := laid.next held.sized
  obtain ⟨rfl, rfl⟩ := List.cons.inj same
  exact ⟨addr, flag⟩

theorem Held.pair : Neighbours a s.mem b n where
  fits := held.holds.fits b (by simp)
  word := (held.holds.headers b (by simp)).word
  sized := held.sized
  next_fits := held.holds.fits n (by simp)
  next_word := (held.holds.headers n (by simp)).word
  adjacent := held.adjacent.1

theorem Held.mark (m' : Mem) (free : Bool) (same : ∀ x, Outside [b] n x → m' x = s.mem x)
    (header : Header m' { b with free := free })
    (next : load64 m' (n.addr + 8) = headerWord n.size n.free free) :
    Held a { s with mem := m' } xs { b with free := free } { n with prevFree := free } ys ∧
      Keeps (a.outside ∪ live (xs ++ n :: ys)) s.mem m' := by
  have fits := held.pair.fits
  have large := fits.size_of_pos held.sized
  refine held_of_become held.holds m' { b with free := free } ?_ held.sized
    held.adjacent.1.symm ?_ same
    header next held.coalesced
  · exact ⟨fits.first, fits.last, fits.addr_aligned, fits.size_aligned, fits.small,
      Or.inr large, fits.ends⟩
  · exact fun r leads => leads.1.symm

theorem Held.markAsFree :
    ∃ m', blockMarkAsFree s.mem b.addr = some m' ∧
      Held a { s with mem := m' } xs { b with free := true } { n with prevFree := true } ys ∧
      Keeps (a.outside ∪ live (xs ++ n :: ys)) s.mem m' := by
  have order := held.pair.order
  have adjacent := held.adjacent.1
  refine ⟨_, held.pair.blockMarkAsFree, held.mark _ _ ?_ ?_ ?_⟩
  · rintro x (high | low)
    · simp (disch := omega) only [store64_outside]
    · have low := low b (by simp)
      simp (disch := omega) only [store64_outside]
  · constructor
    · rw [load64_store64]
    · intro _
      rw [show ({ b with free := true } : Block).stop = n.addr from adjacent.symm]
      simp (disch := omega) only [load64_store64_disjoint, load64_store64]
  · simp (disch := omega) only [load64_store64_disjoint, load64_store64]

theorem Held.markAsUsed :
    ∃ m', blockMarkAsUsed s.mem b.addr = some m' ∧
      Held a { s with mem := m' } xs { b with free := false } { n with prevFree := false } ys ∧
      Keeps (a.outside ∪ live (xs ++ n :: ys)) s.mem m' := by
  have order := held.pair.order
  refine ⟨_, held.pair.blockMarkAsUsed, held.mark _ _ ?_ ?_ ?_⟩
  · rintro x (high | low)
    · simp (disch := omega) only [store64_outside]
    · have low := low b (by simp)
      simp (disch := omega) only [store64_outside]
  · constructor
    · rw [load64_store64]
    · intro used
      cases used
  · simp (disch := omega) only [load64_store64_disjoint, load64_store64]

end Held

section Absorb

variable {a : Arena} {m : Mem} {p b n : Block}

def absorbed (p b : Block) : Block := { p with size := p.size + (b.size + 8) }

theorem absorbed_pos (p b : Block) : (absorbed p b).size ≠ 0 := by
  unfold absorbed
  dsimp only
  omega

variable (pair : Neighbours a m p b) (pair' : Neighbours a m b n)
include pair pair'

theorem absorbed_stop : (absorbed p b).stop = n.addr := by
  have adjacent := pair.adjacent
  have adjacent' := pair'.adjacent
  unfold Block.stop at adjacent adjacent'
  unfold Block.stop absorbed
  dsimp only
  omega

theorem absorbed_fits : (absorbed p b).Fits a where
  first := pair.fits.first
  last := by
    rw [absorbed_stop pair pair', pair'.adjacent]
    exact pair'.fits.last
  addr_aligned := pair.fits.addr_aligned
  size_aligned := by
    have one := pair.fits.size_aligned
    have two := pair'.fits.size_aligned
    unfold absorbed
    dsimp only
    omega
  small := by
    have stop := absorbed_stop pair pair'
    have first := pair.fits.first
    have last := pair'.next_fits.last
    have span := a.span
    unfold Block.stop at stop last
    have addr : (absorbed p b).addr = p.addr := rfl
    omega
  sized := by
    have large := pair.fits.size_of_pos pair.sized
    refine Or.inr ?_
    unfold absorbed
    dsimp only
    omega
  ends zero := absurd zero (absorbed_pos p b)

theorem blockAbsorb_eq : blockAbsorb m p.addr b.addr =
    some (p.addr,
      store64 (store64 m (p.addr + 8) (headerWord (absorbed p b).size p.free p.prevFree))
      n.addr (BitVec.ofNat 64 p.addr)) := by
  have fits := absorbed_fits pair pair'
  have order := pair.order
  have order' := pair'.order
  have stop := absorbed_stop pair pair'
  have last : (!blockIsLast m p.addr) = true := by
    rw [blockIsLast_eq pair.fits pair.word, decide_eq_false pair.sized]
    rfl
  have grown : load64 m (p.addr + 8) + BitVec.ofNat 64 (blockSize m b.addr + blockHeaderOverhead) =
      headerWord (absorbed p b).size p.free p.prevFree := by
    rw [pair.word, blockSize_eq pair'.fits pair'.word, headerWord_add]
    rfl
  have read :
    blockSize (store64 m (p.addr + 8) (headerWord (absorbed p b).size p.free p.prevFree)) p.addr =
      (absorbed p b).size := by
    rw [blockSize, load64_store64]
    exact headerWord_size fits.size_aligned fits.small
  have word : p.addr + 8 + (absorbed p b).size + 8 < 0x10000000000000000 := fits.stop_word
  have next := blockNext_of_size read (absorbed_pos p b) (by omega)
  rw [show p.addr + 8 + (absorbed p b).size = n.addr from stop] at next
  simp only [blockAbsorb, tlsfAssert_pos last, grown, Tlsf.blockLinkNext, next, Option.bind_eq_bind,
    Option.bind_some]

end Absorb

section Merge

variable {a : Arena} {s : Control} {xs ys : List Block} {p b n : Block}

theorem Neighbours.absorb (pair : Neighbours a s.mem p b) (pair' : Neighbours a s.mem b n)
    (h : Holds a s (xs ++ [p, b] ++ n :: ys) (freeAddrs (xs ++ n :: ys)))
    (same : n.prevFree = p.free) (coalesced : ∀ c ∈ xs ++ ys, c.free = true → c.prevFree = false) :
    ∃ m', blockAbsorb s.mem p.addr b.addr = some (p.addr, m') ∧
      Held a { s with mem := m' } xs (absorbed p b) n ys ∧
        Keeps (a.outside ∪ live (xs ++ n :: ys)) s.mem m' := by
  have order := pair.order
  have order' := pair'.order
  have stop := absorbed_stop pair pair'
  have become := held_of_become h
    (store64 (store64 s.mem (p.addr + 8) (headerWord (absorbed p b).size p.free p.prevFree))
      n.addr (BitVec.ofNat 64 p.addr)) (absorbed p b) (absorbed_fits pair pair')
        (absorbed_pos p b) stop
    (fun r leads => leads.1.symm) ?_ ?_ ?_ coalesced
  · have like : { n with prevFree := (absorbed p b).free } = n := by
      cases n
      simp only [Block.mk.injEq, true_and]
      exact same.symm
    rw [like] at become
    exact ⟨_, blockAbsorb_eq pair pair', become⟩
  · rintro x (high | low)
    · simp (disch := omega) only [store64_outside]
    · have low := low p (by simp)
      simp (disch := omega) only [store64_outside]
  · constructor
    · rw [show (absorbed p b).addr = p.addr from rfl]
      simp (disch := omega) only [load64_store64_disjoint, load64_store64]
      rfl
    · intro _
      rw [stop, load64_store64]
      rfl
  · simp (disch := omega) only [load64_store64_disjoint]
    rw [pair'.next_word, same]
    rfl

theorem Held.mergePrev (held : Held a s xs b n ys) (free : b.free = true) :
    ∃ s' xs' b', blockMergePrev a.control b.addr s = some (b'.addr, s') ∧ Held a s' xs' b' n ys ∧
      b'.free = true ∧ b'.prevFree = false ∧ live (xs' ++ n :: ys) = live (xs ++ n :: ys) ∧
      Keeps (a.outside ∪ live (xs ++ n :: ys)) s.mem s'.mem := by
  have pair := held.pair
  rw [blockMergePrev, blockIsPrevFree_eq pair.fits pair.word]
  cases flag : b.prevFree with
  | false => exact ⟨s, xs, b, rfl, held, free, flag, rfl, Keeps.refl _ _⟩
  | true =>
    have laid := held.holds.laid
    have laid' := laid
    rw [List.append_assoc, List.singleton_append] at laid'
    obtain ⟨front, p, rfl, stop, p_free⟩ := laid'.previous flag
    have p_member : p ∈ front ++ [p] ++ [b] ++ n :: ys := by simp
    have p_fits := held.holds.fits p p_member
    have p_header := held.holds.headers p p_member
    have bounds := held.holds.free_bounds p_member p_free
    have listed : p.addr ∈ freeAddrs (front ++ [p] ++ n :: ys) := ⟨p, by simp, p_free, rfl⟩
    obtain ⟨s₁, call, holds, keeps⟩ := held.holds.remove p_member listed
    rw [freeAddrs_remove [p, b] (by simpa using laid) List.mem_cons_self] at holds
    have p_pair : Neighbours a s₁.mem p b :=
      ⟨p_fits, (holds.headers p
        p_member).word, by have large := p_fits.size_of_free p_free; omega, pair.fits,
        (holds.headers b (by simp)).word, stop.symm⟩
    have b_pair : Neighbours a s₁.mem b n :=
      ⟨pair.fits, (holds.headers b (by simp)).word, pair.sized, pair.next_fits,
        (holds.headers n (by simp)).word, pair.adjacent⟩
    have same : n.prevFree = p.free := by rw [held.adjacent.2, free, p_free]
    have others : ∀ c ∈ front ++ ys, c.free = true → c.prevFree = false := by
      intro c member
      refine held.coalesced c ?_
      simp only [List.mem_append] at member ⊢
      exact member.imp_left Or.inl
    obtain ⟨m', call', held', keeps'⟩ := p_pair.absorb b_pair (by simpa using holds) same others
    have link : (load64 s.mem b.addr).toNat = p.addr := by
      rw [← stop, p_header.link p_free, BitVec.toNat_ofNat, Nat.mod_eq_of_lt (by omega)]
    have live_eq : live (front ++ [p] ++ n :: ys) = live (front ++ n :: ys) := by
      rw [List.append_assoc, live_append, List.singleton_append, live_free p_free, ← live_append]
    refine ⟨{ s₁ with mem := m' }, front, absorbed p b, ?_, held', p_free, ?_, live_eq.symm, ?_⟩
    · simp only [if_true, blockPrev, blockIsPrevFree_eq pair.fits pair.word, flag, link,
        blockIsFree_eq p_fits p_header.word, p_free, tlsfAssert_pos, call, call',
          Option.bind_eq_bind, Option.bind_some,
        ne_eq, show ¬p.addr = 0 by omega, not_false_eq_true]
      rfl
    · exact held.coalesced p (by simp) p_free
    · rw [← live_eq] at keeps'
      exact (keeps_fewer _ _ _ keeps).trans keeps'

theorem Held.next (held : Held a s xs b n ys) (free : n.free = true) :
    ∃ n₂ rest, ys = n₂ :: rest ∧ n₂.addr = n.stop ∧ n₂.prevFree = true ∧ n₂.free = false := by
  have large := held.pair.next_fits.size_of_free free
  have laid : Laid a (xs ++ [b] ++ n :: ys) := held.holds.laid
  obtain ⟨n₂, rest, rfl, stop, flag⟩ := laid.next (by omega)
  refine ⟨n₂, rest, rfl, stop, flag.trans free, ?_⟩
  by_contra n₂_free
  have apart := held.coalesced n₂ (by simp) (by simpa using n₂_free)
  rw [flag, free] at apart
  cases apart

theorem Held.removeNext (held : Held a s xs b n ys) (free : n.free = true) :
    ∃ s' n₂ rest, ys = n₂ :: rest ∧ n₂.prevFree = true ∧ n₂.free = false ∧
      blockRemove a.control n.addr s = some s' ∧
      Holds a s' (xs ++ [b, n] ++ n₂ :: rest) (freeAddrs (xs ++ n₂ :: rest)) ∧
      Neighbours a s'.mem b n ∧ Neighbours a s'.mem n n₂ ∧
      (∀ c ∈ xs ++ rest, c.free = true → c.prevFree = false) ∧
      live (xs ++ n₂ :: rest) = live (xs ++ n :: ys) ∧
        Keeps (a.outside ∪ live (xs ++ [b] ++ n :: ys)) s.mem s'.mem := by
  have pair := held.pair
  have laid := held.holds.laid
  obtain ⟨n₂, rest, rfl, stop, n₂_prev, n₂_used⟩ := held.next free
  have n_member : n ∈ xs ++ [b] ++ n :: n₂ :: rest := by simp
  have listed : n.addr ∈ freeAddrs (xs ++ n :: n₂ :: rest) := ⟨n, by simp, free, rfl⟩
  obtain ⟨s', call, holds, keeps⟩ := held.holds.remove n_member listed
  rw [show xs ++ n :: n₂ :: rest = xs ++ [n] ++ n₂ :: rest by simp,
    freeAddrs_remove [b, n] (by simpa using laid) (by simp)] at holds
  have n_word := (holds.headers n n_member).word
  refine ⟨s', n₂, rest, rfl, n₂_prev, n₂_used,
    call, by simpa using holds, ?_, ?_, fun c member => ?_, ?_, keeps⟩
  · exact ⟨pair.fits, (holds.headers b (by simp)).word, pair.sized, pair.next_fits, n_word,
      pair.adjacent⟩
  · have large := pair.next_fits.size_of_free free
    exact ⟨pair.next_fits,
      n_word, by omega, held.holds.fits n₂ (by simp), (holds.headers n₂ (by simp)).word, stop⟩
  · refine held.coalesced c ?_
    simp only [List.mem_append, List.mem_cons] at member ⊢
    exact member.imp_right Or.inr
  · rw [live_append xs (n :: n₂ :: rest), live_free free, ← live_append]

theorem Held.mergeNext_free (held : Held a s xs b n ys) (free : n.free = true)
    {s' : Control} {m' : Mem} (call : blockRemove a.control n.addr s = some s')
    (absorb : blockAbsorb s'.mem b.addr n.addr = some (b.addr, m')) :
    blockMergeNext a.control b.addr s = some (b.addr, { s' with mem := m' }) := by
  have pair := held.pair
  have order := pair.order
  have last : (!blockIsLast s.mem b.addr) = true := by
    rw [blockIsLast_eq pair.fits pair.word, decide_eq_false pair.sized]
    rfl
  simp only [blockMergeNext, pair.blockNext, tlsfAssert_pos (show n.addr ≠ 0 by omega),
    blockIsFree_eq pair.next_fits pair.next_word, free, if_true, tlsfAssert_pos last, call, absorb,
    Option.bind_eq_bind, Option.bind_some]

theorem Held.mergeNext (held : Held a s xs b n ys) (free : b.free = true) :
    ∃ s' b' n' ys', blockMergeNext a.control b.addr s = some (b'.addr, s') ∧
      Held a s' xs b' n' ys' ∧
      b'.free = true ∧ b'.prevFree = b.prevFree ∧ n'.free = false ∧
      live (xs ++ n' :: ys') = live (xs ++ n :: ys) ∧
        Keeps (a.outside ∪ live (xs ++ n :: ys)) s.mem s'.mem := by
  cases flag : n.free with
  | false =>
    have pair := held.pair
    have order := pair.order
    refine ⟨s, b, n, ys, ?_, held, free, rfl, flag, rfl, Keeps.refl _ _⟩
    simp only [blockMergeNext, pair.blockNext, tlsfAssert_pos (show n.addr ≠ 0 by omega),
      blockIsFree_eq pair.next_fits pair.next_word, flag, Bool.false_eq_true, if_false,
        Option.bind_eq_bind,
      Option.bind_some]
  | true =>
    obtain ⟨s₁, n₂, rest, rfl, n₂_prev, n₂_used, call, holds, n_pair, n₂_pair, others,
        live_eq, keeps⟩ :=
      held.removeNext flag
    obtain ⟨m', absorb, held', keeps'⟩ := n_pair.absorb n₂_pair holds (by rw [n₂_prev, free]) others
    rw [live_eq] at keeps'
    refine ⟨{ s₁ with mem := m' }, absorbed b n, n₂, rest, held.mergeNext_free flag call absorb,
      held', free, rfl, n₂_used, live_eq, (keeps_fewer _ _ _ keeps).trans keeps'⟩

end Merge

end Algae.Mm.TlsfHeld
