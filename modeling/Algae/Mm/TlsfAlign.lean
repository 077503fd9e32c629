/- Memory at an aligned address: the block found is cut in front of it, and the front stays free. -/

import Algae.Mm.TlsfAlloc

set_option autoImplicit false
set_option relaxedAutoImplicit false

namespace Algae.Mm.TlsfAlign

open Algae.Lib.Allocation
open Algae.Lib.ByteMemory Algae.Lib.Tiling Algae.Sdk.Defs Algae.Mm.Tlsf
open Algae.Mm.TlsfWords Algae.Mm.TlsfBlocks Algae.Mm.TlsfHeap Algae.Mm.TlsfHeld
open Algae.Mm.TlsfSplit Algae.Mm.TlsfAlloc

section Gap

private theorem tlsfAlignUp_spec {k x : Nat} (below : k < 64)
    (word : x + 2 ^ k ≤ 0x10000000000000000) :
    ∃ y, tlsfAlignUp x (2 ^ k) = some y ∧ x ≤ y ∧ y < x + 2 ^ k ∧ 2 ^ k ∣ y := by
  have positive : 0 < 2 ^ k := Nat.two_pow_pos k
  have sum : (x % 2 ^ 64 + (2 ^ k - 1)) % 2 ^ 64 = x + (2 ^ k - 1) := by
    rw [Nat.mod_eq_of_lt (show x < 2 ^ 64 by omega), Nat.mod_eq_of_lt (by omega)]
  refine ⟨_, tlsfAlignUp_eq below x, ?_, ?_, Nat.dvd_mul_left _ _⟩
  · have up := Nat.lt_div_mul_add (a := x + (2 ^ k - 1)) positive
    rw [sum]
    omega
  · have down := Nat.div_mul_le_self (x + (2 ^ k - 1)) (2 ^ k)
    rw [sum]
    omega

private theorem tlsfAlignUp_multiple {k y : Nat} (below : k < 64) (multiple : 2 ^ k ∣ y)
    (word : y < 0x10000000000000000) : tlsfAlignUp y (2 ^ k) = some y := by
  have whole : 2 ^ k ∣ 0x10000000000000000 := pow_dvd_pow 2 (show k ≤ 64 by omega)
  have room := Nat.le_of_dvd (by omega) (Nat.dvd_sub whole multiple)
  obtain ⟨z, up, low, high, multiple'⟩ := tlsfAlignUp_spec below (show y + 2 ^ k ≤ _ by omega)
  obtain rfl : z = y := by
    by_contra other
    have apart := Nat.le_of_dvd (by omega) (Nat.dvd_sub multiple' multiple)
    omega
  exact up

private theorem gap_natCast {ptr y : Nat} (order : ptr ≤ y) (word : y < 0x10000000000000000) :
    toUSize ((y : Int) - ptr) = y - ptr := by
  rw [← Int.natCast_sub order]
  exact toUSize_natCast (by omega)

private theorem alignGap_none {k ptr : Nat} (small : k ≤ 3) (aligned : 8 ∣ ptr)
    (word : ptr < 0x10000000000000000) : alignGap ptr (2 ^ k) = some (ptr, 0) := by
  have part : 2 ^ k ∣ 8 := pow_dvd_pow 2 small
  have up := tlsfAlignUp_multiple (show k < 64 by omega) (part.trans aligned) word
  have gap := gap_natCast (le_refl ptr) word
  rw [Nat.sub_self] at gap
  simp only [alignGap, alignPtr, up, gap, ne_eq, not_true, false_and, if_false, Option.bind_eq_bind,
    Option.bind_some]

private theorem alignGap_spec {k ptr : Nat} (large : 3 < k) (below : k < 64) (aligned : 8 ∣ ptr)
    (word : ptr + 2 ^ k + 32 ≤ 0x10000000000000000) :
    ∃ gap, alignGap ptr (2 ^ k) = some (ptr + gap, gap) ∧ 2 ^ k ∣ ptr + gap ∧ 8 ∣ gap ∧
      (gap = 0 ∨ 32 ≤ gap) ∧ gap < 2 ^ k + 32 := by
  have eight : 8 ∣ 2 ^ k := pow_dvd_pow 2 (show 3 ≤ k by omega)
  have sixteen : 16 ∣ 2 ^ k := pow_dvd_pow 2 (show 4 ≤ k by omega)
  obtain ⟨y, up, low, high, multiple⟩ := tlsfAlignUp_spec below (show ptr + 2 ^ k ≤ _ by omega)
  have gap := gap_natCast low (by omega)
  have part : 8 ∣ y := eight.trans multiple
  by_cases tight : y - ptr ≠ 0 ∧ y - ptr < 32
  · -- The next boundary is the one after `y`, or the one after that.
    have after : ∃ z, tlsfAlignUp (y + max (32 - (y - ptr)) (2 ^ k)) (2 ^ k) = some z ∧
        ptr + 32 ≤ z ∧ z < ptr + 2 ^ k + 32 ∧ 2 ^ k ∣ z := by
      by_cases step : 32 - (y - ptr) ≤ 2 ^ k
      · rw [Nat.max_eq_right step]
        have multiple' := (Nat.dvd_add_right multiple).mpr (dvd_refl (2 ^ k))
        exact ⟨y + 2 ^ k, tlsfAlignUp_multiple below multiple'
          (by omega), by omega, by omega, multiple'⟩
      · have power : 2 ^ k = 16 := by omega
        rw [Nat.max_eq_left (by omega)]
        obtain ⟨z, up', low', high', multiple'⟩ :=
          tlsfAlignUp_spec below (show y + (32 - (y - ptr)) + 2 ^ k ≤ _ by omega)
        exact ⟨z, up', by omega, by omega, multiple'⟩
    obtain ⟨z, up', least, bound, multiple'⟩ := after
    have gap' := gap_natCast (show ptr ≤ z by omega) (by omega)
    refine ⟨z - ptr, ?_, ?_, Nat.dvd_sub (eight.trans multiple') aligned, by omega, by omega⟩
    · simp only [alignGap, alignPtr, up, gap, show blockHeaderSize = 32 from rfl,
        if_pos tight, up', gap',
        Option.bind_eq_bind, Option.bind_some]
      rw [Nat.add_sub_cancel' (by omega)]
    · rw [Nat.add_sub_cancel' (by omega)]
      exact multiple'
  · refine ⟨y - ptr, ?_, ?_, Nat.dvd_sub part aligned, by omega, by omega⟩
    · simp only [alignGap, alignPtr, up, gap, show blockHeaderSize = 32 from rfl, if_neg tight,
        Option.bind_eq_bind, Option.bind_some]
      rw [Nat.add_sub_cancel' low]
    · rw [Nat.add_sub_cancel' low]
      exact multiple

private theorem sizeWithGap_spec {k adjust : Nat} (below : k < 63) (small : adjust < 0x100000000) :
    ∃ size, adjustRequestSize (toUSize (adjust + (2 ^ k : Nat) + blockHeaderSize))
      (2 ^ k) = some size ∧
      (3 < k → size = 0 ∨ adjust + 2 ^ k + 32 ≤ size ∧ size < 0x100000000 ∧ 8 ∣ size) := by
  have half : 2 ^ k ≤ 2 ^ 62 := Nat.pow_le_pow_right (by omega) (by omega)
  have sum :
      toUSize ((adjust : Int) + (2 ^ k : Nat) + (blockHeaderSize : Nat)) = adjust + 2 ^ k + 32 := by
    rw [show (adjust : Int) + (2 ^ k : Nat) + (blockHeaderSize : Nat) =
        ((adjust + 2 ^ k + 32 : Nat) : Int) by
      unfold blockHeaderSize; omega]
    exact toUSize_natCast (by omega)
  obtain ⟨y, up, low, _, multiple⟩ := tlsfAlignUp_spec (show k < 64 by omega)
    (show adjust + 2 ^ k + 32 + 2 ^ k ≤ 0x10000000000000000 by omega)
  rw [sum, adjustRequestSize, if_pos (show adjust + 2 ^ k + 32 ≠ 0 by omega), up]
  refine ⟨_, rfl, fun large => ?_⟩
  have eight : 8 ∣ 2 ^ k := pow_dvd_pow 2 (show 3 ≤ k by omega)
  have part : 8 ∣ y := eight.trans multiple
  unfold blockSizeMax blockSizeMin
  split
  · omega
  · omega

end Gap

section Leading

variable {a : Arena} {s : Control} {xs ys : List Block} {b n : Block} {size : Nat}

private theorem trimFreeLeading_held (held : Held a s xs b n ys) (splits : Splits b size)
    (free : b.free = true) (prev_used : b.prevFree = false) (room : 40 + size ≤ b.size) :
    ∃ s', blockTrimFreeLeading a.control b.addr (size + 8) s = some (b.addr + 8 + size, s') ∧
      Held a s' (xs ++ [front b size]) (remainder b size true true) { n with prevFree := true } ys ∧
      Keeps (a.outside ∪ live (xs ++ n :: ys)) s.mem s'.mem := by
  have pair := held.pair
  have least := splits.least
  have small := pair.fits.small
  obtain ⟨m₁, call, split⟩ := blockSplit_mem pair splits.toCuts
  obtain ⟨prev, rest_word⟩ := split.rest_word
  have flag := blockSetPrevFree_rest pair splits.toCuts m₁ rest_word
  have word :
    load64 (store64 m₁ (b.addr + 8 + size + 8) (headerWord (b.size - (size + 8)) true true))
      (b.addr + 8) = headerWord size b.free b.prevFree := by
    rw [load64_store64_disjoint _ _ (by omega)]
    exact split.front_word
  have link := blockLinkNext_front pair splits word
  have parted := parted_free pair splits
    (store64 (store64 m₁ (b.addr + 8 + size + 8) (headerWord (b.size - (size + 8)) true true))
      (b.addr + 8 + size) (BitVec.ofNat 64 b.addr)) free split
    (by simp (disch := omega) only [load64_store64_disjoint, load64_store64])
    (by rw [load64_store64]) (fun x apart => by simp (disch := omega) only [store64_outside])
  obtain ⟨holds, keeps⟩ := holds_part held splits parted
  rw [free] at holds
  have member : front b size ∈
      xs ++ [front b size, remainder b size true true] ++
        { n with prevFree := true } :: ys := by simp
  obtain ⟨s', listed, holds', keeps'⟩ := holds.insert member free (holds.unlisted _ (by simp))
  refine ⟨s', ?_, ⟨?_, ?_, ?_⟩, ?_⟩
  · have can : blockCanSplit s.mem b.addr (size + 8) = true := by
      rw [blockCanSplit_eq pair.fits pair.word, decide_eq_true (by omega)]
    have cut : toUSize (((size + 8 : Nat) : Int) - blockHeaderOverhead) = size := by
      rw [show ((size + 8 : Nat) : Int) - (blockHeaderOverhead : Nat) =
        (size : Int) by unfold blockHeaderOverhead; omega]
      exact toUSize_natCast (by omega)
    have listed' : blockInsert a.control b.addr _ = some s' := listed
    simp only [blockTrimFreeLeading, can, if_true, cut, call, flag, link, listed',
      Option.bind_eq_bind, Option.bind_some]
  · have others : freeAddrs (xs ++ [front b size] ++ { n with prevFree := true } :: ys) =
        insert (front b size).addr (freeAddrs (xs ++ { n with prevFree := true } :: ys)) := by
      rw [List.append_assoc, List.singleton_append]
      exact freeAddrs_insert (b := front b size) free
    rw [others]
    simpa using holds'
  · unfold remainder
    dsimp only
    omega
  · intro c inside is_free
    simp only [List.mem_append, List.mem_singleton] at inside
    rcases inside with (early | rfl) | late
    · exact held.coalesced c (List.mem_append_left _ early) is_free
    · exact prev_used
    · exact held.coalesced c (List.mem_append_right _ late) is_free
  · have fewer := keeps_fewer _ _ _ keeps'
    rw [live_flag xs ys n true] at fewer
    exact keeps.trans fewer

end Leading

section Memalign

variable {a : Arena} {s : Control} {bs : List Block} {k request : Nat}

private theorem memalign_gap {s₁ : Control} {xs ys : List Block} {b n : Block} {gap adjust : Nat}
    (held : Held a s₁ xs b n ys) (free : b.free = true) (prev_used : b.prevFree = false)
    (next_used : n.free = false)
    (others : live (xs ++ n :: ys) = live bs) (keeps : Keeps (a.outside ∪ live bs) s.mem s₁.mem)
    (least : 24 ≤ adjust)
    (aligned : 8 ∣ adjust) (some_gap : 32 ≤ gap) (gap_aligned : 8 ∣ gap) (room : gap + 32 ≤ b.size)
    (enough : adjust + gap ≤ b.size) :
    ∃ s₂ s' bs' length, blockTrimFreeLeading a.control b.addr gap s₁ = some (b.addr + gap, s₂) ∧
      blockPrepareUsed a.control (b.addr + gap) adjust s₂ = some (b.addr + 16 + gap, s') ∧
      Granted a s s' bs bs' (b.addr + 16 + gap) length adjust := by
  obtain ⟨size, rfl⟩ : ∃ size, gap = size + 8 := ⟨gap - 8, by omega⟩
  have splits : Splits b size := ⟨⟨by omega, by omega⟩, by omega⟩
  obtain ⟨s₂, call, held', keeps'⟩ := trimFreeLeading_held held splits free prev_used (by omega)
  have others' : live (xs ++ [front b size] ++ { n with prevFree := true } :: ys) = live bs := by
    rw [List.append_assoc, List.singleton_append, live_skip (b := front b size) free,
      live_flag, others]
  rw [others] at keeps'
  obtain ⟨s', bs', length, call', granted⟩ :=
    blockPrepareUsed_held held' rfl next_used least aligned
      (show adjust ≤ b.size - (size + 8) by omega) others' (keeps.trans keeps')
  have start : (remainder b size true true).addr = b.addr + (size + 8) := by
    unfold remainder
    dsimp only
    omega
  rw [start, show b.addr + (size + 8) + 16 = b.addr + 16 + (size + 8) by omega] at call' granted
  rw [show b.addr + 8 + size = b.addr + (size + 8) by omega] at call
  exact ⟨s₂, s', bs', length, call, call', granted⟩

private theorem gap_block {b : Block} {adjust : Nat} (fits : b.Fits a) (below : k < 63)
    (least : 24 ≤ adjust) (aligned : 8 ∣ adjust) (enough : adjust ≤ b.size)
    (large : 3 < k → adjust + 2 ^ k + 32 ≤ b.size) :
    ∃ gap, alignGap (b.addr + 16) (2 ^ k) = some (b.addr + 16 + gap, gap) ∧
      2 ^ k ∣ b.addr + 16 + gap ∧ 8 ∣ gap ∧
      (gap = 0 ∨ 32 ≤ gap ∧ gap + 32 ≤ b.size ∧ adjust + gap ≤ b.size) := by
  have addr_aligned := fits.addr_aligned
  have word := fits.stop_word
  unfold Block.stop at word
  by_cases tight : 3 < k
  · have room := large tight
    have eight : 8 ∣ 2 ^ k := pow_dvd_pow 2 (show 3 ≤ k by omega)
    obtain ⟨gap, call, multiple, gap_aligned, split, bound⟩ :=
      alignGap_spec tight (show k < 64 by omega) (show 8 ∣ b.addr + 16 by omega) (by omega)
    exact ⟨gap, call, multiple, gap_aligned, by omega⟩
  · have part : 2 ^ k ∣ 8 := pow_dvd_pow 2 (Nat.not_lt.mp tight)
    have start : 8 ∣ b.addr + 16 := by omega
    exact ⟨0, alignGap_none (Nat.not_lt.mp tight) start (by omega), part.trans start,
      dvd_zero 8, Or.inl rfl⟩

private theorem wanted_spec (below : k < 63) (request : Nat) :
    ∃ size w, adjustRequestSize (toUSize (adjusted request + (2 ^ k : Nat) + blockHeaderSize))
      (2 ^ k) = some size ∧
      (if adjusted request ≠ 0 ∧ 2 ^ k > ALIGN_SIZE then size else adjusted request) = w ∧
      (w = 0 ∨ 24 ≤ adjusted request ∧ 8 ∣ w ∧ w < 0x100000000 ∧ adjusted request ≤ w ∧
        (3 < k → adjusted request + 2 ^ k + 32 ≤ w)) := by
  obtain ⟨aligned, small, sized⟩ := adjusted_sized request
  obtain ⟨size, with_gap, room⟩ := sizeWithGap_spec below small
  rcases sized with zero | least
  · exact ⟨size, 0, with_gap, by rw [if_neg (by simp [zero]), zero], Or.inl rfl⟩
  · by_cases large : 3 < k
    · have power : 2 ^ 4 ≤ 2 ^ k := Nat.pow_le_pow_right (by omega) large
      have spec := room large
      refine ⟨size, size, with_gap, if_pos ⟨by omega, ?_⟩, by omega⟩
      unfold ALIGN_SIZE
      omega
    · have power : 2 ^ k ≤ 2 ^ 3 := Nat.pow_le_pow_right (by omega) (Nat.not_lt.mp large)
      refine ⟨size, adjusted request, with_gap, if_neg fun both => ?_, ?_⟩
      · unfold ALIGN_SIZE at both
        omega
      · exact Or.inr ⟨least, aligned, small, le_refl _, fun no => absurd no large⟩

theorem tlsfMemalign_cases (heap : Heap a s bs) (below : k < 63)
    (word : request < 0x10000000000000000) :
    tlsfMemalign a.control (2 ^ k) request s = some (0, s) ∨
    ∃ p s' bs' length, tlsfMemalign a.control (2 ^ k) request s = some (p, s') ∧ 0 < p ∧ 2 ^ k ∣ p ∧
      Granted a s s' bs bs' p length (adjusted request) := by
  have aligned := (adjusted_sized request).1
  have adjust := adjustRequestSize_eq word
  have header : blockHeaderSize = blockSizeMin + blockHeaderOverhead := rfl
  obtain ⟨size, w, with_gap, wanted, spec⟩ := wanted_spec below request
  rcases spec with rfl | ⟨least, w_aligned, w_small, enough, room⟩
  · left
    simp only [tlsfMemalign, adjust, with_gap, wanted, tlsfAssert_pos header,
      blockLocateFree, locateFree,
      blockPrepareUsed, Option.bind_eq_bind, Option.bind_some, ne_eq, not_true, if_false]
  · rcases blockLocateFree_cases heap (show 24 ≤ w by omega) w_aligned w_small with
      ⟨call, _⟩ | ⟨xs, b, n, ys, s₁, rfl, best, fit, call, held, next_used, keeps⟩
    · left
      simp only [tlsfMemalign, adjust, with_gap, wanted, tlsfAssert_pos header, call,
        blockPrepareUsed, Option.bind_eq_bind, Option.bind_some, ne_eq, not_true, if_false]
    · right
      have free := best.2.1.1
      have bounds := held.holds.free_bounds (b := b) (by simp) free
      have nonzero : b.addr ≠ 0 := by omega
      have others : live (xs ++ n :: ys) = live (xs ++ [b] ++ n :: ys) := by
        rw [List.append_assoc, List.singleton_append, live_skip free]
      have prev_used := heap.coalesced b best.1 free
      obtain ⟨gap, gap_call, multiple, gap_aligned, split⟩ :=
        gap_block held.pair.fits below least aligned (enough.trans fit) fun large =>
          (room large).trans fit
      rw [show b.addr + 16 = blockToPtr b.addr from rfl] at gap_call
      rcases split with rfl | ⟨some_gap, gap_room, gap_enough⟩
      · obtain ⟨s', bs', length, call', granted⟩ :=
          blockPrepareUsed_held held free next_used least aligned (enough.trans fit) others keeps
        refine ⟨b.addr + 16, s', bs', length, ?_, by omega, multiple, granted⟩
        simp only [tlsfMemalign, adjust, with_gap, wanted, tlsfAssert_pos header, call,
          if_pos nonzero, gap_call, call',
          Option.bind_eq_bind, Option.bind_some, ne_eq, not_true, if_false]
      · obtain ⟨s₂, s', bs', length, trim, call', granted⟩ :=
          memalign_gap held free prev_used next_used others keeps
          least aligned some_gap gap_aligned gap_room gap_enough
        refine ⟨b.addr + 16 + gap, s', bs', length, ?_, by omega, multiple, granted⟩
        simp only [tlsfMemalign, adjust, with_gap, wanted, tlsfAssert_pos header, call,
          if_pos nonzero, gap_call,
          if_pos (show gap ≠ 0 by omega), tlsfAssert_pos (show blockHeaderSize ≤ gap from some_gap),
            trim, call',
          Option.bind_eq_bind, Option.bind_some]

end Memalign

end Algae.Mm.TlsfAlign
