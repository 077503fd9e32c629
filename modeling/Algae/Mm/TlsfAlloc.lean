/- Allocating and freeing: what tlsf_malloc and tlsf_free make of a heap. -/

import Algae.Mm.TlsfSplit

set_option autoImplicit false
set_option relaxedAutoImplicit false

namespace Algae.Mm.TlsfAlloc

open Algae.Lib.Allocation
open Algae.Lib.ByteMemory Algae.Lib.Tiling Algae.Lib.TwoLevelIndex Algae.Sdk.Defs Algae.Mm.Tlsf
open Algae.Mm.TlsfWords Algae.Mm.TlsfBlocks Algae.Mm.TlsfLists Algae.Mm.TlsfHeap Algae.Mm.TlsfHeld
open Algae.Mm.TlsfSplit

section Search

private theorem tlsfFfs_of_some {word : BitVec 32} {i : Nat} (found : lowestBit word = some i) :
    (tlsfFfs word).toNat = i := by
  rw [tlsfFfs, found]
  simp only
  omega

private theorem lowestBit_of_ne {word : BitVec 32} (nonzero : word ≠ 0) :
    ∃ i, lowestBit word = some i := by
  cases found : lowestBit word with
  | none => exact absurd (lowestBit_eq_none.mp found) nonzero
  | some i => exact ⟨i, rfl⟩

private theorem searchSecondLevel_eq (s : Control) {fl : Nat} {slMap : BitVec 32} (row : fl < 25)
    (nonzero : slMap ≠ 0) :
    ∃ sl, lowestBit slMap = some sl ∧
      searchSecondLevel s fl slMap = some (s.blocks fl sl, fl, sl) := by
  obtain ⟨sl, found⟩ := lowestBit_of_ne nonzero
  have col := (lowestBit_eq_some found).1
  refine ⟨sl, found, ?_⟩
  simp only [searchSecondLevel, tlsfAssert_pos nonzero, tlsfFfs_of_some found, inArrays_pos row col,
    Option.bind_eq_bind, Option.bind_some]

theorem searchSuitableBlock_eq {s : Control}
    (summary : Summary 25 s.flBitmap s.slBitmap) {fl sl : Nat} (row : fl < 25) (col : sl < 32) :
    searchSuitableBlock s fl sl = some (match search s.flBitmap s.slBitmap fl sl with
      | none => (0, fl, sl)
      | some (fl, sl) => (s.blocks fl sl, fl, sl)) := by
  simp only [searchSuitableBlock, inArrays_pos row col, Option.bind_eq_bind, Option.bind_some]
  by_cases here : bitsFrom (s.slBitmap fl) sl = 0
  · rw [if_pos here, search, lowestBit_eq_none.mpr here]
    by_cases next : bitsFrom s.flBitmap (fl + 1) = 0
    · rw [if_pos next, lowestBit_eq_none.mpr next]
    · obtain ⟨i, found⟩ := lowestBit_of_ne next
      obtain ⟨_, set, _⟩ := lowestBit_eq_some found
      rw [bitsFrom_getLsbD, Bool.and_eq_true] at set
      obtain ⟨inside, nonzero⟩ := (summary i).mp set.1
      obtain ⟨j, found', call⟩ := searchSecondLevel_eq s inside nonzero
      simp only [if_neg next, tlsfFfs_of_some found, inArrays_pos inside (show 0 < 32 by omega),
        Option.bind_some, found, found', call, Option.map_some]
  · obtain ⟨j, found, call⟩ := searchSecondLevel_eq s row here
    rw [if_neg here, call, search, found]

end Search

section Take

variable {a : Arena} {s : Control} {bs : List Block}

theorem take_used (heap : Heap a s bs) {b : Block} (member : b ∈ bs) (used : b.free = false)
    (sized : b.size ≠ 0) : ∃ xs n ys, bs = xs ++ [b] ++ n :: ys ∧ Held a s xs b n ys := by
  obtain ⟨xs, rest, rfl⟩ := List.append_of_mem member
  obtain ⟨n, ys, rfl, _, _⟩ := heap.holds.laid.next sized
  refine ⟨xs, n, ys, by simp, ⟨?_, sized, fun c inside => heap.coalesced c ?_⟩⟩
  · have holds := heap.holds
    rw [freeAddrs_used used] at holds
    simpa using holds
  · simp only [List.mem_append, List.mem_cons] at inside ⊢
    exact inside.imp_right fun late => Or.inr (Or.inr late)

private theorem take_free (heap : Heap a s bs) {b : Block} (member : b ∈ bs)
    (free : b.free = true) :
    ∃ xs n ys s', bs = xs ++ [b] ++ n :: ys ∧
      removeFreeBlock a.control b.addr (mappingInsert b.size).1
        (mappingInsert b.size).2 s = some s' ∧
      Held a s' xs b n ys ∧ n.free = false ∧ Keeps (a.outside ∪ live bs) s.mem s'.mem := by
  have large := (heap.holds.fits b member).size_of_free free
  obtain ⟨s', call, holds, keeps⟩ := heap.holds.remove_at member ⟨b, member, free, rfl⟩
  obtain ⟨xs, rest, rfl⟩ := List.append_of_mem member
  have laid := heap.holds.laid
  obtain ⟨n, ys, rfl, _, flag⟩ := laid.next (by omega)
  rw [show xs ++ b :: n :: ys = xs ++ [b] ++ n :: ys by simp,
    freeAddrs_remove [b] (by simpa using laid) List.mem_cons_self] at holds
  refine ⟨xs, n, ys,
    s', by simp, call, ⟨holds, by omega, fun c inside => heap.coalesced c ?_⟩, ?_, keeps⟩
  · simp only [List.mem_append, List.mem_cons] at inside ⊢
    exact inside.imp_right fun late => Or.inr (Or.inr late)
  · by_contra n_free
    have apart := heap.coalesced n (by simp) (by simpa using n_free)
    rw [flag, free] at apart
    cases apart

variable {xs ys : List Block} {b n : Block}

theorem give_used (held : Held a s xs b n ys) (used : b.free = false) :
    Heap a s (xs ++ [b] ++ n :: ys) where
  holds := by
    have others : freeAddrs (xs ++ [b] ++ n :: ys) = freeAddrs (xs ++ n :: ys) := by
      rw [List.append_assoc, List.singleton_append]
      exact freeAddrs_used used
    rw [others]
    exact held.holds
  coalesced c member free := by
    simp only [List.append_assoc, List.mem_append, List.mem_cons, List.not_mem_nil, or_false]
      at member
    rcases member with early | rfl | rfl | late
    · exact held.coalesced c (List.mem_append_left _ early) free
    · rw [used] at free
      cases free
    · rw [held.adjacent.2, used]
    · exact held.coalesced c (List.mem_append_right _ late) free

theorem give_free (held : Held a s xs b n ys) (free : b.free = true)
    (prev_used : b.prevFree = false) (next_used : n.free = false) :
    ∃ s', blockInsert a.control b.addr s = some s' ∧ Heap a s' (xs ++ [b] ++ n :: ys) ∧
      Keeps (a.outside ∪ live (xs ++ n :: ys)) s.mem s'.mem := by
  have member : b ∈ xs ++ [b] ++ n :: ys := by simp
  obtain ⟨s', call, holds, keeps⟩ := held.holds.insert member free (held.holds.unlisted b (by simp))
  rw [← freeAddrs_insert free] at holds
  refine ⟨s', call, ⟨by simpa using holds, fun c inside is_free => ?_⟩, keeps_fewer _ _ _ keeps⟩
  · simp only [List.append_assoc, List.mem_append, List.mem_cons, List.not_mem_nil, or_false]
      at inside
    rcases inside with early | rfl | rfl | late
    · exact held.coalesced c (List.mem_append_left _ early) is_free
    · exact prev_used
    · rw [next_used] at is_free
      cases is_free
    · exact held.coalesced c (List.mem_append_right _ late) is_free

end Take

section Live

variable {a : Arena} {s : Control} {bs : List Block}

theorem live_sound (heap : Heap a s bs) : Sound (a.pool + 16) a.limit (live bs) where
  inside := by
    rintro _ ⟨b, member, _, sized, rfl⟩
    have fits := heap.holds.fits b member
    have first := fits.first
    have last := fits.last
    unfold Block.stop at last
    dsimp only
    omega
  apart := by
    rintro _ ⟨b, mb, _, _, rfl⟩ _ ⟨c, mc, _, _, rfl⟩ other
    have apart := heap.holds.laid.apart mb mc fun same => other (by rw [same])
    unfold Block.stop at apart
    unfold Apart
    dsimp only
    omega

theorem live_aligned (heap : Heap a s bs) {r : Region} (member : r ∈ live bs) : 8 ∣ r.1 := by
  obtain ⟨b, mb, _, _, rfl⟩ := member
  have aligned := (heap.holds.fits b mb).addr_aligned
  dsimp only
  omega

theorem live_least (heap : Heap a s bs) {r : Region} (member : r ∈ live bs) : 24 ≤ r.2 := by
  obtain ⟨b, mb, _, sized, rfl⟩ := member
  exact (heap.holds.fits b mb).size_of_pos sized

theorem heap_elsewhere (heap : Heap a s bs) {m' : Mem}
    (same : ∀ x, a.control ≤ x → x < a.limit → m' x = s.mem x) :
    Heap a { s with mem := m' } bs where
  holds := by
    have below := a.below
    obtain ⟨L, lists, all, blocks⟩ := heap.holds.lists
    refine ⟨heap.holds.laid, heap.holds.fits, fun b member => ?_, L, lists.setMem ?_, all, blocks⟩
    · have fits := heap.holds.fits b member
      have first := fits.first
      have last := fits.last
      exact (heap.holds.headers b member).outside fits fun x low high =>
        same x (by omega) (by omega)
    · intro c x inside i low high
      obtain ⟨b, member, rfl, free, _⟩ := blocks c x inside
      have bounds := heap.holds.free_bounds member free
      have last := (heap.holds.fits b member).last
      exact same _ (by omega) (by omega)
  coalesced := heap.coalesced

theorem heap_change (heap : Heap a s bs) {r : Region} (member : r ∈ live bs) {m' : Mem}
    (same : ∀ x, ¬Within x r → m' x = s.mem x) : Heap a { s with mem := m' } bs := by
  obtain ⟨b, mb, used, sized, rfl⟩ := member
  obtain ⟨xs, n, ys, rfl, held⟩ := take_used heap mb used sized
  have adjacent := held.adjacent
  unfold Block.stop at adjacent
  have kept : ∀ y, y < b.addr + 16 ∨ n.addr + 8 ≤ y → m' y = s.mem y := by
    refine fun y apart => same y fun inside => ?_
    obtain ⟨low, high⟩ := inside
    dsimp only at low high
    omega
  have like : { b with free := false } = b := by rw [← used]
  have like' : { n with prevFree := false } = n := by rw [← used, ← adjacent.2]
  have marked := held.mark m' false ?_ ?_ ?_
  · rw [like, like'] at marked
    exact give_used marked.1 used
  · rintro y (late | early)
    · exact kept y (by omega)
    · exact kept y (by have := early b (by simp); omega)
  · rw [like]
    refine ⟨?_, fun free => ?_⟩
    · rw [← held.pair.word]
      exact load64_congr fun i below => kept _ (by omega)
    · rw [used] at free
      cases free
  · rw [← used, ← adjacent.2, ← held.pair.next_word]
    exact load64_congr fun i below => kept _ (by omega)

end Live

section Malloc

variable {a : Arena} {s : Control} {bs : List Block} {size : Nat}

/-- A block that the search for a size can return: the classes before that of the size, rounded
up, are not looked at. -/
def Suits (size : Nat) (b : Block) : Prop :=
  b.free = true ∧ Reaches (mappingSearch size).1 (mappingSearch size).2 (mappingInsert b.size).1
    (mappingInsert b.size).2

def Best (size : Nat) (bs : List Block) (b : Block) : Prop :=
  b ∈ bs ∧ Suits size b ∧ ∀ c ∈ bs, Suits size c →
    Reaches (mappingInsert b.size).1 (mappingInsert b.size).2 (mappingInsert c.size).1
      (mappingInsert c.size).2

theorem Suits.enough {b : Block} (suits : Suits size b) (aligned : 8 ∣ size)
    (small : size < 0x100000000) (fits : b.Fits a) : size ≤ b.size := by
  have word := fits.small
  exact mappingSearch_enough aligned small (by omega) suits.2

theorem some_listed (heap : Heap a s bs) {b : Block} (member : b ∈ bs) (free : b.free = true) :
    (mappingInsert b.size).1 < 25 ∧
      (s.slBitmap (mappingInsert b.size).1).getLsbD (mappingInsert b.size).2 = true := by
  obtain ⟨L, lists, all, blocks⟩ := heap.holds.lists
  obtain ⟨c, inside⟩ := (all b.addr).mp ⟨b, member, free, rfl⟩
  obtain ⟨b', member', same, _, rfl⟩ := blocks c b.addr inside
  obtain rfl := heap.holds.laid.eq_of_addr member' member same
  have row := (lists.inside _ (List.ne_nil_of_mem inside)).1
  exact ⟨row, (lists.indexed.bits _ row).mpr (List.ne_nil_of_mem inside)⟩

private theorem head_block (heap : Heap a s bs) {i j : Nat} (row : i < 25) (col : j < 32)
    (set : (s.slBitmap i).getLsbD j = true) :
    ∃ b ∈ bs, b.free = true ∧ mappingInsert b.size = (i, j) ∧ s.blocks i j = b.addr := by
  obtain ⟨L, lists, all, blocks⟩ := heap.holds.lists
  have nonempty := (lists.indexed.bits (i, j) row).mp set
  have head := lists.indexed.heads (i, j) row col
  cases list : L (i, j) with
  | nil => exact absurd list nonempty
  | cons x rest =>
    obtain ⟨b, member, rfl, free, class_b⟩ := blocks (i, j) x (by simp [list])
    rw [list] at head
    exact ⟨b, member, free, class_b, head⟩

private theorem locateFree_cases (heap : Heap a s bs) (positive : size ≠ 0)
    (small : size < 0x100000000) :
    (locateFree size s = some (0, mappingSearch size) ∧ ∀ c ∈ bs, ¬Suits size c) ∨
    ∃ b, Best size bs b ∧ locateFree size s = some (b.addr, mappingInsert b.size) := by
  obtain ⟨L, lists, _, _⟩ := heap.holds.lists
  have summary := lists.indexed.summary
  have rounded := roundUp_lt small
  have column := (mappingInsert_listed (show roundUp size < 0x10000000000000000 by omega)).2.2
  rw [← mappingSearch_eq (by omega)] at column
  rw [locateFree, if_pos positive]
  by_cases row : (mappingSearch size).1 < FL_INDEX_COUNT
  · rw [if_pos row, searchSuitableBlock_eq summary row column]
    cases found : search s.flBitmap s.slBitmap (mappingSearch size).1 (mappingSearch size).2 with
    | none =>
      refine Or.inl ⟨rfl, fun c member suits => ?_⟩
      obtain ⟨inside, set⟩ := some_listed heap member suits.1
      exact search_none summary found inside set suits.2
    | some class_b =>
      obtain ⟨i, j⟩ := class_b
      obtain ⟨inside, col, set, reached, least⟩ := search_some summary row found
      obtain ⟨b, member, free, class_b, head⟩ := head_block heap inside col set
      refine Or.inr ⟨b, ⟨member, ⟨free, by rw [class_b]; exact reached⟩, fun c mc suits => ?_⟩, ?_⟩
      · obtain ⟨inside', set'⟩ := some_listed heap mc suits.1
        rw [class_b]
        exact least _ _ inside' set' suits.2
      · rw [class_b, ← head]
  · rw [if_neg row]
    refine Or.inl ⟨rfl, fun c member suits => ?_⟩
    have inside := (some_listed heap member suits.1).1
    have reached := suits.2
    unfold Reaches at reached
    unfold FL_INDEX_COUNT at row
    omega

theorem blockLocateFree_cases (heap : Heap a s bs) (least : 24 ≤ size) (aligned : 8 ∣ size)
    (small : size < 0x100000000) :
    (blockLocateFree a.control size s = some (0, s) ∧ ∀ c ∈ bs, ¬Suits size c) ∨
    ∃ xs b n ys s', bs = xs ++ [b] ++ n :: ys ∧ Best size bs b ∧ size ≤ b.size ∧
      blockLocateFree a.control size s = some (b.addr, s') ∧ Held a s' xs b n ys ∧ n.free = false ∧
      Keeps (a.outside ∪ live bs) s.mem s'.mem := by
  have positive : size ≠ 0 := by omega
  rcases locateFree_cases heap positive small with ⟨call, none⟩ | ⟨b, best, call⟩
  · refine Or.inl ⟨?_, none⟩
    simp only [blockLocateFree, call, Option.bind_eq_bind, Option.bind_some]
    rfl
  · have member := best.1
    have suits := best.2.1
    have fits := heap.holds.fits b member
    have enough := suits.enough aligned small fits
    have bounds := heap.holds.free_bounds member suits.1
    have nonzero : b.addr ≠ 0 := by omega
    have read := blockSize_eq fits (heap.holds.headers b member).word
    obtain ⟨xs, n, ys, s', rfl, removed, held, next_used, keeps⟩ := take_free heap member suits.1
    refine Or.inr ⟨xs, b, n, ys, s', rfl, best, enough, ?_, held, next_used, keeps⟩
    simp only [blockLocateFree, call, read, if_pos nonzero, tlsfAssert_pos enough, removed,
      Option.bind_eq_bind, Option.bind_some]

/-- What a request gives: memory that nobody has, of the size that is served, and no more than a
block's header too much. -/
structure Granted (a : Arena) (s s' : Control) (bs bs' : List Block) (p length size : Nat) :
    Prop where
  heap : Heap a s' bs'
  length_ge : size ≤ length
  length_lt : length < size + 32
  live_eq : live bs' = insert (p, length) (live bs)
  fresh : (p, length) ∉ live bs
  keeps : Keeps (a.outside ∪ live bs) s.mem s'.mem

theorem blockPrepareUsed_held {s₀ : Control} {xs ys : List Block} {b n : Block}
    (held : Held a s xs b n ys)
    (free : b.free = true) (next_used : n.free = false) (least : 24 ≤ size) (aligned : 8 ∣ size)
    (enough : size ≤ b.size) (others : live (xs ++ n :: ys) = live bs)
    (kept : Keeps (a.outside ∪ live bs) s₀.mem s.mem) :
    ∃ s' bs' length, blockPrepareUsed a.control b.addr size s = some (b.addr + 16, s') ∧
      Granted a s₀ s' bs bs' (b.addr + 16) length size := by
  have order := held.pair.order
  have bounds := held.holds.free_bounds (b := b) (by simp) free
  obtain ⟨s₁, b₁, n₁, ys₁, call, held₁, addr, _, large, tight, live_eq, keeps⟩ :=
    trimFree_held held free next_used least aligned enough
  obtain ⟨m₂, mark, held₂, keeps'⟩ := held₁.markAsUsed
  have heap := give_used held₂ rfl
  have live_all :=
    live_insert xs ({ n₁ with prevFree := false } :: ys₁) (b := { b₁ with free := false })
      rfl held₂.sized
  have fresh := live_fresh heap.holds.laid b₁.size
  dsimp only at live_all fresh
  rw [live_flag, live_eq, others, addr] at fresh
  rw [live_flag xs ys₁ n₁ false, live_eq, others] at live_all
  rw [live_eq, others] at keeps'
  rw [others] at keeps
  refine ⟨_, _, b₁.size, ?_, heap, large,
    tight, by rw [live_all, addr], fresh, kept.trans (keeps.trans keeps')⟩
  rw [addr] at mark
  simp only [blockPrepareUsed, if_pos (show b.addr ≠ 0 by omega),
    tlsfAssert_pos (show size ≠ 0 by omega), call, mark, Option.bind_eq_bind, Option.bind_some]
  rfl

theorem tlsfMalloc_zero {control request : Nat} (word : request < 0x10000000000000000)
    (zero : adjusted request = 0) (s : Control) : tlsfMalloc control request s = some (0, s) := by
  simp only [tlsfMalloc, adjustRequestSize_eq word, zero, blockLocateFree, locateFree,
    blockPrepareUsed, Option.bind_eq_bind, Option.bind_some, ne_eq, not_true, if_false]

theorem tlsfMalloc_cases (heap : Heap a s bs) {request : Nat}
    (word : request < 0x10000000000000000) :
    (tlsfMalloc a.control request s = some (0, s) ∧
      (adjusted request = 0 ∨ ∀ c ∈ bs, ¬Suits (adjusted request) c)) ∨
    ∃ b s' bs' length, Best (adjusted request) bs b ∧ adjusted request ≤ b.size ∧
      tlsfMalloc a.control request s = some (b.addr + 16, s') ∧
      Granted a s s' bs bs' (b.addr + 16) length (adjusted request) := by
  obtain ⟨aligned, small, sized⟩ := adjusted_sized request
  have adjust := adjustRequestSize_eq word
  rcases sized with zero | least
  · exact Or.inl ⟨tlsfMalloc_zero word zero s, Or.inl zero⟩
  · rcases blockLocateFree_cases heap least aligned small with
      ⟨call, none⟩ | ⟨xs, b, n, ys, s₁, rfl, best, enough, call, held, next_used, keeps⟩
    · refine Or.inl ⟨?_, Or.inr none⟩
      simp only [tlsfMalloc, adjust, call, blockPrepareUsed, Option.bind_eq_bind,
        Option.bind_some, ne_eq, not_true, if_false]
    · have others : live (xs ++ n :: ys) = live (xs ++ [b] ++ n :: ys) := by
        rw [List.append_assoc, List.singleton_append, live_skip best.2.1.1]
      obtain ⟨s', bs', length, call', granted⟩ :=
        blockPrepareUsed_held held best.2.1.1 next_used least aligned enough others keeps
      refine Or.inr ⟨b, s', bs', length, best, enough, ?_, granted⟩
      simp only [tlsfMalloc, adjust, call, call', Option.bind_eq_bind, Option.bind_some]

end Malloc

section Free

variable {a : Arena} {s : Control} {bs : List Block}

theorem blockFromPtr_add {x : Nat} (word : x < 0x10000000000000000) :
    blockFromPtr (x + 16) = x := by
  rw [blockFromPtr, show ((x + 16 : Nat) : Int) - (blockStartOffset : Nat) = (x : Int) by
    unfold blockStartOffset; omega]
  exact toUSize_natCast word

private theorem tlsfFree_block {xs ys : List Block} {b n : Block} (held : Held a s xs b n ys)
    (used : b.free = false) :
    ∃ s' bs', tlsfFree a.control (b.addr + 16) s = some s' ∧ Heap a s' bs' ∧
      live bs' = live (xs ++ n :: ys) ∧
      Keeps (a.outside ∪ live (xs ++ n :: ys)) s.mem s'.mem := by
  have pair := held.pair
  have order := pair.order
  obtain ⟨m₁, mark, held₁, keeps₁⟩ := held.markAsFree
  obtain ⟨s₂, xs₂, b₂, merge, held₂, free₂, prev₂, live₂, keeps₂⟩ := held₁.mergePrev rfl
  obtain ⟨s₃, b₃, n₃, ys₃, merge', held₃, free₃, prev₃, next₃, live₃, keeps₃⟩ :=
    held₂.mergeNext free₂
  obtain ⟨s₄, call, heap, keeps₄⟩ := give_free held₃ free₃ (prev₃.trans prev₂) next₃
  rw [live_flag xs ys n true] at live₂ keeps₂
  rw [live₂] at live₃ keeps₃
  rw [live₃] at keeps₄
  refine ⟨s₄, _, ?_, heap, ?_, keeps₁.trans (keeps₂.trans (keeps₃.trans keeps₄))⟩
  · have from_ptr : blockFromPtr (b.addr + 16) = b.addr := blockFromPtr_add (by omega)
    have in_use : (!blockIsFree s.mem b.addr) = true := by
      rw [blockIsFree_eq pair.fits pair.word, used]
      rfl
    dsimp only at merge
    simp only [tlsfFree, if_pos (show b.addr + 16 ≠ 0 by omega), from_ptr, tlsfAssert_pos in_use,
      mark, merge, merge', Option.bind_eq_bind, Option.bind_some]
    exact call
  · rw [List.append_assoc, List.singleton_append, live_skip free₃, live₃]

theorem tlsfFree_live (heap : Heap a s bs) {p : Region} (member : p ∈ live bs) :
    ∃ s' bs', tlsfFree a.control p.1 s = some s' ∧ Heap a s' bs' ∧ live bs' = live bs \ {p} ∧
      Keeps (a.outside ∪ live bs \ {p}) s.mem s'.mem := by
  obtain ⟨b, mb, used, sized, rfl⟩ := member
  obtain ⟨xs, n, ys, rfl, held⟩ := take_used heap mb used sized
  have live_all := live_insert xs (n :: ys) used sized
  have fresh := live_fresh heap.holds.laid b.size
  have rest : live (xs ++ [b] ++ n :: ys) \ {(b.addr + 16, b.size)} = live (xs ++ n :: ys) := by
    rw [live_all, Set.insert_sdiff_self_of_notMem fresh]
  rw [rest]
  exact tlsfFree_block held used

end Free

end Algae.Mm.TlsfAlloc
