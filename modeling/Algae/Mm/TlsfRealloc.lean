/- Changing the size of memory in use: it is cut, or grows into the free block behind it, or
   moves. -/

import Algae.Mm.TlsfAlloc

set_option autoImplicit false
set_option relaxedAutoImplicit false

namespace Algae.Mm.TlsfRealloc

open Algae.Lib.Allocation
open Algae.Rtl.String (rtlMemcpy rtlMemcpy_eq_write)
open Algae.Lib.ByteMemory Algae.Lib.Tiling Algae.Sdk.Defs Algae.Mm.Tlsf
open Algae.Mm.TlsfWords Algae.Mm.TlsfBlocks Algae.Mm.TlsfHeap Algae.Mm.TlsfHeld
open Algae.Mm.TlsfSplit Algae.Mm.TlsfAlloc

section Trim

variable {a : Arena} {s : Control} {xs ys : List Block} {b n : Block} {size : Nat}

theorem parted_used {m m₁ : Mem} (pair : Neighbours a m b n) (cuts : Cuts b size)
    (used : b.free = false) (split : SplitMem m m₁ b n size) :
    Parted m (blockSetPrevUsed m₁ (b.addr + 8 + size)) b n size := by
  have order := pair.order
  have adjacent := pair.adjacent
  have room := cuts.room
  unfold Block.stop at adjacent
  obtain ⟨prev, rest_word⟩ := split.rest_word
  rw [blockSetPrevUsed_rest pair cuts m₁ rest_word]
  refine ⟨?_, fun free => ?_, ?_, ?_, ?_, fun x off_front off_rest off_next => ?_⟩
  · simp (disch := omega) only [load64_store64_disjoint]
    exact split.front_word
  · rw [used] at free
    cases free
  · rw [load64_store64, used]
  · simp (disch := omega) only [load64_store64_disjoint]
    exact split.link
  · simp (disch := omega) only [load64_store64_disjoint]
    exact split.next_word
  · rw [used, if_neg (by simp)] at off_rest
    simp (disch := omega) only [store64_outside]
    exact split.same x off_front (by omega) off_next

structure Trimmed (a : Arena) (s s' : Control) (b : Block) (others : List Block) (bs' : List Block)
    (length size : Nat) : Prop where
  heap : Heap a s' bs'
  length_ge : size ≤ length
  length_lt : length < size + 32
  live_eq : live bs' = insert (b.addr + 16, length) (live others)
  fresh : (b.addr + 16, length) ∉ live others
  keeps : Keeps (a.outside ∪ insert (b.addr + 16, length) (live others)) s.mem s'.mem

private theorem trimUsed_part (held : Held a s xs b n ys) (used : b.free = false)
    (splits : Splits b size) :
    ∃ s' bs', blockTrimUsed a.control b.addr size s = some s' ∧
      Trimmed a s s' b (xs ++ n :: ys) bs' size size := by
  have pair := held.pair
  obtain ⟨m₁, call, split⟩ := blockSplit_mem pair splits.toCuts
  have parted := parted_used pair splits.toCuts used split
  obtain ⟨holds, keeps₁⟩ := holds_part held splits parted
  have held₁ := held_rest held splits holds used
  rw [used] at held₁
  obtain ⟨s₂, b₂, n₂, ys₂, merge, held₂, free₂, prev₂, next₂, live₂, keeps₂⟩ := held₁.mergeNext rfl
  obtain ⟨s₃, listed, heap, keeps₃⟩ := give_free held₂ free₂ prev₂ next₂
  rw [live₂] at keeps₃
  rw [live_flag (xs ++ [front b size]) ys n true] at live₂ keeps₂ keeps₃
  have sized : (front b size).size ≠ 0 := by
    have least := splits.least
    unfold front
    dsimp only
    omega
  have live_all :
      live (xs ++ [front b size] ++ n :: ys) = insert (b.addr + 16, size) (live (xs ++ n :: ys)) :=
    live_insert xs (n :: ys) used sized
  have laid : Laid a (xs ++ [b] ++ n :: ys) := held.holds.laid
  rw [live_all] at live₂ keeps₂ keeps₃
  refine ⟨s₃, _, ?_, heap, le_refl size, Nat.lt_add_of_pos_right (by omega), ?_,
    live_fresh laid size, ?_⟩
  · have can : blockCanSplit s.mem b.addr size = true := by
      rw [blockCanSplit_eq pair.fits pair.word, decide_eq_true splits.room]
    have in_use : (!blockIsFree s.mem b.addr) = true := by
      rw [blockIsFree_eq pair.fits pair.word, used]
      rfl
    have merge' : blockMergeNext a.control (b.addr + 8 + size)
        { s with mem := blockSetPrevUsed m₁ (b.addr + 8 + size) } = some (b₂.addr, s₂) := merge
    simp only [blockTrimUsed, tlsfAssert_pos in_use, can, if_true, call, merge',
      Option.bind_eq_bind, Option.bind_some]
    exact listed
  · rw [List.append_assoc, List.singleton_append, live_skip free₂, live₂]
  · refine (keeps₁.add fun x inside => ?_).trans (keeps₂.trans keeps₃)
    obtain ⟨low, high⟩ := inside
    dsimp only at low high
    refine parted.same x (by omega) (Or.inl ?_) (Or.inl ?_)
    · rw [used, if_neg (by simp)]
      omega
    · have adjacent := held.adjacent.1
      have room := splits.room
      unfold Block.stop at adjacent
      omega

private theorem trimUsed_held (held : Held a s xs b n ys) (used : b.free = false)
    (least : 24 ≤ size) (aligned : 8 ∣ size) (enough : size ≤ b.size) :
    ∃ s' bs' length, blockTrimUsed a.control b.addr size s = some s' ∧
      Trimmed a s s' b (xs ++ n :: ys) bs' length size := by
  by_cases room : 32 + size ≤ b.size
  · obtain ⟨s', bs', call, trimmed⟩ := trimUsed_part held used ⟨⟨aligned, room⟩, least⟩
    exact ⟨s', bs', size, call, trimmed⟩
  · have pair := held.pair
    have can : blockCanSplit s.mem b.addr size = false := by
      rw [blockCanSplit_eq pair.fits pair.word, decide_eq_false room]
    have in_use : (!blockIsFree s.mem b.addr) = true := by
      rw [blockIsFree_eq pair.fits pair.word, used]
      rfl
    refine ⟨s, _, b.size, ?_, give_used held used,
      enough, by omega, live_insert xs (n :: ys) used held.sized,
      live_fresh held.holds.laid b.size, Keeps.refl _ _⟩
    simp only [blockTrimUsed, tlsfAssert_pos in_use, can, Bool.false_eq_true, if_false,
      Option.bind_eq_bind, Option.bind_some]

end Trim

section Grow

variable {a : Arena} {s : Control} {xs ys : List Block} {b n : Block}

private theorem absorb_mark {m : Mem} {b₂ : Block} (pair : Neighbours a m b n)
    (pair' : Neighbours a m n b₂) :
    ∃ m₁ m₂, blockAbsorb m b.addr n.addr = some (b.addr, m₁) ∧ blockMarkAsUsed m₁ b.addr = some m₂ ∧
      load64 m₂ (b.addr + 8) = headerWord (absorbed b n).size false b.prevFree ∧
      load64 m₂ (b₂.addr + 8) = headerWord b₂.size b₂.free false ∧
      ∀ x, x < b.addr + 8 ∨ b.addr + 16 ≤ x → x < b₂.addr ∨ b₂.addr + 16 ≤ x → m₂ x = m x := by
  have order := pair.order
  have order' := pair'.order
  have grown :
    Neighbours a
      (store64 (store64 m (b.addr + 8) (headerWord (absorbed b n).size b.free b.prevFree))
      b₂.addr (BitVec.ofNat 64 b.addr)) (absorbed b n) b₂ := by
    refine ⟨absorbed_fits pair pair', ?_, absorbed_pos b n, pair'.next_fits, ?_,
      (absorbed_stop pair pair').symm⟩
    · rw [show (absorbed b n).addr = b.addr from rfl]
      simp (disch := omega) only [load64_store64_disjoint, load64_store64]
      rfl
    · simp (disch := omega) only [load64_store64_disjoint]
      exact pair'.next_word
  refine ⟨_, _, blockAbsorb_eq pair pair', grown.blockMarkAsUsed, load64_store64 _ _ _, ?_,
    fun x apart apart' => ?_⟩
  · rw [show (absorbed b n).addr = b.addr from rfl]
    simp (disch := omega) only [load64_store64_disjoint, load64_store64]
  · rw [show (absorbed b n).addr = b.addr from rfl]
    simp (disch := omega) only [store64_outside]

private theorem growNext_held (held : Held a s xs b n ys) (used : b.free = false)
    (free : n.free = true) :
    ∃ s₁ m₂ n' ys', blockMergeNext a.control b.addr s = some (b.addr, s₁) ∧
      blockMarkAsUsed s₁.mem b.addr = some m₂ ∧
        Held a { s₁ with mem := m₂ } xs (absorbed b n) n' ys' ∧
      live (xs ++ n' :: ys') = live (xs ++ n :: ys) ∧
      Keeps (a.outside ∪ insert (b.addr + 16, b.size) (live (xs ++ n :: ys))) s.mem m₂ := by
  obtain ⟨s₁, n₂, rest, rfl, _, _, call, holds, pair, pair', others, live_eq, keeps⟩ :=
    held.removeNext free
  obtain ⟨m₁, m₂, absorb, mark, word, next, same⟩ := absorb_mark pair pair'
  have order := pair.order
  have order' := pair'.order
  have header : Header m₂ (absorbed b n) := by
    refine ⟨?_, fun is_free => ?_⟩
    · rw [show (absorbed b n).free = b.free from rfl, used]
      exact word
    · rw [show (absorbed b n).free = b.free from rfl, used] at is_free
      cases is_free
  have same_outside : ∀ x, Outside [b, n] n₂ x → m₂ x = s₁.mem x := by
    rintro x (high | low)
    · exact same x (by omega) (by omega)
    · have low := low b (by simp)
      exact same x (by omega) (by omega)
  obtain ⟨held', keeps'⟩ :=
    held_of_become holds m₂ (absorbed b n) (absorbed_fits pair pair') (absorbed_pos b n)
    (absorbed_stop pair pair') (fun r leads => leads.1.symm) same_outside header
    (by rw [next, show (absorbed b n).free = b.free from rfl, used]) others
  refine ⟨{ s₁ with mem := m₁ }, m₂, _, rest, held.mergeNext_free free call absorb, mark,
    held', ?_, ?_⟩
  · rw [live_flag xs rest n₂ _, live_eq]
  · rw [live_insert xs (n :: n₂ :: rest) used held.sized] at keeps
    rw [live_eq] at keeps'
    refine keeps.trans (keeps'.add fun x inside => ?_)
    obtain ⟨low, high⟩ := inside
    have adjacent := pair.adjacent
    unfold Block.stop at adjacent
    dsimp only at low high
    exact same x (by omega) (by omega)

end Grow

section Realloc

variable {a : Arena} {s : Control} {xs ys : List Block} {b n : Block} {request : Nat}

theorem adjusted_served (positive : request ≠ 0) (small : request < 0x100000000 - 7) :
    24 ≤ adjusted request ∧ request ≤ adjusted request := by
  rw [adjusted, if_neg positive, if_pos (by omega)]
  omega

theorem tlsfRealloc_eq (held : Held a s xs b n ys) (used : b.free = false) (positive : request ≠ 0)
    (word : request < 0x10000000000000000) : tlsfRealloc a.control (b.addr + 16) request s =
    if adjusted request > b.size ∧ (n.free = false ∨ adjusted request > b.size + n.size + 8) then do
      let (p, s) ← tlsfMalloc a.control request s
      if p ≠ 0 then do
        let s ← tlsfFree a.control (b.addr + 16)
          { s with
            mem := rtlMemcpy s.mem p (fun i => s.mem (b.addr + 16 + i)) (min b.size request) }
        some (p, s)
      else
        some (p, s)
    else if adjusted request > b.size then do
      let (_, s) ← blockMergeNext a.control b.addr s
      let m ← blockMarkAsUsed s.mem b.addr
      let s ← blockTrimUsed a.control b.addr (adjusted request) { s with mem := m }
      some (b.addr + 16, s)
    else
      (do
        let s ← blockTrimUsed a.control b.addr (adjusted request) s
        some (b.addr + 16, s)) := by
  have pair := held.pair
  have order := pair.order
  have small := pair.fits.small
  have n_small := pair.next_fits.small
  have combined : toUSize (b.size + n.size + blockHeaderOverhead) = b.size + n.size + 8 := by
    rw [show (b.size : Int) + n.size + (blockHeaderOverhead : Nat) =
        ((b.size + n.size + 8 : Nat) : Int) by
      unfold blockHeaderOverhead; omega]
    exact toUSize_natCast (by omega)
  have in_use : blockIsFree s.mem b.addr = false := (blockIsFree_eq pair.fits pair.word).trans used
  have no_free : ¬(b.addr + 16 ≠ 0 ∧ request = 0) := fun both => positive both.2
  simp only [tlsfRealloc, if_neg no_free, if_neg (show ¬b.addr + 16 = 0 by omega),
    blockFromPtr_add (show b.addr < 0x10000000000000000 by omega), pair.blockNext,
    blockSize_eq pair.fits pair.word, blockSize_eq pair.next_fits pair.next_word, combined,
    adjustRequestSize_eq word, tlsfAssert_pos in_use, blockIsFree_eq pair.next_fits pair.next_word,
    Option.bind_eq_bind, Option.bind_some, Bool.not_eq_eq_eq_not, Bool.not_true]

/-- Memory given up for other memory, which begins with what was in it. -/
structure Moved (a : Arena) (s s' : Control) (bs bs' : List Block) (r q : Region) (request : Nat) :
    Prop where
  heap : Heap a s' bs'
  length_ge : adjusted request ≤ q.2
  length_lt : q.2 < adjusted request + 32
  live_eq : live bs' = insert q (live bs \ {r})
  fresh : q ∉ live bs \ {r}
  keeps : Keeps (a.outside ∪ live bs \ {r}) s.mem s'.mem
  copied : ∀ i, i < r.2 → i < request → s'.mem (q.1 + i) = s.mem (r.1 + i)

private theorem realloc_copy (held : Held a s xs b n ys) (used : b.free = false) {s₁ : Control}
    {bs₁ : List Block} {p length : Nat} (positive : request ≠ 0) (small : request < 0x100000000 - 7)
    (granted : Granted a s s₁ (xs ++ [b] ++ n :: ys) bs₁ p length (adjusted request)) :
    ∃ s' bs', tlsfFree a.control (b.addr + 16)
        { s₁ with
          mem := rtlMemcpy s₁.mem p (fun i => s₁.mem (b.addr + 16 + i)) (min b.size request) } =
            some s' ∧
      Moved a s s' (xs ++ [b] ++ n :: ys) bs' (b.addr + 16, b.size) (p, length) request := by
  have old : (b.addr + 16, b.size) ∈ live (xs ++ [b] ++ n :: ys) := by
    rw [live_insert xs (n :: ys) used held.sized]
    exact Set.mem_insert _ _
  have old' : (b.addr + 16, b.size) ∈ live bs₁ := by
    rw [granted.live_eq]
    exact Set.mem_insert_of_mem _ old
  have new : (p, length) ∈ live bs₁ := by
    rw [granted.live_eq]
    exact Set.mem_insert _ _
  have other : (p, length) ≠ (b.addr + 16, b.size) := fun same => granted.fresh (same ▸ old)
  have room : min b.size request ≤ length := by
    have enough := (adjusted_served positive small).2
    have large := granted.length_ge
    omega
  have outside : ∀ x, ¬Within x (p, length) →
      rtlMemcpy s₁.mem p (fun i => s₁.mem (b.addr + 16 + i)) (min b.size request) x = s₁.mem x := by
    intro x no
    rw [rtlMemcpy_eq_write]
    refine write_outside _ _ ?_
    by_contra inside
    exact no ⟨by dsimp only; omega, by dsimp only; omega⟩
  have heap := heap_change granted.heap new outside
  have sound := live_sound granted.heap
  have kept : Keeps (a.outside ∪ live bs₁ \ {(p, length)}) s₁.mem
      (rtlMemcpy s₁.mem p (fun i => s₁.mem (b.addr + 16 + i)) (min b.size request)) := by
    intro r member x inside
    refine outside x fun also => ?_
    unfold Within at inside also
    rcases member with around | ⟨member, apart⟩
    · have bounds := sound.inside _ new
      have below := a.below
      rcases around with before | behind
      · omega
      · omega
    · have order := sound.apart r member _ new apart
      unfold Apart at order
      omega
  obtain ⟨s', bs', call, heap', live_eq, keeps⟩ := tlsfFree_live heap old'
  have others :
      live bs' = insert (p, length) (live (xs ++ [b] ++ n :: ys) \ {(b.addr + 16, b.size)}) := by
    rw [live_eq, granted.live_eq, Set.insert_sdiff_of_notMem _ (by simpa using other)]
  refine ⟨s', bs', call, heap', granted.length_ge, granted.length_lt, others, fun again =>
    granted.fresh again.1, ?_, ?_⟩
  · have rest : a.outside ∪ live (xs ++ [b] ++ n :: ys) \ {(b.addr + 16, b.size)} ⊆
        a.outside ∪ live bs₁ \ {(b.addr + 16, b.size)} := by
      rw [granted.live_eq]
      exact Set.union_subset_union_right _ fun r old => ⟨Set.mem_insert_of_mem _ old.1, old.2⟩
    have rest' : a.outside ∪ live (xs ++ [b] ++ n :: ys) \ {(b.addr + 16, b.size)} ⊆
        a.outside ∪ live bs₁ \ {(p, length)} := by
      rw [granted.live_eq]
      exact Set.union_subset_union_right _ fun r old =>
        ⟨Set.mem_insert_of_mem _ old.1, fun same => granted.fresh (same ▸ old.1)⟩
    refine Keeps.trans (granted.keeps.mono ?_) ((kept.mono rest').trans (keeps.mono rest))
    exact Set.union_subset_union_right _ Set.sdiff_subset
  · intro i short below
    dsimp only at short ⊢
    have source :=
      granted.keeps.right _ old (b.addr + 16 + i)
        ⟨Nat.le_add_right _ _, Nat.add_lt_add_left short _⟩
    have copied :=
      write_inside s₁.mem (a := p) (fun i => s₁.mem (b.addr + 16 + i)) (lt_min short below)
    rw [keeps.right _ ⟨new, other⟩ (p + i) ⟨by dsimp only; omega, by dsimp only; omega⟩, ←
      source, ← copied]
    rw [rtlMemcpy_eq_write]

private theorem realloc_trim (held : Held a s xs b n ys) (used : b.free = false) {s₁ : Control}
    {xs₁ ys₁ : List Block}
    {b₁ n₁ : Block} (held₁ : Held a s₁ xs₁ b₁ n₁ ys₁) (used₁ : b₁.free = false)
    (addr : b₁.addr = b.addr) (live_eq : live (xs₁ ++ n₁ :: ys₁) = live (xs ++ n :: ys))
    (keeps : Keeps (a.outside ∪ insert (b.addr + 16, b.size) (live (xs ++ n :: ys))) s.mem s₁.mem)
    (positive : request ≠ 0) (small : request < 0x100000000 - 7)
    (room : adjusted request ≤ b₁.size) :
    ∃ s' bs' length, blockTrimUsed a.control b.addr (adjusted request) s₁ = some s' ∧
      Moved a s s' (xs ++ [b] ++ n :: ys) bs' (b.addr + 16, b.size)
        (b.addr + 16, length) request := by
  obtain ⟨least, enough⟩ := adjusted_served positive small
  obtain ⟨s', bs', length, call, trimmed⟩ :=
    trimUsed_held held₁ used₁ least (adjusted_sized request).1 room
  have large := trimmed.length_ge
  have live_all := trimmed.live_eq
  have fresh := trimmed.fresh
  have keeps' := trimmed.keeps
  rw [live_eq, addr] at live_all fresh keeps'
  rw [addr] at call
  have others : live (xs ++ [b] ++ n :: ys) \ {(b.addr + 16, b.size)} = live (xs ++ n :: ys) := by
    rw [live_insert xs (n :: ys) used held.sized,
      Set.insert_sdiff_self_of_notMem (live_fresh held.holds.laid b.size)]
  refine ⟨s', bs', length, call, trimmed.heap, large, trimmed.length_lt, ?_, ?_, ?_,
    fun i short below => ?_⟩
  · rw [others, live_all]
  · rw [others]
    exact fresh
  · rw [others]
    exact keeps.fewer.trans keeps'.fewer
  · dsimp only at short ⊢
    rw [keeps'.right _ (Set.mem_insert _ _) (b.addr + 16 + i)
      ⟨by dsimp only; omega, by dsimp only; omega⟩]
    exact keeps.right _ (Set.mem_insert _ _) (b.addr + 16 + i)
      ⟨by dsimp only; omega, by dsimp only; omega⟩

theorem tlsfRealloc_cases {bs : List Block} (heap : Heap a s bs) {r : Region} (member : r ∈ live bs)
    (positive : request ≠ 0) (small : request < 0x100000000 - 7) :
    (tlsfRealloc a.control r.1 request s = some (0, s) ∧ r.2 < adjusted request ∧
      ∀ c ∈ bs, ¬Suits (adjusted request) c) ∨
    ∃ q s' bs', tlsfRealloc a.control r.1 request s = some (q.1, s') ∧
      Moved a s s' bs bs' r q request ∧
      (adjusted request ≤ r.2 → q.1 = r.1) := by
  obtain ⟨b, mb, used, sized, rfl⟩ := member
  obtain ⟨xs, n, ys, rfl, held⟩ := take_used heap mb used sized
  have word : request < 0x10000000000000000 := by omega
  have least := (adjusted_served positive small).1
  have cases_eq := tlsfRealloc_eq held used positive word
  by_cases copy :
    adjusted request > b.size ∧ (n.free = false ∨ adjusted request > b.size + n.size + 8)
  · rw [if_pos copy] at cases_eq
    rcases tlsfMalloc_cases heap word with ⟨call, none⟩ | ⟨c, s₁, bs₁, length, _, _, call, granted⟩
    · refine Or.inl ⟨?_, copy.1, none.resolve_left (by omega)⟩
      rw [cases_eq, call]
      rfl
    · obtain ⟨s', bs', call', moved⟩ := realloc_copy held used positive small granted
      refine Or.inr
        ⟨(c.addr + 16, length), s', bs', ?_, moved, fun room => by dsimp only at room; omega⟩
      simp only [cases_eq, call, call', Option.bind_eq_bind, Option.bind_some,
        if_pos (show c.addr + 16 ≠ 0 by omega)]
  · rw [if_neg copy] at cases_eq
    by_cases grow : adjusted request > b.size
    · rw [if_pos grow] at cases_eq
      have free : n.free = true := by
        by_contra no
        exact copy ⟨grow, Or.inl (by simpa using no)⟩
      have room : adjusted request ≤ (absorbed b n).size := by
        by_contra no
        refine copy ⟨grow, Or.inr ?_⟩
        unfold absorbed at no
        dsimp only at no
        omega
      obtain ⟨s₁, m₂, n', ys', merge, mark, held', live_eq, keeps⟩ := growNext_held held used free
      obtain ⟨s', bs', length, call, moved⟩ :=
        realloc_trim held used held' used rfl live_eq keeps positive small room
      refine Or.inr ⟨(b.addr + 16, length), s', bs', ?_, moved, fun _ => rfl⟩
      simp only [cases_eq, merge, mark, call, Option.bind_eq_bind, Option.bind_some]
    · rw [if_neg grow] at cases_eq
      obtain ⟨s', bs', length, call, moved⟩ :=
        realloc_trim held used held used rfl rfl (Keeps.refl _ _) positive small
          (Nat.not_lt.mp grow)
      refine Or.inr ⟨(b.addr + 16, length), s', bs', ?_, moved, fun _ => rfl⟩
      simp only [cases_eq, call, Option.bind_eq_bind, Option.bind_some]

end Realloc

end Algae.Mm.TlsfRealloc
