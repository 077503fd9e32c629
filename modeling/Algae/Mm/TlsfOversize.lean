/- What a session must not ask for: of a request just below four gigabytes, or above, nothing is
   left once it is adjusted, and memory in use is cut down to that. -/

import Algae.Mm.TlsfSessions

set_option autoImplicit false
set_option relaxedAutoImplicit false

namespace Algae.Mm.TlsfOversize

open Algae.Lib.Allocation
open Algae.Lib.ByteMemory Algae.Lib.Tiling Algae.Lib.TwoLevelIndex Algae.Sdk.Defs Algae.Mm.Tlsf
open Algae.Mm.TlsfWords Algae.Mm.TlsfBlocks Algae.Mm.TlsfLists Algae.Mm.TlsfHeap Algae.Mm.TlsfHeld
open Algae.Mm.TlsfSplit Algae.Mm.TlsfAlloc Algae.Mm.TlsfCreate Algae.Mm.TlsfRealloc
  Algae.Mm.TlsfRuns Algae.Mm.TlsfSessions

section Cut

variable {a : Arena} {s : Control} {xs ys : List Block} {b n : Block}

/-- What is left of a block in use that was cut to nothing: its header, and a free block in no list
right behind it. -/
structure Emptied (a : Arena) (s s' : Control) (bs : List Block) (b : Block) : Prop where
  word : load64 s'.mem (b.addr + 8) = headerWord 0 false b.prevFree
  rest : ∃ size, load64 s'.mem (b.addr + 16) = headerWord size true false ∧ 8 ∣ size ∧
    size < 0x100000000
  lists : ∃ L, FreeLists a.control s' L ∧ ∀ c, ∀ x ∈ L c, ∃ f ∈ bs, f.addr = x ∧ f.free = true

private theorem links_word {bs : List Block} {F : Set Nat} (h : Holds a s bs F) (member : b ∈ bs)
    {m m' : Mem} (only : LinksOnly (spotsOf a bs) m m') {w : Nat} (low : b.addr + 8 ≤ w)
    (high : w ≤ b.stop) (header : b.free = true → w = b.addr + 8) : load64 m' w = load64 m w := by
  refine load64_congr fun i below => only _ fun x spot => ?_
  rcases h.spot_apart member spot with apart | ⟨free, rfl⟩
  · omega
  · have here := header free
    omega

private theorem known_of {bs : List Block} {F : Set Nat} (h : Holds a s bs F)
    {L : Nat × Nat → List Nat} (listed : ∀ c, ∀ x ∈ L c, ∃ f ∈ bs, f.addr = x ∧ f.free = true) :
    Known a.control (spotsOf a bs) L where
  null := Set.mem_insert _ _
  real c x member := by
    obtain ⟨f, mf, rfl, free⟩ := listed c x member
    have bounds := h.free_bounds mf free
    exact ⟨Set.mem_insert_of_mem _ ⟨f, mf, free, rfl⟩, by omega⟩

private theorem emptied_merge (held : Held a s xs b n ys) (used : b.free = false)
    (cuts : Cuts b 0) {m' : Mem} (parted : Parted s.mem m' b n 0) :
    ∃ s', blockMergeNext a.control (b.addr + 8) { s with mem := m' } = some (b.addr + 8, s') ∧
      Emptied a s s' (xs ++ [b] ++ n :: ys) b := by
  have pair := held.pair
  have order := pair.order
  have room := cuts.room
  have adjacent := pair.adjacent
  have b_member : b ∈ xs ++ [b] ++ n :: ys := by simp
  have n_member : n ∈ xs ++ [b] ++ n :: ys := by simp
  have rest_fits := remainder_fits pair cuts true false
  have rest_stop := remainder_stop pair cuts true false
  obtain ⟨L, lists, all, blocks⟩ := held.holds.lists
  have listed : ∀ c, ∀ x ∈ L c, ∃ f ∈ xs ++ [b] ++ n :: ys, f.addr = x ∧ f.free = true :=
      fun c x member =>
    let ⟨f, mf, addr, free, _⟩ := blocks c x member
    ⟨f, mf, addr, free⟩
  have known := known_of held.holds listed
  have rest_word : load64 m' (b.addr + 16) = headerWord (b.size - 8) true false := by
    have word := parted.rest_word
    rw [used] at word
    exact word
  have front_word : load64 m' (b.addr + 8) = headerWord 0 false b.prevFree := by
    have word := parted.front_word
    rwa [used] at word
  unfold Block.stop at adjacent
  have lists₁ : FreeLists a.control { s with mem := m' } L := by
    refine lists.setMem fun c x member i low high => ?_
    have spot := (known.real c x member).1
    have off_b := held.holds.spot_apart b_member spot
    have off_n := held.holds.spot_apart n_member spot
    rw [used] at off_b
    simp only [Bool.false_eq_true, false_and, or_false] at off_b
    have stop : n.addr + 8 ≤ n.stop := by
      unfold Block.stop
      omega
    unfold Block.stop at off_b
    refine parted.same (x + i) (by omega) ?_ (by omega)
    rw [used]
    simp only [Bool.false_eq_true, if_false]
    omega
  have pair₁ : Neighbours a m' (remainder b 0 true false) { n with prevFree := true } :=
    ⟨rest_fits,
      rest_word, by unfold remainder; dsimp only; omega, { pair.next_fits with }, parted.next_word,
      rest_stop.symm⟩
  cases flag : n.free with
  | false =>
    refine ⟨{ s with mem := m' }, ?_, front_word,
      ⟨_, rest_word, rest_fits.size_aligned, rest_fits.small⟩, L, lists₁, listed⟩
    have next : blockNext m' (b.addr + 8) = some n.addr := pair₁.blockNext
    have in_use : blockIsFree m' n.addr = false :=
      (blockIsFree_eq pair₁.next_fits pair₁.next_word).trans flag
    simp only [blockMergeNext, next, tlsfAssert_pos (show n.addr ≠ 0 by omega), in_use,
      Bool.false_eq_true, if_false, Option.bind_eq_bind, Option.bind_some]
  | true =>
    obtain ⟨n₂, rest, rfl, stop, _, n₂_used⟩ := held.next flag
    have n₂_member : n₂ ∈ xs ++ [b] ++ n :: n₂ :: rest := by simp
    have n_large := pair.next_fits.size_of_free flag
    have n₂_fits := held.holds.fits n₂ n₂_member
    obtain ⟨c, inside⟩ := (all n.addr).mp ⟨n, by simp, flag, rfl⟩
    obtain ⟨f, mf, addr, _, class_f⟩ := blocks c n.addr inside
    obtain rfl := held.holds.laid.eq_of_addr mf n_member addr
    obtain ⟨s₂, call, lists₂, only⟩ := lists₁.remove held.holds.spots known inside
    have b_stop : b.addr + 16 ≤ b.stop := by
      unfold Block.stop
      omega
    have f_stop : f.addr + 8 ≤ f.stop := by
      unfold Block.stop
      omega
    have n₂_stop : n₂.addr + 8 ≤ n₂.stop := by
      unfold Block.stop
      omega
    have b_used : b.free = true → False := fun free => by
      rw [used] at free
      cases free
    have front₂ :=
      (links_word held.holds b_member only (Nat.le_refl _) (by omega) fun _ => rfl).trans front_word
    have rest₂ := (links_word held.holds b_member only (w := b.addr + 16) (by omega) b_stop
      fun free => (b_used free).elim).trans rest_word
    have next₂ :=
      (links_word held.holds n_member only (Nat.le_refl _) f_stop fun _ => rfl).trans
        parted.next_word
    have n₂_word := (held.holds.headers n₂ n₂_member).word
    have last₂ : load64 s₂.mem (n₂.addr + 8) = headerWord n₂.size n₂.free n₂.prevFree := by
      rw [links_word held.holds n₂_member only (Nat.le_refl _) n₂_stop fun _ => rfl, ← n₂_word]
      unfold Block.stop at stop
      exact load64_congr fun i below => parted.same _ (by omega) (by split <;> omega) (by omega)
    have pair₂ : Neighbours a s₂.mem (remainder b 0 true false) { f with prevFree := true } :=
      ⟨rest_fits, rest₂, pair₁.sized, pair₁.next_fits, next₂, pair₁.adjacent⟩
    have pair₃ : Neighbours a s₂.mem { f with prevFree := true } n₂ :=
      ⟨pair₁.next_fits, next₂, by dsimp only; omega, n₂_fits, last₂, stop⟩
    have merged := absorbed_fits pair₂ pair₃
    have absorb := blockAbsorb_eq pair₂ pair₃
    rw [show (remainder b 0 true false).addr = b.addr + 8 from rfl,
      show (remainder b 0 true false).free = true from rfl,
      show (remainder b 0 true false).prevFree = false from rfl, Nat.add_assoc b.addr 8 8] at absorb
    obtain ⟨aligned, small⟩ := And.intro merged.size_aligned merged.small
    generalize (absorbed (remainder b 0 true false) { f with prevFree := true }).size = size
      at absorb aligned small
    dsimp only at absorb
    have order₃ := pair₃.order
    dsimp only at order₃
    have listed₂ : ∀ c', ∀ x ∈ Function.update L c ((L c).erase f.addr) c',
      ∃ g ∈ xs ++ [b] ++ f :: n₂ :: rest,
        g.addr = x ∧ g.free = true :=
          fun c' x member => listed c' x ((mem_erased lists inside).mp member).1
    refine ⟨{ s₂ with
      mem := store64 (store64 s₂.mem (b.addr + 16) (headerWord size true false)) n₂.addr
        (BitVec.ofNat 64 (b.addr + 8)) }, ?_, ?_, ⟨size, ?_, aligned, small⟩, _,
          lists₂.setMem ?_, listed₂⟩
    · have next : blockNext m' (b.addr + 8) = some f.addr := pair₁.blockNext
      have is_free : blockIsFree m' f.addr = true :=
        (blockIsFree_eq pair₁.next_fits pair₁.next_word).trans flag
      have last : (!blockIsLast m' (b.addr + 8)) = true := by
        have read := blockIsLast_eq pair₁.fits pair₁.word
        rw [decide_eq_false pair₁.sized] at read
        rw [show blockIsLast m' (b.addr + 8) = false from read]
        rfl
      have removed : blockRemove a.control f.addr { s with mem := m' } = some s₂ := by
        have read := blockSize_eq pair₁.next_fits pair₁.next_word
        dsimp only at read
        rw [blockRemove, read, class_f]
        exact call
      simp only [blockMergeNext, next, tlsfAssert_pos (show f.addr ≠ 0 by omega), is_free, if_true,
        tlsfAssert_pos last, removed, absorb, Option.bind_eq_bind, Option.bind_some]
    · simp (disch := omega) only [load64_store64_disjoint]
      exact front₂
    · simp (disch := omega) only [load64_store64_disjoint, load64_store64]
    · intro c' x member i low high
      have spot := (known.real c' x ((mem_erased lists inside).mp member).1).1
      have other := ((mem_erased lists inside).mp member).2
      have off_b := held.holds.spot_apart b_member spot
      have off_f := held.holds.spot_apart n_member spot
      rw [used] at off_b
      simp only [Bool.false_eq_true, false_and, or_false] at off_b
      have off_f := off_f.resolve_right fun both => other both.2
      unfold Block.stop at stop off_b off_f
      simp (disch := omega) only [store64_outside]

private theorem spots_insert {S : Set Nat} (spots : Spots S) {x : Nat} (nonzero : x ≠ 0)
    (word : x + 32 < 0x10000000000000000) (apart : ∀ y ∈ S, y + 32 ≤ x ∨ x + 32 ≤ y + 16) :
    Spots (insert x S) where
  clear y my z mz other := by
    have spread := spots.clear
    unfold Clear at spread ⊢
    rcases my with rfl | my
    · rcases mz with rfl | mz
      · exact absurd rfl other
      · have away := apart z mz
        omega
    · rcases mz with rfl | mz
      · have away := apart y my
        omega
      · exact spread y my z mz other
  nonzero y my := by
    rcases my with rfl | my
    · exact nonzero
    · exact spots.nonzero y my
  word y my := by
    rcases my with rfl | my
    · exact word
    · exact spots.word y my

private theorem emptied_insert (held : Held a s xs b n ys) (used : b.free = false)
    (cuts : Cuts b 0) {s₁ : Control} (emptied : Emptied a s s₁ (xs ++ [b] ++ n :: ys) b) :
    ∃ s', blockInsert a.control (b.addr + 8) s₁ = some s' ∧
      load64 s'.mem (b.addr + 8) = headerWord 0 false b.prevFree := by
  obtain ⟨size, rest_word, aligned, small⟩ := emptied.rest
  obtain ⟨L, lists, listed⟩ := emptied.lists
  have member : b ∈ xs ++ [b] ++ n :: ys := by simp
  have fits := held.holds.fits b member
  have first := fits.first
  have stop_word := fits.stop_word
  have addr_aligned := fits.addr_aligned
  have below := a.below
  have room := cuts.room
  have apart : ∀ y ∈ spotsOf a (xs ++ [b] ++ n :: ys), y + 32 ≤ b.addr + 8 ∨ b.stop ≤ y + 8 := by
    intro y spot
    have away := held.holds.spot_apart member spot
    rw [used] at away
    simpa using away
  unfold Block.stop at stop_word apart
  have spots : Spots (insert (b.addr + 8) (spotsOf a (xs ++ [b] ++ n :: ys))) := by
    refine spots_insert held.holds.spots (by omega) (by omega) fun y spot => ?_
    have away := apart y spot
    omega
  have known : Known a.control (insert (b.addr + 8) (spotsOf a (xs ++ [b] ++ n :: ys))) L :=
    have known := known_of held.holds listed
    ⟨Set.mem_insert_of_mem _ known.null, fun c x inside =>
      ⟨Set.mem_insert_of_mem _ (known.real c x inside).1, (known.real c x inside).2⟩⟩
  have fresh : ∀ c, b.addr + 8 ∉ L c := fun c inside => by
    have away := apart _ ((known_of held.holds listed).real c _ inside).1
    omega
  obtain ⟨s', call, _, only⟩ :=
    lists.insert spots known (Set.mem_insert _ _) (by omega) fresh (by omega)
    (mappingInsert_row small) (mappingInsert_listed (by omega)).2.2
  refine ⟨s', ?_, ?_⟩
  · have read : blockSize s₁.mem (b.addr + 8) = size := by
      rw [blockSize, Nat.add_assoc, rest_word, headerWord_size aligned small]
    rw [blockInsert, read]
    exact call
  · rw [← emptied.word]
    refine load64_congr fun i low => only _ fun x spot => ?_
    rcases spot with rfl | spot
    · omega
    · have away := apart x spot
      omega

private theorem trimUsed_emptied (held : Held a s xs b n ys) (used : b.free = false)
    (room : 32 ≤ b.size) :
    ∃ s', blockTrimUsed a.control b.addr 0 s = some s' ∧
      load64 s'.mem (b.addr + 8) = headerWord 0 false b.prevFree := by
  have pair := held.pair
  have cuts : Cuts b 0 := ⟨Nat.dvd_zero 8, room⟩
  obtain ⟨m₁, call, split⟩ := blockSplit_mem pair cuts
  have parted := parted_used pair cuts used split
  obtain ⟨s₁, merge, emptied⟩ := emptied_merge held used cuts parted
  obtain ⟨s', listed, word⟩ := emptied_insert held used cuts emptied
  refine ⟨s', ?_, word⟩
  have can : blockCanSplit s.mem b.addr 0 = true := by
    rw [blockCanSplit_eq pair.fits pair.word, decide_eq_true (show 32 + 0 ≤ b.size from room)]
  have in_use : (!blockIsFree s.mem b.addr) = true := by
    rw [blockIsFree_eq pair.fits pair.word, used]
    rfl
  have merge' :
    blockMergeNext a.control
      (b.addr + 8 + 0) { s with mem := blockSetPrevUsed m₁ (b.addr + 8 + 0) } =
      some (b.addr + 8, s₁) := merge
  simp only [blockTrimUsed, tlsfAssert_pos in_use, can, if_true, call, merge', listed,
    Option.bind_eq_bind, Option.bind_some]

end Cut

section Oversize

private theorem adjusted_oversize {request : Nat} (large : 0x100000000 - 7 ≤ request)
    (word : request + 7 < 0x10000000000000000) : adjusted request = 0 := by
  rw [adjusted, if_neg (by omega), if_neg (by omega)]

private theorem tlsfFree_emptied {control addr : Nat} {s : Control} {prev : Bool}
    (word : addr + 16 < 0x10000000000000000)
    (header : load64 s.mem (addr + 8) = headerWord 0 false prev) :
    tlsfFree control (addr + 16) s = none := by
  have size : blockSize s.mem addr = 0 := by
    rw [blockSize, header, headerWord_size (Nat.dvd_zero 8) (by omega)]
  have last : (!blockIsLast s.mem addr) = false := by
    rw [blockIsLast, size]
    rfl
  have next : blockNext s.mem addr = none := by
    rw [blockNext, last]
    rfl
  simp only [tlsfFree, if_pos (show addr + 16 ≠ 0 by omega),
    blockFromPtr_add (show addr < 0x10000000000000000 by omega),
    blockMarkAsFree, blockLinkNext, next, Option.bind_eq_bind, Option.bind_none]
  cases tlsfAssert (!blockIsFree s.mem addr) <;> rfl

/-- A request of almost four gigabytes or more is cut from memory in use as one for nothing: it
seems to be served, and the memory can no longer be given up. -/
private theorem session_oversize {mem bytes : Nat} (fits : HeapFits mem bytes) {s₀ s : Control}
    {cs : List Call} {t : Session} (created : tlsfCreateWithPool mem bytes s₀ = some (mem, s))
    (calls : Calls mem ⟨s, []⟩ cs t) {r : Region}
    (member : r ∈ t.held) (room : 32 ≤ r.2) {request : Nat} (large : 0x100000000 - 7 ≤ request)
    (word : request + 7 < 0x10000000000000000) :
    ∃ t', perform mem t (.realloc r.1 request) = some (r.1, t') ∧
      tlsfBlockSize t'.heap.mem r.1 = 0 ∧
      perform mem t' (.free r.1) = none := by
  have start := start_inUse fits created
  obtain ⟨bs, _, use, _⟩ := calls.refines start
  obtain ⟨b, inside, used, sized, rfl⟩ := (use.held r).mp member
  obtain ⟨xs, n, ys, rfl, held⟩ := take_used use.heap inside used sized
  obtain ⟨s', call, header⟩ := trimUsed_emptied held used room
  have order := held.pair.order
  have positive : b.addr + 16 ≠ 0 := by omega
  have size : tlsfBlockSize s'.mem (b.addr + 16) = 0 := by
    rw [tlsfBlockSize, if_pos positive, blockFromPtr_add (by omega), blockSize, header,
      headerWord_size (Nat.dvd_zero 8) (by omega)]
  have cut : tlsfRealloc mem (b.addr + 16) request t.heap = some (b.addr + 16, s') := by
    have ways := tlsfRealloc_eq held used (show request ≠ 0 by omega) (by omega)
    rw [adjusted_oversize large word, if_neg (fun both => Nat.not_lt_zero _ both.1),
      if_neg (Nat.not_lt_zero _)] at ways
    rw [call] at ways
    exact ways
  have served : perform mem t (.realloc (b.addr + 16) request) = some (b.addr + 16, Session.take
      (if b.addr + 16 = 0 ∧ request ≠ 0 then t.held else without (b.addr + 16) t.held)
        (b.addr + 16) s') := by
    rw [perform, cut]
    rfl
  have stuck : tlsfFree mem (b.addr + 16) s' = none := tlsfFree_emptied (by omega) header
  refine ⟨_, served, ?_, ?_⟩
  · rw [Session.take_heap]
    exact size
  · rw [perform, Session.take_heap, stuck]
    rfl

private theorem session_oversize_small :
    ∃ s t t', tlsfCreateWithPool 4096 20000 blank = some (4096, s) ∧
    Calls 4096 ⟨s, []⟩ [.malloc 100] t ∧
      perform 4096 t (.realloc 10640 0x100000000) = some (10640, t') ∧
      tlsfBlockSize t'.heap.mem 10640 = 0 ∧ perform 4096 t' (.free 10640) = none := by
  obtain ⟨fits, s, s', length, created, _, calls, enough⟩ := small_session
  obtain ⟨t', served, size, stuck⟩ := session_oversize fits created calls (r := (10640, length))
    List.mem_cons_self (by dsimp only; omega) (show 0x100000000 - 7 ≤ 0x100000000 by omega)
      (by omega)
  exact ⟨s, _, t', created, calls, served, size, stuck⟩

end Oversize

end Algae.Mm.TlsfOversize
