/- The walk over a pool and the integrity checks. In a heap that is in use they find nothing
   wrong, and the walk tells what is held and what is free. -/

import Algae.Mm.TlsfSessions

set_option autoImplicit false
set_option relaxedAutoImplicit false

namespace Algae.Mm.TlsfCheck

open Algae.Lib.Allocation (Region)
open Algae.Lib.ByteMemory (Mem)
open Algae.Lib.Tiling Algae.Lib.TwoLevelIndex Algae.Lib.ThreadedList Algae.Sdk.Defs Algae.Mm.Tlsf
open Algae.Mm.TlsfWords Algae.Mm.TlsfBlocks Algae.Mm.TlsfLists Algae.Mm.TlsfHeap Algae.Mm.TlsfHeld
open Algae.Mm.TlsfAlloc Algae.Mm.TlsfCreate Algae.Mm.TlsfRuns Algae.Mm.TlsfSessions

structure Visit where
  ptr : Nat
  size : Nat
  used : Bool
  deriving DecidableEq

def walkFrom (m : Mem) : Nat → Nat → Option (List Visit)
  | 0, _ => none
  | fuel + 1, block =>
    if block ≠ 0 ∧ !blockIsLast m block then do
      let next ← blockNext m block
      let rest ← walkFrom m fuel next
      some (⟨blockToPtr block, blockSize m block, !blockIsFree m block⟩ :: rest)
    else
      some []

def tlsfWalkPool (m : Mem) (pool fuel : Nat) : Option (List Visit) :=
  walkFrom m fuel (offsetToBlock pool (-blockHeaderOverhead))

def tlsfInsist (cond : Prop) [Decidable cond] (status : Int) : Option Int := do
  tlsfAssert cond
  some (if cond then status else status - 1)

structure Integrity where
  prevStatus : Int
  status : Int

def integrityWalker (m : Mem) (integ : Integrity) (v : Visit) : Option Integrity := do
  let block := blockFromPtr v.ptr
  let thisPrevStatus := if blockIsPrevFree m block then 1 else 0
  let thisStatus := if blockIsFree m block then 1 else 0
  let thisBlockSize := blockSize m block
  let status ← tlsfInsist (integ.prevStatus = thisPrevStatus) 0
  let status ← tlsfInsist (v.size = thisBlockSize) status
  some ⟨thisStatus, integ.status + status⟩

def tlsfCheckPool (m : Mem) (pool fuel : Nat) : Option Int := do
  let visits ← tlsfWalkPool m pool fuel
  let integ ← visits.foldlM (integrityWalker m) ⟨0, 0⟩
  some integ.status

def checkList (control : Nat) (m : Mem) (i j : Nat) : Nat → Nat → Int → Option Int
  | 0, _, _ => none
  | fuel + 1, block, status =>
    if block ≠ control then do
      let status ← tlsfInsist (blockIsFree m block) status
      let status ← tlsfInsist (!blockIsPrevFree m block) status
      let next ← blockNext m block
      let status ← tlsfInsist (!blockIsFree m next) status
      let status ← tlsfInsist (blockIsPrevFree m next) status
      let status ← tlsfInsist (blockSizeMin ≤ blockSize m block) status
      let status ← tlsfInsist (mappingInsert (blockSize m block) = (i, j)) status
      checkList control m i j fuel (nextFree m block) status
    else
      some status

def checkSet (control : Nat) (s : Control) (fuel : Nat) (status : Int) (i j : Nat) :
    Option Int := do
  let status ← tlsfInsist (s.slBitmap i ≠ 0) status
  let status ← tlsfInsist (s.blocks i j ≠ control) status
  checkList control s.mem i j fuel (s.blocks i j) status

def checkLevels (s : Control) (status : Int) (i j : Nat) : Option Int :=
  if s.flBitmap &&& (1#32 <<< i) = 0 then tlsfInsist (s.slBitmap i &&& (1#32 <<< j) = 0)
    status else some status

def checkClass (control : Nat) (s : Control) (fuel : Nat) (status : Int) (i j : Nat) :
    Option Int := do
  let status ← checkLevels s status i j
  if s.slBitmap i &&& (1#32 <<< j) = 0 then
    tlsfInsist (s.blocks i j = control) status
  else
    checkSet control s fuel status i j

def tlsfCheck (control : Nat) (s : Control) (fuel : Nat) : Option Int :=
  (List.range FL_INDEX_COUNT).foldlM
    (fun status i => (List.range SL_INDEX_COUNT).foldlM
      (fun status j => checkClass control s fuel status i j) status) 0

section Walk

def Block.visit (b : Block) : Visit := ⟨b.addr + 16, b.size, !b.free⟩

def visitsOf (bs : List Block) : List Visit :=
  (bs.filter fun b => decide (b.size ≠ 0)).map Block.visit

variable {a : Arena} {m : Mem} {bs : List Block}

private theorem path_end {bs : List Block} (path : Path Block.enter Block.leave none bs none) :
    bs = [] := by
  cases bs with
  | nil => rfl
  | cons b bs => cases path.1

private theorem walkFrom_eq {addr : Nat} {flag : Bool}
    (path : Path Block.enter Block.leave (some (addr, flag)) bs none)
    (fits : ∀ b ∈ bs, b.Fits a) (headers : ∀ b ∈ bs, Header m b) (some_addr : addr ≠ 0) {fuel : Nat}
    (enough : bs.length ≤ fuel) : walkFrom m fuel addr = some (visitsOf bs) := by
  induction bs generalizing addr flag fuel with
  | nil => cases path
  | cons b bs ih =>
    obtain ⟨enter, rest⟩ := path
    obtain ⟨rfl, rfl⟩ := Prod.mk.inj (Option.some.inj enter)
    have b_fits := fits b List.mem_cons_self
    have b_word := (headers b List.mem_cons_self).word
    have stop_word := b_fits.stop_word
    cases fuel with
    | zero => cases enough
    | succ fuel =>
      by_cases sized : b.size = 0
      · rw [Block.leave, if_pos sized] at rest
        obtain rfl := path_end rest
        rw [walkFrom, blockIsLast_eq b_fits b_word, if_neg (by simp [sized])]
        simp [visitsOf, sized]
      · rw [Block.leave, if_neg sized] at rest
        unfold Block.stop at stop_word
        have next := blockNext_of_size (blockSize_eq b_fits b_word) sized (by omega)
        have walk := ih rest (fun c later => fits c (List.mem_cons_of_mem _ later))
          (fun c later => headers c (List.mem_cons_of_mem _ later)) (by unfold Block.stop; omega)
          (Nat.le_of_succ_le_succ enough)
        have more : b.addr ≠ 0 ∧ (!blockIsLast m b.addr) = true := by
          rw [blockIsLast_eq b_fits b_word]
          exact ⟨some_addr, by simp [sized]⟩
        unfold Block.stop at walk
        simp only [walkFrom, if_pos more, next, walk, blockSize_eq b_fits b_word,
          blockIsFree_eq b_fits b_word, Option.bind_eq_bind, Option.bind_some]
        simp [visitsOf, sized, Block.visit, blockToPtr, blockStartOffset]

private theorem insist_pos {cond : Prop} [Decidable cond] (holds : cond) (status : Int) :
    tlsfInsist cond status = some status := by
  simp only [tlsfInsist, tlsfAssert_pos holds, if_pos holds, Option.bind_eq_bind, Option.bind_some]

private theorem integrity_eq {addr : Nat} {flag : Bool}
    (path : Path Block.enter Block.leave (some (addr, flag)) bs none)
    (fits : ∀ b ∈ bs, b.Fits a) (headers : ∀ b ∈ bs, Header m b) :
    ∃ prev, (visitsOf bs).foldlM (integrityWalker m) ⟨if flag = true then 1 else 0, 0⟩ = some
      ⟨prev, 0⟩ := by
  induction bs generalizing addr flag with
  | nil => cases path
  | cons b bs ih =>
    obtain ⟨enter, rest⟩ := path
    obtain ⟨rfl, rfl⟩ := Prod.mk.inj (Option.some.inj enter)
    have b_fits := fits b List.mem_cons_self
    have b_word := (headers b List.mem_cons_self).word
    have addr_word := b_fits.addr_word
    by_cases sized : b.size = 0
    · rw [Block.leave, if_pos sized] at rest
      obtain rfl := path_end rest
      refine ⟨if b.prevFree = true then 1 else 0, ?_⟩
      simp [visitsOf, sized]
    · rw [Block.leave, if_neg sized] at rest
      obtain ⟨prev, walk⟩ := ih rest (fun c later => fits c (List.mem_cons_of_mem _ later))
        (fun c later => headers c (List.mem_cons_of_mem _ later))
      refine ⟨prev, ?_⟩
      have visits : visitsOf (b :: bs) = Block.visit b :: visitsOf bs := by
        simp [visitsOf, sized]
      have turn : integrityWalker m ⟨if b.prevFree = true then 1 else 0, 0⟩ (Block.visit b) =
          some ⟨if b.free = true then 1 else 0, 0⟩ := by
        simp only [integrityWalker, Block.visit, blockFromPtr_add (show b.addr < _ by omega),
          blockIsPrevFree_eq b_fits b_word, blockIsFree_eq b_fits b_word,
            blockSize_eq b_fits b_word,
          insist_pos, Option.bind_eq_bind, Option.bind_some, Int.add_zero]
      rw [visits, List.foldlM_cons, turn]
      exact walk

end Walk

section Lists

variable {a : Arena} {s : Control} {bs : List Block}

private theorem checkList_step (heap : Heap a s bs) {b : Block} (member : b ∈ bs)
    (free : b.free = true) (fuel : Nat) (status : Int) :
    checkList a.control s.mem (mappingInsert b.size).1 (mappingInsert b.size).2
      (fuel + 1) b.addr status =
      checkList a.control s.mem (mappingInsert b.size).1 (mappingInsert b.size).2 fuel
        (nextFree s.mem b.addr)
        status := by
  have bounds := heap.holds.free_bounds member free
  have fits := heap.holds.fits b member
  have word := (heap.holds.headers b member).word
  have large := fits.size_of_free free
  have prev_used := heap.coalesced b member free
  obtain ⟨xs, rest, rfl⟩ := List.append_of_mem member
  obtain ⟨n, ys, rfl, addr, flag⟩ := heap.holds.laid.next (show b.size ≠ 0 by omega)
  have n_member : n ∈ xs ++ b :: n :: ys := by simp
  have n_fits := heap.holds.fits n n_member
  have n_word := (heap.holds.headers n n_member).word
  have n_used : n.free = false := by
    by_contra n_free
    have apart := heap.coalesced n n_member (by simpa using n_free)
    rw [flag, free] at apart
    cases apart
  have next : blockNext s.mem b.addr = some n.addr := by
    have stop := fits.stop_word
    unfold Block.stop at addr stop
    rw [blockNext_of_size (blockSize_eq fits word) (by omega) (by omega), addr]
  have least : blockSizeMin ≤ b.size := large
  simp only [checkList, if_pos (show b.addr ≠ a.control by omega), blockIsFree_eq fits word,
    blockIsPrevFree_eq fits word, blockSize_eq fits word, next, blockIsFree_eq n_fits n_word,
    blockIsPrevFree_eq n_fits n_word, free, prev_used, n_used, flag, Bool.not_false,
      insist_pos, least,
    Option.bind_eq_bind, Option.bind_some]

private theorem checkList_eq (heap : Heap a s bs) {L : Nat × Nat → List Nat}
    (lists : FreeLists a.control s L)
    (blocks : ∀ c, ∀ x ∈ L c, ∃ b ∈ bs, b.addr = x ∧ b.free = true ∧ mappingInsert b.size = c)
    {c : Nat × Nat}
    (before : List Nat) {after : List Nat} (split : L c = before ++ after) {fuel : Nat}
    (enough : after.length < fuel) (status : Int) :
    checkList a.control s.mem c.1 c.2 fuel (after.headD a.control) status = some status := by
  induction after generalizing before fuel with
  | nil =>
    cases fuel with
    | zero => cases enough
    | succ fuel => simp [checkList]
  | cons x after ih =>
    cases fuel with
    | zero => cases enough
    | succ fuel =>
      obtain ⟨b, member, rfl, free, rfl⟩ := blocks c x (by simp [split])
      have bounds := heap.holds.free_bounds member free
      have thread := lists.threads (mappingInsert b.size)
      rw [split] at thread
      have next := (thread.neighbours (show b.addr ≠ a.control by omega)).2
      rw [List.headD_cons, checkList_step heap member free, next]
      refine ih (before ++ [b.addr]) (by simp [split]) ?_
      rw [List.length_cons] at enough
      omega

private theorem bit_clear {word : BitVec 32} {i : Nat} (below : i < 32) :
    word &&& (1#32 <<< i) = 0 ↔ word.getLsbD i = false := by
  constructor
  · intro zero
    have bit := congrArg (BitVec.getLsbD · i) zero
    simpa [one_shift_getLsbD, below] using bit
  · intro clear
    apply BitVec.eq_of_getLsbD_eq
    intro k _
    rw [BitVec.getLsbD_and, one_shift_getLsbD]
    by_cases same : k = i
    · simp [same, clear]
    · simp [same]

private theorem checkClass_eq (heap : Heap a s bs) {L : Nat × Nat → List Nat}
    (lists : FreeLists a.control s L)
    (blocks : ∀ c, ∀ x ∈ L c, ∃ b ∈ bs, b.addr = x ∧ b.free = true ∧ mappingInsert b.size = c)
    {fuel : Nat}
    (enough : ∀ c, (L c).length < fuel) {i j : Nat} (row : i < 25) (col : j < 32) (status : Int) :
    checkClass a.control s fuel status i j = some status := by
  have bit := lists.indexed.bits (i, j) row
  have head := lists.indexed.heads (i, j) row col
  dsimp only at bit head
  by_cases clear : s.slBitmap i &&& (1#32 <<< j) = 0
  · have levels : checkLevels s status i j = some status := by
      rw [checkLevels]
      split
      · exact insist_pos clear status
      · rfl
    have empty : L (i, j) = [] := by
      by_contra some_left
      rw [(bit_clear col).mp clear] at bit
      exact absurd (bit.mpr some_left) (by simp)
    rw [empty, List.headD_nil] at head
    simp only [checkClass, levels, clear, if_true, insist_pos head, Option.bind_eq_bind,
      Option.bind_some]
  · have set : (s.slBitmap i).getLsbD j = true := by
      by_contra unset
      exact clear ((bit_clear col).mpr (by simpa using unset))
    have nonzero : s.slBitmap i ≠ 0 := by
      intro zero
      rw [zero] at set
      simp at set
    have row_set := (lists.indexed.summary i).mpr ⟨row, nonzero⟩
    have levels : checkLevels s status i j = some status := by
      rw [checkLevels, if_neg]
      rw [bit_clear (by omega), row_set]
      simp
    have some_listed := bit.mp set
    have real : s.blocks i j ≠ a.control := by
      rw [head]
      cases list : L (i, j) with
      | nil => exact absurd list some_listed
      | cons x rest =>
        obtain ⟨b, member, rfl, free, _⟩ := blocks (i, j) x (by simp [list])
        have bounds := heap.holds.free_bounds member free
        rw [List.headD_cons]
        omega
    have loop := checkList_eq heap lists blocks [] (List.nil_append _).symm (enough (i, j)) status
    rw [← head] at loop
    simp only [checkClass, levels, if_neg clear, checkSet, insist_pos nonzero,
      insist_pos real, loop, Option.bind_eq_bind, Option.bind_some]

private theorem foldlM_status {f : Int → Nat → Option Int} {xs : List Nat}
    (same : ∀ x ∈ xs, ∀ status, f status x = some status)
    (status : Int) : xs.foldlM f status = some status := by
  induction xs with
  | nil => rfl
  | cons x xs ih =>
    rw [List.foldlM_cons, same x List.mem_cons_self]
    exact ih fun y later => same y (List.mem_cons_of_mem _ later)

end Lists

section Totals

variable {a : Arena} {m : Mem} {bs : List Block}

private theorem visits_total {addr : Nat} {flag : Bool}
    (path : Path Block.enter Block.leave (some (addr, flag)) bs none) (fits : ∀ b ∈ bs, b.Fits a) :
    addr + ((visitsOf bs).map fun v => v.size + 8).sum + 16 = a.limit := by
  induction bs generalizing addr flag with
  | nil => cases path
  | cons b bs ih =>
    obtain ⟨enter, rest⟩ := path
    obtain ⟨rfl, rfl⟩ := Prod.mk.inj (Option.some.inj enter)
    by_cases sized : b.size = 0
    · have ends := (fits b List.mem_cons_self).ends sized
      rw [Block.leave, if_pos sized] at rest
      obtain rfl := path_end rest
      unfold Block.stop at ends
      simp only [visitsOf, sized, ne_eq, not_true, decide_false, Bool.false_eq_true,
        not_false_eq_true, List.filter_cons_of_neg, List.filter_nil, List.map_nil, List.sum_nil]
      omega
    · rw [Block.leave, if_neg sized] at rest
      have tail := ih rest fun c later => fits c (List.mem_cons_of_mem _ later)
      have visits : visitsOf (b :: bs) = Block.visit b :: visitsOf bs := by
        simp [visitsOf, sized]
      rw [visits, List.map_cons, List.sum_cons]
      unfold Block.stop at tail
      change _ + (b.size + 8 + _) + 16 = _
      omega

private theorem visits_apart {addr : Nat} {flag : Bool}
    (path : Path Block.enter Block.leave (some (addr, flag)) bs none)
    (coalesced : ∀ b ∈ bs, b.free = true → b.prevFree = false) :
    (visitsOf bs).IsChain fun v w => v.used = true ∨ w.used = true := by
  induction bs generalizing addr flag with
  | nil => cases path
  | cons b bs ih =>
    obtain ⟨enter, rest⟩ := path
    by_cases sized : b.size = 0
    · rw [Block.leave, if_pos sized] at rest
      obtain rfl := path_end rest
      simp [visitsOf, sized]
    · rw [Block.leave, if_neg sized] at rest
      have tail := ih rest fun c later => coalesced c (List.mem_cons_of_mem _ later)
      have visits : visitsOf (b :: bs) = Block.visit b :: visitsOf bs := by
        simp [visitsOf, sized]
      rw [visits]
      cases bs with
      | nil => exact List.isChain_singleton _
      | cons c rest' =>
        obtain ⟨enter', path'⟩ := rest
        obtain ⟨_, flag'⟩ := Prod.mk.inj (Option.some.inj enter')
        by_cases last : c.size = 0
        · rw [Block.leave, if_pos last] at path'
          obtain rfl := path_end path'
          simp [visitsOf, last]
        · have visits' : visitsOf (c :: rest') = Block.visit c :: visitsOf rest' := by
            simp [visitsOf, last]
          rw [visits'] at tail ⊢
          refine List.isChain_cons_cons.mpr ⟨?_, tail⟩
          by_contra both
          simp only [Block.visit, Bool.not_eq_true', not_or, Bool.not_eq_false] at both
          have apart := coalesced c (by simp) both.2
          rw [flag', both.1] at apart
          cases apart

private theorem visits_used {r : Region} :
    r ∈ live bs ↔ ∃ v ∈ visitsOf bs, v.used = true ∧ (v.ptr, v.size) = r := by
  constructor
  · rintro ⟨b, member, used, sized, rfl⟩
    refine ⟨Block.visit b, ?_, by simp [Block.visit, used], rfl⟩
    exact List.mem_map_of_mem (List.mem_filter.mpr ⟨member, decide_eq_true sized⟩)
  · rintro ⟨v, member, used, rfl⟩
    obtain ⟨b, inside, rfl⟩ := List.mem_map.mp member
    obtain ⟨mb, sized⟩ := List.mem_filter.mp inside
    exact ⟨b, mb, by simpa [Block.visit] using used, of_decide_eq_true sized, rfl⟩

private theorem visits_free {v : Visit} (member : v ∈ visitsOf bs) (unused : v.used = false) :
    ∃ b ∈ bs, b.free = true ∧ b.addr + 16 = v.ptr ∧ b.size = v.size := by
  obtain ⟨b, inside, rfl⟩ := List.mem_map.mp member
  exact ⟨b, (List.mem_filter.mp inside).1, by simpa [Block.visit] using unused, rfl, rfl⟩

private theorem length_le_sum (xs : List Visit) : xs.length ≤ (xs.map fun v => v.size + 8).sum := by
  induction xs with
  | nil => exact le_refl _
  | cons v xs ih =>
    rw [List.length_cons, List.map_cons, List.sum_cons]
    omega

private theorem length_visits {s : Option (Nat × Bool)}
    (path : Path Block.enter Block.leave s bs none) :
    bs.length ≤ (visitsOf bs).length + 1 := by
  induction bs generalizing s with
  | nil => exact Nat.zero_le _
  | cons b bs ih =>
    obtain ⟨_, rest⟩ := path
    by_cases sized : b.size = 0
    · rw [Block.leave, if_pos sized] at rest
      obtain rfl := path_end rest
      simp
    · have visits : visitsOf (b :: bs) = Block.visit b :: visitsOf bs := by
        simp [visitsOf, sized]
      have tail := ih rest
      rw [visits, List.length_cons, List.length_cons]
      omega

end Totals

section Sessions

variable {a : Arena} {s : Control} {bs : List Block}

private theorem tlsfCheck_eq (heap : Heap a s bs) {fuel : Nat} (enough : bs.length < fuel) :
    tlsfCheck a.control s fuel = some 0 := by
  obtain ⟨L, lists, _, blocks⟩ := heap.holds.lists
  have short : ∀ c, (L c).length < fuel := by
    intro c
    have part : L c ⊆ bs.map Block.addr := by
      intro x inside
      obtain ⟨b, member, rfl, _⟩ := blocks c x inside
      exact List.mem_map_of_mem member
    have lengths := (List.subperm_of_subset (lists.nodup c) part).length_le
    rw [List.length_map] at lengths
    omega
  refine foldlM_status (fun i row status => foldlM_status (fun j col status => ?_) status) 0
  exact checkClass_eq heap lists blocks short (List.mem_range.mp row) (List.mem_range.mp col) status

private theorem tlsfWalkPool_eq (heap : Heap a s bs) (some_pool : 0 < a.pool)
    (word : a.pool < 0x10000000000000000) {fuel : Nat} (enough : bs.length ≤ fuel) :
    tlsfWalkPool s.mem (a.pool + 8) fuel = some (visitsOf bs) := by
  have first : offsetToBlock (a.pool + 8) (-blockHeaderOverhead) = a.pool := by
    rw [offsetToBlock, show ((a.pool + 8 : Nat) : Int) + -(blockHeaderOverhead : Nat) =
        (a.pool : Int) by
      unfold blockHeaderOverhead; omega]
    exact toUSize_natCast word
  rw [tlsfWalkPool, first]
  exact walkFrom_eq heap.holds.laid heap.holds.fits heap.holds.headers (by omega) enough

variable {mem bytes : Nat} {s₀ : Control} {cs : List Call} {t : Session}

private theorem session_blocks (fits : HeapFits mem bytes)
    (created : tlsfCreateWithPool mem bytes s₀ = some (mem, s))
    (calls : Calls mem ⟨s, []⟩ cs t) : ∃ bs, InUse fits.arena t bs ∧ bs.length < bytes ∧
      (∀ fuel, bytes ≤ fuel → tlsfWalkPool t.heap.mem (mem + 6536) fuel = some (visitsOf bs)) ∧
      ((visitsOf bs).map fun v => v.size + 8).sum = poolSize bytes + 8 := by
  have start := start_inUse fits created
  obtain ⟨bs, _, use, _⟩ := calls.refines start
  obtain ⟨_, pool, limit⟩ := fits.arena_bounds
  have least := fits.least
  have word := fits.word
  have total := visits_total use.heap.holds.laid use.heap.holds.fits
  have count := length_visits use.heap.holds.laid
  have bound := length_le_sum (visitsOf bs)
  have ends : fits.arena.limit = mem + 6536 + poolSize bytes + 16 := rfl
  rw [pool] at total
  refine ⟨bs, use, by omega, fun fuel enough => ?_, by omega⟩
  have walk := tlsfWalkPool_eq use.heap (by omega) (by omega) (show bs.length ≤ fuel by omega)
  rw [pool] at walk
  exact walk

/-- The integrity checks never find anything. -/
theorem session_checks (fits : HeapFits mem bytes)
    (created : tlsfCreateWithPool mem bytes s₀ = some (mem, s))
    (calls : Calls mem ⟨s, []⟩ cs t) {fuel : Nat} (enough : bytes ≤ fuel) :
    tlsfCheck mem t.heap fuel = some 0 ∧ tlsfCheckPool t.heap.mem (mem + 6536) fuel = some 0 := by
  obtain ⟨bs, use, few, walk, _⟩ := session_blocks fits created calls
  have holds := use.heap.holds
  obtain ⟨prev, walker⟩ := integrity_eq holds.laid holds.fits holds.headers
  refine ⟨tlsfCheck_eq use.heap (show bs.length < fuel by omega), ?_⟩
  rw [if_neg (by simp)] at walker
  simp only [tlsfCheckPool, walk fuel enough, walker, Option.bind_eq_bind, Option.bind_some]

theorem session_checks_small : ∃ s t, tlsfCreateWithPool 4096 20000 blank = some (4096, s) ∧
    Calls 4096 ⟨s, []⟩ [.malloc 100] t ∧ tlsfCheck 4096 t.heap 20000 = some 0 ∧
      tlsfCheckPool t.heap.mem 10632 20000 = some 0 := by
  obtain ⟨fits, s, s', length, created, _, calls, _⟩ := small_session
  exact ⟨s, _, created, calls, session_checks fits created calls (le_refl 20000)⟩

/-- The walk over the pool: its blocks fill it, no two that are free lie next to each other, and
those in use are what is held. -/
theorem session_walk (fits : HeapFits mem bytes)
    (created : tlsfCreateWithPool mem bytes s₀ = some (mem, s)) (calls : Calls mem ⟨s, []⟩ cs t) :
    ∃ visits, (∀ fuel, bytes ≤ fuel → tlsfWalkPool t.heap.mem (mem + 6536) fuel = some visits) ∧
      (visits.map fun v => v.size + 8).sum = poolSize bytes + 8 ∧
      visits.IsChain (fun v w => v.used = true ∨ w.used = true) ∧
      ∀ r, r ∈ t.held ↔ ∃ v ∈ visits, v.used = true ∧ (v.ptr, v.size) = r := by
  obtain ⟨bs, use, _, walk, total⟩ := session_blocks fits created calls
  exact ⟨visitsOf bs, walk, total, visits_apart use.heap.holds.laid use.heap.coalesced,
    fun r => (use.held r).trans visits_used⟩

theorem session_walk_small : ∃ s t, tlsfCreateWithPool 4096 20000 blank = some (4096, s) ∧
    Calls 4096 ⟨s, []⟩ [.malloc 100] t ∧
      ∃ visits, (∀ fuel, 20000 ≤ fuel → tlsfWalkPool t.heap.mem 10632 fuel = some visits) ∧
        (visits.map fun v => v.size + 8).sum = poolSize 20000 + 8 ∧
        visits.IsChain (fun v w => v.used = true ∨ w.used = true) ∧
        ∀ r, r ∈ t.held ↔ ∃ v ∈ visits, v.used = true ∧ (v.ptr, v.size) = r := by
  obtain ⟨fits, s, s', length, created, _, calls, _⟩ := small_session
  exact ⟨s, _, created, calls, session_walk fits created calls⟩

/-- When nothing is held any more, the pool is one free block again. -/
theorem session_freed (fits : HeapFits mem bytes)
    (created : tlsfCreateWithPool mem bytes s₀ = some (mem, s))
    (calls : Calls mem ⟨s, []⟩ cs t) (freed : t.held = []) {fuel : Nat} (enough : bytes ≤ fuel) :
    tlsfWalkPool t.heap.mem (mem + 6536) fuel = some [⟨mem + 6544, poolSize bytes, false⟩] := by
  obtain ⟨bs, use, _, walk, total⟩ := session_blocks fits created calls
  obtain ⟨_, pool, _⟩ := fits.arena_bounds
  have chain := visits_apart use.heap.holds.laid use.heap.coalesced
  have unused : ∀ v ∈ visitsOf bs, v.used = false := by
    intro v member
    by_contra used
    have held := (use.held _).mpr (visits_used.mpr ⟨v, member, by simpa using used, rfl⟩)
    rw [freed] at held
    cases held
  have laid := use.heap.holds.laid
  rw [walk fuel enough]
  cases bs with
  | nil => cases laid
  | cons b bs =>
    obtain ⟨enter, rest⟩ := laid
    have addr := (Prod.mk.inj (Option.some.inj enter)).1
    have sized : b.size ≠ 0 := by
      intro zero
      rw [Block.leave, if_pos zero] at rest
      obtain rfl := path_end rest
      have none : visitsOf [b] = [] := by simp [visitsOf, zero]
      rw [none, List.map_nil, List.sum_nil] at total
      omega
    have visits : visitsOf (b :: bs) = Block.visit b :: visitsOf bs := by
      simp [visitsOf, sized]
    rw [visits] at chain unused total ⊢
    have single : visitsOf bs = [] := by
      cases more : visitsOf bs with
      | nil => rfl
      | cons w ws =>
        rw [more] at chain unused
        have apart := (List.isChain_cons_cons.mp chain).1
        rw [unused _ List.mem_cons_self, unused w (by simp)] at apart
        simp at apart
    rw [single] at total ⊢
    have size : b.size = poolSize bytes := by
      simp only [Block.visit, List.map_cons, List.map_nil, List.sum_cons, List.sum_nil] at total
      omega
    have used : (!b.free) = false := unused _ List.mem_cons_self
    have ptr : b.addr + 16 = mem + 6544 := by omega
    rw [Block.visit, used, size, ptr]

private theorem small_freed : ∃ s t, tlsfCreateWithPool 4096 20000 blank = some (4096, s) ∧
    Calls 4096 ⟨s, []⟩ [.malloc 100, .free 10640] t ∧ t.held = [] := by
  obtain ⟨fits, s, s', length, created, first, calls, _⟩ := small_session
  have start := start_inUse fits created
  obtain ⟨bs, _, use, _⟩ := calls.refines start
  have member : (10640, length) ∈ [(10640, length)] := List.mem_cons_self
  obtain ⟨s'', bs', call, _, _⟩ := free_step use member
  have call' : tlsfFree 4096 10640 s' = some s'' := call
  have second : perform 4096 ⟨s', [(10640, length)]⟩ (.free 10640) = some (0, ⟨s'', []⟩) := by
    simp [perform, call', without]
  have legal : Legal ⟨s, []⟩ (.malloc 100) := show 100 < 0x10000000000000000 by omega
  have legal' : Legal ⟨s', [(10640, length)]⟩ (.free 10640) := Or.inr ⟨_, member, rfl⟩
  exact ⟨s, _, created, Calls.cons legal first (Calls.cons legal' second (Calls.nil _)), rfl⟩

theorem session_freed_small : ∃ s t, tlsfCreateWithPool 4096 20000 blank = some (4096, s) ∧
    Calls 4096 ⟨s, []⟩ [.malloc 100, .free 10640] t ∧
      tlsfWalkPool t.heap.mem 10632 20000 = some [⟨10640, poolSize 20000, false⟩] := by
  obtain ⟨fits, _⟩ := small_session
  obtain ⟨s, t, created, calls, freed⟩ := small_freed
  exact ⟨s, t, created, calls, session_freed fits created calls freed (le_refl 20000)⟩

/-- A request is refused if no free block has the rounded size, and otherwise gets the front of a
free block, in no later class than any block that has it. -/
theorem session_malloc (fits : HeapFits mem bytes)
    (created : tlsfCreateWithPool mem bytes s₀ = some (mem, s))
    (calls : Calls mem ⟨s, []⟩ cs t) {request : Nat} (word : request < 0x10000000000000000) :
    ∃ visits p s',
      (∀ fuel, bytes ≤ fuel → tlsfWalkPool t.heap.mem (mem + 6536) fuel = some visits) ∧
      tlsfMalloc mem request t.heap = some (p, s') ∧
      roundUp (adjusted request) ≤ adjusted request + adjusted request / 32 ∧
      (p = 0 → s' = t.heap ∧ (adjusted request = 0 ∨
        ∀ v ∈ visits, v.used = false → v.size < roundUp (adjusted request))) ∧
      (p ≠ 0 → ∃ v ∈ visits, v.used = false ∧ v.ptr = p ∧ adjusted request ≤ v.size ∧
        ∀ w ∈ visits, w.used = false → roundUp (adjusted request) ≤ w.size →
          Reaches (mappingInsert v.size).1 (mappingInsert v.size).2 (mappingInsert w.size).1
            (mappingInsert w.size).2) := by
  obtain ⟨bs, use, _, walk, _⟩ := session_blocks fits created calls
  obtain ⟨_, small, _⟩ := adjusted_sized request
  have suits : ∀ v ∈ visitsOf bs, v.used = false → roundUp (adjusted request) ≤ v.size →
      ∃ b ∈ bs, Suits (adjusted request) b ∧ b.size = v.size := by
    intro v member unused large
    obtain ⟨b, mb, free, _, size⟩ := visits_free member unused
    have b_small := (use.heap.holds.fits b mb).small
    rw [← size] at large
    exact ⟨b, mb, ⟨free, mappingSearch_reaches small (by omega) large⟩, size⟩
  rcases tlsfMalloc_cases use.heap word with ⟨call, none⟩ | ⟨b, s', _, _, best, enough, call, _⟩
  · refine ⟨visitsOf bs, 0, t.heap, walk, call, roundUp_le _,
      fun _ => ⟨rfl, none.imp_right fun none v member unused => ?_⟩,
      fun no => absurd rfl no⟩
    by_contra large
    obtain ⟨b, mb, suits, _⟩ := suits v member unused (Nat.not_lt.mp large)
    exact none b mb suits
  · obtain ⟨member, ⟨free, _⟩, least⟩ := best
    have large := (use.heap.holds.fits b member).size_of_free free
    refine ⟨visitsOf bs, b.addr + 16, s', walk, call, roundUp_le _, fun no => by omega, fun _ => ?_⟩
    have visited : Block.visit b ∈ visitsOf bs :=
      List.mem_map_of_mem (List.mem_filter.mpr ⟨member, decide_eq_true (by omega)⟩)
    refine ⟨Block.visit b,
      visited, by simp [Block.visit, free], rfl, enough, fun w mw unused fit => ?_⟩
    obtain ⟨c, mc, suits, size⟩ := suits w mw unused fit
    have order := least c mc suits
    rw [size] at order
    exact order

theorem session_malloc_small : ∃ s t, tlsfCreateWithPool 4096 20000 blank = some (4096, s) ∧
    Calls 4096 ⟨s, []⟩ [.malloc 100] t ∧
      ∃ visits p s', (∀ fuel, 20000 ≤ fuel → tlsfWalkPool t.heap.mem 10632 fuel = some visits) ∧
        tlsfMalloc 4096 200 t.heap = some (p, s') ∧
        roundUp (adjusted 200) ≤ adjusted 200 + adjusted 200 / 32 ∧
        (p = 0 → s' = t.heap ∧ (adjusted 200 = 0 ∨
          ∀ v ∈ visits, v.used = false → v.size < roundUp (adjusted 200))) ∧
        (p ≠ 0 → ∃ v ∈ visits, v.used = false ∧ v.ptr = p ∧ adjusted 200 ≤ v.size ∧
          ∀ w ∈ visits, w.used = false → roundUp (adjusted 200) ≤ w.size →
            Reaches (mappingInsert v.size).1 (mappingInsert v.size).2 (mappingInsert w.size).1
              (mappingInsert w.size).2) := by
  obtain ⟨fits, s, s', length, created, _, calls, _⟩ := small_session
  exact ⟨s, _, created, calls, session_malloc fits created calls
    (show 200 < 0x10000000000000000 by omega)⟩

end Sessions

end Algae.Mm.TlsfCheck
