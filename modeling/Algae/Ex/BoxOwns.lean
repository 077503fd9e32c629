/- Whose the memory of a box is: when the bytes that exBoxAllocate returns were free, are
   reserved from then on, and are nobody else's. -/

import Algae.Ex.BoxAlloc

set_option autoImplicit false
set_option relaxedAutoImplicit false

namespace Algae.Ex.BoxOwns

open Algae.Lib.FirstFit Algae.Sdk.Defs
open Algae.Mm.Phys Algae.Mm.PhysFit
open Algae.Mm.Page (physToVirt virtToPhys)
open Algae.Ex.Pool Algae.Ex.BoxAlloc
open Algae.Mm.PageRelease (mmAllocPage)
open Algae.Ex.Box (BoxState PtrboxType PTRBOX_ELEMENT_SIZE boxInsert exBoxAllocateOver)

/-- The addresses of `n` bytes from `start` on; they wrap around at 64 bits. -/
def bytes (start : BitVec 64) (n : Nat) : Set (BitVec 64) :=
  {a | ∃ k < n, a = start + BitVec.ofNat 64 k}

/-- A pool whose blocks lie in its own memory, apart from each other, and are as large as
what was asked for. -/
structure SizedTlsf (τ : Type) extends Tlsf τ where
  area : Set (BitVec 64)
  size : τ → Pointer → Nat
  enough : ∀ t length p, (tlsf_malloc t length).1 = some p →
    length ≤ size (tlsf_malloc t length).2 p
  inside : ∀ t, ∀ p ∈ used t, bytes p.val (size t p) ⊆ area
  apart : ∀ t, ∀ p ∈ used t, ∀ q ∈ used t, p ≠ q →
    Disjoint (bytes p.val (size t p)) (bytes q.val (size t q))
  malloc_size : ∀ t length, ∀ p ∈ used t, size (tlsf_malloc t length).2 p = size t p
  free_size : ∀ t p, ∀ q ∈ used t, q ≠ p → size (tlsf_free t p) q = size t q

/-- Memory that a caller got and has not given back: whole frames, seen through the direct
map, or some bytes of a pool block. -/
inductive Region
  | pages (i n : Nat)
  | block (start : BitVec 64) (length : Nat)

section Memory

variable {τ : Type} (tlsf : SizedTlsf τ) (kernelBase : BitVec 64)

def frameOf (a : BitVec 64) : Nat := (virtToPhys kernelBase a).toNat / PAGESIZE

def Region.bytes : Region → Set (BitVec 64)
  | .pages i n => {a | frameOf kernelBase a ∈ span i n}
  | .block start length => BoxOwns.bytes start length

def blockSize (pool : PoolState τ) (p : Pointer) : Nat := tlsf.size pool.tlsfCtx p

def Taken (frames : PhysState) (f : Nat) : Prop :=
  f < frames.highestFrameIdx ∧ testBit frames.bitmap f = true

/-- A byte that an allocation of the given type may still return. -/
def Free (type : PtrboxType) (frames : PhysState) (pool : PoolState τ) (a : BitVec 64) : Prop :=
  match type with
  | .pages =>
    frameOf kernelBase a < frames.highestFrameIdx ∧ Clear frames.bitmap (frameOf kernelBase a)
  | .heap =>
    a ∈ tlsf.area ∧ ∀ p ∈ poolUsed tlsf.toTlsf pool, a ∉ bytes p.val (blockSize tlsf pool p)
  | .any => False

def Reserved (type : PtrboxType) (frames : PhysState) (pool : PoolState τ) (a : BitVec 64) : Prop :=
  match type with
  | .pages => Taken frames (frameOf kernelBase a)
  | .heap => ∃ p ∈ poolUsed tlsf.toTlsf pool, a ∈ bytes p.val (blockSize tlsf pool p)
  | .any => False

def Region.Held (frames : PhysState) (pool : PoolState τ) : Region → Prop
  | .pages i n => ∀ f ∈ span i n, Taken frames f
  | .block start length =>
    ∃ p ∈ poolUsed tlsf.toTlsf pool, p.val = start ∧ length ≤ blockSize tlsf pool p

/-- The search for `count` frames ends in a run that goes on for all of them. -/
def FramesFit (s : PhysState) (count : Nat) : Prop :=
  ∀ i, LowestRun (Clear s.bitmap) (sought count) s.highestFrameIdx i →
    i + count ≤ s.highestFrameIdx ∧ FreeRun (Clear s.bitmap) i count

/-- The byte count can be rounded up to pages, unless no frame is free anyway, and the
search finds as many frames as it asks for. -/
def PagesFit (s : PhysState) (count : BitVec 64) : Prop :=
  (count.toNat ≤ 0xFFFFFFFFFFFFF000 ∨ ∀ f < s.highestFrameIdx, testBit s.bitmap f = true) ∧
    FramesFit s (pageCount count)

/-- All that is live is reserved, and live frames are apart from each other, from frame 0
and from the pool. -/
structure OwnInv (frames : PhysState) (pool : PoolState τ) (live : Set Region) : Prop where
  mapped : Mapped kernelBase frames
  arena : ∀ a ∈ tlsf.area, Taken frames (frameOf kernelBase a)
  held : ∀ r ∈ live, r.Held tlsf frames pool
  zero : ∀ i n, Region.pages i n ∈ live → 0 ∉ span i n
  area : ∀ i n, Region.pages i n ∈ live → ∀ a ∈ tlsf.area, frameOf kernelBase a ∉ span i n
  apart : ∀ i n j m, Region.pages i n ∈ live → Region.pages j m ∈ live →
    Region.pages i n ≠ Region.pages j m → Disjoint (span i n) (span j m)

variable {η : Type} [DecidableEq η]

def Meets (count : BitVec 64) (type : PtrboxType) (s : BoxState PhysState τ η) : Prop :=
  type = .pages → (exAllocatePool tlsf.toTlsf PTRBOX_ELEMENT_SIZE s.pool).1 ≠ none →
    PagesFit s.frames count

structure Owns (live : Set Region) (type : PtrboxType) (address : BitVec 64) (count : Nat)
    (s s' : BoxState PhysState τ η) : Prop where
  free : ∀ a ∈ bytes address count, Free tlsf kernelBase type s.frames s.pool a
  reserved : ∀ a ∈ bytes address count, Reserved tlsf kernelBase type s'.frames s'.pool a
  apart : ∀ r ∈ live, Disjoint (bytes address count) (r.bytes kernelBase)

def payload (type : PtrboxType) (count address : BitVec 64) : Region :=
  if type = .pages then .pages (frameOf kernelBase address) (pageCount count)
  else .block address count.toNat

/-- Runs of the three allocators in any order, with what is live after them, from any state
in which what is live is reserved; every call had room for what it asked for. A release is
any step that leaves the memory that stays live, frame 0 and the pool's own reserved. -/
inductive OwnRun : BoxState PhysState τ η → Set Region → Prop
  | start {s : BoxState PhysState τ η} {live : Set Region}
      (inv : OwnInv tlsf kernelBase s.frames s.pool live) : OwnRun s live
  | box {s s' : BoxState PhysState τ η} {live : Set Region} (run : OwnRun s live) {box : η}
      {count : BitVec 64} {type : PtrboxType} {elem : Pointer} {address : BitVec 64}
      (descriptor : (exAllocatePool tlsf.toTlsf PTRBOX_ELEMENT_SIZE s.pool).1 = some elem)
      (done : exBoxAllocateOver tlsf.toTlsf (mmAllocPage kernelBase) (some box) count type true s =
        (.success, some address, s')) (meets : Meets tlsf count type s) :
      OwnRun s' (insert (payload kernelBase type count address)
        (insert (.block elem.val PTRBOX_ELEMENT_SIZE) live))
  | refused {s : BoxState PhysState τ η} {live : Set Region} (run : OwnRun s live) (box : Option η)
      (count : BitVec 64) (type : PtrboxType) (result : Bool)
      (failed : (exBoxAllocateOver tlsf.toTlsf (mmAllocPage kernelBase) box count type result s).1 ≠
      .success) :
      OwnRun (exBoxAllocateOver tlsf.toTlsf (mmAllocPage kernelBase) box count type
        result s).2.2 live
  | frames {s : BoxState PhysState τ η} {live : Set Region} (run : OwnRun s live) {count : Nat}
      (word : count < 0x10000000000000000) (nonzero : (mmAllocFrame s.frames count).1 ≠ 0)
      (fits : FramesFit s.frames count) :
      OwnRun { s with frames := (mmAllocFrame s.frames count).2 }
        (insert (.pages ((mmAllocFrame s.frames count).1 / PAGESIZE) count) live)
  | noFrames {s : BoxState PhysState τ η} {live : Set Region} (run : OwnRun s live) {count : Nat}
      (word : count < 0x10000000000000000) (zero : (mmAllocFrame s.frames count).1 = 0) :
      OwnRun { s with frames := (mmAllocFrame s.frames count).2 } live
  | block {s : BoxState PhysState τ η} {live : Set Region} (run : OwnRun s live) {length : Nat}
      {p : Pointer} (some : (exAllocatePool tlsf.toTlsf length s.pool).1 = some p) :
      OwnRun { s with pool := (exAllocatePool tlsf.toTlsf length s.pool).2 }
        (insert (.block p.val length) live)
  | noBlock {s : BoxState PhysState τ η} {live : Set Region} (run : OwnRun s live) {length : Nat}
      (none : (exAllocatePool tlsf.toTlsf length s.pool).1 = none) :
      OwnRun { s with pool := (exAllocatePool tlsf.toTlsf length s.pool).2 } live
  | release {s s' : BoxState PhysState τ η} {live live' : Set Region} (run : OwnRun s live)
      (fewer : live' ⊆ live) (held : ∀ r ∈ live', r.Held tlsf s'.frames s'.pool)
      (mapped : Mapped kernelBase s'.frames)
      (arena : ∀ a ∈ tlsf.area, Taken s'.frames (frameOf kernelBase a)) : OwnRun s' live'

structure FramesKeep (frames frames' : PhysState) : Prop where
  bound : frames'.highestFrameIdx = frames.highestFrameIdx
  used : ∀ f, testBit frames.bitmap f = true → testBit frames'.bitmap f = true

def PoolKeeps (pool pool' : PoolState τ) : Prop :=
  ∀ p ∈ poolUsed tlsf.toTlsf pool,
    p ∈ poolUsed tlsf.toTlsf pool' ∧ blockSize tlsf pool' p = blockSize tlsf pool p

end Memory

section Steps

variable {τ : Type} {tlsf : SizedTlsf τ} {kernelBase : BitVec 64} {frames frames' : PhysState}
  {pool pool' pool'' : PoolState τ} {live : Set Region}

theorem FramesKeep.refl (frames : PhysState) : FramesKeep frames frames := ⟨rfl, fun _ used => used⟩

theorem FramesKeep.taken (keep : FramesKeep frames frames') {f : Nat} (taken : Taken frames f) :
    Taken frames' f :=
  ⟨keep.bound ▸ taken.1, keep.used f taken.2⟩

private theorem mmAllocFrame_keeps (mapped : Mapped kernelBase frames) {count : Nat}
    (word : count < 0x10000000000000000) : FramesKeep frames (mmAllocFrame frames count).2 :=
  ⟨mmAllocFrame_bound mapped word, fun _ used => mmAllocFrame_kept mapped word used⟩

theorem PoolKeeps.refl : PoolKeeps tlsf pool pool := fun _ used => ⟨used, rfl⟩

theorem PoolKeeps.trans (first : PoolKeeps tlsf pool pool') (second : PoolKeeps tlsf pool' pool'') :
    PoolKeeps tlsf pool pool'' := by
  intro p used
  obtain ⟨still, same⟩ := first p used
  obtain ⟨after, same'⟩ := second p still
  exact ⟨after, same'.trans same⟩

private theorem exAllocatePool_keeps (tlsf : SizedTlsf τ) (length : Nat) (pool : PoolState τ) :
    PoolKeeps tlsf pool (exAllocatePool tlsf.toTlsf length pool).2 := by
  intro p used
  refine ⟨?_, ?_⟩
  · cases got : (exAllocatePool tlsf.toTlsf length pool).1 with
    | none =>
      rw [exAllocatePool_refused tlsf.toTlsf got]
      exact used
    | some q =>
      rw [(exAllocatePool_taken tlsf.toTlsf got).2]
      exact Set.mem_insert_of_mem _ used
  · rw [exAllocatePool]
    split
    · rfl
    · exact tlsf.malloc_size _ _ p used

private theorem exAllocatePool_enough {length : Nat} {p : Pointer}
    (done : (exAllocatePool tlsf.toTlsf length pool).1 = some p) :
    length ≤ blockSize tlsf (exAllocatePool tlsf.toTlsf length pool).2 p := by
  cases init : pool.isInit with
  | false =>
    simp only [exAllocatePool, init, Bool.not_false, if_true] at done
    cases done
  | true =>
    simp only [exAllocatePool, init, Bool.not_true, Bool.false_eq_true, if_false] at done ⊢
    exact tlsf.enough _ _ p done

private theorem exAllocatePool_block {length : Nat} {p : Pointer}
    (done : exAllocatePool tlsf.toTlsf length pool = (some p, pool')) : PoolKeeps tlsf pool pool' ∧
      p ∈ poolUsed tlsf.toTlsf pool' ∧ length ≤ blockSize tlsf pool' p := by
  have keeps := exAllocatePool_keeps tlsf length pool
  have enough := exAllocatePool_enough (congrArg Prod.fst done)
  rw [done] at keeps enough
  refine ⟨keeps, ?_, enough⟩
  rw [(poolUsed_taken tlsf.toTlsf done).2]
  exact Set.mem_insert _ _

theorem PoolKeeps.free (keeps : PoolKeeps tlsf pool pool') {elem : Pointer}
    (new : elem ∉ poolUsed tlsf.toTlsf pool) :
    PoolKeeps tlsf pool (exFreePool tlsf.toTlsf elem pool') := by
  intro p used
  obtain ⟨still, same⟩ := keeps p used
  have other : p ≠ elem := by
    rintro rfl
    exact new used
  refine ⟨?_, (tlsf.free_size _ _ p still other).trans same⟩
  rw [poolUsed_exFreePool]
  exact ⟨still, other⟩

theorem Region.Held.mono {r : Region} (held : r.Held tlsf frames pool)
    (keep : FramesKeep frames frames')
    (keeps : PoolKeeps tlsf pool pool') : r.Held tlsf frames' pool' := by
  cases r with
  | pages i n => exact fun f inside => keep.taken (held f inside)
  | block start length =>
    obtain ⟨p, used, rfl, enough⟩ := held
    obtain ⟨still, same⟩ := keeps p used
    exact ⟨p, still, rfl, same ▸ enough⟩

theorem OwnInv.mono (inv : OwnInv tlsf kernelBase frames pool live)
    (keep : FramesKeep frames frames')
    (keeps : PoolKeeps tlsf pool pool') : OwnInv tlsf kernelBase frames' pool' live where
  mapped := inv.mapped.more keep.bound keep.used
  arena := fun a member => keep.taken (inv.arena a member)
  held := fun r member => (inv.held r member).mono keep keeps
  zero := inv.zero
  area := inv.area
  apart := inv.apart

theorem OwnInv.block (inv : OwnInv tlsf kernelBase frames pool live) {p : Pointer} {length : Nat}
    (used : p ∈ poolUsed tlsf.toTlsf pool) (enough : length ≤ blockSize tlsf pool p) :
    OwnInv tlsf kernelBase frames pool (insert (.block p.val length) live) where
  mapped := inv.mapped
  arena := inv.arena
  held := by
    intro r member
    rcases Set.mem_insert_iff.mp member with rfl | old
    · exact ⟨p, used, rfl, enough⟩
    · exact inv.held r old
  zero := fun i n member =>
    inv.zero i n (Set.mem_of_mem_insert_of_ne member fun same => by cases same)
  area := fun i n member =>
    inv.area i n (Set.mem_of_mem_insert_of_ne member fun same => by cases same)
  apart := fun i n j m member member' => inv.apart i n j m
    (Set.mem_of_mem_insert_of_ne member fun same => by cases same)
    (Set.mem_of_mem_insert_of_ne member' fun same => by cases same)

theorem OwnInv.pages (inv : OwnInv tlsf kernelBase frames pool live)
    (keep : FramesKeep frames frames') {i n : Nat} (clear : FreeRun (Clear frames.bitmap) i n)
    (taken : ∀ f ∈ span i n, Taken frames' f) :
    OwnInv tlsf kernelBase frames' pool (insert (.pages i n) live) := by
  have others : ∀ f, Taken frames f → f ∉ span i n := by
    intro f used inside
    have free := clear f inside.1 inside.2
    rw [Clear, used.2] at free
    cases free
  have apart : ∀ j m, Region.pages j m ∈ live → Disjoint (span i n) (span j m) := by
    intro j m member
    refine Set.disjoint_right.mpr fun f inside => others f ?_
    exact inv.held _ member f inside
  have kept := inv.mono keep PoolKeeps.refl
  refine ⟨kept.mapped, kept.arena, ?_, ?_, ?_, ?_⟩
  · intro r member
    rcases Set.mem_insert_iff.mp member with rfl | old
    · exact taken
    · exact kept.held r old
  · intro j m member
    rcases Set.mem_insert_iff.mp member with new | old
    · obtain ⟨rfl, rfl⟩ := Region.pages.inj new
      intro inside
      have free := clear 0 inside.1 inside.2
      rw [Clear, inv.mapped.zero] at free
      cases free
    · exact inv.zero j m old
  · intro j m member a inside
    rcases Set.mem_insert_iff.mp member with new | old
    · obtain ⟨rfl, rfl⟩ := Region.pages.inj new
      exact others _ (inv.arena a inside)
    · exact inv.area j m old a inside
  · intro j m j' m' member member' differ
    rcases Set.mem_insert_iff.mp member with new | old
    · rcases Set.mem_insert_iff.mp member' with new' | old'
      · exact absurd (new.trans new'.symm) differ
      · obtain ⟨rfl, rfl⟩ := Region.pages.inj new
        exact apart j' m' old'
    · rcases Set.mem_insert_iff.mp member' with new' | old'
      · obtain ⟨rfl, rfl⟩ := Region.pages.inj new'
        exact (apart j m old).symm
      · exact inv.apart j m j' m' old old' differ

private theorem frames_given (mapped : Mapped kernelBase frames) {i count : Nat}
    (lowest : LowestRun (Clear frames.bitmap) (sought count) frames.highestFrameIdx i)
    (fits : FramesFit frames count) (bound : frames'.highestFrameIdx = frames.highestFrameIdx)
    (bitmap : frames'.bitmap = setFrames frames.bitmap i ((i + count) % 0x10000000000000000 - i)) :
    FreeRun (Clear frames.bitmap) i count ∧ ∀ f ∈ span i count, Taken frames' f := by
  obtain ⟨inside, run⟩ := fits i lowest
  have limit := mapped.bound
  have length : (i + count) % 0x10000000000000000 - i = count := by omega
  refine ⟨run, fun f member => ?_⟩
  have range := mem_span.mp member
  refine ⟨by omega, ?_⟩
  rw [bitmap, length, testBit_setFrames, decide_eq_true range, Bool.true_or]

private theorem framesFit_small {count : Nat} (small : count ≤ 0x80000000) :
    FramesFit frames count := by
  intro i lowest
  have fits := lowest.fits
  have run := lowest.run
  rw [sought_of_le small] at fits run
  exact ⟨by omega, run.shorten (Nat.le_succ count)⟩

private theorem pageCount_eq {count : BitVec 64} (small : count.toNat ≤ 0xFFFFFFFFFFFFF000) :
    pageCount count = (count.toNat + 4095) / 4096 := by
  rw [pageCount, alignUp_rounded (by omega), PAGESIZE, Nat.mul_div_cancel _ (by norm_num)]

private theorem pageCount_wraps {count : BitVec 64} (large : 0xFFFFFFFFFFFFF000 < count.toNat) :
    pageCount count = 0 := by
  have word : 2 ^ 64 = 0x10000000000000000 := rfl
  have below := count.isLt
  rw [word] at below
  rw [pageCount, PAGESIZE, alignUp_page (by norm_num), word]
  omega

private theorem frameOf_page (mapped : Mapped kernelBase frames) {i k : Nat}
    (inside : i * PAGESIZE + k ≤ frames.highestFrameIdx * PAGESIZE) :
    frameOf kernelBase
      (physToVirt kernelBase (BitVec.ofNat 64 (i * PAGESIZE)) + BitVec.ofNat 64 k) =
      i + k / PAGESIZE := by
  have offset : virtToPhys kernelBase
      (physToVirt kernelBase (BitVec.ofNat 64 (i * PAGESIZE)) + BitVec.ofNat 64 k) =
      BitVec.ofNat 64 (i * PAGESIZE + k) := by
    rw [virtToPhys, physToVirt, BitVec.ofNat_add, BitVec.add_assoc, BitVec.add_comm kernelBase,
      ← BitVec.add_assoc, BitVec.add_sub_cancel]
  have base := mapped.base
  have fits := mapped.fits
  have small : i * PAGESIZE + k < 0x10000000000000000 := by omega
  rw [frameOf, offset, BitVec.toNat_ofNat]
  change (i * PAGESIZE + k) % 0x10000000000000000 / PAGESIZE = i + k / PAGESIZE
  rw [Nat.mod_eq_of_lt small, Nat.add_comm, Nat.add_mul_div_right _ _ page_pos, Nat.add_comm]

private theorem frameOf_nth (mapped : Mapped kernelBase frames) {i j : Nat}
    (inside : i + j ≤ frames.highestFrameIdx) :
    frameOf kernelBase (physToVirt kernelBase (BitVec.ofNat 64 (i * PAGESIZE)) +
      BitVec.ofNat 64 (j * PAGESIZE)) = i + j := by
  have bound : i * PAGESIZE + j * PAGESIZE ≤ frames.highestFrameIdx * PAGESIZE := by
    rw [← Nat.add_mul]
    exact Nat.mul_le_mul_right PAGESIZE inside
  rw [frameOf_page mapped bound, Nat.mul_div_cancel _ page_pos]

private theorem frameOf_start (mapped : Mapped kernelBase frames) {i : Nat}
    (inside : i ≤ frames.highestFrameIdx) :
    frameOf kernelBase (physToVirt kernelBase (BitVec.ofNat 64 (i * PAGESIZE))) = i := by
  have frame := @frameOf_nth _ _ mapped i 0 inside
  rwa [Nat.zero_mul, BitVec.add_zero] at frame

variable {η : Type} [DecidableEq η] {s s' : BoxState PhysState τ η} {box : η} {count : BitVec 64}
  {type : PtrboxType} {res : NtStatus × Option (BitVec 64) × BoxState PhysState τ η}

private theorem outcome_keeps (mapped : Mapped kernelBase s.frames)
    (outcome : Outcome (mmAllocPage kernelBase) tlsf.toTlsf box count type s res) :
    FramesKeep s.frames res.2.2.frames ∧ PoolKeeps tlsf s.pool res.2.2.pool := by
  have pages : ∀ {ptr : BitVec 64} {frames : PhysState},
      mmAllocPage kernelBase (pageCount count) s.frames = (ptr, frames) →
        FramesKeep s.frames frames := by
    intro ptr frames call
    have left : frames = (mmAllocFrame s.frames (pageCount count)).2 := by
      rw [← @mmAllocPage_frames kernelBase, call]
    exact left ▸ mmAllocFrame_keeps mapped (pageCount_word count)
  have taken : ∀ {elem : Option Pointer} {pool : PoolState τ},
      exAllocatePool tlsf.toTlsf PTRBOX_ELEMENT_SIZE s.pool = (elem, pool) →
      PoolKeeps tlsf s.pool pool := by
    intro elem pool call
    have keeps := exAllocatePool_keeps tlsf PTRBOX_ELEMENT_SIZE s.pool
    rwa [call] at keeps
  have second : ∀ {elem : Pointer} {ptr : Option Pointer} {pool pool' : PoolState τ},
      exAllocatePool tlsf.toTlsf PTRBOX_ELEMENT_SIZE s.pool = (some elem, pool) →
      exAllocatePool tlsf.toTlsf count.toNat pool = (ptr, pool') → PoolKeeps tlsf s.pool pool' := by
    intro elem ptr pool pool' call call'
    have keeps := exAllocatePool_keeps tlsf count.toNat pool
    rw [call'] at keeps
    exact (taken call).trans keeps
  cases outcome with
  | argument => exact ⟨FramesKeep.refl _, PoolKeeps.refl⟩
  | descriptor none => exact ⟨FramesKeep.refl _, taken none⟩
  | badType _ some => exact ⟨FramesKeep.refl _, (taken some).free (poolUsed_returned some rfl).1⟩
  | noPages _ some none => exact ⟨pages none, (taken some).free (poolUsed_returned some rfl).1⟩
  | noBlock _ some none =>
    exact ⟨FramesKeep.refl _, (second some none).free (poolUsed_returned some rfl).1⟩
  | pages _ some block => exact ⟨pages block, taken some⟩
  | heap _ some block => exact ⟨FramesKeep.refl _, second some block⟩

variable {address : BitVec 64}

private theorem pages_done (mapped : Mapped kernelBase s.frames)
    (outcome : Outcome (mmAllocPage kernelBase) tlsf.toTlsf box count .pages s res)
    (done : res = (.success, some address, s')) :
    ∃ i, LowestRun (Clear s.frames.bitmap) (sought (pageCount count)) s.frames.highestFrameIdx i ∧
      address = physToVirt kernelBase (BitVec.ofNat 64 (i * PAGESIZE)) ∧
      s'.frames.highestFrameIdx = s.frames.highestFrameIdx ∧
      s'.frames.bitmap =
        setFrames s.frames.bitmap i ((i + pageCount count) % 0x10000000000000000 - i) ∧
      (exAllocatePool tlsf.toTlsf PTRBOX_ELEMENT_SIZE s.pool).1 ≠ none ∧
      s'.pool = (exAllocatePool tlsf.toTlsf PTRBOX_ELEMENT_SIZE s.pool).2 := by
  have word := pageCount_word count
  cases outcome with
  | argument bad => exact absurd (congrArg Prod.fst done) bad
  | descriptor => cases done
  | badType other => cases other
  | noPages => cases done
  | noBlock heap => cases heap
  | heap heap => cases heap
  | pages _ some block nonzero =>
    simp only [boxInsert, Prod.mk.injEq, Option.some.injEq, true_and] at done
    obtain ⟨rfl, rfl⟩ := done
    have bound := mmAllocFrame_bound mapped word
    rw [← @mmAllocPage_frames kernelBase, block] at bound
    rcases mmAllocPage_cases mapped word with ⟨i, lowest, ptr, _, bitmap⟩ | ⟨_, zero, _⟩
    · rw [block] at ptr bitmap
      rw [some]
      exact ⟨i, lowest, ptr, bound, bitmap, Option.some_ne_none _, rfl⟩
    · rw [block] at zero
      exact absurd zero nonzero

private theorem heap_done
    (outcome : Outcome (mmAllocPage kernelBase) tlsf.toTlsf box count .heap s res)
    (done : res = (.success, some address, s')) :
    ∃ p : Pointer, p.val = address ∧ s'.frames = s.frames ∧
      exAllocatePool tlsf.toTlsf count.toNat
        (exAllocatePool tlsf.toTlsf PTRBOX_ELEMENT_SIZE s.pool).2 =
        (some p, s'.pool) := by
  cases outcome with
  | argument bad => exact absurd (congrArg Prod.fst done) bad
  | descriptor => cases done
  | badType other => cases other
  | noPages pages => cases pages
  | noBlock => cases done
  | pages pages => cases pages
  | heap _ some block =>
    simp only [boxInsert, Prod.mk.injEq, Option.some.injEq, true_and] at done
    obtain ⟨rfl, rfl⟩ := done
    exact ⟨_, rfl, rfl, by rw [some]; exact block⟩

private theorem any_fails
    (outcome : Outcome (mmAllocPage kernelBase) tlsf.toTlsf box count .any s res)
    (done : res = (.success, some address, s')) : False := by
  cases outcome with
  | argument bad => exact absurd (congrArg Prod.fst done) bad
  | descriptor => cases done
  | badType => cases done
  | noPages pages => cases pages
  | noBlock heap => cases heap
  | pages pages => cases pages
  | heap heap => cases heap

private theorem bytes_mono {start : BitVec 64} {m n : Nat} (le : m ≤ n) :
    bytes start m ⊆ bytes start n := by
  rintro a ⟨k, below, rfl⟩
  exact ⟨k, by omega, rfl⟩

omit [DecidableEq η] in
private theorem pages_owns (inv : OwnInv tlsf kernelBase s.frames s.pool live) {i : Nat}
    (lowest : LowestRun (Clear s.frames.bitmap) (sought (pageCount count))
    s.frames.highestFrameIdx i)
    (bound : s'.frames.highestFrameIdx = s.frames.highestFrameIdx)
    (bitmap : s'.frames.bitmap =
      setFrames s.frames.bitmap i ((i + pageCount count) % 0x10000000000000000 - i))
    (fits : PagesFit s.frames count) : Owns tlsf kernelBase live .pages
      (physToVirt kernelBase (BitVec.ofNat 64 (i * PAGESIZE))) count.toNat s s' := by
  obtain ⟨run, taken⟩ := frames_given inv.mapped lowest fits.2 bound bitmap
  obtain ⟨inside, _⟩ := fits.2 i lowest
  have small : count.toNat ≤ 0xFFFFFFFFFFFFF000 := by
    refine fits.1.resolve_right fun full => ?_
    have first := lowest.fits
    have positive := sought_pos (pageCount count)
    have clear := lowest.run i le_rfl (by omega)
    rw [Clear, full i (by omega)] at clear
    cases clear
  have pages := pageCount_eq small
  have frame : ∀ a ∈ bytes (physToVirt kernelBase (BitVec.ofNat 64 (i * PAGESIZE))) count.toNat,
      frameOf kernelBase a ∈ span i (pageCount count) := by
    rintro a ⟨k, below, rfl⟩
    have page : k / PAGESIZE < pageCount count := by
      rw [pages, PAGESIZE]
      omega
    have last : i * PAGESIZE + k ≤ s.frames.highestFrameIdx * PAGESIZE := by
      rw [pages] at inside
      rw [PAGESIZE]
      omega
    rw [frameOf_page inv.mapped last]
    exact mem_span.mpr ⟨Nat.le_add_right _ _, Nat.add_lt_add_left page i⟩
  have used : ∀ a ∈ bytes (physToVirt kernelBase (BitVec.ofNat 64 (i * PAGESIZE))) count.toNat,
      ¬Taken s.frames (frameOf kernelBase a) := by
    intro a member before
    have clear := run _ (frame a member).1 (frame a member).2
    rw [Clear, before.2] at clear
    cases clear
  refine ⟨?_, ?_, ?_⟩
  · intro a member
    have range := mem_span.mp (frame a member)
    exact ⟨by omega, run _ range.1 range.2⟩
  · exact fun a member => taken _ (frame a member)
  · intro r member
    have held := inv.held r member
    refine Set.disjoint_left.mpr fun a here there => used a here ?_
    cases r with
    | pages j m => exact held _ there
    | block start length =>
      obtain ⟨p, live, rfl, enough⟩ := held
      exact inv.arena a (tlsf.inside _ p live (bytes_mono enough there))

omit [DecidableEq η] in
private theorem heap_owns (inv : OwnInv tlsf kernelBase s.frames s.pool live) {p : Pointer}
    {length : Nat} (first : PoolKeeps tlsf s.pool pool)
    (done : exAllocatePool tlsf.toTlsf length pool = (some p, s'.pool)) :
    Owns tlsf kernelBase live .heap p.val length s s' := by
  obtain ⟨new, _⟩ := poolUsed_taken tlsf.toTlsf done
  obtain ⟨keeps, here, enough⟩ := exAllocatePool_block done
  have all := first.trans keeps
  have apart : ∀ q ∈ poolUsed tlsf.toTlsf s.pool,
      Disjoint (bytes p.val length) (bytes q.val (blockSize tlsf s.pool q)) := by
    intro q old
    obtain ⟨still, same⟩ := all q old
    have differ : p ≠ q := by
      rintro rfl
      exact new (first p old).1
    have disjoint := tlsf.apart _ p here q still differ
    rw [← same]
    exact disjoint.mono_left (bytes_mono enough)
  refine ⟨?_, ?_, ?_⟩
  · intro a member
    refine ⟨tlsf.inside _ p here (bytes_mono enough member), fun q old => ?_⟩
    exact Set.disjoint_left.mp (apart q old) member
  · exact fun a member => ⟨p, here, bytes_mono enough member⟩
  · intro r member
    have held := inv.held r member
    cases r with
    | pages j m =>
      refine Set.disjoint_left.mpr fun a here' there => ?_
      exact inv.area j m member a (tlsf.inside _ p here (bytes_mono enough here')) there
    | block start length' =>
      obtain ⟨q, old, rfl, long⟩ := held
      exact (apart q old).mono_right (bytes_mono long)

theorem OwnInv.done (inv : OwnInv tlsf kernelBase s.frames s.pool live) {elem : Pointer}
    (descriptor : (exAllocatePool tlsf.toTlsf PTRBOX_ELEMENT_SIZE s.pool).1 = some elem)
    (outcome : Outcome (mmAllocPage kernelBase) tlsf.toTlsf box count type s res)
    (done : res = (.success, some address, s')) (meets : Meets tlsf count type s) :
    OwnInv tlsf kernelBase s'.frames s'.pool (insert (payload kernelBase type count address)
      (insert (.block elem.val PTRBOX_ELEMENT_SIZE) live)) := by
  obtain ⟨keeps, used, enough⟩ := exAllocatePool_block (Prod.ext descriptor rfl)
  have first := (inv.mono (FramesKeep.refl _) keeps).block used enough
  cases type with
  | pages =>
    obtain ⟨i, lowest, rfl, bound, bitmap, got, pool⟩ := pages_done inv.mapped outcome done
    obtain ⟨_, fits⟩ := meets rfl got
    obtain ⟨run, taken⟩ := frames_given inv.mapped lowest fits bound bitmap
    obtain ⟨inside, _⟩ := fits i lowest
    have keep : FramesKeep s.frames s'.frames := by
      refine ⟨bound, fun f old => ?_⟩
      rw [bitmap, testBit_setFrames, old, Bool.or_true]
    rw [payload, if_pos rfl, frameOf_start inv.mapped (by omega), pool]
    exact first.pages keep run taken
  | heap =>
    obtain ⟨p, rfl, frames, block⟩ := heap_done outcome done
    obtain ⟨later, here, long⟩ := exAllocatePool_block block
    rw [payload, if_neg (by decide), frames]
    exact (first.mono (FramesKeep.refl _) later).block here long
  | any => exact (any_fails outcome done).elim

omit [DecidableEq η] in
private theorem ownInv_empty (mapped : Mapped kernelBase frames)
    (arena : ∀ a ∈ tlsf.area, Taken frames (frameOf kernelBase a)) :
    OwnInv tlsf kernelBase frames pool ∅ := by
  refine ⟨mapped, arena, ?_, ?_, ?_, ?_⟩
  · exact fun _ member => absurd member (Set.notMem_empty _)
  · exact fun _ _ member => absurd member (Set.notMem_empty _)
  · exact fun _ _ member => absurd member (Set.notMem_empty _)
  · exact fun _ _ _ _ member => absurd member (Set.notMem_empty _)

private theorem own_run_inv (run : OwnRun tlsf kernelBase s live) :
    OwnInv tlsf kernelBase s.frames s.pool live := by
  induction run with
  | start inv => exact inv
  | @box s s' live _ box count type elem address descriptor done meets ih =>
    have outcome := exBoxAllocate_outcome (mmAllocPage kernelBase) tlsf.toTlsf box count type true s
    exact ih.done descriptor outcome done meets
  | @refused s live _ box count type result failed ih =>
    cases box with
    | none => exact ih
    | some box =>
      have outcome :=
        exBoxAllocate_outcome (mmAllocPage kernelBase) tlsf.toTlsf box count type result s
      obtain ⟨keep, keeps⟩ := outcome_keeps ih.mapped outcome
      exact ih.mono keep keeps
  | @frames s live _ count word nonzero fits ih =>
    have keep := mmAllocFrame_keeps ih.mapped word
    rcases mmAllocFrame_cases ih.mapped word with ⟨i, _, lowest, ret, bitmap⟩ | ⟨_, zero, _⟩
    · obtain ⟨run, taken⟩ := frames_given ih.mapped lowest fits keep.bound bitmap
      rw [ret, Nat.mul_div_cancel _ page_pos]
      exact ih.pages keep run taken
    · exact absurd zero nonzero
  | noFrames _ word _ ih => exact ih.mono (mmAllocFrame_keeps ih.mapped word) PoolKeeps.refl
  | @block s live _ length p some ih =>
    obtain ⟨keeps, here, enough⟩ := exAllocatePool_block (Prod.ext some rfl)
    exact (ih.mono (FramesKeep.refl _) keeps).block here enough
  | noBlock _ _ ih => exact ih.mono (FramesKeep.refl _) (exAllocatePool_keeps _ _ _)
  | release _ fewer held mapped arena ih =>
    exact ⟨mapped, arena, held, fun i n member => ih.zero i n (fewer member),
      fun i n member => ih.area i n (fewer member),
      fun i n j m member member' => ih.apart i n j m (fewer member) (fewer member')⟩

theorem OwnRun.freeBlock (run : OwnRun tlsf kernelBase s live) (p : Pointer) :
    OwnRun tlsf kernelBase { s with pool := exFreePool tlsf.toTlsf p s.pool }
      {r ∈ live | ∀ length, r ≠ .block p.val length} := by
  have inv := own_run_inv run
  refine run.release (fun r member => member.1) ?_ inv.mapped inv.arena
  rintro r ⟨member, other⟩
  have held := inv.held r member
  cases r with
  | pages i n => exact held
  | block start length =>
    obtain ⟨q, used, rfl, enough⟩ := held
    have differ : q ≠ p := by
      rintro rfl
      exact other length rfl
    refine ⟨q, ?_, rfl, ?_⟩
    · rw [poolUsed_exFreePool]
      exact ⟨used, differ⟩
    · rwa [blockSize, exFreePool, tlsf.free_size _ _ q used differ]

private theorem OwnRun.freePages (run : OwnRun tlsf kernelBase s live) {i n : Nat}
    (member : .pages i n ∈ live) (positive : 0 < n) : OwnRun tlsf kernelBase
      { s with frames := mmFreeFrame s.frames (i * PAGESIZE) n } (live \ {.pages i n}) := by
  have inv := own_run_inv run
  have last := (inv.held _ member (i + n - 1) (mem_span.mpr ⟨by omega, by omega⟩)).1
  have limit := inv.mapped.bound
  have fits : (i + n + 1) * PAGESIZE ≤ 0x10000000000000000 := by
    rw [PAGESIZE]
    omega
  have kept : ∀ f, f ∉ span i n → Taken s.frames f →
      Taken (mmFreeFrame s.frames (i * PAGESIZE) n) f := by
    intro f outside taken
    refine ⟨taken.1, ?_⟩
    rw [testBit_mmFreeFrame s.frames i n f fits,
      decide_eq_true (show ¬(i ≤ f ∧ f < i + n) from outside)]
    exact taken.2
  refine run.release (fun r both => both.1) ?_ ?_ fun a inside =>
    kept _ (inv.area i n member a inside)
    (inv.arena a inside)
  · rintro r ⟨old, other⟩
    have held := inv.held r old
    cases r with
    | pages j m =>
      have apart := inv.apart j m i n old member other
      exact fun f inside => kept f (Set.disjoint_left.mp apart inside) (held f inside)
    | block start length => exact held
  · have first : 0 < (mmFreeFrame s.frames (i * PAGESIZE) n).highestFrameIdx := by
      change 0 < s.frames.highestFrameIdx
      omega
    exact ⟨(kept 0 (inv.zero i n member) ⟨first, inv.mapped.zero⟩).2, inv.mapped.base,
      inv.mapped.fits⟩

private theorem pages_succeed (mapped : Mapped kernelBase s.frames) (box : η) (positive : count ≠ 0)
    (descriptor : (exAllocatePool tlsf.toTlsf PTRBOX_ELEMENT_SIZE s.pool).1 ≠ none) {i : Nat}
    (lowest : LowestRun (Clear s.frames.bitmap) (sought (pageCount count))
    s.frames.highestFrameIdx i) :
    ∃ s', exBoxAllocateOver tlsf.toTlsf (mmAllocPage kernelBase) (some box) count .pages true s =
        (.success, some (physToVirt kernelBase (BitVec.ofNat 64 (i * PAGESIZE))), s') ∧
      s'.frames.bitmap =
        setFrames s.frames.bitmap i ((i + pageCount count) % 0x10000000000000000 - i) := by
  rcases mmAllocPage_cases mapped
    (pageCount_word count) with ⟨j, first, ptr, nonzero, bitmap⟩ | ⟨none, _⟩
  · obtain rfl := lowest.unique first
    obtain ⟨elem, got⟩ := Option.ne_none_iff_exists'.mp descriptor
    generalize taken : exAllocatePool tlsf.toTlsf PTRBOX_ELEMENT_SIZE s.pool = res at got
    obtain ⟨_, pool⟩ := res
    subst got
    generalize call :
      mmAllocPage kernelBase (pageCount count) s.frames = block at ptr nonzero bitmap
    obtain ⟨address, frames⟩ := block
    subst ptr
    rw [pageCount] at call
    rw [exBoxAllocateOver]
    simp only [if_neg positive, taken, call, if_neg nonzero]
    exact ⟨_, rfl, bitmap⟩
  · exact absurd lowest (none i)

omit [DecidableEq η] in
private theorem pages_fit_of_free (mapped : Mapped kernelBase s.frames) {i : Nat}
    (start : i < s.frames.highestFrameIdx) (small : count.toNat ≤ 0xFFFFFFFFFFFFF000)
    (free : ∀ a ∈ bytes (physToVirt kernelBase (BitVec.ofNat 64 (i * PAGESIZE))) count.toNat,
      Free tlsf kernelBase .pages s.frames s.pool a) (j : Nat) (inside : j < pageCount count) :
    i + j < s.frames.highestFrameIdx ∧ Clear s.frames.bitmap (i + j) := by
  have pages := pageCount_eq small
  have reached : i + j ≤ s.frames.highestFrameIdx := by
    induction j with
    | zero => omega
    | succ j ih =>
      have before := free (physToVirt kernelBase (BitVec.ofNat 64 (i * PAGESIZE)) +
        BitVec.ofNat 64 (j * PAGESIZE)) ⟨j * PAGESIZE, by rw [PAGESIZE]; omega, rfl⟩
      have here := before.1
      rw [frameOf_nth mapped (ih (by omega))] at here
      omega
  have here := free (physToVirt kernelBase (BitVec.ofNat 64 (i * PAGESIZE)) +
    BitVec.ofNat 64 (j * PAGESIZE)) ⟨j * PAGESIZE, by rw [PAGESIZE]; omega, rfl⟩
  simp only [Free, frameOf_nth mapped reached] at here
  exact here

private theorem meets_of_owns (mapped : Mapped kernelBase s.frames) (box : η) (positive : count ≠ 0)
    (owns : ∀ address s', exBoxAllocateOver tlsf.toTlsf (mmAllocPage kernelBase)
    (some box) count type true s =
      (.success, some address, s') → Owns tlsf kernelBase live type address count.toNat s s') :
    Meets tlsf count type s := by
  rintro rfl descriptor
  have nonzero : 0 < count.toNat := by
    rw [Nat.pos_iff_ne_zero]
    exact fun zero => positive (BitVec.eq_of_toNat_eq zero)
  by_cases small : count.toNat ≤ 0xFFFFFFFFFFFFF000
  · refine ⟨Or.inl small, fun i lowest => ?_⟩
    obtain ⟨s', done, _⟩ := pages_succeed mapped box positive descriptor lowest
    have start : i < s.frames.highestFrameIdx := by
      have fits := lowest.fits
      have long := sought_pos (pageCount count)
      omega
    have free := pages_fit_of_free mapped start small (owns _ _ done).free
    have pages := pageCount_eq small
    have last := free (pageCount count - 1) (by omega)
    refine ⟨by omega, fun f low high => ?_⟩
    have here := (free (f - i) (by omega)).2
    rwa [Nat.add_sub_cancel' low] at here
  · -- no page is asked for, so that one free frame is found and stays free
    have none := pageCount_wraps (Nat.lt_of_not_le small)
    have full : ∀ f < s.frames.highestFrameIdx, testBit s.frames.bitmap f = true := by
      intro f below
      by_contra clear
      have one : FreeRun (Clear s.frames.bitmap) f 1 := by
        intro j low high
        obtain rfl : j = f := by omega
        exact Bool.eq_false_of_not_eq_true clear
      obtain ⟨i, _, lowest⟩ :=
        LowestRun.exists_le (show f + 1 ≤ s.frames.highestFrameIdx by omega) one
      have found :
          LowestRun (Clear s.frames.bitmap) (sought (pageCount count))
            s.frames.highestFrameIdx i := by
        rw [none]
        exact lowest
      obtain ⟨s', done, bitmap⟩ := pages_succeed mapped box positive descriptor found
      have limit := mapped.bound
      have fits := lowest.fits
      have unset : (i + pageCount count) % 0x10000000000000000 - i = 0 := by omega
      have reserved := (owns _ _ done).reserved _ ⟨0, nonzero, rfl⟩
      have frame := frameOf_start mapped (show i ≤ s.frames.highestFrameIdx by omega)
      rw [BitVec.add_zero] at reserved
      simp only [Reserved, frame] at reserved
      have set := reserved.2
      rw [bitmap, unset, setFrames, lowest.run i le_rfl (by omega)] at set
      cases set
    refine ⟨Or.inr full, fun i lowest => ?_⟩
    have fits := lowest.fits
    rw [none] at fits ⊢
    exact ⟨by omega, fun f low high => by omega⟩

/-- In a run whose calls had room for what they asked for, the next call's memory is its
caller's exactly if it has room for what it asks for. -/
theorem box_allocation_owns_iff (run : OwnRun tlsf kernelBase s live) (box : η)
    (positive : count ≠ 0) (type : PtrboxType) : (∀ address s',
      exBoxAllocateOver tlsf.toTlsf (mmAllocPage kernelBase) (some box) count type true s =
        (.success, some address, s') → Owns tlsf kernelBase live type address count.toNat s s') ↔
      Meets tlsf count type s := by
  have inv := own_run_inv run
  constructor
  · exact meets_of_owns inv.mapped box positive
  · intro meets address s' done
    have outcome := exBoxAllocate_outcome (mmAllocPage kernelBase) tlsf.toTlsf box count type true s
    cases type with
    | pages =>
      obtain ⟨i, lowest, rfl, bound, bitmap, got, _⟩ := pages_done inv.mapped outcome done
      exact pages_owns inv lowest bound bitmap (meets rfl got)
    | heap =>
      obtain ⟨p, rfl, _, block⟩ := heap_done outcome done
      exact heap_owns inv (exAllocatePool_keeps _ _ _) block
    | any => exact (any_fails outcome done).elim

end Steps

section Boxes

open Algae.Mm.PhysRuns (eightFrames)

local instance : LawfulBEq Pointer := inferInstance

def oneBlock (p : Pointer) (n : Nat) : SizedTlsf (List Pointer) where
  tlsf_malloc t length := if p ∈ t ∨ n < length then (none, t) else (some p, p :: t)
  tlsf_free t q := t.filter fun r => decide (r ≠ q)
  used t := {q | q ∈ t}
  area := bytes p.val n
  size _ q := if q = p then n else 0
  taken := by
    intro t length q done
    split at done
    · cases done
    · rename_i room
      obtain rfl := Option.some.inj done
      rw [if_neg room]
      refine ⟨fun used => room (Or.inl used), ?_⟩
      ext x
      exact List.mem_cons
  refused := by
    intro t length failed
    split at failed
    · rename_i full
      rw [if_pos full]
    · cases failed
  freed := used_filter
  enough := by
    intro t length q done
    split at done
    · cases done
    · rename_i room
      obtain rfl := Option.some.inj done
      rw [if_pos rfl]
      exact Nat.le_of_not_lt fun short => room (Or.inr short)
  inside := by
    intro t q _
    split
    · rename_i same
      rw [same]
    · rintro a ⟨k, none, _⟩
      cases none
  apart := by
    intro t q _ r _ differ
    by_cases same : q = p
    · rw [if_neg (show ¬r = p from fun also => differ (same.trans also.symm))]
      refine Set.disjoint_right.mpr ?_
      rintro a ⟨k, none, _⟩
      cases none
    · rw [if_neg same]
      refine Set.disjoint_left.mpr ?_
      rintro a ⟨k, none, _⟩
      cases none
  malloc_size _ _ _ _ := rfl
  free_size _ _ _ _ _ := rfl

def lowPool : SizedTlsf (List Pointer) := oneBlock ⟨0xFFFF800000000040, by decide⟩ 64

private theorem coldBox_run : OwnRun lowPool 0xFFFF800000000000 coldBox ∅ := by
  refine .start (ownInv_empty mapped_eightFrames ?_)
  rintro a ⟨k, below, rfl⟩
  have address : (0xFFFF800000000040 : BitVec 64) + BitVec.ofNat 64 k =
      physToVirt 0xFFFF800000000000 (BitVec.ofNat 64 (0 * PAGESIZE)) + BitVec.ofNat 64
        (64 + k) := by
    rw [physToVirt, Nat.zero_mul, BitVec.ofNat_add, ← BitVec.add_assoc]
    rfl
  have small : 0 * PAGESIZE + (64 + k) ≤ coldBox.frames.highestFrameIdx * PAGESIZE := by
    change 0 * PAGESIZE + (64 + k) ≤ 8 * PAGESIZE
    rw [PAGESIZE]
    omega
  have frame : 0 + (64 + k) / PAGESIZE = 0 := by
    rw [PAGESIZE]
    omega
  change Taken _ (frameOf _ ((0xFFFF800000000040 : BitVec 64) + BitVec.ofNat 64 k))
  rw [address, frameOf_page mapped_eightFrames small, frame]
  exact ⟨by decide, by decide⟩

theorem box_allocation_owns_iff_page :
    Owns lowPool 0xFFFF800000000000 ∅ .pages 0xFFFF800000001000 64
    coldBox (exBoxAllocateOver lowPool.toTlsf (mmAllocPage 0xFFFF800000000000)
      (some ()) 64 .pages true
      coldBox).2.2 := by
  have done :
    exBoxAllocateOver lowPool.toTlsf (mmAllocPage 0xFFFF800000000000) (some ()) 64 .pages true
      coldBox = (.success, some 0xFFFF800000001000, (exBoxAllocateOver lowPool.toTlsf
        (mmAllocPage 0xFFFF800000000000) (some ()) 64 .pages true coldBox).2.2) :=
    Prod.ext (by decide +kernel) (Prod.ext (by decide +kernel) rfl)
  have meets : Meets lowPool 64 .pages coldBox := by
    intro _ _
    refine ⟨Or.inl (by decide), framesFit_small ?_⟩
    rw [pageCount_eq (by decide)]
    decide
  exact (box_allocation_owns_iff coldBox_run () (by decide) .pages).mpr meets _ _ done

/-- The largest count is rounded up to no page, and gets one that stays free. -/
theorem largest_count_gets_free_page : ¬∀ address s',
    exBoxAllocateOver lowPool.toTlsf (mmAllocPage 0xFFFF800000000000)
      (some ()) 0xFFFFFFFFFFFFFFFF .pages true
      coldBox = (.success, some address, s') →
    Owns lowPool 0xFFFF800000000000 ∅ .pages address 0xFFFFFFFFFFFFFFFF coldBox s' := by
  intro owns
  have meets := meets_of_owns mapped_eightFrames () (by decide) owns
  have descriptor : (exAllocatePool lowPool.toTlsf PTRBOX_ELEMENT_SIZE coldBox.pool).1 ≠ none := by
    decide +kernel
  rcases (meets rfl descriptor).1 with small | full
  · exact absurd small (by decide)
  · exact absurd (full 1 (by decide)) (by decide)

end Boxes

end Algae.Ex.BoxOwns
