/- Pointer boxes: lists of pages and pool blocks that are released together. -/

import Algae.Ex.Pool
import Algae.Mm.Page
import Algae.Rtl.Queue

set_option autoImplicit false
set_option relaxedAutoImplicit false

namespace Algae.Ex.Box

open Algae.Lib.FirstFit Algae.Rtl.Queue
open Algae.Sdk.Defs Algae.Mm.Frames Algae.Mm.Heap Algae.Mm.Page Algae.Ex.Pool

def PTRBOX_MAGIC : BitVec 32 := 0xCAFA17E

inductive PtrboxType
  | pages | heap | any
  deriving DecidableEq, Repr

structure PtrboxElement where
  magic : BitVec 32
  type : PtrboxType
  ptr : BitVec 64
  len : BitVec 64
  deriving DecidableEq, Repr

def PTRBOX_ELEMENT_SIZE : Nat := 40

/-- The allocators, and the boxes `η` with what is linked in them. -/
structure BoxState (σ τ η : Type) where
  frames : σ
  pool : PoolState τ
  elements : Pointer → PtrboxElement
  entries : Tailqs η Pointer
  ptrCount : η → BitVec 64

section Code

variable {σ τ η : Type} [DecidableEq η] (heap : FrameHeap σ) (tlsf : Tlsf τ)
  (kernelBase : BitVec 64)

def freePtr (ptr : BitVec 64) (s : PoolState τ) : PoolState τ :=
  if nonzero : ptr ≠ 0 then exFreePool tlsf ⟨ptr, nonzero⟩ s else s

/-- Neither argument is NULL where it is called. -/
def boxFreeSingle (box : η) (elem : Pointer) (s : BoxState σ τ η) : BoxState σ τ η :=
  let s := { s with entries := tailqRemove s.entries box elem }
  let e := s.elements elem
  if e.magic ≠ PTRBOX_MAGIC then
    { s with pool := exFreePool tlsf elem s.pool }
  else
    let s := match e.type with
      | .pages =>
        { s with frames := heap.mmFreeFrame s.frames e.ptr.toNat (e.len.toNat / PAGESIZE) }
      | .heap => { s with pool := freePtr tlsf e.ptr s.pool }
      | .any => s
    let s := { s with ptrCount := Function.update s.ptrCount box (s.ptrCount box - 1) }
    { s with pool := exFreePool tlsf elem s.pool }

def boxInsert (box : η) (elem : Pointer) (e : PtrboxElement) (s : BoxState σ τ η) :
    NtStatus × Option (BitVec 64) × BoxState σ τ η :=
  (.success, some e.ptr, { s with
    elements := Function.update s.elements elem { e with magic := PTRBOX_MAGIC }
    entries := tailqInsertTail s.entries box elem
    ptrCount := Function.update s.ptrCount box (s.ptrCount box + 1) })

/-- Over any page allocator. `result` says whether the pointer for the result is given; what is
stored there is the second component. The type `.any` stands for every value that the switch has
no case for. -/
def exBoxAllocateOver (mmAllocPage : Nat → σ → BitVec 64 × σ) (box : Option η) (count : BitVec 64)
    (type : PtrboxType) (result : Bool) (s : BoxState σ τ η) :
    NtStatus × Option (BitVec 64) × BoxState σ τ η :=
  match box, result with
  | none, _ => (.invalidHandle, none, s)
  | some _, false => (.invalidHandle, none, s)
  | some box, true =>
    if count = 0 then
      (.invalidParam, none, s)
    else
      match exAllocatePool tlsf PTRBOX_ELEMENT_SIZE s.pool with
      | (none, pool) => (.noMemory, none, { s with pool := pool })
      | (some elem, pool) =>
        let s := { s with pool := pool }
        let e := s.elements elem
        match type with
        | .pages =>
          let count := alignUp count (BitVec.ofNat 64 PAGESIZE)
          let (ptr, frames) := mmAllocPage (count.toNat / PAGESIZE) s.frames
          let s := { s with frames := frames }
          if ptr = 0 then
            (.noMemory, none, { s with
              elements := Function.update s.elements elem { e with ptr := ptr }
              pool := exFreePool tlsf elem s.pool })
          else
            boxInsert box elem { e with ptr := ptr, len := count, type := type } s
        | .heap =>
          match exAllocatePool tlsf count.toNat s.pool with
          | (none, pool) =>
            (.noMemory, none, { s with
              elements := Function.update s.elements elem { e with ptr := 0 }
              pool := exFreePool tlsf elem pool })
          | (some ptr, pool) =>
            boxInsert box elem { e with ptr := ptr.val, len := count, type := type }
              { s with pool := pool }
        | .any => (.invalidHandle, none, { s with pool := exFreePool tlsf elem s.pool })

def exBoxAllocate (box : Option η) (count : BitVec 64) (type : PtrboxType) (result : Bool)
    (s : BoxState σ τ η) : NtStatus × Option (BitVec 64) × BoxState σ τ η :=
  exBoxAllocateOver tlsf (mmAllocPage heap.toFrameSource kernelBase) box count type result s

def exInitPtrBox (box : Option η) (s : BoxState σ τ η) : NtStatus × BoxState σ τ η :=
  match box with
  | none => (.invalidHandle, s)
  | some box => (.success, { s with
      entries := tailqInit s.entries box
      ptrCount := Function.update s.ptrCount box 0 })

/-- The loop of exBoxRelease from `elem` on. The link to the next element is read after
the descriptor was freed, which leaves it in place. `none` means that `fuel` was too
small. -/
def releaseLoop (box : η) (type : PtrboxType) :
    Nat → Option Pointer → BoxState σ τ η → Option (BoxState σ τ η)
  | _, none, s => some s
  | 0, some _, _ => none
  | fuel + 1, some elem, s =>
    let s := if (s.elements elem).type = type ∨
      type = .any then boxFreeSingle heap tlsf box elem s else s
    releaseLoop box type fuel (s.entries.tqe_next elem) s

def exBoxRelease (fuel : Nat) (box : Option η) (type : PtrboxType) (s : BoxState σ τ η) :
    Option (BoxState σ τ η) :=
  match box with
  | none => some s
  | some box => releaseLoop heap tlsf box type fuel (s.entries.tqh_first box) s

end Code

section Entries

/-- An entry of a box, with the frames and the pool blocks that its allocation took. -/
structure Entry where
  elem : Pointer
  type : PtrboxType
  frames : Set Nat
  blocks : Set Pointer

def Entry.Released (t : PtrboxType) (e : Entry) : Prop := e.type = t ∨ t = .any

instance (t : PtrboxType) (e : Entry) : Decidable (e.Released t) :=
  inferInstanceAs (Decidable (_ ∨ _))

variable {σ τ η : Type} [DecidableEq η] (heap : FrameHeap σ) (tlsf : Tlsf τ)
  (kernelBase : BitVec 64)

/-- A box that was initialised and then filled. Other code may run in between, as long as it
leaves the box and what its entries own alone. -/
inductive BoxRun (box : η) : BoxState σ τ η → List Entry → Prop
  | start (s : BoxState σ τ η) : BoxRun box (exInitPtrBox (some box) s).2 []
  | alloc {s s' : BoxState σ τ η} {entries : List Entry} (run : BoxRun box s entries)
      {count : BitVec 64} {type : PtrboxType} {elem : Pointer} {address : BitVec 64}
      (descriptor : (exAllocatePool tlsf PTRBOX_ELEMENT_SIZE s.pool).1 = some elem)
      (done : exBoxAllocate heap tlsf kernelBase (some box) count type true s =
        (.success, some address, s')) :
      BoxRun box s' (entries ++ [{
        elem := elem
        type := type
        frames := {f | heap.held s'.frames f ∧ ¬heap.held s.frames f}
        blocks := poolUsed tlsf s'.pool \ poolUsed tlsf s.pool }])
  | other {s s' : BoxState σ τ η} {entries : List Entry} (run : BoxRun box s entries)
      (queue : Holds s'.entries box (entries.map Entry.elem))
        (count : s'.ptrCount box = s.ptrCount box)
      (elements : ∀ e ∈ entries, s'.elements e.elem = s.elements e.elem)
      (blocks : ∀ e ∈ entries, e.blocks ⊆ poolUsed tlsf s'.pool)
      (frames : ∀ e ∈ entries, ∀ f ∈ e.frames, heap.held s'.frames f) : BoxRun box s' entries

/-- What a release of type `t` is for: exactly what the released entries own is free again,
and the other entries stay in the box. -/
structure GivesBack (box : η) (t : PtrboxType) (entries : List Entry) (s s' : BoxState σ τ η) :
    Prop where
  frames : ∀ f, heap.held s'.frames f ↔ heap.held s.frames f ∧ ∀ e ∈ entries,
    e.Released t → f ∉ e.frames
  blocks : ∀ p, p ∈ poolUsed tlsf s'.pool ↔
    p ∈ poolUsed tlsf s.pool ∧ ∀ e ∈ entries, e.Released t → p ∉ e.blocks
  queue : Holds s'.entries box ((entries.filter fun e => ¬e.Released t).map Entry.elem)
  count : s'.ptrCount box = BitVec.ofNat 64 (entries.filter fun e => ¬e.Released t).length

/-- The descriptor of an entry. The addresses that it passes to mmFreeFrame name none of
the frames that an allocator manages. -/
def Describes (d : PtrboxElement) (e : Entry) : Prop :=
  match e.type with
  | .pages => e.blocks = {e.elem} ∧ ∃ i, 0 < i ∧ d.ptr.toNat = i * PAGESIZE ∧
      (i + d.len.toNat / PAGESIZE + 1) * PAGESIZE ≤ 0x10000000000000000 ∧
      ∀ f ∈ span i (d.len.toNat / PAGESIZE), 0x80000000 ≤ f
  | .heap => ∃ p : Pointer, d.ptr = p.val ∧ e.blocks = {e.elem, p}
  | .any => False

private theorem Describes.elem_mem {d : PtrboxElement} {e : Entry} (h : Describes d e) :
    e.elem ∈ e.blocks := by
  unfold Describes at h
  split at h
  · rw [h.1]
    rfl
  · obtain ⟨p, _, blocks⟩ := h
    rw [blocks]
    exact Or.inl rfl
  · exact h.elim

structure InBox (s : BoxState σ τ η) (e : Entry) : Prop where
  magic : (s.elements e.elem).magic = PTRBOX_MAGIC
  type : (s.elements e.elem).type = e.type
  describes : Describes (s.elements e.elem) e

structure BoxInv (box : η) (s : BoxState σ τ η) (entries : List Entry) : Prop where
  queue : Holds s.entries box (entries.map Entry.elem)
  count : s.ptrCount box = BitVec.ofNat 64 entries.length
  inBox : ∀ e ∈ entries, InBox s e
  blocks : ∀ e ∈ entries, e.blocks ⊆ poolUsed tlsf s.pool
  frames : ∀ e ∈ entries, ∀ f ∈ e.frames, heap.held s.frames f

end Entries

section Release

variable {σ τ η : Type} [DecidableEq η] {heap : FrameHeap σ} {tlsf : Tlsf τ} {box : η}
  {s : BoxState σ τ η} {t : PtrboxType}

private theorem freePtr_used (p : Pointer) (pool : PoolState τ) :
    poolUsed tlsf (freePtr tlsf p.val pool) = poolUsed tlsf pool \ {p} := by
  rw [freePtr, dif_pos p.property, poolUsed_exFreePool]

private theorem boxFreeSingle_spec {e : Entry} (inBox : InBox s e) (s' : BoxState σ τ η)
    (call : s' = boxFreeSingle heap tlsf box e.elem s) :
    s'.elements = s.elements ∧ s'.entries = tailqRemove s.entries box e.elem ∧
    s'.ptrCount box = s.ptrCount box - 1 ∧
    poolUsed tlsf s'.pool = poolUsed tlsf s.pool \ e.blocks ∧
    ∀ f, heap.held s'.frames f ↔ heap.held s.frames f := by
  have magic : ¬(s.elements e.elem).magic ≠ PTRBOX_MAGIC := not_not.mpr inBox.magic
  have describes := inBox.describes
  rw [boxFreeSingle] at call
  simp only [if_neg magic, inBox.type] at call
  unfold Describes at describes
  cases kind : e.type with
  | pages =>
    simp only [kind] at call describes
    obtain ⟨blocks, i, positive, address, bound, out⟩ := describes
    subst call
    refine ⟨rfl, rfl, Function.update_self _ _ _, ?_, fun f => ?_⟩
    · rw [blocks]
      exact poolUsed_exFreePool tlsf _ _
    · simp only [address]
      rw [heap.freed _ _ _ _ positive bound]
      refine and_iff_left fun given => ?_
      have few := heap.managed_few _ f given.1
      have many := out f given.2
      omega
  | heap =>
    simp only [kind] at call describes
    obtain ⟨p, address, blocks⟩ := describes
    subst call
    refine ⟨rfl, rfl, Function.update_self _ _ _, ?_, fun f => Iff.rfl⟩
    simp only [address]
    rw [poolUsed_exFreePool, freePtr_used, blocks, Set.sdiff_sdiff, Set.union_comm]
    rfl
  | any =>
    simp only [kind] at describes

private theorem releaseLoop_spec (heap : FrameHeap σ) (tlsf : Tlsf τ) (t : PtrboxType)
    (todo kept : List Entry)
    (queue : Holds s.entries box ((kept ++ todo).map Entry.elem)) (inBox : ∀ e ∈ todo, InBox s e)
    {fuel : Nat} (enough : todo.length ≤ fuel) :
    ∃ s', releaseLoop heap tlsf box t fuel (todo.map Entry.elem).head? s = some s' ∧
      Holds s'.entries box ((kept ++ todo.filter fun e => ¬e.Released t).map Entry.elem) ∧
      s'.ptrCount box + BitVec.ofNat 64 (todo.filter fun e => e.Released t).length =
        s.ptrCount box ∧
      (∀ p, p ∈ poolUsed tlsf s'.pool ↔
        p ∈ poolUsed tlsf s.pool ∧ ∀ e ∈ todo, e.Released t → p ∉ e.blocks) ∧
      ∀ f, heap.held s'.frames f ↔ heap.held s.frames f := by
  induction todo generalizing kept fuel s with
  | nil =>
    refine ⟨s, ?_, ?_, BitVec.add_zero _, by simp, fun _ => Iff.rfl⟩
    · rw [List.map_nil, List.head?_nil, releaseLoop]
    · simpa using queue
  | cons e todo ih =>
    cases fuel with
    | zero => exact absurd enough (by simp)
    | succ fuel =>
      have few : todo.length ≤ fuel := by simpa using enough
      have here := inBox e List.mem_cons_self
      have linked : Holds s.entries box (kept.map Entry.elem ++ e.elem :: todo.map Entry.elem) := by
        simpa using queue
      rw [List.map_cons, List.head?_cons, releaseLoop, here.type]
      by_cases released : e.Released t
      · -- the descriptor is unlinked and freed, but still leads on
        rw [if_pos (show e.type = t ∨ t = .any from released)]
        generalize next : boxFreeSingle heap tlsf box e.elem s = s₁
        obtain ⟨elements, entries, count, used, held⟩ := boxFreeSingle_spec here s₁ next.symm
        have onward : s₁.entries.tqe_next e.elem = (todo.map Entry.elem).head? := by
          rw [entries, linked.chained.remove_next, linked.chained.next_eq]
        have queue₁ : Holds s₁.entries box ((kept ++ todo).map Entry.elem) := by
          rw [entries, List.map_append]
          exact linked.remove
        obtain ⟨s', done, rest, left, blocks, frames⟩ := ih kept queue₁ (fun e' member => by
          have old := inBox e' (List.mem_cons_of_mem _ member)
          exact ⟨elements ▸ old.magic, elements ▸ old.type, elements ▸ old.describes⟩) few
        refine ⟨s', by rw [onward]; exact done, ?_, ?_, fun p => ?_,
          fun f => (frames f).trans (held f)⟩
        · rw [List.filter_cons_of_neg (by simpa using released)]
          exact rest
        · rw [List.filter_cons_of_pos (by simpa using released), List.length_cons, BitVec.ofNat_add,
            ← BitVec.add_assoc, left, count]
          exact BitVec.sub_add_cancel _ _
        · rw [blocks p, used, Set.mem_sdiff]
          simp only [List.mem_cons, forall_eq_or_imp, released, true_implies]
          tauto
      · rw [if_neg (show ¬(e.type = t ∨ t = .any) from released)]
        have queue₁ : Holds s.entries box ((kept ++ [e] ++ todo).map Entry.elem) := by
          simpa using queue
        obtain ⟨s', done, rest, left, blocks, frames⟩ := ih (kept ++ [e]) queue₁
          (fun e' member => inBox e' (List.mem_cons_of_mem _ member)) few
        refine ⟨s', by rw [linked.chained.next_eq]; exact done, ?_, ?_, fun p => ?_, frames⟩
        · rw [List.filter_cons_of_pos (by simpa using released)]
          simpa using rest
        · rw [List.filter_cons_of_neg (by simpa using released)]
          exact left
        · rw [blocks p]
          simp only [List.mem_cons, forall_eq_or_imp, released, false_implies, true_and]

end Release

section Allocate

variable {σ τ η : Type} [DecidableEq η] {heap : FrameHeap σ} {tlsf : Tlsf τ}
  {kernelBase : BitVec 64} {box : η} {s : BoxState σ τ η}

private theorem page_address (heap : FrameHeap σ) (map : DirectMap kernelBase)
    {frames : σ} {n : Nat} (nonzero : (mmAllocPage heap.toFrameSource kernelBase n frames).1 ≠ 0) :
    ∃ i, 0 < i ∧ (mmAllocPage heap.toFrameSource kernelBase n frames).1.toNat = i * PAGESIZE ∧
      (i + n + 1) * PAGESIZE ≤ 0x10000000000000000 ∧ ∀ f ∈ span i n, 0x80000000 ≤ f := by
  by_cases zero : (heap.mmAllocFrame frames n).1 = 0
  · rw [mmAllocPage_refused zero] at nonzero
    exact absurd rfl nonzero
  · obtain ⟨j, ret, _, fresh⟩ := heap.fresh frames n zero
    have address : (mmAllocPage heap.toFrameSource kernelBase n frames).1 =
        BitVec.ofNat 64 (j * PAGESIZE) + kernelBase := by
      rw [mmAllocPage_done zero, ret]
      rfl
    have value : (mmAllocPage heap.toFrameSource kernelBase n frames).1.toNat =
        (j * PAGESIZE + kernelBase.toNat) % 0x10000000000000000 := by
      rw [address, BitVec.toNat_add, BitVec.toNat_ofNat, Nat.mod_add_mod]
    have positive : 0 < (mmAllocPage heap.toFrameSource kernelBase n frames).1.toNat := by
      rw [Nat.pos_iff_ne_zero]
      exact fun null => nonzero (BitVec.eq_of_toNat_eq null)
    have word := (mmAllocPage heap.toFrameSource kernelBase n frames).1.isLt
    generalize (mmAllocPage heap.toFrameSource kernelBase n frames).1.toNat = v
      at value positive word
    have last : n = 0 ∨ j + n ≤ 0x80000000 := by
      rcases Nat.eq_zero_or_pos n with none | some
      · exact Or.inl none
      · right
        have inside : j + n - 1 ∈ span j n := mem_span.mpr (by omega)
        have few := heap.managed_few _ _ (heap.unheld_managed _ _ (fresh _ inside).1)
        omega
    obtain ⟨aligned, upper, fits⟩ := map
    generalize kernelBase.toNat = k at value aligned upper fits
    rw [PAGESIZE] at value aligned fits ⊢
    have pages : v = v / 4096 * 4096 := by omega
    refine ⟨v / 4096, by omega, pages, ?_, ?_⟩
    · rcases last with rfl | few
      · omega
      · omega
    · intro f inside
      have := mem_span.mp inside
      rcases last with rfl | few
      · omega
      · omega

private theorem taken_blocks {used after own : Set Pointer} (new : ∀ p ∈ own, p ∉ used)
    (taken : after = own ∪ used) : after \ used = own := by
  rw [taken]
  exact Set.union_sdiff_cancel_right fun p both => new p both.1 both.2

private theorem exBoxAllocate_done (map : DirectMap kernelBase) {count : BitVec 64}
    {type : PtrboxType} {elem : Pointer} {address : BitVec 64} {s' : BoxState σ τ η}
    (descriptor : (exAllocatePool tlsf PTRBOX_ELEMENT_SIZE s.pool).1 = some elem)
    (done : exBoxAllocate heap tlsf kernelBase (some box) count type true s =
      (.success, some address, s')) (e : Entry) (elem_eq : e.elem = elem) (type_eq : e.type = type)
    (blocks : e.blocks = poolUsed tlsf s'.pool \ poolUsed tlsf s.pool) :
    InBox s' e ∧ (∀ p ≠ elem, s'.elements p = s.elements p) ∧
    s'.entries = tailqInsertTail s.entries box elem ∧ s'.ptrCount box = s.ptrCount box + 1 ∧
    poolUsed tlsf s.pool ⊆ poolUsed tlsf s'.pool ∧
      (∀ f, heap.held s.frames f → heap.held s'.frames f) := by
  obtain ⟨new, used⟩ := exAllocatePool_taken tlsf descriptor
  generalize allocated : exAllocatePool tlsf PTRBOX_ELEMENT_SIZE s.pool = res at descriptor used
  obtain ⟨_, pool⟩ := res
  simp only at descriptor used
  subst descriptor
  rw [exBoxAllocate, exBoxAllocateOver] at done
  simp only [allocated] at done
  split at done
  · cases done
  · cases type with
    | pages =>
      simp only at done
      generalize page : mmAllocPage heap.toFrameSource kernelBase
        ((alignUp count (BitVec.ofNat 64 PAGESIZE)).toNat / PAGESIZE) s.frames = res at done
      obtain ⟨ptr, frames⟩ := res
      simp only at done
      split at done
      · cases done
      · rename_i nonzero
        simp only [boxInsert, Prod.mk.injEq, true_and] at done
        obtain ⟨_, rfl⟩ := done
        have kept : ∀ f, heap.held s.frames f → heap.held frames f := by
          intro f old
          have same : frames = (mmAllocPage heap.toFrameSource kernelBase
              ((alignUp count (BitVec.ofNat 64 PAGESIZE)).toNat / PAGESIZE)
                s.frames).2 := by rw [page]
          rw [same, mmAllocPage_frames]
          exact heap.stays_held _ _ f old
        have own : e.blocks = {e.elem} := by
          rw [blocks, elem_eq]
          refine taken_blocks ?_ used
          rintro p rfl
          exact new
        obtain ⟨i, positive, value, bound, out⟩ := page_address heap map (n :=
          (alignUp count (BitVec.ofNat 64 PAGESIZE)).toNat / PAGESIZE) (by rw [page]; exact nonzero)
        rw [page] at value
        refine ⟨⟨?_, ?_, ?_⟩, fun p other => Function.update_of_ne other _ _, rfl,
          Function.update_self _ _ _, ?_, kept⟩
        · simp only [elem_eq, Function.update_self]
        · simp only [elem_eq, Function.update_self, type_eq]
        · simp only [Describes, type_eq, elem_eq, Function.update_self]
          exact ⟨elem_eq ▸ own, i, positive, value, bound, out⟩
        · change poolUsed tlsf s.pool ⊆ poolUsed tlsf pool
          rw [used]
          exact Set.subset_insert _ _
    | heap =>
      simp only at done
      generalize block : exAllocatePool tlsf count.toNat pool = res at done
      obtain ⟨ptr, pool'⟩ := res
      cases ptr with
      | none => cases done
      | some ptr =>
        obtain ⟨new', used'⟩ := poolUsed_taken tlsf block
        simp only [boxInsert, Prod.mk.injEq, true_and] at done
        obtain ⟨_, rfl⟩ := done
        have own : e.blocks = {e.elem, ptr} := by
          rw [blocks, elem_eq]
          refine taken_blocks ?_ ?_
          · rintro p (rfl | rfl)
            · exact new
            · exact fun old => new' (used ▸ Set.mem_insert_of_mem _ old)
          · change poolUsed tlsf pool' = {elem, ptr} ∪ poolUsed tlsf s.pool
            rw [used', used, Set.insert_comm, Set.insert_union, Set.singleton_union]
        refine ⟨⟨?_, ?_, ?_⟩, fun p other => Function.update_of_ne other _ _, rfl,
          Function.update_self _ _ _, ?_, fun _ old => old⟩
        · simp only [elem_eq, Function.update_self]
        · simp only [elem_eq, Function.update_self, type_eq]
        · simp only [Describes, type_eq, elem_eq, Function.update_self]
          exact ⟨ptr, rfl, elem_eq ▸ own⟩
        · change poolUsed tlsf s.pool ⊆ poolUsed tlsf pool'
          rw [used', used]
          exact (Set.subset_insert _ _).trans (Set.subset_insert _ _)
    | any => cases done

theorem exBoxAllocate_pages (count : BitVec 64) (window : BitVec 64 × σ)
    (pages : window = mmAllocPage heap.toFrameSource kernelBase
      ((alignUp count (BitVec.ofNat 64 PAGESIZE)).toNat / PAGESIZE) s.frames)
    (res : NtStatus × Option (BitVec 64) × BoxState σ τ η)
    (call : res = exBoxAllocate heap tlsf kernelBase (some box) count .pages true s) :
    (res.1 = .success ↔ count ≠ 0 ∧ (exAllocatePool tlsf PTRBOX_ELEMENT_SIZE s.pool).1 ≠ none ∧
      window.1 ≠ 0) ∧
    (res.1 = .success → res = (.success, some window.1, res.2.2) ∧ res.2.2.frames = window.2) := by
  rw [exBoxAllocate, exBoxAllocateOver] at call
  simp only at call
  by_cases empty : count = 0
  · rw [if_pos empty] at call
    subst call
    exact ⟨iff_of_false (by simp) fun given => given.1 empty, fun done => by cases done⟩
  · rw [if_neg empty] at call
    generalize exAllocatePool tlsf PTRBOX_ELEMENT_SIZE s.pool = allocated at call ⊢
    obtain ⟨_ | elem, pool⟩ := allocated
    · subst call
      exact ⟨iff_of_false (by simp) fun given => given.2.1 rfl, fun done => by cases done⟩
    · simp only [← pages] at call
      by_cases zero : window.1 = 0
      · rw [if_pos zero] at call
        subst call
        exact ⟨iff_of_false (by simp) fun given => given.2.2 zero, fun done => by cases done⟩
      · rw [if_neg zero] at call
        subst call
        exact ⟨iff_of_true rfl ⟨empty, by simp, zero⟩, fun _ => ⟨rfl, rfl⟩⟩

end Allocate

section Runs

variable {σ τ η : Type} [DecidableEq η] {heap : FrameHeap σ} {tlsf : Tlsf τ}
  {kernelBase : BitVec 64} {box : η}

theorem box_run_inv (map : DirectMap kernelBase) {s : BoxState σ τ η} {entries : List Entry}
    (run : BoxRun heap tlsf kernelBase box s entries) : BoxInv heap tlsf box s entries := by
  induction run with
  | start s =>
    refine ⟨holds_init _ _, Function.update_self _ _ _, ?_, ?_, ?_⟩
    · exact fun _ none => by cases none
    · exact fun _ none => by cases none
    · exact fun _ none => by cases none
  | @alloc s s' entries _ count type elem address descriptor done ih =>
    obtain ⟨inBox, elements, inserted, counted, used, held⟩ :=
      exBoxAllocate_done map descriptor done
      ⟨elem, type, {f | heap.held s'.frames f ∧ ¬heap.held s.frames f},
        poolUsed tlsf s'.pool \ poolUsed tlsf s.pool⟩ rfl rfl rfl
    obtain ⟨new, _⟩ := exAllocatePool_taken tlsf descriptor
    have apart : ∀ e ∈ entries, e.elem ≠ elem := by
      rintro e member rfl
      exact new (ih.blocks e member (ih.inBox e member).describes.elem_mem)
    have fresh : elem ∉ entries.map Entry.elem := by
      intro member
      obtain ⟨e, member, same⟩ := List.mem_map.mp member
      exact apart e member same
    refine ⟨?_, ?_, ?_, ?_, ?_⟩
    · rw [inserted, List.map_append]
      exact ih.queue.insertTail fresh
    · rw [counted, ih.count, List.length_append, BitVec.ofNat_add]
      rfl
    · intro e member
      rcases List.mem_append.mp member with member | member
      · have old := ih.inBox e member
        have same := elements e.elem (apart e member)
        exact ⟨same ▸ old.magic, same ▸ old.type, same ▸ old.describes⟩
      · rw [List.mem_singleton.mp member]
        exact inBox
    · intro e member
      rcases List.mem_append.mp member with member | member
      · exact (ih.blocks e member).trans used
      · rw [List.mem_singleton.mp member]
        exact Set.sdiff_subset
    · intro e member f inside
      rcases List.mem_append.mp member with member | member
      · exact held f (ih.frames e member f inside)
      · rw [List.mem_singleton.mp member] at inside
        exact inside.1
  | @other s s' entries _ queue count elements blocks frames ih =>
    refine ⟨queue, count.trans ih.count, ?_, blocks, frames⟩
    intro e member
    have old := ih.inBox e member
    have same := elements e member
    exact ⟨same ▸ old.magic, same ▸ old.type, same ▸ old.describes⟩

theorem BoxRun.refused {s : BoxState σ τ η} {entries : List Entry} (map : DirectMap kernelBase)
    (run : BoxRun heap tlsf kernelBase box s entries) {count : BitVec 64}
    (failed : (exBoxAllocate heap tlsf kernelBase (some box) count .pages true s).1 ≠ .success) :
    BoxRun heap tlsf kernelBase box
      (exBoxAllocate heap tlsf kernelBase (some box) count .pages true s).2.2 entries := by
  have inv := box_run_inv map run
  rw [exBoxAllocate, exBoxAllocateOver] at failed ⊢
  simp only at failed ⊢
  by_cases empty : count = 0
  · rw [if_pos empty]
    exact run
  · rw [if_neg empty] at failed ⊢
    generalize allocated : exAllocatePool tlsf PTRBOX_ELEMENT_SIZE s.pool = res at failed ⊢
    obtain ⟨_ | elem, pool⟩ := res
    · refine run.other inv.queue rfl (fun _ _ => rfl) (fun e member => ?_) inv.frames
      change e.blocks ⊆ poolUsed tlsf pool
      rw [poolUsed_refused tlsf allocated]
      exact inv.blocks e member
    · obtain ⟨new, used⟩ := poolUsed_taken tlsf allocated
      simp only at failed ⊢
      split
      · refine run.other inv.queue rfl ?_ ?_ ?_
        · intro e member
          refine Function.update_of_ne ?_ _ _
          rintro rfl
          exact new (inv.blocks e member (inv.inBox e member).describes.elem_mem)
        · intro e member
          rw [poolUsed_exFreePool, used, Set.insert_sdiff_self_of_notMem new]
          exact inv.blocks e member
        · intro e member f inside
          rw [mmAllocPage_frames]
          exact heap.stays_held _ _ f (inv.frames e member f inside)
      · rename_i nonzero
        rw [if_neg nonzero] at failed
        exact absurd rfl failed

theorem exBoxRelease_returns (map : DirectMap kernelBase) {s : BoxState σ τ η}
    {entries : List Entry}
    (run : BoxRun heap tlsf kernelBase box s entries) (t : PtrboxType) {fuel : Nat}
    (enough : entries.length ≤ fuel) :
    ∃ s', exBoxRelease heap tlsf fuel (some box) t s = some s' := by
  have inv := box_run_inv map run
  obtain ⟨s', done, _⟩ := releaseLoop_spec heap tlsf t entries []
    inv.queue inv.inBox enough
  rw [← inv.queue.chained.first_eq] at done
  exact ⟨s', done⟩

/-- A release gives the box back what it took exactly if none of the released entries owns
a frame. -/
theorem box_gives_back_iff (map : DirectMap kernelBase) {s : BoxState σ τ η} {entries : List Entry}
    (run : BoxRun heap tlsf kernelBase box s entries) (t : PtrboxType) {fuel : Nat}
    (enough : entries.length ≤ fuel) :
    (∃ s', exBoxRelease heap tlsf fuel (some box) t s = some s' ∧
      GivesBack heap tlsf box t entries s s') ↔
      ∀ e ∈ entries, e.Released t → e.frames = ∅ := by
  have inv := box_run_inv map run
  obtain ⟨s', done, queue, count, blocks, frames⟩ := releaseLoop_spec heap tlsf t entries []
    inv.queue inv.inBox enough
  rw [← inv.queue.chained.first_eq] at done
  constructor
  · rintro ⟨_, same, gives⟩ e member released
    obtain rfl := Option.some.inj (done.symm.trans same)
    refine Set.eq_empty_of_forall_notMem fun f inside => ?_
    have still := (frames f).mpr (inv.frames e member f inside)
    exact ((gives.frames f).mp still).2 e member released inside
  · intro none
    refine ⟨s', done, ⟨fun f => ?_, blocks, queue, ?_⟩⟩
    · rw [frames f]
      refine ⟨fun held => ⟨held, fun e member released inside => ?_⟩, And.left⟩
      rw [none e member released] at inside
      exact inside
    · have lengths : entries.length = (entries.filter fun e => ¬e.Released t).length +
          (entries.filter fun e => e.Released t).length := by
        have split := List.length_eq_length_filter_add (l := entries) fun e => decide (e.Released t)
        simp only [← decide_not] at split
        rw [split, Nat.add_comm]
      rw [inv.count, lengths, BitVec.ofNat_add] at count
      exact (BitVec.add_left_inj _).mp count

private theorem exBoxAllocate_heap_frames {count : BitVec 64} {s : BoxState σ τ η} :
    (exBoxAllocate heap tlsf kernelBase (some box) count .heap true s).2.2.frames = s.frames := by
  rw [exBoxAllocate, exBoxAllocateOver]
  simp only
  split
  · rfl
  · split
    · rfl
    · split
      · rfl
      · rfl

end Runs

section Boxes

open Algae.Mm.Phys (PhysState)
open Algae.Platform.AddressSpaces (eightFramesReady)

def twoPool : Tlsf (List Pointer) :=
  blockTlsf [⟨0x10000, frame_sixteen_ne_null⟩, ⟨0x11000, by decide⟩]

def emptyBox : BoxState {s : PhysState // Ready s} (List Pointer) Unit :=
  (exInitPtrBox (some ()) {
    frames := eightFramesReady
    pool := ⟨true, []⟩
    elements := fun _ => ⟨0, .any, 0, 0⟩
    entries := ⟨fun _ => none, fun _ => .first (), fun _ => 0, fun _ => none, fun _ => .first ()⟩
    ptrCount := fun _ => 0 }).2

def filledBox (type : PtrboxType) : BoxState {s : PhysState // Ready s} (List Pointer) Unit :=
  (exBoxAllocate bitmapHeap twoPool 0xFFFF800000000000 (some ()) 64 type true emptyBox).2.2

def filledEntry (type : PtrboxType) : Entry where
  elem := ⟨0x10000, frame_sixteen_ne_null⟩
  type := type
  frames := {f | bitmapHeap.held (filledBox type).frames f ∧ ¬bitmapHeap.held emptyBox.frames f}
  blocks := poolUsed twoPool (filledBox type).pool \ poolUsed twoPool emptyBox.pool

theorem box_gives_back_iff_heap : ∃ s', exBoxRelease bitmapHeap twoPool 1 (some ()) .heap
      (filledBox .heap) = some s' ∧
    GivesBack bitmapHeap twoPool () .heap [filledEntry .heap] (filledBox .heap) s' := by
  have done : exBoxAllocate bitmapHeap twoPool 0xFFFF800000000000 (some ()) 64 .heap true emptyBox =
      (.success, some 0x11000, filledBox .heap) :=
    Prod.ext (by decide +kernel) (Prod.ext (by decide +kernel) rfl)
  have empty : BoxRun bitmapHeap twoPool 0xFFFF800000000000 () emptyBox [] := BoxRun.start _
  have descriptor : (exAllocatePool twoPool PTRBOX_ELEMENT_SIZE emptyBox.pool).1 =
      some ⟨0x10000, by decide⟩ := by decide +kernel
  have run := empty.alloc descriptor done
  refine (box_gives_back_iff directMap_base run .heap le_rfl).mpr ?_
  intro e member _
  rw [List.mem_singleton.mp member]
  refine Set.eq_empty_of_forall_notMem fun f taken => taken.2 ?_
  have same : (filledBox .heap).frames = emptyBox.frames := exBoxAllocate_heap_frames
  exact same ▸ taken.1

/-- The frame of a page entry stays in use after the box is released. -/
theorem released_page_stays_used : ¬∃ s', exBoxRelease bitmapHeap twoPool 1 (some ()) .any
      (filledBox .pages) = some s' ∧
    GivesBack bitmapHeap twoPool () .any [filledEntry .pages] (filledBox .pages) s' := by
  rintro ⟨s', done, gives⟩
  have bits : (exBoxRelease bitmapHeap twoPool 1 (some ()) .any (filledBox .pages)).map
      (fun s => testBit s.frames.val.bitmap 1) = some true := by decide +kernel
  rw [done] at bits
  have still : bitmapHeap.held s'.frames 1 := fun _ => Option.some.inj bits
  refine ((gives.frames 1).mp still).2 _ List.mem_cons_self (Or.inr rfl)
    ⟨fun _ => ?_, fun held => ?_⟩
  · decide +kernel
  · exact absurd (held (by decide)) (by decide)

end Boxes

end Algae.Ex.Box
