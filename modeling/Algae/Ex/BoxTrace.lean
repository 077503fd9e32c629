/- The release of a box with every read of a descriptor and every block that it frees:
   the loop goes on by the link of a descriptor that is not there any more. -/

import Algae.Ex.Box

set_option autoImplicit false
set_option relaxedAutoImplicit false

namespace Algae.Ex.BoxTrace

open Algae.Rtl.Queue Algae.Sdk.Defs
open Algae.Mm.Heap Algae.Ex.Pool Algae.Ex.Box

/-- The fields of `PTRBOX_ELEMENT`; `next` and `prev` are those of its link. -/
inductive Field
  | magic | type | ptr | len | next | prev
  deriving DecidableEq, Repr

inductive Access
  | read (elem : Pointer) (field : Field)
  | free (block : Pointer)
  deriving DecidableEq

def NoReadAfterFree (accesses : List Access) : Prop :=
  ∀ before elem field after, accesses = before ++ .read elem field :: after →
    Access.free elem ∉ before

section Code

variable {σ τ η : Type} [DecidableEq η] (heap : FrameHeap σ) (tlsf : Tlsf τ)
  (spoil : Pointer → BoxState σ τ η → BoxState σ τ η)

def freeBlock (block : Pointer) (s : BoxState σ τ η) : BoxState σ τ η :=
  spoil block { s with pool := exFreePool tlsf block s.pool }

def removeReads (q : Tailqs η Pointer) (elem : Pointer) : List Access :=
  match q.tqe_next elem with
  | some _ =>
    [.read elem .next, .read elem .next, .read elem .prev, .read elem .prev, .read elem .next]
  | none => [.read elem .next, .read elem .prev, .read elem .prev, .read elem .next]

def boxFreeSingle (box : η) (elem : Pointer) (s : BoxState σ τ η) : List Access × BoxState σ τ η :=
  let unlink := removeReads s.entries elem ++ [.read elem .magic]
  let s := { s with entries := tailqRemove s.entries box elem }
  let e := s.elements elem
  if e.magic ≠ PTRBOX_MAGIC then
    (unlink ++ [.free elem], freeBlock tlsf spoil elem s)
  else
    let (payload, s) := match e.type with
      | .pages => ([Access.read elem .ptr, .read elem .len],
          { s with frames := heap.mmFreeFrame s.frames e.ptr.toNat (e.len.toNat / PAGESIZE) })
      | .heap =>
        if nonzero : e.ptr ≠ 0 then
          ([Access.read elem .ptr, .free ⟨e.ptr, nonzero⟩], freeBlock tlsf spoil ⟨e.ptr, nonzero⟩ s)
        else
          ([Access.read elem .ptr], s)
      | .any => ([], s)
    let s := { s with ptrCount := Function.update s.ptrCount box (s.ptrCount box - 1) }
    (unlink ++ [.read elem .type] ++ payload ++ [.free elem], freeBlock tlsf spoil elem s)

def releaseLoop (box : η) (type : PtrboxType) :
    Nat → Option Pointer → BoxState σ τ η → List Access × BoxState σ τ η
  | _, none, s => ([], s)
  | 0, some _, s => ([], s)
  | fuel + 1, some elem, s =>
    let (body, s) := if (s.elements elem).type = type ∨ type = .any then
        boxFreeSingle heap tlsf spoil box elem s
      else
        ([], s)
    let (rest, s') := releaseLoop box type fuel (s.entries.tqe_next elem) s
    (.read elem .type :: body ++ .read elem .next :: rest, s')

def exBoxRelease (fuel : Nat) (box : Option η) (type : PtrboxType) (s : BoxState σ τ η) :
    List Access × BoxState σ τ η :=
  match box with
  | none => ([], s)
  | some box => releaseLoop heap tlsf spoil box type fuel (s.entries.tqh_first box) s

end Code

section Release

variable {σ τ η : Type} [DecidableEq η] {heap : FrameHeap σ} {tlsf : Tlsf τ} {box : η}
  {s : BoxState σ τ η} {t : PtrboxType} {spoil : Pointer → BoxState σ τ η → BoxState σ τ η}

private theorem boxFreeSingle_state (elem : Pointer) :
    (boxFreeSingle heap tlsf (fun _ s => s) box elem s).2 = Box.boxFreeSingle heap tlsf
    box elem s := by
  rw [boxFreeSingle, Box.boxFreeSingle]
  simp only
  split
  · rfl
  · cases (s.elements elem).type with
    | pages => rfl
    | heap =>
      simp only [freePtr]
      split <;> rfl
    | any => rfl

private theorem releaseLoop_state {fuel : Nat} {cur : Option Pointer} {s' : BoxState σ τ η}
    (done : Box.releaseLoop heap tlsf box t fuel cur s = some s') :
    (releaseLoop heap tlsf (fun _ s => s) box t fuel cur s).2 = s' := by
  induction fuel generalizing cur s with
  | zero =>
    cases cur with
    | none => exact Option.some.inj done
    | some elem => cases done
  | succ fuel ih =>
    cases cur with
    | none => exact Option.some.inj done
    | some elem =>
      rw [Box.releaseLoop] at done
      rw [releaseLoop]
      split at done
      · rename_i released
        rw [← boxFreeSingle_state] at done
        simp only [if_pos released]
        exact ih done
      · rename_i other
        simp only [if_neg other]
        exact ih done

private theorem free_mem_boxFreeSingle (elem : Pointer) :
    Access.free elem ∈ (boxFreeSingle heap tlsf spoil box elem s).1 := by
  rw [boxFreeSingle]
  simp only
  split
  · exact List.mem_append_right _ (List.mem_singleton_self _)
  · exact List.mem_append_right _ (List.mem_singleton_self _)

private theorem releaseLoop_reads (heap : FrameHeap σ) (tlsf : Tlsf τ)
    (spoil : Pointer → BoxState σ τ η → BoxState σ τ η) (kept todo : List Pointer)
    (queue : Holds s.entries box (kept ++ todo))
    (released : ∃ elem ∈ todo, (s.elements elem).type = t ∨ t = .any) : ∃ fuel before elem after,
      (releaseLoop heap tlsf spoil box t fuel todo.head? s).1 = before ++ .read elem
      .next :: after ∧
      Access.free elem ∈ before := by
  induction todo generalizing kept with
  | nil =>
    obtain ⟨_, none, _⟩ := released
    cases none
  | cons elem todo ih =>
    by_cases here : (s.elements elem).type = t ∨ t = .any
    · let freed := boxFreeSingle heap tlsf spoil box elem s
      let rest := releaseLoop heap tlsf spoil box t 0 (freed.2.entries.tqe_next elem) freed.2
      refine ⟨1, .read elem .type :: freed.1, elem, rest.1, ?_,
        List.mem_cons_of_mem _ (free_mem_boxFreeSingle elem)⟩
      rw [List.head?_cons, releaseLoop]
      simp only [if_pos here]
      rfl
    · have later : ∃ elem ∈ todo, (s.elements elem).type = t ∨ t = .any := by
        obtain ⟨other, member, hit⟩ := released
        rcases List.mem_cons.mp member with rfl | member
        · exact absurd hit here
        · exact ⟨other, member, hit⟩
      obtain ⟨fuel, before, freed, after, run, inside⟩ := ih (kept ++ [elem])
        (by rwa [List.append_assoc]) later
      refine ⟨fuel + 1, .read elem .type :: .read elem .next :: before, freed, after, ?_,
        List.mem_cons_of_mem _ (List.mem_cons_of_mem _ inside)⟩
      rw [List.head?_cons, releaseLoop]
      simp only [if_neg here, queue.chained.next_eq, run]
      rfl

private theorem releaseLoop_frees_none (heap : FrameHeap σ) (tlsf : Tlsf τ)
    (spoil : Pointer → BoxState σ τ η → BoxState σ τ η) (kept todo : List Pointer)
    (queue : Holds s.entries box (kept ++ todo))
    (none : ∀ elem ∈ todo, ¬((s.elements elem).type = t ∨ t = .any)) (fuel : Nat)
    (block : Pointer) :
    Access.free block ∉ (releaseLoop heap tlsf spoil box t fuel todo.head? s).1 := by
  induction todo generalizing kept fuel with
  | nil => cases fuel <;> exact List.not_mem_nil
  | cons elem todo ih =>
    cases fuel with
    | zero => exact List.not_mem_nil
    | succ fuel =>
      have rest := ih (kept ++ [elem]) (by rwa [List.append_assoc])
        (fun other member => none other (List.mem_cons_of_mem _ member)) fuel
      rw [List.head?_cons, releaseLoop]
      simp only [if_neg (none elem List.mem_cons_self), queue.chained.next_eq]
      simpa using rest

/-- For any contents of a box, and whatever becomes of freed blocks: no freed descriptor is
read exactly if the box has no descriptor of the type to be released. -/
theorem release_reads_freed_iff {xs : List Pointer} (queue : Holds s.entries box xs) :
    (∀ fuel, NoReadAfterFree (exBoxRelease heap tlsf spoil fuel (some box) t s).1) ↔
      ∀ elem ∈ xs, ¬((s.elements elem).type = t ∨ t = .any) := by
  have first := queue.chained.first_eq
  constructor
  · intro safe elem member released
    obtain ⟨fuel, before, freed, after, run, inside⟩ :=
      releaseLoop_reads heap tlsf spoil [] xs queue ⟨elem, member, released⟩
    rw [← first] at run
    exact safe fuel before freed .next after run inside
  · intro none fuel before elem field after split inside
    have frees := releaseLoop_frees_none heap tlsf spoil [] xs queue none fuel elem
    rw [← first] at frees
    apply frees
    change Access.free elem ∈ (exBoxRelease heap tlsf spoil fuel (some box) t s).1
    rw [split]
    exact List.mem_append_left _ inside

end Release

private theorem filledBox_queue : Holds (filledBox .heap).entries () [⟨0x10000, by decide⟩] :=
  (holds_init _ ()).insertTail List.not_mem_nil

private theorem filledBox_type :
    ((filledBox .heap).elements ⟨0x10000, by decide⟩).type = .heap := by
  decide +kernel

theorem release_reads_freed_iff_pages : NoReadAfterFree
    (exBoxRelease bitmapHeap twoPool (fun _ s => s) 2 (some ()) .pages (filledBox .heap)).1 := by
  apply (release_reads_freed_iff filledBox_queue).mpr
  intro elem member
  rw [List.mem_singleton.mp member, filledBox_type]
  decide

/-- The descriptor of a pool block is read after it was freed. -/
theorem released_descriptor_read : ¬∀ fuel, NoReadAfterFree
    (exBoxRelease bitmapHeap twoPool (fun _ s => s) fuel (some ()) .heap (filledBox .heap)).1 := by
  intro safe
  obtain ⟨fuel, before, elem, after, run, inside⟩ := releaseLoop_reads bitmapHeap twoPool
    (fun _ s => s) [] _ filledBox_queue ⟨_, List.mem_cons_self, Or.inl filledBox_type⟩
  exact safe fuel before elem .next after run inside

end Algae.Ex.BoxTrace
