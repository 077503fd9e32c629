/- What building page tables takes from the allocator, and which memory it leaves alone. -/

import Algae.Mm.Heap
import Algae.Platform.AddressSpaces

set_option autoImplicit false
set_option relaxedAutoImplicit false

namespace Algae.Platform.TableFrames

open Algae.Lib.ByteMemory Algae.Lib.FirstFit Algae.Lib.RadixForest
open Algae.Sdk.Defs Algae.Mm.Frames Algae.Mm.Heap
open Algae.Platform.Mmu Algae.Platform.PageTables Algae.Platform.AddressSpaces

section Held

variable {σ : Type} {src : FrameSource σ}

theorem held_setEntry (s : σ) (t i : Nat) (e : BitVec 64) (f : Nat) :
    src.held (setEntry src s t i e) f ↔ src.held s f := by
  rw [setEntry, src.held_setMem]

private theorem descend_held {v : BitVec 64} {alloc : Bool} {f : Nat}
    (levels : List MapLevel) (table : Nat)
    {s : σ} (held : src.held s f) : src.held (descend src v alloc levels table s).2 f := by
  induction levels generalizing table s with
  | nil => exact held
  | cons level levels ih =>
    by_cases present : has (entry (src.mem s) table (hwIndex v level)) PTE_P = true
    · rw [descend_present present]
      exact ih _ held
    · have absent := Bool.eq_false_of_not_eq_true present
      cases alloc with
      | false => rwa [descend_missing absent]
      | true =>
        by_cases zero : (src.mmAllocFrame s 1).1 = 0
        · rw [descend_refused absent zero]
          exact src.stays_held s 1 f held
        · rw [descend_linked absent zero]
          exact ih _ ((linked_held _ _ _ _ _).mpr (src.stays_held s 1 f held))

theorem mmuMapSingle_held {vas : Option MmuVas} {vBase pBase : BitVec 64} {mFlags f : Nat} {s : σ}
    (held : src.held s f) : src.held (mmuMapSingle src vas vBase pBase mFlags s).2 f := by
  cases vas with
  | none => exact held
  | some vas =>
    have kept : src.held (mmuGetLevelPhys src (some vas)
        (alignDown vBase (BitVec.ofNat 64 PAGESIZE)) .pt true s).2 f := descend_held _ _ held
    rw [mmuMapSingle]
    simp only
    split
    · exact kept
    · exact (held_setEntry _ _ _ _ _).mpr kept

theorem copyUpper_held (p c n : Nat) (s : σ) (f : Nat) :
    src.held (copyUpper src p c s n) f ↔ src.held s f := by
  induction n with
  | zero => rfl
  | succ n ih => rw [copyUpper, held_setEntry, ih]

theorem mmuCreateVas_refused {cr3 : BitVec 64} {s : σ} (zero : (src.mmAllocFrame s 1).1 = 0) :
    mmuCreateVas src cr3 s = (.noMemory, none, (src.mmAllocFrame s 1).2) := by
  rw [mmuCreateVas]
  exact if_pos zero

theorem mmuCreateVas_made {cr3 : BitVec 64} {s : σ} (nonzero : (src.mmAllocFrame s 1).1 ≠ 0) :
    mmuCreateVas src cr3 s = (.success, some ⟨BitVec.ofNat 64 (src.mmAllocFrame s 1).1⟩,
      copyUpper src (src.mmAllocFrame s 1).1 (cr3 &&& PTE_ADDR_MASK).toNat (src.mmAllocFrame s 1).2
        512) := by
  rw [mmuCreateVas]
  exact if_neg nonzero

theorem descend_lookup_congr {v : BitVec 64} (levels : List MapLevel) (table : Nat) {s s' : σ}
    (same : src.mem s' = src.mem s) :
    (descend src v false levels table s').1 = (descend src v false levels table s).1 := by
  induction levels generalizing table with
  | nil => rfl
  | cons level levels ih =>
    by_cases present : has (entry (src.mem s) table (hwIndex v level)) PTE_P = true
    · rw [descend_present present, descend_present (same ▸ present), same]
      exact ih _
    · have absent := Bool.eq_false_of_not_eq_true present
      rw [descend_missing absent, descend_missing (same ▸ absent)]

end Held

section Apart

variable {σ : Type} (src : FrameSource σ) (base : Mem) (boot : Nat) (roots : Set Nat)

structure Apart (s : σ) (f : Nat) : Prop where
  held : src.held s f
  no_table : ∀ t, Table base boot roots (src.mem s) t → t / PAGESIZE ≠ f

/-- The frames apart from the page tables stay so, with the bytes that they hold. -/
def ApartKept (s s' : σ) : Prop :=
  ∀ f, Apart src base boot roots s f → Apart src base boot roots s' f ∧
    ∀ x, x / PAGESIZE = f → src.mem s' x = src.mem s x

variable {src base boot roots} {s : σ}

theorem ApartKept.refl : ApartKept src base boot roots s s := fun _ apart => ⟨apart, fun _ _ => rfl⟩

theorem ApartKept.trans {s' s'' : σ} (first : ApartKept src base boot roots s s')
    (second : ApartKept src base boot roots s' s'') : ApartKept src base boot roots s s'' := by
  intro f apart
  obtain ⟨apart', same⟩ := first f apart
  obtain ⟨apart'', same'⟩ := second f apart'
  exact ⟨apart'', fun x here => (same' x here).trans (same x here)⟩

private theorem ApartKept.of_nodes {s' : σ} (held : ∀ f, src.held s f → src.held s' f)
    (nodes : ∀ t, Node (slot (src.mem s')) LowerPath roots t →
      Node (slot (src.mem s)) LowerPath roots t ∨ ¬src.held s (t / PAGESIZE))
    (same : ∀ x, Apart src base boot roots s (x / PAGESIZE) → src.mem s' x = src.mem s x) :
    ApartKept src base boot roots s s' := by
  intro f apart
  refine ⟨⟨held f apart.held, ?_⟩, fun x here => same x (here ▸ apart)⟩
  rintro t (node | shared) here
  · rcases nodes t node with old | new
    · exact apart.no_table t (Or.inl old) here
    · exact new (here ▸ apart.held)
  · exact apart.no_table t (Or.inr shared) here

theorem setEntry_other_frame {t i x : Nat} {e : BitVec 64} (page : t = t / PAGESIZE * PAGESIZE)
    (hi : i < 512) (other : t / PAGESIZE ≠ x / PAGESIZE) :
    src.mem (setEntry src s t i e) x = src.mem s x := by
  rw [setEntry, src.mem_setMem, store64]
  refine storeLE_outside _ _ ?_
  rw [PAGESIZE] at page other
  omega

theorem Spaces.alloc_apart (inv : Spaces src base boot roots s) (count : Nat) :
    ApartKept src base boot roots s (src.mmAllocFrame s count).2 := by
  obtain ⟨_, moved, _⟩ := inv.alloc count
  refine ApartKept.of_nodes (src.stays_held s count) ?_ fun x apart =>
    src.keeps_mem s count x apart.held
  rintro t ⟨r, hr, ds, path, there⟩
  exact Or.inl ⟨r, hr, ds, path, (moved r hr ds path).symm.trans there⟩

theorem Spaces.block_apart (inv : Spaces src base boot roots s) {count : Nat}
    (nonzero : (src.mmAllocFrame s count).1 ≠ 0) :
    ∃ i, (src.mmAllocFrame s count).1 = i * PAGESIZE ∧ (i + count) * PAGESIZE ≤ 0x10000000000000 ∧
      ∀ f ∈ span i count, ¬src.held s f ∧
        Apart src base boot roots (src.mmAllocFrame s count).2 f := by
  obtain ⟨i, ret, limit, fresh⟩ := src.fresh s count nonzero
  obtain ⟨_, moved, _⟩ := inv.alloc count
  refine ⟨i, ret, limit, fun f inside => ?_⟩
  obtain ⟨unheld, held⟩ := fresh f inside
  refine ⟨unheld, held, ?_⟩
  rintro t (⟨r, hr, ds, path, there⟩ | shared) rfl
  · exact unheld (inv.table t ⟨r, hr, ds, path, (moved r hr ds path).symm.trans there⟩).held
  · exact unheld (inv.shared_held t shared)

private theorem descend_apart {v : BitVec 64} (lower : Lower v) {r : Nat} (hr : r ∈ roots)
    (alloc : Bool)
    (levels done : List MapLevel) (whole : done ++ levels = [.pml4, .pdpt, .pd]) {table : Nat}
    (inv : Spaces src base boot roots s)
    (here : follow (slot (src.mem s)) r (done.map (hwIndex v)) = some table) :
    ApartKept src base boot roots s (descend src v alloc levels table s).2 := by
  induction levels generalizing done table s with
  | nil => exact ApartKept.refl
  | cons level levels ih =>
    obtain ⟨whole', _, path⟩ := lower.path_split whole
    have next : (done ++ [level]).map (hwIndex v) = done.map (hwIndex v) ++ [hwIndex v level] :=
      List.map_append
    by_cases present : has (entry (src.mem s) table (hwIndex v level)) PTE_P = true
    · rw [descend_present present]
      exact ih (done ++ [level]) whole' inv (follow_present here present)
    · have absent := Bool.eq_false_of_not_eq_true present
      cases alloc with
      | false =>
        rw [descend_missing absent]
        exact ApartKept.refl
      | true =>
        obtain ⟨inv₁, moved₁, _⟩ := inv.alloc 1
        by_cases zero : (src.mmAllocFrame s 1).1 = 0
        · rw [descend_refused absent zero]
          exact Spaces.alloc_apart inv 1
        · have node : Node (slot (src.mem s)) LowerPath roots table :=
            ⟨r, hr, _, lowerPath.init path, here⟩
          have own := inv.table table node
          obtain ⟨_, unheld, _, _⟩ := frame_page src s zero
          have here₁ := (moved₁ r hr _ (lowerPath.init path)).trans here
          have absent₁ :
            has (entry (src.mem (src.mmAllocFrame s 1).2) table (hwIndex v level)) PTE_P =
              false := by
            rw [entry_mmAllocFrame src s 1 own.page.aligned own.held (hwIndex_lt v level)]
            exact absent
          obtain ⟨inv₂, there, _, nodes⟩ :=
            inv₁.link_fresh hr path here₁ absent₁ (inv.fresh_frame zero)
          rw [descend_linked absent zero]
          refine ApartKept.trans (ApartKept.of_nodes ?_ ?_ ?_)
            (ih (done ++ [level]) whole' inv₂ (next ▸ there))
          · exact fun f held => (linked_held _ _ _ _ f).mpr (src.stays_held s 1 f held)
          · intro t linked
            rcases nodes t linked with rfl | ⟨r', hr', ds, path', old⟩
            · exact Or.inr unheld
            · exact Or.inl ⟨r', hr', ds, path', (moved₁ r' hr' ds path').symm.trans old⟩
          · intro x apart
            have other := apart.no_table table (Or.inl node)
            rw [linked, setEntry_other_frame own.page.aligned (hwIndex_lt v level) other,
              setEntry_other_frame own.page.aligned (hwIndex_lt v level) other]
            exact src.keeps_mem s 1 x apart.held

theorem mmuMapSingle_apart (inv : Spaces src base boot roots s) {r : Nat} (hr : r ∈ roots)
    {v : BitVec 64} (lower : Lower v) (pBase : BitVec 64) (mFlags : Nat) :
    ApartKept src base boot roots s
      (mmuMapSingle src (some ⟨BitVec.ofNat 64 r⟩) v pBase mFlags s).2 := by
  obtain ⟨inv', _, found, _⟩ := descent inv hr lower true _ rfl
  have descended : ApartKept src base boot roots s (mmuGetLevelPhys src (some ⟨BitVec.ofNat 64 r⟩)
      (alignDown v (BitVec.ofNat 64 PAGESIZE)) .pt true s).2 := by
    simp only [mmuGetLevelPhys, MapLevel.above, (inv.root_page hr).toNat]
    exact descend_apart (Lower.alignDown lower) hr true [.pml4, .pdpt, .pd] [] rfl inv rfl
  rw [mmuMapSingle]
  simp only
  split
  · exact descended
  · rename_i nonzero
    have there := found.resolve_left nonzero
    have node : Node _ LowerPath roots _ := ⟨r, hr, _, lower.tablePath, there⟩
    refine descended.trans ?_
    rw [mmuGetLevelIdx_eq, hwIndex_alignDown]
    obtain ⟨_, moved, _⟩ := inv'.store_leaf lower hr there
      (alignDown pBase (BitVec.ofNat 64 PAGESIZE) ||| mmuGetTableFlags mFlags)
    refine ApartKept.of_nodes (fun f held => (held_setEntry _ _ _ _ f).mpr held) ?_ ?_
    · rintro t ⟨r', hr', ds, path, after⟩
      exact Or.inl ⟨r', hr', ds, path, (moved r' hr' ds path).symm.trans after⟩
    · intro x apart
      exact setEntry_other_frame (inv'.table _ node).page.aligned (hwIndex_lt v .pt)
        (apart.no_table _ (Or.inl node))

theorem Spaces.write_apart (inv : Spaces src base boot roots s) {m : Mem}
    (outside : ∀ x, ¬Apart src base boot roots s (x / PAGESIZE) → m x = src.mem s x) :
    Spaces src base boot roots (src.setMem s m) ∧ LeavesKept roots (src.mem s) m ∧
    ∀ f, Apart src base boot roots s f → Apart src base boot roots (src.setMem s m) f := by
  have same : ∀ t, Table base boot roots (src.mem s) t → ∀ i < 512,
      entry (src.mem (src.setMem s m)) t i = entry (src.mem s) t i := by
    intro t table i hi
    have page := inv.table_page table
    rw [src.mem_setMem]
    exact entry_congr page hi fun x frame => outside x fun apart =>
      apart.no_table t table frame.symm
  obtain ⟨inv', moved, leaves⟩ := inv.quiet (src.setMem s m)
    (fun t table => (src.held_setMem _ _ _).mpr (inv.table_held table)) same
  rw [src.mem_setMem] at leaves moved
  refine ⟨inv', leaves, fun f apart => ⟨(src.held_setMem _ _ _).mpr apart.held, ?_⟩⟩
  rw [src.mem_setMem]
  rintro t (⟨r, hr, ds, path, there⟩ | shared)
  · exact apart.no_table t (Or.inl ⟨r, hr, ds, path, (moved r hr ds path).symm.trans there⟩)
  · exact apart.no_table t (Or.inr shared)

end Apart

section Room

variable {σ : Type} {heap : FrameHeap σ}

private theorem room_setEntry (s : σ) (t i : Nat) (e : BitVec 64) :
    heap.room (setEntry heap.toFrameSource s t i e) = heap.room s := by
  rw [setEntry, heap.room_setMem]

private theorem room_linked (s : σ) (n d p : Nat) :
    heap.room (linked heap.toFrameSource s n d p) = heap.room s := by
  rw [linked, room_setEntry, room_setEntry]

theorem room_copyUpper (p c n : Nat) (s : σ) :
    heap.room (copyUpper heap.toFrameSource p c s n) = heap.room s := by
  induction n with
  | zero => rfl
  | succ n ih => rw [copyUpper, room_setEntry, ih]

theorem managed_descend {v : BitVec 64} {alloc : Bool} {f : Nat}
    (levels : List MapLevel) (table : Nat)
    (s : σ) : heap.managed (descend heap.toFrameSource v alloc levels table s).2 f ↔
    heap.managed s f := by
  induction levels generalizing table s with
  | nil => rfl
  | cons level levels ih =>
    by_cases present : has (entry (heap.mem s) table (hwIndex v level)) PTE_P = true
    · rw [descend_present present, ih]
    · have absent := Bool.eq_false_of_not_eq_true present
      cases alloc with
      | false => rw [descend_missing absent]
      | true =>
        by_cases zero : (heap.mmAllocFrame s 1).1 = 0
        · rw [descend_refused absent zero, heap.managed_alloc]
        · rw [descend_linked absent zero, ih, linked, setEntry, setEntry, heap.managed_setMem,
            heap.managed_setMem, heap.managed_alloc]

theorem descend_exhausted {v : BitVec 64} (levels : List MapLevel) (table : Nat) {s : σ}
    (room : heap.room s = 0) :
    (descend heap.toFrameSource v true levels table s).1 =
      (descend heap.toFrameSource v false levels table s).1 ∧
    ∀ f, heap.held (descend heap.toFrameSource v true levels table s).2 f ↔ heap.held s f := by
  induction levels generalizing table s with
  | nil => exact ⟨rfl, fun _ => Iff.rfl⟩
  | cons level levels ih =>
    by_cases present : has (entry (heap.mem s) table (hwIndex v level)) PTE_P = true
    · rw [descend_present present, descend_present present]
      exact ih _ room
    · have absent := Bool.eq_false_of_not_eq_true present
      have zero := (heap.room_refused s).mpr room
      rw [descend_refused absent zero, descend_missing absent]
      exact ⟨rfl, heap.refused_held zero⟩

private theorem descend_absent_refused {v : BitVec 64} (levels : List MapLevel) {level : MapLevel}
    {table : Nat} {s : σ} (absent : has (entry (heap.mem s) table (hwIndex v level)) PTE_P = false)
    (zero : (heap.mmAllocFrame s 1).1 = 0) :
    (descend heap.toFrameSource v true (level :: levels) table s).1 = 0 ↔
      heap.room s < levels.length + 1 := by
  rw [descend_refused absent zero, (heap.room_refused s).mp zero]
  exact iff_of_true rfl (Nat.succ_pos _)

theorem descend_absent {v : BitVec 64} (levels : List MapLevel)
    (level : MapLevel) {table : Nat} {s : σ}
    (page : table = table / PAGESIZE * PAGESIZE) (held : heap.held s (table / PAGESIZE))
    (absent : has (entry (heap.mem s) table (hwIndex v level)) PTE_P = false) :
    (descend heap.toFrameSource v true (level :: levels) table s).1 = 0 ↔
      heap.room s < levels.length + 1 := by
  induction levels generalizing level table s with
  | nil =>
    by_cases zero : (heap.mmAllocFrame s 1).1 = 0
    · exact descend_absent_refused _ absent zero
    · have room := mt (heap.room_refused s).mpr zero
      rw [descend_linked absent zero]
      refine iff_of_false zero ?_
      change ¬heap.room s < 1
      omega
  | cons next levels ih =>
    by_cases zero : (heap.mmAllocFrame s 1).1 = 0
    · exact descend_absent_refused _ absent zero
    · have room := mt (heap.room_refused s).mpr zero
      obtain ⟨new, unheld, taken, empty⟩ := frame_page heap.toFrameSource s zero
      have apart : (heap.mmAllocFrame s 1).1 ≠ table := by
        intro same
        exact unheld (same ▸ held)
      have missing : has (entry (heap.mem (linked heap.toFrameSource (heap.mmAllocFrame s 1).2 table
          (hwIndex v level) (heap.mmAllocFrame s 1).1)) (heap.mmAllocFrame s 1).1 (hwIndex v next))
          PTE_P = false := by
        rw [linked_other _ _ page new.aligned (hwIndex_lt v level) (hwIndex_lt v next)
          (Or.inl apart), empty _ (hwIndex_lt v next)]
        decide
      rw [descend_linked absent zero,
        ih next new.aligned ((linked_held _ _ _ _ _).mpr taken) missing,
        room_linked, heap.room_alloc, List.length_cons]
      omega

theorem descend_room {base : Mem} {boot : Nat} {roots : Set Nat} {s : σ}
    (inv : Spaces heap.toFrameSource base boot roots s) {r : Nat} (hr : r ∈ roots) {v : BitVec 64}
    (lower : Lower v) (levels done : List MapLevel)
    (whole : done ++ levels = [.pml4, .pdpt, .pd]) {table : Nat}
    (here : follow (slot (heap.mem s)) r (done.map (hwIndex v)) = some table)
    (room : levels.length ≤ heap.room s) :
    (descend heap.toFrameSource v true levels table s).1 ≠ 0 := by
  induction levels generalizing done table with
  | nil =>
    exact (inv.table table ⟨r, hr, _, lower.tablePath, tablePath_whole whole ▸ here⟩).nonzero
  | cons level levels ih =>
    obtain ⟨whole', _, path⟩ := lower.path_split whole
    have own := inv.table table ⟨r, hr, _, lowerPath.init path, here⟩
    by_cases present : has (entry (heap.mem s) table (hwIndex v level)) PTE_P = true
    · rw [descend_present present]
      exact ih (done ++ [level]) whole' (follow_present here present) (Nat.le_of_succ_le room)
    · rw [ne_eq, descend_absent levels level own.page.aligned own.held
        (Bool.eq_false_of_not_eq_true present)]
      exact Nat.not_lt.mpr room

end Room

end Algae.Platform.TableFrames
