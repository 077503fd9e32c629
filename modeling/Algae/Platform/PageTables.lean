/- The page tables as radix trees: the invariant of the lower halves of all
   address spaces, what one descent changes, and the meaning of a leaf entry. -/

import Algae.Lib.RadixForest
import Algae.Platform.Mmu

set_option autoImplicit false
set_option relaxedAutoImplicit false

namespace Algae.Platform.PageTables

open Algae.Lib.ByteMemory Algae.Lib.RadixForest
open Algae.Sdk.Defs Algae.Mm.Frames Algae.Platform.Mmu

section Words

theorem toNat_mask (e : BitVec 64) :
    (e &&& PTE_ADDR_MASK).toNat = e.toNat % 0x10000000000000 / 4096 * 4096 := by
  have shifts : e.toNat % 0x10000000000000 / 4096 * 4096 =
      (e.toNat % 2 ^ 52) >>> 12 <<< 12 := by
    rw [Nat.shiftLeft_eq, Nat.shiftRight_eq_div_pow]
    norm_num
  rw [shifts, BitVec.toNat_and]
  apply Nat.eq_of_testBit_eq
  intro i
  rw [Nat.testBit_and, Nat.testBit_shiftLeft, Nat.testBit_shiftRight, Nat.testBit_mod_two_pow]
  have bits : PTE_ADDR_MASK.toNat.testBit i = decide (12 ≤ i ∧ i < 52) := by
    by_cases small : i < 64
    · have table : ∀ i < 64, PTE_ADDR_MASK.toNat.testBit i = decide (12 ≤ i ∧ i < 52) := by decide
      exact table i small
    · have out : ¬(12 ≤ i ∧ i < 52) := by omega
      rw [decide_eq_false out]
      apply Nat.testBit_lt_two_pow
      exact lt_of_lt_of_le PTE_ADDR_MASK.isLt (Nat.pow_le_pow_right (by norm_num) (by omega))
  rw [bits]
  by_cases low : 12 ≤ i
  · have back : i - 12 + 12 = i := by omega
    have swap : 12 + (i - 12) = i := by omega
    simp [low, swap, Bool.and_comm]
  · simp [low]

/-- A page-aligned physical address below the architectural limit. -/
structure IsPage (p : Nat) : Prop where
  aligned : p = p / PAGESIZE * PAGESIZE
  limit : p < 0x10000000000000

theorem isPage_mask (e : BitVec 64) : IsPage (e &&& PTE_ADDR_MASK).toNat := by
  rw [toNat_mask]
  refine ⟨?_, ?_⟩
  · rw [PAGESIZE]
    omega
  · omega

theorem IsPage.toNat {p : Nat} (page : IsPage p) : (BitVec.ofNat 64 p).toNat = p := by
  have := page.limit
  rw [BitVec.toNat_ofNat]
  exact Nat.mod_eq_of_lt (by omega)

theorem IsPage.masked {p : Nat} (page : IsPage p) :
    BitVec.ofNat 64 p &&& PTE_ADDR_MASK = BitVec.ofNat 64 p := by
  apply BitVec.eq_of_toNat_eq
  have aligned := page.aligned
  have limit := page.limit
  rw [PAGESIZE] at aligned
  rw [toNat_mask, page.toNat]
  omega

def Flags (f : BitVec 64) : Prop := f &&& PTE_ADDR_MASK = 0#64

theorem IsPage.or_mask {p : Nat} (page : IsPage p) {f : BitVec 64} (flags : Flags f) :
    ((BitVec.ofNat 64 p ||| f) &&& PTE_ADDR_MASK).toNat = p := by
  rw [BitVec.and_or_distrib_right, page.masked, flags, BitVec.or_zero, page.toNat]

theorem IsPage.or_has {p : Nat} (page : IsPage p) (f : BitVec 64) {flag : BitVec 64}
    (flags : Flags flag) : has (BitVec.ofNat 64 p ||| f) flag = has f flag := by
  have none : BitVec.ofNat 64 p &&& flag = 0#64 := by
    rw [← page.masked, BitVec.and_assoc, BitVec.and_comm _ flag, flags, BitVec.and_zero]
  rw [has, has, BitVec.and_or_distrib_right, none, BitVec.zero_or]

theorem mmuGetLevelIdx_eq (virtAddr : BitVec 64) (level : MapLevel) :
    mmuGetLevelIdx virtAddr level = hwIndex virtAddr level := by
  have low : ∀ (v : BitVec 64) (k : Nat), ((v >>> k) &&& 0x1FF).toNat = v.toNat / 2 ^ k % 512 := by
    intro v k
    rw [BitVec.toNat_and, BitVec.toNat_ushiftRight, Nat.shiftRight_eq_div_pow]
    exact Nat.and_two_pow_sub_one_eq_mod _ 9
  cases level with
  | pt => exact low virtAddr 12
  | pd => exact low virtAddr 21
  | pdpt => exact low virtAddr 30
  | pml4 => exact low virtAddr 39

theorem hwIndex_lt (virtAddr : BitVec 64) (level : MapLevel) : hwIndex virtAddr level < 512 :=
  Nat.mod_lt _ (by norm_num)

def Lower (virtAddr : BitVec 64) : Prop := virtAddr.toNat < 0x800000000000

instance (virtAddr : BitVec 64) : Decidable (Lower virtAddr) :=
  inferInstanceAs (Decidable (virtAddr.toNat < _))

def pageOf (virtAddr : BitVec 64) : Nat := virtAddr.toNat / 4096

theorem Lower.pml4 {v : BitVec 64} (lower : Lower v) : hwIndex v .pml4 < 256 := by
  simp only [Lower, hwIndex, MapLevel.shift] at *
  omega

theorem pageOf_eq_iff {v v' : BitVec 64} (lower : Lower v) (lower' : Lower v') :
    pageOf v = pageOf v' ↔ hwIndex v .pml4 = hwIndex v' .pml4 ∧ hwIndex v .pdpt = hwIndex v' .pdpt ∧
      hwIndex v .pd = hwIndex v' .pd ∧ hwIndex v .pt = hwIndex v' .pt := by
  simp only [Lower, pageOf, hwIndex, MapLevel.shift] at *
  norm_num
  omega

end Words

def slot (m : Mem) (table i : Nat) : Option Nat :=
  if has (entry m table i) PTE_P then some (entry m table i &&& PTE_ADDR_MASK).toNat else none

/-- The paths to the tables of a lower half: at most three indices. -/
def LowerPath (ds : List Nat) : Prop :=
  ds.length ≤ 3 ∧ (∀ d ∈ ds, d < 512) ∧ ∀ d ∈ ds.head?, d < 256

theorem lowerPath : PathSet LowerPath where
  nil := by simp [LowerPath]
  init := by
    intro ds d path
    obtain ⟨short, small, first⟩ := path
    refine ⟨?_, fun e he => small e (List.mem_append_left _ he), ?_⟩
    · rw [List.length_append] at short
      omega
    · cases ds with
      | nil => simp
      | cons e ds => exact first

/-- The indices that lead to the last-level table of `virtAddr`. -/
def tablePath (virtAddr : BitVec 64) : List Nat :=
  [hwIndex virtAddr .pml4, hwIndex virtAddr .pdpt, hwIndex virtAddr .pd]

theorem Lower.tablePath {v : BitVec 64} (lower : Lower v) : LowerPath (tablePath v) := by
  refine ⟨le_rfl, ?_, ?_⟩
  · intro d hd
    simp only [PageTables.tablePath, List.mem_cons, List.not_mem_nil, or_false] at hd
    rcases hd with rfl | rfl | rfl <;> exact hwIndex_lt _ _
  · intro d hd
    obtain rfl : hwIndex v .pml4 = d := Option.some.inj hd
    exact lower.pml4

theorem Lower.path_split {v : BitVec 64} (lower : Lower v) {level : MapLevel}
    {done levels : List MapLevel} (whole : done ++ level :: levels = [.pml4, .pdpt, .pd]) :
    done ++ [level] ++ levels = [.pml4, .pdpt, .pd] ∧
    PageTables.tablePath v = done.map (hwIndex v) ++ [hwIndex v level] ++ levels.map (hwIndex v) ∧
    LowerPath (done.map (hwIndex v) ++ [hwIndex v level]) := by
  have split : PageTables.tablePath v =
      done.map (hwIndex v) ++ [hwIndex v level] ++ levels.map (hwIndex v) := by
    have all : PageTables.tablePath v = (done ++ level :: levels).map (hwIndex v) := by
      rw [whole]
      rfl
    rw [all, List.map_append, List.map_cons, List.append_assoc, List.singleton_append]
  refine ⟨?_, split, lowerPath.of_append (split ▸ lower.tablePath)⟩
  rw [List.append_assoc, List.singleton_append]
  exact whole

theorem tablePath_whole {v : BitVec 64} {done : List MapLevel}
    (whole : done ++ [] = [.pml4, .pdpt, .pd]) :
    tablePath v = done.map (hwIndex v) := by
  rw [List.append_nil] at whole
  rw [whole]
  rfl

theorem follow_present {m : Mem} {v : BitVec 64} {r table : Nat} {level : MapLevel}
    {done : List MapLevel} (here : follow (slot m) r (done.map (hwIndex v)) = some table)
    (present : has (entry m table (hwIndex v level)) PTE_P = true) :
    follow (slot m) r ((done ++ [level]).map (hwIndex v)) =
      some (entry m table (hwIndex v level) &&& PTE_ADDR_MASK).toNat := by
  rw [List.map_append, List.map_singleton, follow_snoc, here, Option.bind_some, slot,
    if_pos present]

/-- The last-level entry of `virtAddr`; 0 where a table is missing. -/
def leafEntry (m : Mem) (root : Nat) (virtAddr : BitVec 64) : BitVec 64 :=
  match follow (slot m) root (tablePath virtAddr) with
  | none => 0
  | some t => entry m t (hwIndex virtAddr .pt)

/-- An entry that leads to a table and takes no right away. -/
structure Permissive (e : BitVec 64) : Prop where
  rw : has e PTE_RW = true
  us : has e PTE_US = true
  nx : has e PTE_NX = false
  ps : has e PTE_PS = false

/-- The tables that walks with the top table `boot` read in the memory `base`. -/
def Shared (base : Mem) (boot t : Nat) : Prop :=
  ∃ virtAddr, Visits base virtAddr [.pml4, .pdpt, .pd, .pt] boot t

section State

variable {σ : Type} (src : FrameSource σ)

structure OwnTable (base : Mem) (boot : Nat) (s : σ) (t : Nat) : Prop where
  page : IsPage t
  nonzero : t ≠ 0
  held : src.held s (t / PAGESIZE)
  own : ¬Shared base boot t

/-- The address spaces `roots` next to the one that `boot` is the top table of, which
in the memory `base` was current when the first of them was made. -/
structure Spaces (base : Mem) (boot : Nat) (roots : Set Nat) (s : σ) : Prop where
  forest : Forest (slot (src.mem s)) LowerPath roots
  table : ∀ t, Node (slot (src.mem s)) LowerPath roots t → OwnTable src base boot s t
  link : ∀ t i, Inner (slot (src.mem s)) LowerPath roots t i →
    has (entry (src.mem s) t i) PTE_P = true → Permissive (entry (src.mem s) t i)
  shared_page : ∀ t, Shared base boot t → t = t / PAGESIZE * PAGESIZE
  shared_held : ∀ t, Shared base boot t → src.held s (t / PAGESIZE)
  shared_same : ∀ t, Shared base boot t → ∀ i < 512, entry (src.mem s) t i = entry base t i
  upper : ∀ r ∈ roots, ∀ i, 256 ≤ i → i < 512 → entry (src.mem s) r i = entry base boot i

def Table (base : Mem) (boot : Nat) (roots : Set Nat) (m : Mem) (t : Nat) : Prop :=
  Node (slot m) LowerPath roots t ∨ Shared base boot t

/-! Reading an entry after a store and after an allocation. -/

theorem entry_setEntry_same (s : σ) (t i : Nat) (e : BitVec 64) :
    entry (src.mem (setEntry src s t i e)) t i = e := by
  rw [entry, setEntry, src.mem_setMem, load64_store64]

private theorem entries_apart {t t' i i' : Nat} (page : t = t / PAGESIZE * PAGESIZE)
    (page' : t' = t' / PAGESIZE * PAGESIZE) (hi : i < 512) (hi' : i' < 512)
    (other : t' ≠ t ∨ i' ≠ i) : t' + 8 * i' + 8 ≤ t + 8 * i ∨ t + 8 * i + 8 ≤ t' + 8 * i' := by
  rw [PAGESIZE] at page page'
  omega

theorem entry_setEntry_other (s : σ) {t t' i i' : Nat} (e : BitVec 64)
    (page : t = t / PAGESIZE * PAGESIZE) (page' : t' = t' / PAGESIZE * PAGESIZE) (hi : i < 512)
    (hi' : i' < 512) (other : t' ≠ t ∨ i' ≠ i) :
    entry (src.mem (setEntry src s t i e)) t' i' = entry (src.mem s) t' i' := by
  rw [entry, setEntry, src.mem_setMem,
    load64_store64_disjoint _ _ (entries_apart page page' hi hi' other), ← entry]

theorem entry_congr {m m' : Mem} {t i : Nat} (page : t = t / PAGESIZE * PAGESIZE) (hi : i < 512)
    (same : ∀ x, x / PAGESIZE = t / PAGESIZE → m' x = m x) : entry m' t i = entry m t i := by
  apply load64_congr
  intro k hk
  apply same
  rw [PAGESIZE] at *
  omega

theorem entry_mmAllocFrame (s : σ) (count : Nat) {t i : Nat} (page : t = t / PAGESIZE * PAGESIZE)
    (held : src.held s (t / PAGESIZE)) (hi : i < 512) :
    entry (src.mem (src.mmAllocFrame s count).2) t i = entry (src.mem s) t i := by
  apply entry_congr page hi
  intro x frame
  apply src.keeps_mem
  rwa [frame]

theorem frame_page (s : σ) (nonzero : (src.mmAllocFrame s 1).1 ≠ 0) :
    IsPage (src.mmAllocFrame s 1).1 ∧ ¬src.held s ((src.mmAllocFrame s 1).1 / PAGESIZE) ∧
    src.held (src.mmAllocFrame s 1).2 ((src.mmAllocFrame s 1).1 / PAGESIZE) ∧
    ∀ i < 512, entry (src.mem (src.mmAllocFrame s 1).2) (src.mmAllocFrame s 1).1 i = 0 := by
  obtain ⟨n, ret, limit, fresh⟩ := src.fresh s 1 nonzero
  have index : (src.mmAllocFrame s 1).1 / PAGESIZE = n := by
    rw [ret, Nat.mul_div_cancel _ page_pos]
  obtain ⟨unheld, held⟩ := fresh n ⟨le_rfl, Nat.lt_succ_self n⟩
  refine ⟨⟨by rw [index, ret], ?_⟩, index ▸ unheld, index ▸ held, ?_⟩
  · rw [ret]
    rw [Nat.add_mul] at limit
    have := page_pos
    omega
  · intro i hi
    apply load64_zero
    intro k hk
    refine src.zeroed s 1 _ nonzero (by omega) ?_
    rw [PAGESIZE]
    omega

end State

section Steps

variable {σ : Type} {src : FrameSource σ} {base : Mem} {boot : Nat} {roots : Set Nat} {s : σ}

theorem slot_of_entry {m m' : Mem} {t i : Nat} (same : entry m' t i = entry m t i) :
    slot m' t i = slot m t i := by
  rw [slot, slot, same]

private theorem inner_small {m : Mem} {t i : Nat} (inner : Inner (slot m) LowerPath roots t i) :
    i < 512 := by
  obtain ⟨_, _, ds, path, _⟩ := inner
  exact path.2.1 i (by simp)

theorem Spaces.table_page (inv : Spaces src base boot roots s) {t : Nat}
    (table : Table base boot roots (src.mem s) t) : t = t / PAGESIZE * PAGESIZE := by
  rcases table with node | shared
  · exact (inv.table t node).page.aligned
  · exact inv.shared_page t shared

theorem Spaces.table_held (inv : Spaces src base boot roots s) {t : Nat}
    (table : Table base boot roots (src.mem s) t) : src.held s (t / PAGESIZE) := by
  rcases table with node | shared
  · exact (inv.table t node).held
  · exact inv.shared_held t shared

theorem Spaces.frame (inv : Spaces src base boot roots s) (s' : σ)
    (held : ∀ t, Table base boot roots (src.mem s) t → src.held s' (t / PAGESIZE))
    (inner : ∀ t i, Inner (slot (src.mem s)) LowerPath roots t i →
      entry (src.mem s') t i = entry (src.mem s) t i)
    (upper : ∀ r ∈ roots, ∀ i, 256 ≤ i → i < 512 →
      entry (src.mem s') r i = entry (src.mem s) r i)
    (shared : ∀ t, Shared base boot t → ∀ i < 512,
      entry (src.mem s') t i = entry (src.mem s) t i) :
    Spaces src base boot roots s' ∧ ∀ r ∈ roots, ∀ ds, LowerPath ds →
      follow (slot (src.mem s')) r ds = follow (slot (src.mem s)) r ds := by
  have slots : ∀ t i, Inner (slot (src.mem s)) LowerPath roots t i →
      slot (src.mem s') t i = slot (src.mem s) t i := fun t i h => slot_of_entry (inner t i h)
  have moved : ∀ r ∈ roots, ∀ ds, LowerPath ds →
      follow (slot (src.mem s')) r ds = follow (slot (src.mem s)) r ds :=
    fun r hr ds path => follow_frame lowerPath slots hr path
  refine ⟨⟨?_, ?_, ?_, inv.shared_page, ?_, ?_, ?_⟩, moved⟩
  · exact inv.forest.frame lowerPath slots
  · rintro t ⟨r, hr, ds, path, there⟩
    rw [moved r hr ds path] at there
    have node : Node (slot (src.mem s)) LowerPath roots t := ⟨r, hr, ds, path, there⟩
    have table := inv.table t node
    exact ⟨table.page, table.nonzero, held t (Or.inl node), table.own⟩
  · rintro t i ⟨r, hr, ds, path, there⟩ present
    rw [moved r hr ds (lowerPath.init path)] at there
    have here : Inner (slot (src.mem s)) LowerPath roots t i := ⟨r, hr, ds, path, there⟩
    rw [inner t i here] at present ⊢
    exact inv.link t i here present
  · exact fun t h => held t (Or.inr h)
  · exact fun t h i hi => (shared t h i hi).trans (inv.shared_same t h i hi)
  · exact fun r hr i low high => (upper r hr i low high).trans (inv.upper r hr i low high)

theorem Spaces.quiet (inv : Spaces src base boot roots s) (s' : σ)
    (held : ∀ t, Table base boot roots (src.mem s) t → src.held s' (t / PAGESIZE))
    (same : ∀ t, Table base boot roots (src.mem s) t → ∀ i < 512,
      entry (src.mem s') t i = entry (src.mem s) t i) :
    Spaces src base boot roots s' ∧
      (∀ r ∈ roots, ∀ ds, LowerPath ds →
        follow (slot (src.mem s')) r ds = follow (slot (src.mem s)) r ds) ∧
      ∀ r ∈ roots, ∀ v, Lower v → leafEntry (src.mem s') r v = leafEntry (src.mem s) r v := by
  obtain ⟨inv', moved⟩ := inv.frame s' held
    (fun t i inner => same t (Or.inl (inner.node lowerPath)) i (inner_small inner))
    (fun r hr i _ high => same r (Or.inl ⟨r, hr, [], lowerPath.nil, rfl⟩) i high)
    (fun t shared => same t (Or.inr shared))
  refine ⟨inv', moved, ?_⟩
  intro r hr v lower
  rw [leafEntry, leafEntry, moved r hr _ lower.tablePath]
  cases there : follow (slot (src.mem s)) r (tablePath v) with
  | none => rfl
  | some t => exact same t (Or.inl ⟨r, hr, _, lower.tablePath, there⟩) _ (hwIndex_lt v .pt)

theorem Spaces.alloc (inv : Spaces src base boot roots s) (count : Nat) :
    Spaces src base boot roots (src.mmAllocFrame s count).2 ∧
      (∀ r ∈ roots, ∀ ds, LowerPath ds →
        follow (slot (src.mem (src.mmAllocFrame s count).2)) r ds =
          follow (slot (src.mem s)) r ds) ∧
      ∀ r ∈ roots, ∀ v, Lower v →
        leafEntry (src.mem (src.mmAllocFrame s count).2) r v = leafEntry (src.mem s) r v := by
  refine inv.quiet _ (fun t table => src.stays_held s count _ (inv.table_held table)) ?_
  intro t table i hi
  exact entry_mmAllocFrame src s count (inv.table_page table) (inv.table_held table) hi

/-- The state after the two stores that link table `p` into slot `d` of `n`. -/
def linked (src : FrameSource σ) (s : σ) (n d p : Nat) : σ :=
  setEntry src (setEntry src s n d (BitVec.ofNat 64 p)) n d
    (entry (src.mem (setEntry src s n d (BitVec.ofNat 64 p))) n d ||| (PTE_P ||| PTE_RW ||| PTE_US))

theorem linked_here (s : σ) (n d p : Nat) :
    entry (src.mem (linked src s n d p)) n d =
      BitVec.ofNat 64 p ||| (PTE_P ||| PTE_RW ||| PTE_US) := by
  rw [linked, entry_setEntry_same, entry_setEntry_same]

theorem linked_other (s : σ) {n d t i : Nat} (p : Nat) (page : n = n / PAGESIZE * PAGESIZE)
    (page' : t = t / PAGESIZE * PAGESIZE) (hd : d < 512) (hi : i < 512) (other : t ≠ n ∨ i ≠ d) :
    entry (src.mem (linked src s n d p)) t i = entry (src.mem s) t i := by
  rw [linked, entry_setEntry_other src _ _ page page' hd hi other,
    entry_setEntry_other src _ _ page page' hd hi other]

theorem linked_held (s : σ) (n d p f : Nat) :
    src.held (linked src s n d p) f ↔ src.held s f := by
  simp only [linked, setEntry, src.held_setMem]

private theorem link_flags : Flags PTE_P ∧ Flags PTE_RW ∧ Flags PTE_US ∧ Flags PTE_NX ∧
    Flags PTE_PS ∧ Flags (PTE_P ||| PTE_RW ||| PTE_US) := by
  unfold Flags
  decide

theorem link_entry {p : Nat} (page : IsPage p) :
    has (BitVec.ofNat 64 p ||| (PTE_P ||| PTE_RW ||| PTE_US)) PTE_P = true ∧
    Permissive (BitVec.ofNat 64 p ||| (PTE_P ||| PTE_RW ||| PTE_US)) ∧
    ((BitVec.ofNat 64 p ||| (PTE_P ||| PTE_RW ||| PTE_US)) &&& PTE_ADDR_MASK).toNat = p := by
  obtain ⟨present, rw, us, nx, ps, all⟩ := link_flags
  refine ⟨?_, ⟨?_, ?_, ?_, ?_⟩, page.or_mask all⟩
  · rw [page.or_has _ present]
    decide
  · rw [page.or_has _ rw]
    decide
  · rw [page.or_has _ us]
    decide
  · rw [page.or_has _ nx]
    decide
  · rw [page.or_has _ ps]
    decide

/-- A table that can be linked in: empty, and nobody else's. -/
structure FreshTable (src : FrameSource σ) (base : Mem) (boot : Nat) (roots : Set Nat) (s : σ)
    (p : Nat) : Prop where
  own : OwnTable src base boot s p
  unlinked : ¬Node (slot (src.mem s)) LowerPath roots p
  empty : ∀ i < 512, entry (src.mem s) p i = 0

theorem Spaces.link_fresh (inv : Spaces src base boot roots s) {r n d p : Nat} {ds : List Nat}
    (hr : r ∈ roots) (path : LowerPath (ds ++ [d])) (here : follow (slot (src.mem s)) r ds = some n)
    (unused : has (entry (src.mem s) n d) PTE_P = false)
    (fresh : FreshTable src base boot roots s p) :
    Spaces src base boot roots (linked src s n d p) ∧
    follow (slot (src.mem (linked src s n d p))) r (ds ++ [d]) = some p ∧
    (∀ r' ∈ roots, ∀ v, Lower v →
      leafEntry (src.mem (linked src s n d p)) r' v = leafEntry (src.mem s) r' v) ∧
    ∀ t, Node (slot (src.mem (linked src s n d p))) LowerPath roots t →
      t = p ∨ Node (slot (src.mem s)) LowerPath roots t := by
  have node : Node (slot (src.mem s)) LowerPath roots n := ⟨r, hr, ds, lowerPath.init path, here⟩
  have table := inv.table n node
  have hd : d < 512 := path.2.1 d (by simp)
  have apart : p ≠ n := fun same => fresh.unlinked (same ▸ node)
  obtain ⟨present, permissive, address⟩ := link_entry fresh.own.page
  have old : ∀ t i, t = t / PAGESIZE * PAGESIZE → i < 512 → t ≠ n ∨ i ≠ d →
      entry (src.mem (linked src s n d p)) t i = entry (src.mem s) t i :=
    fun t i page hi other => linked_other s p table.page.aligned page hd hi other
  have empty : ∀ i < 512, entry (src.mem (linked src s n d p)) p i = 0 := by
    intro i hi
    rw [old p i fresh.own.page.aligned hi (Or.inl apart)]
    exact fresh.empty i hi
  have slot_here : slot (src.mem (linked src s n d p)) n d = some p := by
    rw [slot, linked_here, present, if_pos rfl, address]
  have slot_empty : ∀ e, LowerPath (ds ++ [d] ++ [e]) →
      slot (src.mem (linked src s n d p)) p e = none := by
    intro e long
    have small : e < 512 := long.2.1 e (by simp)
    rw [slot, empty e small]
    rfl
  have slot_unused : slot (src.mem s) n d = none := by
    rw [slot, unused]
    rfl
  have agree : ∀ t i, Inner (slot (src.mem s)) LowerPath roots t i → t ≠ n ∨ i ≠ d →
      entry (src.mem (linked src s n d p)) t i = entry (src.mem s) t i := by
    intro t i inner other
    exact old t i (inv.table t (inner.node lowerPath)).page.aligned (inner_small inner) other
  have slots : ∀ t i, Inner (slot (src.mem s)) LowerPath roots t i → t ≠ n ∨ i ≠ d →
      slot (src.mem (linked src s n d p)) t i = slot (src.mem s) t i :=
    fun t i inner other => slot_of_entry (agree t i inner other)
  have moved : ∀ {r'}, r' ∈ roots → ∀ {ds'}, LowerPath ds' → _ :=
    fun hr' _ path' => follow_link lowerPath inv.forest hr path here slot_unused
      slot_here slot_empty
      slots hr' path'
  have not_there : follow (slot (src.mem s)) r (ds ++ [d]) = none := by
    rw [follow_snoc, here]
    exact slot_unused
  have held : ∀ f, src.held s f → src.held (linked src s n d p) f :=
    fun f h => (linked_held s n d p f).mpr h
  refine ⟨⟨?_, ?_, ?_, inv.shared_page, ?_, ?_, ?_⟩, ?_, ?_, ?_⟩
  · exact inv.forest.link lowerPath hr path here slot_unused fresh.unlinked slot_here
      slot_empty slots
  · rintro t ⟨r', hr', ds', path', there⟩
    rcases moved hr' path' with ⟨_, _, new⟩ | ⟨_, same⟩
    · obtain rfl : p = t := Option.some.inj (new.symm.trans there)
      exact ⟨fresh.own.page, fresh.own.nonzero, held _ fresh.own.held, fresh.own.own⟩
    · rw [same] at there
      have own := inv.table t ⟨r', hr', ds', path', there⟩
      exact ⟨own.page, own.nonzero, held _ own.held, own.own⟩
  · rintro t i ⟨r', hr', ds', path', there⟩ set
    have hi : i < 512 := path'.2.1 i (by simp)
    rcases moved hr' (lowerPath.init path') with ⟨_, _, new⟩ | ⟨_, same⟩
    · obtain rfl : p = t := Option.some.inj (new.symm.trans there)
      rw [empty i hi] at set
      exact absurd set (by decide)
    · rw [same] at there
      have inner : Inner (slot (src.mem s)) LowerPath roots t i := ⟨r', hr', ds', path', there⟩
      by_cases target : t = n ∧ i = d
      · obtain ⟨rfl, rfl⟩ := target
        rw [linked_here]
        exact permissive
      · rw [agree t i inner (not_and_or.mp target)] at set ⊢
        exact inv.link t i inner set
  · exact fun t shared => held _ (inv.shared_held t shared)
  · intro t shared i hi
    have other : t ≠ n := fun same => table.own (same ▸ shared)
    rw [old t i (inv.shared_page t shared) hi (Or.inl other)]
    exact inv.shared_same t shared i hi
  · intro r' hr' i low high
    have root : Node (slot (src.mem s)) LowerPath roots r' := ⟨r', hr', [], lowerPath.nil, rfl⟩
    have other : r' ≠ n ∨ i ≠ d := by
      rw [← not_and_or]
      rintro ⟨rfl, rfl⟩
      obtain ⟨_, short⟩ := inv.forest.unique hr' hr lowerPath.nil (lowerPath.init path) rfl here
      subst short
      have first : i < 256 := path.2.2 i rfl
      omega
    rw [old r' i (inv.table r' root).page.aligned high other]
    exact inv.upper r' hr' i low high
  · rcases moved hr path with ⟨_, _, new⟩ | ⟨other, _⟩
    · exact new
    · exact absurd ⟨rfl, rfl⟩ other
  · intro r' hr' v lower
    rw [leafEntry, leafEntry]
    rcases moved hr' lower.tablePath with ⟨rfl, whole, new⟩ | ⟨_, same⟩
    · rw [new, whole, not_there]
      exact empty _ (hwIndex_lt v .pt)
    · rw [same]
      cases there : follow (slot (src.mem s)) r' (tablePath v) with
      | none => rfl
      | some t =>
        refine old t _ (inv.table t ⟨r', hr', _, lower.tablePath, there⟩).page.aligned
          (hwIndex_lt v .pt) (Or.inl ?_)
        rintro rfl
        obtain ⟨_, same⟩ :=
          inv.forest.unique hr' hr lower.tablePath (lowerPath.init path) there here
        have long := path.1
        rw [← same, List.length_append] at long
        change 3 + 1 ≤ 3 at long
        omega
  · rintro t ⟨r', hr', ds', path', there⟩
    rcases moved hr' path' with ⟨_, _, new⟩ | ⟨_, same⟩
    · exact Or.inl (Option.some.inj (there.symm.trans new))
    · exact Or.inr ⟨r', hr', ds', path', same ▸ there⟩

theorem Spaces.fresh_frame (inv : Spaces src base boot roots s)
    (nonzero : (src.mmAllocFrame s 1).1 ≠ 0) :
    FreshTable src base boot roots (src.mmAllocFrame s 1).2 (src.mmAllocFrame s 1).1 := by
  obtain ⟨page, unheld, held, empty⟩ := frame_page src s nonzero
  refine ⟨⟨page, nonzero, held, fun shared => unheld (inv.shared_held _ shared)⟩, ?_, empty⟩
  rintro ⟨r, hr, ds, path, there⟩
  rw [(inv.alloc 1).2.1 r hr ds path] at there
  exact unheld (inv.table _ ⟨r, hr, ds, path, there⟩).held

/-! The steps of a descent. -/

theorem descend_present {v : BitVec 64} {alloc : Bool} {level : MapLevel} {levels : List MapLevel}
    {table : Nat} (present : has (entry (src.mem s) table (hwIndex v level)) PTE_P = true) :
    descend src v alloc (level :: levels) table s =
      descend src v alloc levels (entry (src.mem s) table (hwIndex v level) &&& PTE_ADDR_MASK).toNat
        s := by
  have taken : entry (src.mem s) table (hwIndex v level) &&& PTE_P ≠ 0 := by
    simpa [has] using present
  rw [descend, mmuGetLevelIdx_eq]
  exact if_pos taken

private theorem skipped {e : BitVec 64} (absent : has e PTE_P = false) : ¬e &&& PTE_P ≠ 0 := by
  simpa [has] using absent

theorem descend_missing {v : BitVec 64} {level : MapLevel} {levels : List MapLevel} {table : Nat}
    (absent : has (entry (src.mem s) table (hwIndex v level)) PTE_P = false) :
    descend src v false (level :: levels) table s = (0, s) := by
  rw [descend, mmuGetLevelIdx_eq]
  exact if_neg (skipped absent)

theorem descend_refused {v : BitVec 64} {level : MapLevel} {levels : List MapLevel} {table : Nat}
    (absent : has (entry (src.mem s) table (hwIndex v level)) PTE_P = false)
    (zero : (src.mmAllocFrame s 1).1 = 0) :
    descend src v true (level :: levels) table s = (0, (src.mmAllocFrame s 1).2) := by
  rw [descend, mmuGetLevelIdx_eq]
  refine (if_neg (skipped absent)).trans ?_
  simp only [Bool.not_true, Bool.false_eq_true, if_false]
  exact if_pos zero

theorem descend_linked {v : BitVec 64} {level : MapLevel} {levels : List MapLevel} {table : Nat}
    (absent : has (entry (src.mem s) table (hwIndex v level)) PTE_P = false)
    (nonzero : (src.mmAllocFrame s 1).1 ≠ 0) :
    descend src v true (level :: levels) table s =
      descend src v true levels (src.mmAllocFrame s 1).1
        (linked src (src.mmAllocFrame s 1).2 table (hwIndex v level) (src.mmAllocFrame s 1).1) := by
  rw [descend, mmuGetLevelIdx_eq]
  refine (if_neg (skipped absent)).trans ?_
  simp only [Bool.not_true, Bool.false_eq_true, if_false]
  exact if_neg nonzero

theorem descend_spec {v : BitVec 64} (lower : Lower v) {r : Nat} (hr : r ∈ roots) (alloc : Bool)
    (levels done : List MapLevel) (whole : done ++ levels = [.pml4, .pdpt, .pd]) {table : Nat}
    (inv : Spaces src base boot roots s)
    (here : follow (slot (src.mem s)) r (done.map (hwIndex v)) = some table) :
    Spaces src base boot roots (descend src v alloc levels table s).2 ∧
    (∀ r' ∈ roots, ∀ v', Lower v' →
      leafEntry (src.mem (descend src v alloc levels table s).2) r' v' =
        leafEntry (src.mem s) r' v') ∧
    ((descend src v alloc levels table s).1 = 0 ∨
      follow (slot (src.mem (descend src v alloc levels table s).2)) r (tablePath v) =
        some (descend src v alloc levels table s).1) ∧
    (alloc = false → (descend src v alloc levels table s).2 = s ∧
      ((descend src v alloc levels table s).1 = 0 →
        follow (slot (src.mem s)) r (tablePath v) = none)) := by
  induction levels generalizing done table s with
  | nil =>
    rw [← tablePath_whole whole] at here
    have own := inv.table table ⟨r, hr, _, lower.tablePath, here⟩
    exact ⟨inv, fun _ _ _ _ => rfl, Or.inr here,
      fun _ => ⟨rfl, fun zero => absurd zero own.nonzero⟩⟩
  | cons level levels ih =>
    obtain ⟨whole', split, path⟩ := lower.path_split whole
    have next : (done ++ [level]).map (hwIndex v) = done.map (hwIndex v) ++ [hwIndex v level] :=
      List.map_append
    by_cases present : has (entry (src.mem s) table (hwIndex v level)) PTE_P = true
    · -- the table is there
      rw [descend_present present]
      exact ih (done ++ [level]) whole' inv (follow_present here present)
    · have absent : has (entry (src.mem s) table (hwIndex v level)) PTE_P = false :=
        Bool.eq_false_of_not_eq_true present
      cases alloc with
      | false =>
        have missing : follow (slot (src.mem s)) r (tablePath v) = none := by
          rw [split, follow_append, follow_snoc, here, Option.bind_some, slot, absent]
          rfl
        rw [descend_missing absent]
        exact ⟨inv, fun _ _ _ _ => rfl, Or.inl rfl, fun _ => ⟨rfl, fun _ => missing⟩⟩
      | true =>
        obtain ⟨inv₁, moved₁, leaves₁⟩ := inv.alloc 1
        by_cases zero : (src.mmAllocFrame s 1).1 = 0
        · rw [descend_refused absent zero]
          exact ⟨inv₁, leaves₁, Or.inl rfl, fun h => absurd h (by decide)⟩
        · have here₁ : follow (slot (src.mem (src.mmAllocFrame s 1).2)) r (done.map (hwIndex v)) =
              some table := (moved₁ r hr _ (lowerPath.init path)).trans here
          have own := inv.table table ⟨r, hr, _, lowerPath.init path, here⟩
          have absent₁ :
            has (entry (src.mem (src.mmAllocFrame s 1).2) table (hwIndex v level)) PTE_P =
              false := by
            rw [entry_mmAllocFrame src s 1 own.page.aligned own.held (hwIndex_lt v level)]
            exact absent
          obtain ⟨inv₂, there, leaves₂, _⟩ :=
            inv₁.link_fresh hr path here₁ absent₁ (inv.fresh_frame zero)
          obtain ⟨inv₃, leaves₃, result, _⟩ := ih (done ++ [level]) whole' inv₂ (next ▸ there)
          rw [descend_linked absent zero]
          refine ⟨inv₃, ?_, result, fun h => absurd h (by decide)⟩
          intro r' hr' v' lower'
          rw [leaves₃ r' hr' v' lower', leaves₂ r' hr' v' lower', leaves₁ r' hr' v' lower']

theorem Spaces.store_leaf (inv : Spaces src base boot roots s) {v : BitVec 64} (lower : Lower v)
    {r t : Nat} (hr : r ∈ roots) (there : follow (slot (src.mem s)) r (tablePath v) = some t)
    (e : BitVec 64) :
    Spaces src base boot roots (setEntry src s t (hwIndex v .pt) e) ∧
    (∀ r' ∈ roots, ∀ ds, LowerPath ds →
      follow (slot (src.mem (setEntry src s t (hwIndex v .pt) e))) r' ds = follow
        (slot (src.mem s)) r' ds) ∧
    ∀ r' ∈ roots, ∀ v', Lower v' →
      leafEntry (src.mem (setEntry src s t (hwIndex v .pt) e)) r' v' =
        if r' = r ∧ pageOf v' = pageOf v then e else leafEntry (src.mem s) r' v' := by
  have own := inv.table t ⟨r, hr, _, lower.tablePath, there⟩
  have old : ∀ t' i, t' = t' / PAGESIZE * PAGESIZE → i < 512 → t' ≠ t ∨ i ≠ hwIndex v .pt →
      entry (src.mem (setEntry src s t (hwIndex v .pt) e)) t' i = entry (src.mem s) t' i :=
    fun t' i page hi other =>
      entry_setEntry_other src s e own.page.aligned page (hwIndex_lt v .pt) hi other
  have above : ∀ r' ∈ roots, ∀ ds, LowerPath ds → ds.length < 3 →
      follow (slot (src.mem s)) r' ds ≠ some t := by
    intro r' hr' ds path short same
    obtain ⟨_, rfl⟩ := inv.forest.unique hr' hr path lower.tablePath same there
    exact absurd short (lt_irrefl 3)
  have inner : ∀ t' i, Inner (slot (src.mem s)) LowerPath roots t' i →
      entry (src.mem (setEntry src s t (hwIndex v .pt) e)) t' i = entry (src.mem s) t' i := by
    rintro t' i ⟨r', hr', ds, path, here⟩
    have short : ds.length < 3 := by
      have := path.1
      rw [List.length_append] at this
      exact this
    have node := inv.table t' ⟨r', hr', ds, lowerPath.init path, here⟩
    refine old t' i node.page.aligned (path.2.1 i (by simp)) (Or.inl ?_)
    rintro rfl
    exact above r' hr' ds (lowerPath.init path) short here
  obtain ⟨inv', moved⟩ := inv.frame (setEntry src s t (hwIndex v .pt) e)
    (fun t' table => (src.held_setMem _ _ _).mpr (inv.table_held table)) inner
    (by
      intro r' hr' i _ high
      refine old r' i (inv.table r' ⟨r', hr', [], lowerPath.nil, rfl⟩).page.aligned high (Or.inl ?_)
      rintro rfl
      exact above r' hr' [] lowerPath.nil (by decide) rfl)
    (by
      intro t' shared i hi
      exact old t' i (inv.shared_page t' shared) hi (Or.inl fun same => own.own (same ▸ shared)))
  refine ⟨inv', moved, ?_⟩
  intro r' hr' v' lower'
  rw [leafEntry, leafEntry, moved r' hr' _ lower'.tablePath]
  cases there' : follow (slot (src.mem s)) r' (tablePath v') with
  | none =>
    have other : ¬(r' = r ∧ pageOf v' = pageOf v) := by
      rintro ⟨rfl, page⟩
      obtain ⟨first, second, third, _⟩ := (pageOf_eq_iff lower' lower).mp page
      have same : tablePath v' = tablePath v := by rw [tablePath, tablePath, first, second, third]
      rw [same, there] at there'
      cases there'
    rw [if_neg other]
  | some t' =>
    by_cases target : r' = r ∧ pageOf v' = pageOf v
    · obtain ⟨rfl, page⟩ := target
      obtain ⟨first, second, third, last⟩ := (pageOf_eq_iff lower' lower).mp page
      have same : tablePath v' = tablePath v := by rw [tablePath, tablePath, first, second, third]
      rw [same, there] at there'
      obtain rfl := Option.some.inj there'
      rw [if_pos ⟨rfl, page⟩]
      simp only [last]
      exact entry_setEntry_same src s t (hwIndex v .pt) e
    · rw [if_neg target]
      have node := inv.table t' ⟨r', hr', _, lower'.tablePath, there'⟩
      refine old t' _ node.page.aligned (hwIndex_lt v' .pt) ?_
      rw [← not_and_or]
      rintro ⟨rfl, last⟩
      obtain ⟨rfl, same⟩ := inv.forest.unique hr' hr lower'.tablePath lower.tablePath there' there
      simp only [tablePath, List.cons.injEq, and_true] at same
      exact target ⟨rfl, (pageOf_eq_iff lower' lower).mpr ⟨same.1, same.2.1, same.2.2, last⟩⟩

end Steps

section Walks

variable {σ : Type} {src : FrameSource σ} {base : Mem} {boot : Nat} {roots : Set Nat} {s : σ}

/-- What the processor makes of a last-level entry below permissive tables. -/
def leafTranslation (e : BitVec 64) : Option Translation :=
  if has e PTE_P then some ⟨(e &&& PTE_ADDR_MASK).toNat, Rights.all.meet e⟩ else none

private theorem Permissive.meet {e : BitVec 64} (h : Permissive e) :
    Rights.all.meet e = Rights.all := by
  simp [Rights.meet, Rights.all, h.rw, h.us, h.nx]

private theorem Permissive.passes {e : BitVec 64} (h : Permissive e) (present : has e PTE_P = true)
    {level : MapLevel} (inner : level ≠ .pt) : faults e level = false ∧ isLeaf e level = false := by
  cases level with
  | pt => exact absurd rfl inner
  | pd => simp [faults, isLeaf, present, h.ps]
  | pdpt => simp [faults, isLeaf, present, h.ps]
  | pml4 => simp [faults, isLeaf, present, h.ps]

private theorem Spaces.walk_follow (inv : Spaces src base boot roots s) {v : BitVec 64}
    (lower : Lower v) {r : Nat} (hr : r ∈ roots) (levels done : List MapLevel)
    (whole : done ++ levels = [.pml4, .pdpt, .pd]) {table : Nat}
    (here : follow (slot (src.mem s)) r (done.map (hwIndex v)) = some table) :
    walk (src.mem s) v (levels ++ [.pt]) table Rights.all =
      (follow (slot (src.mem s)) table (levels.map (hwIndex v))).bind fun t =>
        leafTranslation (entry (src.mem s) t (hwIndex v .pt)) := by
  induction levels generalizing done table with
  | nil =>
    have page := isPage_mask (entry (src.mem s) table (hwIndex v .pt))
    have aligned := page.aligned
    rw [PAGESIZE] at aligned
    have address : leafPage (entry (src.mem s) table (hwIndex v .pt)) v .pt =
        (entry (src.mem s) table (hwIndex v .pt) &&& PTE_ADDR_MASK).toNat := by
      simp only [leafPage, MapLevel.shift]
      omega
    cases present : has (entry (src.mem s) table (hwIndex v .pt)) PTE_P with
    | true => simp [walk, follow, leafTranslation, faults, isLeaf, present, address]
    | false => simp [walk, follow, leafTranslation, faults, present]
  | cons level levels ih =>
    obtain ⟨whole', _, path⟩ := lower.path_split whole
    have inner : level ≠ .pt := by
      have member : level ∈ [MapLevel.pml4, .pdpt, .pd] := by
        rw [← whole]
        simp
      rintro rfl
      simp at member
    rw [List.cons_append, walk, List.map_cons, follow]
    by_cases present : has (entry (src.mem s) table (hwIndex v level)) PTE_P = true
    · have permissive := inv.link table (hwIndex v level) ⟨r, hr, _, path, here⟩ present
      obtain ⟨fault, leaf⟩ := permissive.passes present inner
      have rest := ih (done ++ [level]) whole' (follow_present here present)
      simp only [fault, leaf, Bool.false_eq_true, if_false, permissive.meet]
      rw [rest, slot, if_pos present, Option.bind_some]
    · have absent : has (entry (src.mem s) table (hwIndex v level)) PTE_P = false :=
        Bool.eq_false_of_not_eq_true present
      have fault : faults (entry (src.mem s) table (hwIndex v level)) level = true := by
        simp [faults, absent]
      simp only [fault, if_true]
      rw [slot, absent]
      rfl

theorem Spaces.root_page (inv : Spaces src base boot roots s) {r : Nat} (hr : r ∈ roots) :
    IsPage r :=
  (inv.table r ⟨r, hr, [], lowerPath.nil, rfl⟩).page

theorem Spaces.translate_lower (inv : Spaces src base boot roots s) {v : BitVec 64}
    (lower : Lower v) {r : Nat} (hr : r ∈ roots) :
    translate (src.mem s) (BitVec.ofNat 64 r) v = leafTranslation (leafEntry (src.mem s) r v) := by
  have page := inv.root_page hr
  have walked := inv.walk_follow lower hr [.pml4, .pdpt, .pd] [] rfl rfl
  rw [Mmu.translate, page.masked, page.toNat]
  refine walked.trans ?_
  rw [leafEntry]
  change (follow (slot (src.mem s)) r (tablePath v)).bind _ = _
  cases follow (slot (src.mem s)) r (tablePath v) with
  | none =>
    change none = leafTranslation 0
    decide
  | some t => rfl

/-- The upper half: canonical addresses from 0xFFFF800000000000 on. -/
def Upper (virtAddr : BitVec 64) : Prop := 0xFFFF800000000000 ≤ virtAddr.toNat

theorem Upper.pml4 {v : BitVec 64} (upper : Upper v) : 256 ≤ hwIndex v .pml4 := by
  have word := v.isLt
  simp only [Upper, hwIndex, MapLevel.shift] at *
  omega

theorem Spaces.translate_upper (inv : Spaces src base boot roots s) {v : BitVec 64}
    (upper : Upper v) {r : Nat} (hr : r ∈ roots) :
    translate (src.mem s) (BitVec.ofNat 64 r) v =
      walk base v [.pml4, .pdpt, .pd, .pt] boot Rights.all := by
  have page := inv.root_page hr
  have top := inv.upper r hr (hwIndex v .pml4) upper.pml4 (hwIndex_lt v .pml4)
  rw [Mmu.translate, page.masked, page.toNat]
  simp only [walk_cons _ _ MapLevel.pml4, top]
  cases fault : faults (entry base boot (hwIndex v .pml4)) .pml4 with
  | true => simp only [if_true]
  | false =>
    have leaf : isLeaf (entry base boot (hwIndex v .pml4)) .pml4 = false := rfl
    simp only [leaf, Bool.false_eq_true, if_false]
    apply walk_congr
    intro t visits
    exact inv.shared_same t ⟨v, Or.inr ⟨fault, leaf, visits⟩⟩

theorem Spaces.translate_boot (inv : Spaces src base boot roots s) (page : IsPage boot)
    (v : BitVec 64) : translate (src.mem s) (BitVec.ofNat 64 boot) v =
      walk base v [.pml4, .pdpt, .pd, .pt] boot Rights.all := by
  rw [Mmu.translate, page.masked, page.toNat]
  exact walk_congr fun t visits => inv.shared_same t ⟨v, visits⟩

end Walks

end Algae.Platform.PageTables
