/- Address spaces: what mapping, unmapping and creation do to the translations of
   all address spaces, the abstract page map, and isolation over whole runs. -/

import Algae.Mm.PhysRuns
import Algae.Platform.PageTables

set_option autoImplicit false
set_option relaxedAutoImplicit false

namespace Algae.Platform.AddressSpaces

open Algae.Lib.ByteMemory Algae.Lib.RadixForest
open Algae.Mm.Phys (PhysState)
open Algae.Mm.PhysRuns (eightFrames)
open Algae.Sdk.Defs Algae.Mm.Frames Algae.Platform.Mmu Algae.Platform.PageTables

section Leaves

theorem alignDown_toNat (v : BitVec 64) :
    (alignDown v (BitVec.ofNat 64 PAGESIZE)).toNat = v.toNat / 4096 * 4096 := by
  rw [PAGESIZE]
  exact alignDown_page (by norm_num) v

theorem hwIndex_alignDown (v : BitVec 64) (level : MapLevel) :
    hwIndex (alignDown v (BitVec.ofNat 64 PAGESIZE)) level = hwIndex v level := by
  cases level with
  | pt =>
    simp only [hwIndex, MapLevel.shift, alignDown_toNat]
    omega
  | pd =>
    simp only [hwIndex, MapLevel.shift, alignDown_toNat]
    omega
  | pdpt =>
    simp only [hwIndex, MapLevel.shift, alignDown_toNat]
    omega
  | pml4 =>
    simp only [hwIndex, MapLevel.shift, alignDown_toNat]
    omega

theorem tablePath_alignDown (v : BitVec 64) :
    tablePath (alignDown v (BitVec.ofNat 64 PAGESIZE)) = tablePath v := by
  simp only [tablePath, hwIndex_alignDown]

theorem Lower.alignDown {v : BitVec 64} (lower : Lower v) :
    Lower (alignDown v (BitVec.ofNat 64 PAGESIZE)) := by
  rw [Lower, alignDown_toNat]
  exact lt_of_le_of_lt (Nat.div_mul_le_self _ _) lower

/-- The rights that a `PAGE_*` value names; any other value asks for the least. -/
def askedRights (mFlags : Nat) : Rights where
  rw := mFlags == PAGE_READWRITE || mFlags == PAGE_USER_READWRITE
  us := mFlags == PAGE_USER_READONLY || mFlags == PAGE_USER_READWRITE || mFlags ==
    PAGE_USER_EXEC_READ
  nx := !(mFlags == PAGE_EXECUTE_READ || mFlags == PAGE_USER_EXEC_READ)

private theorem tableFlags_spec (mFlags : Nat) :
    Flags (mmuGetTableFlags mFlags) ∧ has (mmuGetTableFlags mFlags) PTE_P = true ∧
      has (mmuGetTableFlags mFlags) PTE_RW = (askedRights mFlags).rw ∧
      has (mmuGetTableFlags mFlags) PTE_US = (askedRights mFlags).us ∧
      has (mmuGetTableFlags mFlags) PTE_NX = (askedRights mFlags).nx := by
  by_cases named : mFlags < 6
  · have table : ∀ f < 6, mmuGetTableFlags f &&& PTE_ADDR_MASK = 0#64 ∧
        has (mmuGetTableFlags f) PTE_P = true ∧
        has (mmuGetTableFlags f) PTE_RW = (askedRights f).rw ∧
        has (mmuGetTableFlags f) PTE_US = (askedRights f).us ∧
        has (mmuGetTableFlags f) PTE_NX = (askedRights f).nx := by decide
    exact table mFlags named
  · have least : mmuGetTableFlags mFlags = PTE_P ||| PTE_NX := by
      have other : mFlags ≠ PAGE_READONLY ∧ mFlags ≠ PAGE_READWRITE ∧ mFlags ≠ PAGE_EXECUTE_READ ∧
          mFlags ≠ PAGE_USER_READONLY ∧ mFlags ≠ PAGE_USER_READWRITE ∧
          mFlags ≠ PAGE_USER_EXEC_READ := by
        simp only [PAGE_READONLY, PAGE_READWRITE, PAGE_EXECUTE_READ, PAGE_USER_READONLY,
          PAGE_USER_READWRITE, PAGE_USER_EXEC_READ]
        omega
      obtain ⟨h0, h1, h2, h3, h4, h5⟩ := other
      simp only [mmuGetTableFlags, if_neg h0, if_neg h1, if_neg h2, if_neg h3, if_neg h4, if_neg h5]
    have asked : askedRights mFlags = ⟨false, false, true⟩ := by
      simp only [askedRights, PAGE_READWRITE, PAGE_EXECUTE_READ, PAGE_USER_READONLY,
        PAGE_USER_READWRITE, PAGE_USER_EXEC_READ, Rights.mk.injEq, Bool.or_eq_false_iff,
        Bool.not_eq_true', beq_eq_false_iff_ne]
      omega
    rw [least, asked]
    exact ⟨by unfold Flags; decide, by decide, by decide, by decide, by decide⟩

def leafFor (pBase : BitVec 64) (mFlags : Nat) : BitVec 64 :=
  alignDown pBase (BitVec.ofNat 64 PAGESIZE) ||| mmuGetTableFlags mFlags

theorem leafTranslation_leafFor {pBase : BitVec 64} (limit : pBase.toNat < 0x10000000000000)
    (mFlags : Nat) : leafTranslation (leafFor pBase mFlags) =
      some ⟨pBase.toNat / 4096 * 4096, askedRights mFlags⟩ := by
  have page : IsPage (pBase.toNat / 4096 * 4096) := by
    refine ⟨?_, by omega⟩
    rw [PAGESIZE]
    omega
  have aligned : alignDown pBase (BitVec.ofNat 64 PAGESIZE) =
      BitVec.ofNat 64 (pBase.toNat / 4096 * 4096) := by
    apply BitVec.eq_of_toNat_eq
    rw [alignDown_toNat, page.toNat]
  obtain ⟨flags, present, rw_flag, us_flag, nx_flag⟩ := tableFlags_spec mFlags
  have named : Flags PTE_P ∧ Flags PTE_RW ∧ Flags PTE_US ∧ Flags PTE_NX := by
    unfold Flags
    decide
  rw [leafFor, aligned, leafTranslation, page.or_has _ named.1, present, if_pos rfl,
    page.or_mask flags]
  simp only [Rights.meet, Rights.all, page.or_has _ named.2.1, page.or_has _ named.2.2.1,
    page.or_has _ named.2.2.2, rw_flag, us_flag, nx_flag, Bool.true_and, Bool.false_or]

end Leaves

section Calls

variable {σ : Type} {src : FrameSource σ} {base : Mem} {boot : Nat} {roots : Set Nat} {s : σ}

/-- The leaf of one page of one address space becomes `e`; the rest stays. -/
def LeafUpdated (roots : Set Nat) (r : Nat) (v e : BitVec 64) (m m' : Mem) : Prop :=
  ∀ r' ∈ roots, ∀ v', Lower v' →
    leafEntry m' r' v' = if r' = r ∧ pageOf v' = pageOf v then e else leafEntry m r' v'

def LeavesKept (roots : Set Nat) (m m' : Mem) : Prop :=
  ∀ r' ∈ roots, ∀ v', Lower v' → leafEntry m' r' v' = leafEntry m r' v'

theorem descent (inv : Spaces src base boot roots s) {r : Nat} (hr : r ∈ roots)
    {v : BitVec 64} (lower : Lower v) (alloc : Bool) (res : Nat × σ)
    (call : res = mmuGetLevelPhys src (some ⟨BitVec.ofNat 64 r⟩)
      (alignDown v (BitVec.ofNat 64 PAGESIZE)) .pt alloc s) :
    Spaces src base boot roots res.2 ∧ LeavesKept roots (src.mem s) (src.mem res.2) ∧
    (res.1 = 0 ∨ follow (slot (src.mem res.2)) r (tablePath v) = some res.1) ∧
    (alloc = false → res.2 = s ∧
    (res.1 = 0 → follow (slot (src.mem s)) r (tablePath v) = none)) := by
  subst call
  have top := (inv.root_page hr).toNat
  have spec := descend_spec (Lower.alignDown lower) hr alloc [.pml4, .pdpt, .pd] [] rfl inv rfl
  rw [tablePath_alignDown] at spec
  simp only [mmuGetLevelPhys, MapLevel.above, top]
  exact spec

theorem mmuMapSingle_spec (inv : Spaces src base boot roots s) {r : Nat} (hr : r ∈ roots)
    {v : BitVec 64} (lower : Lower v) (pBase : BitVec 64) (mFlags : Nat) (res : NtStatus × σ)
    (call : res = mmuMapSingle src (some ⟨BitVec.ofNat 64 r⟩) v pBase mFlags s) :
    Spaces src base boot roots res.2 ∧
    ((res.1 = .notMapped ∧ LeavesKept roots (src.mem s) (src.mem res.2)) ∨
      (res.1 = .success ∧ LeafUpdated roots r v (leafFor pBase mFlags) (src.mem s)
      (src.mem res.2))) := by
  obtain ⟨inv', kept, found, _⟩ := descent inv hr lower true _ rfl
  rw [mmuMapSingle] at call
  simp only at call
  by_cases zero : (mmuGetLevelPhys src (some ⟨BitVec.ofNat 64 r⟩)
      (alignDown v (BitVec.ofNat 64 PAGESIZE)) .pt true s).1 = 0
  · rw [if_pos zero] at call
    subst call
    exact ⟨inv', Or.inl ⟨rfl, kept⟩⟩
  · rw [if_neg zero, mmuGetLevelIdx_eq, hwIndex_alignDown] at call
    subst call
    have there := found.resolve_left zero
    obtain ⟨stored, _, leaves⟩ := inv'.store_leaf lower hr there (leafFor pBase mFlags)
    refine ⟨stored, Or.inr ⟨rfl, ?_⟩⟩
    intro r' hr' v' lower'
    rw [← kept r' hr' v' lower']
    exact leaves r' hr' v' lower'

private theorem mmuUnmapSingle_spec (inv : Spaces src base boot roots s) {r : Nat} (hr : r ∈ roots)
    {v : BitVec 64} (lower : Lower v) (res : NtStatus × σ)
    (call : res = mmuUnmapSingle src (some ⟨BitVec.ofNat 64 r⟩) v s) :
    Spaces src base boot roots res.2 ∧ res.1 = .success ∧
      LeafUpdated roots r v 0 (src.mem s) (src.mem res.2) := by
  obtain ⟨inv', kept, found, untouched⟩ := descent inv hr lower false _ rfl
  obtain ⟨same, missing⟩ := untouched rfl
  rw [mmuUnmapSingle] at call
  simp only at call
  by_cases zero : (mmuGetLevelPhys src (some ⟨BitVec.ofNat 64 r⟩)
      (alignDown v (BitVec.ofNat 64 PAGESIZE)) .pt false s).1 = 0
  · rw [if_pos zero, same] at call
    subst call
    refine ⟨inv, rfl, ?_⟩
    intro r' hr' v' lower'
    by_cases target : r' = r ∧ pageOf v' = pageOf v
    · -- without a last-level table there was no leaf either
      obtain ⟨rfl, page⟩ := target
      obtain ⟨first, second, third, _⟩ := (pageOf_eq_iff lower' lower).mp page
      have path : tablePath v' = tablePath v := by rw [tablePath, tablePath, first, second, third]
      rw [if_pos ⟨rfl, page⟩, leafEntry, path, missing zero]
    · rw [if_neg target]
  · rw [if_neg zero, mmuGetLevelIdx_eq, hwIndex_alignDown] at call
    subst call
    have there := found.resolve_left zero
    obtain ⟨stored, _, leaves⟩ := inv'.store_leaf lower hr there 0
    refine ⟨stored, rfl, ?_⟩
    intro r' hr' v' lower'
    rw [← kept r' hr' v' lower']
    exact leaves r' hr' v' lower'

/-! Creation. -/

theorem copyUpper_spec (src : FrameSource σ) (s : σ) {p c : Nat}
    (page : p = p / PAGESIZE * PAGESIZE)
    (page' : c = c / PAGESIZE * PAGESIZE) (apart : c ≠ p) {n : Nat} (hn : n ≤ 512) :
    (∀ f, src.held (copyUpper src p c s n) f ↔ src.held s f) ∧
    (∀ t i, t = t / PAGESIZE * PAGESIZE → i < 512 → t ≠ p →
      entry (src.mem (copyUpper src p c s n)) t i = entry (src.mem s) t i) ∧
    ∀ i < n, entry (src.mem (copyUpper src p c s n)) p i =
      if i < 256 then 0 else entry (src.mem s) c i := by
  induction n with
  | zero => exact ⟨fun _ => Iff.rfl, fun _ _ _ _ _ => rfl, by omega⟩
  | succ n ih =>
    obtain ⟨held, others, copied⟩ := ih (by omega)
    refine ⟨?_, ?_, ?_⟩
    · intro f
      rw [copyUpper, setEntry, src.held_setMem, held]
    · intro t i ht hi other
      rw [copyUpper, entry_setEntry_other src _ _ page ht (by omega) hi (Or.inl other)]
      exact others t i ht hi other
    · intro i hi
      rw [copyUpper]
      by_cases last : i = n
      · subst last
        rw [entry_setEntry_same, others c i page' (by omega) apart]
      · rw [entry_setEntry_other src _ _ page page (by omega) (by omega) (Or.inr last)]
        exact copied i (by omega)

/-- The root that `cr3` points to is the boot one or one that was created. -/
def Known (boot : Nat) (roots : Set Nat) (cr3 : BitVec 64) : Prop :=
  (cr3 &&& PTE_ADDR_MASK).toNat = boot ∨ (cr3 &&& PTE_ADDR_MASK).toNat ∈ roots

theorem mmuCreateVas_spec (inv : Spaces src base boot roots s) {cr3 : BitVec 64}
    (current : Known boot roots cr3) (res : NtStatus × Option MmuVas × σ)
    (call : res = mmuCreateVas src cr3 s) :
    (res.1 = .noMemory ∧ res.2.1 = none ∧ Spaces src base boot roots res.2.2 ∧
      LeavesKept roots (src.mem s) (src.mem res.2.2)) ∨
    ∃ p, res.1 = .success ∧ res.2.1 = some ⟨BitVec.ofNat 64 p⟩ ∧ p ∉ roots ∧ p ≠ boot ∧
      Spaces src base boot (insert p roots) res.2.2 ∧
      LeavesKept roots (src.mem s) (src.mem res.2.2) ∧
      ∀ v, Lower v → leafEntry (src.mem res.2.2) p v = 0 := by
  obtain ⟨inv₁, moved₁, kept₁⟩ := inv.alloc 1
  by_cases zero : (src.mmAllocFrame s 1).1 = 0
  · left
    have failed : res = (.noMemory, none, (src.mmAllocFrame s 1).2) := by
      rw [call, mmuCreateVas]
      exact if_pos zero
    subst failed
    exact ⟨rfl, rfl, inv₁, kept₁⟩
  · right
    obtain ⟨page, unheld, held, _⟩ := frame_page src s zero
    generalize hp : (src.mmAllocFrame s 1).1 = p at zero page unheld held
    generalize hs : (src.mmAllocFrame s 1).2 = s₁ at inv₁ moved₁ kept₁ held
    generalize hc : (cr3 &&& PTE_ADDR_MASK).toNat = c at current
    have source : IsPage c := hc ▸ isPage_mask cr3
    have done : res = (.success, some ⟨BitVec.ofNat 64 p⟩, copyUpper src p c s₁ 512) := by
      rw [call, mmuCreateVas]
      simp only [hp, hs, hc]
      exact if_neg zero
    have unlinked : ¬Node (slot (src.mem s₁)) LowerPath roots p := by
      rintro ⟨r, hr, ds, path, there⟩
      rw [moved₁ r hr ds path] at there
      exact unheld (inv.table p ⟨r, hr, ds, path, there⟩).held
    have own : ¬Shared base boot p := fun shared => unheld (inv.shared_held p shared)
    have boot_shared : Shared base boot boot := ⟨0, Or.inl rfl⟩
    have apart : c ≠ p := by
      rintro rfl
      rcases current with at_boot | created
      · rw [hc] at at_boot
        exact own (at_boot ▸ boot_shared)
      · rw [hc] at created
        exact unlinked ⟨c, created, [], lowerPath.nil, rfl⟩
    obtain ⟨held', others, copied⟩ :=
      copyUpper_spec src s₁ page.aligned source.aligned apart (le_refl 512)
    obtain ⟨inv₂, moved₂, kept₂⟩ := inv₁.quiet (copyUpper src p c s₁ 512)
      (fun t table => (held' _).mpr (inv₁.table_held table))
      (by
        intro t table i hi
        refine others t i (inv₁.table_page table) hi ?_
        rintro rfl
        rcases table with node | shared
        · exact unlinked node
        · exact own shared)
    have slots : ∀ t i, Inner (slot (src.mem s₁)) LowerPath roots t i →
        slot (src.mem (copyUpper src p c s₁ 512)) t i = slot (src.mem s₁) t i := by
      intro t i inner
      have node := inner.node lowerPath
      have small : i < 512 := by
        obtain ⟨_, _, ds, path, _⟩ := inner
        exact path.2.1 i (by simp)
      refine slot_of_entry (others t i (inv₁.table t node).page.aligned small ?_)
      rintro rfl
      exact unlinked node
    have empty : ∀ e, LowerPath [e] → slot (src.mem (copyUpper src p c s₁ 512)) p e = none := by
      intro e path
      have first : e < 256 := path.2.2 e rfl
      rw [slot, copied e (by omega), if_pos first]
      rfl
    have only_root : ∀ {ds n}, LowerPath ds →
        follow (slot (src.mem (copyUpper src p c s₁ 512))) p ds = some n → ds = [] ∧ n = p :=
      fun path there => follow_empty_root lowerPath empty path there
    subst done
    refine ⟨p, rfl, rfl, ?_, ?_,
      ⟨?_, ?_, ?_, inv₂.shared_page, inv₂.shared_held, inv₂.shared_same, ?_⟩, ?_, ?_⟩
    · exact fun member => unlinked ⟨p, member, [], lowerPath.nil, rfl⟩
    · exact fun same => own (same ▸ boot_shared)
    · exact inv₁.forest.add_root lowerPath unlinked slots empty
    · rintro t ⟨r, hr, ds, path, there⟩
      rcases Set.mem_insert_iff.mp hr with rfl | old
      · obtain ⟨_, rfl⟩ := only_root path there
        exact ⟨page, zero, (held' _).mpr held, own⟩
      · exact inv₂.table t ⟨r, old, ds, path, there⟩
    · rintro t i ⟨r, hr, ds, path, there⟩ present
      rcases Set.mem_insert_iff.mp hr with rfl | old
      · obtain ⟨rfl, rfl⟩ := only_root (lowerPath.init path) there
        have none := empty i path
        rw [slot, present] at none
        cases none
      · exact inv₂.link t i ⟨r, old, ds, path, there⟩ present
    · intro r hr i low high
      rcases Set.mem_insert_iff.mp hr with rfl | old
      · have above : ¬i < 256 := by omega
        rw [copied i high, if_neg above]
        rcases current with at_boot | created
        · rw [hc] at at_boot
          rw [at_boot]
          exact inv₁.shared_same boot boot_shared i high
        · rw [hc] at created
          exact inv₁.upper c created i low high
      · exact inv₂.upper r old i low high
    · intro r hr v lower
      rw [kept₂ r hr v lower, kept₁ r hr v lower]
    · intro v lower
      rw [leafEntry]
      cases there : follow (slot (src.mem (copyUpper src p c s₁ 512))) p (tablePath v) with
      | none => rfl
      | some t =>
        have := (only_root lower.tablePath there).1
        cases this

end Calls

def Canonical (virtAddr : BitVec 64) : Prop := Lower virtAddr ∨ Upper virtAddr

section Translations

variable {σ : Type} {src : FrameSource σ} {base : Mem} {boot : Nat} {roots : Set Nat} {s s' : σ}

private theorem visits_page {m : Mem} {v : BitVec 64} (levels : List MapLevel) {table t : Nat}
    (page : IsPage table) (visits : Visits m v levels table t) : IsPage t := by
  induction levels generalizing table with
  | nil => cases visits
  | cons level levels ih =>
    rcases visits with rfl | ⟨_, _, below⟩
    · exact page
    · exact ih (isPage_mask _) below

theorem Spaces.start (page : IsPage boot)
    (held : ∀ t, Shared (src.mem s) boot t → src.held s (t / PAGESIZE)) :
    Spaces src (src.mem s) boot ∅ s where
  forest := ⟨fun hr => absurd hr (Set.notMem_empty _)⟩
  table := by
    rintro t ⟨r, hr, _⟩
    exact absurd hr (Set.notMem_empty _)
  link := by
    rintro t i ⟨r, hr, _⟩
    exact absurd hr (Set.notMem_empty _)
  shared_page := by
    rintro t ⟨v, visits⟩
    exact (visits_page _ page visits).aligned
  shared_held := held
  shared_same := fun _ _ _ _ => rfl
  upper := fun _ hr => absurd hr (Set.notMem_empty _)

theorem LeavesKept.translate (kept : LeavesKept roots (src.mem s) (src.mem s'))
    (inv : Spaces src base boot roots s) (inv' : Spaces src base boot roots s') {r : Nat}
    (hr : r ∈ roots) {v : BitVec 64} (canonical : Canonical v) :
    translate (src.mem s') (BitVec.ofNat 64 r) v = translate (src.mem s) (BitVec.ofNat 64 r) v := by
  rcases canonical with lower | upper
  · rw [inv.translate_lower lower hr, inv'.translate_lower lower hr, kept r hr v lower]
  · rw [inv.translate_upper upper hr, inv'.translate_upper upper hr]

theorem LeafUpdated.translate {r : Nat} {v e : BitVec 64}
    (updated : LeafUpdated roots r v e (src.mem s) (src.mem s'))
    (inv : Spaces src base boot roots s) (inv' : Spaces src base boot roots s') {r' : Nat}
    (hr' : r' ∈ roots) {v' : BitVec 64} (canonical : Canonical v')
    (other : r' ≠ r ∨ Upper v' ∨ pageOf v' ≠ pageOf v) :
    translate (src.mem s') (BitVec.ofNat 64 r') v' =
      translate (src.mem s) (BitVec.ofNat 64 r') v' := by
  by_cases upper : Upper v'
  · rw [inv.translate_upper upper hr', inv'.translate_upper upper hr']
  · have lower : Lower v' := canonical.resolve_right upper
    have apart : ¬(r' = r ∧ pageOf v' = pageOf v) := by
      rintro ⟨same, page⟩
      rcases other with h | h | h
      · exact h same
      · exact upper h
      · exact h page
    rw [inv.translate_lower lower hr', inv'.translate_lower lower hr', updated r' hr' v' lower,
      if_neg apart]

end Translations

/-! One address space against the abstract page map. -/

section Refinement

variable {σ : Type} {src : FrameSource σ}

/-- The abstract address space: pages by number, with what they are mapped to. -/
abbrev PageMap := Nat → Option Translation

def PageMap.map (m : PageMap) (v pBase : BitVec 64) (mFlags : Nat) : PageMap :=
  Function.update m (pageOf v) (some ⟨pBase.toNat / 4096 * 4096, askedRights mFlags⟩)

def PageMap.unmap (m : PageMap) (v : BitVec 64) : PageMap := Function.update m (pageOf v) none

/-- The rest of the kernel ran: no table was written or given back. -/
def Quiet (src : FrameSource σ) (base : Mem) (boot : Nat) (roots : Set Nat) (s s' : σ) : Prop :=
  ∀ t, Table base boot roots (src.mem s) t → src.held s' (t / PAGESIZE) ∧
    ∀ i < 512, entry (src.mem s') t i = entry (src.mem s) t i

/-- Calls on the address space `vas`, which was made in state `c` under `cr3`, with
the page map they should amount to. -/
inductive MapRun (src : FrameSource σ) (cr3 : BitVec 64) (c : σ) (vas : MmuVas) :
    σ → PageMap → Prop
  | start : MapRun src cr3 c vas (mmuCreateVas src cr3 c).2.2 fun _ => none
  | map {s : σ} {m : PageMap} (run : MapRun src cr3 c vas s m) (v pBase : BitVec 64) (mFlags : Nat)
      (lower : Lower v) (limit : pBase.toNat < 0x10000000000000)
      (done : (mmuMapSingle src (some vas) v pBase mFlags s).1 = .success) :
      MapRun src cr3 c vas (mmuMapSingle src (some vas) v pBase mFlags s).2 (m.map v pBase mFlags)
  | failed {s : σ} {m : PageMap} (run : MapRun src cr3 c vas s m) (v pBase : BitVec 64)
      (mFlags : Nat) (lower : Lower v) (limit : pBase.toNat < 0x10000000000000)
      (refused : (mmuMapSingle src (some vas) v pBase mFlags s).1 ≠ .success) :
      MapRun src cr3 c vas (mmuMapSingle src (some vas) v pBase mFlags s).2 m
  | unmap {s : σ} {m : PageMap} (run : MapRun src cr3 c vas s m) (v : BitVec 64)
      (lower : Lower v) :
      MapRun src cr3 c vas (mmuUnmapSingle src (some vas) v s).2 (m.unmap v)
  | other {s s' : σ} {m : PageMap} (run : MapRun src cr3 c vas s m)
      (quiet : Quiet src (src.mem c) (cr3 &&& PTE_ADDR_MASK).toNat {vas.cr3.toNat} s s') :
      MapRun src cr3 c vas s' m

/-- The leaves of one address space say what the page map says. -/
private def Refines (m : PageMap) (mem : Mem) (r : Nat) : Prop :=
  ∀ v, Lower v → leafTranslation (leafEntry mem r v) = m (pageOf v)

private theorem Refines.update {m : PageMap} {mem mem' : Mem} {r : Nat} {v e : BitVec 64}
    (refines : Refines m mem r) (updated : LeafUpdated {r} r v e mem mem') :
    Refines (Function.update m (pageOf v) (leafTranslation e)) mem' r := by
  intro v' lower'
  rw [updated r rfl v' lower']
  by_cases page : pageOf v' = pageOf v
  · rw [if_pos ⟨rfl, page⟩, page, Function.update_self]
  · rw [if_neg (fun h => page h.2), Function.update_of_ne page]
    exact refines v' lower'

private theorem map_run_inv {cr3 : BitVec 64} {c : σ} {vas : MmuVas}
    (fresh : ∀ t, Shared (src.mem c) (cr3 &&& PTE_ADDR_MASK).toNat t → src.held c (t / PAGESIZE))
    (made : (mmuCreateVas src cr3 c).2.1 = some vas) {s : σ} {m : PageMap}
    (run : MapRun src cr3 c vas s m) :
    ∃ r, vas = ⟨BitVec.ofNat 64 r⟩ ∧
      Spaces src (src.mem c) (cr3 &&& PTE_ADDR_MASK).toNat {r} s ∧ Refines m (src.mem s) r := by
  have start : Spaces src (src.mem c) (cr3 &&& PTE_ADDR_MASK).toNat ∅ c :=
    Spaces.start (isPage_mask cr3) fresh
  rcases mmuCreateVas_spec start (Or.inl rfl) _ rfl with ⟨_, none, _⟩ | ⟨r, _, some, _, _,
    inv, _, empty⟩
  · rw [none] at made
    cases made
  obtain rfl := Option.some.inj (some.symm.trans made)
  rw [insert_empty_eq] at inv
  refine ⟨r, rfl, ?_⟩
  have top : (BitVec.ofNat 64 r).toNat = r := (inv.root_page rfl).toNat
  induction run with
  | start =>
    refine ⟨inv, ?_⟩
    intro v lower
    have none : leafTranslation 0 = none := by decide
    rw [empty v lower, none]
  | @map s m _ v pBase mFlags lower limit done ih =>
    obtain ⟨inv, refines⟩ := ih
    obtain ⟨inv', ⟨refused, _⟩ | ⟨_, updated⟩⟩ :=
      mmuMapSingle_spec inv rfl lower pBase mFlags _ rfl
    · rw [done] at refused
      cases refused
    · refine ⟨inv', ?_⟩
      have after := refines.update updated
      rwa [leafTranslation_leafFor limit] at after
  | @failed s m _ v pBase mFlags lower _ refused ih =>
    obtain ⟨inv, refines⟩ := ih
    obtain ⟨inv', ⟨_, kept⟩ | ⟨done, _⟩⟩ := mmuMapSingle_spec inv rfl lower pBase mFlags _ rfl
    · refine ⟨inv', fun v' lower' => ?_⟩
      rw [kept r rfl v' lower']
      exact refines v' lower'
    · exact absurd done refused
  | @unmap s m _ v lower ih =>
    obtain ⟨inv, refines⟩ := ih
    obtain ⟨inv', _, updated⟩ := mmuUnmapSingle_spec inv rfl lower _ rfl
    have none : leafTranslation 0 = none := by decide
    refine ⟨inv', ?_⟩
    have after := refines.update updated
    rwa [none] at after
  | @other s s' m _ quiet ih =>
    obtain ⟨inv, refines⟩ := ih
    simp only [top] at quiet
    obtain ⟨inv', _, kept⟩ := inv.quiet s' (fun t table => (quiet t table).1)
      (fun t table => (quiet t table).2)
    refine ⟨inv', fun v lower => ?_⟩
    rw [kept r rfl v lower]
    exact refines v lower

/-- Whatever calls were made, the hardware sees the abstract page map; a refused call
changes no translation, and no call changes one of another page. -/
theorem vas_refines_page_map {cr3 : BitVec 64} {c : σ} {vas : MmuVas}
    (fresh : ∀ t, Shared (src.mem c) (cr3 &&& PTE_ADDR_MASK).toNat t → src.held c (t / PAGESIZE))
    (made : (mmuCreateVas src cr3 c).2.1 = some vas) {s : σ} {m : PageMap}
    (run : MapRun src cr3 c vas s m) :
    (∀ v, Lower v → translate (src.mem s) vas.cr3 v = m (pageOf v)) ∧
    (∀ v pBase mFlags, Lower v → pBase.toNat < 0x10000000000000 →
      ((mmuMapSingle src (some vas) v pBase mFlags s).1 = .success ∨
        (mmuMapSingle src (some vas) v pBase mFlags s).1 = .notMapped) ∧
      ((mmuMapSingle src (some vas) v pBase mFlags s).1 = .notMapped → ∀ v', Canonical v' →
        translate (src.mem (mmuMapSingle src (some vas) v pBase mFlags s).2) vas.cr3 v' =
          translate (src.mem s) vas.cr3 v') ∧
      ∀ v', Canonical v' → pageOf v' ≠ pageOf v →
        translate (src.mem (mmuMapSingle src (some vas) v pBase mFlags s).2) vas.cr3 v' =
          translate (src.mem s) vas.cr3 v') ∧
    ∀ v, Lower v → (mmuUnmapSingle src (some vas) v s).1 = .success ∧
      ∀ v', Canonical v' → pageOf v' ≠ pageOf v →
        translate (src.mem (mmuUnmapSingle src (some vas) v s).2) vas.cr3 v' =
          translate (src.mem s) vas.cr3 v' := by
  obtain ⟨r, rfl, inv, refines⟩ := map_run_inv fresh made run
  refine ⟨?_, ?_, ?_⟩
  · intro v lower
    rw [inv.translate_lower lower rfl]
    exact refines v lower
  · intro v pBase mFlags lower _
    obtain ⟨inv', ⟨refused, kept⟩ | ⟨done, updated⟩⟩ :=
      mmuMapSingle_spec inv rfl lower pBase mFlags _ rfl
    · exact ⟨Or.inr refused, fun _ v' canonical => kept.translate inv inv' rfl canonical,
        fun v' canonical _ => kept.translate inv inv' rfl canonical⟩
    · refine ⟨Or.inl done, ?_, ?_⟩
      · intro refused
        rw [done] at refused
        cases refused
      · exact fun v' canonical other =>
          updated.translate inv inv' rfl canonical (Or.inr (Or.inr other))
  · intro v lower
    obtain ⟨inv', done, updated⟩ := mmuUnmapSingle_spec inv rfl lower _ rfl
    exact ⟨done, fun v' canonical other =>
      updated.translate inv inv' rfl canonical (Or.inr (Or.inr other))⟩

/-- A machine of eight frames whose boot tables, in frame 0, map nothing. -/
def eightFramesReady : {s : PhysState // Ready s} := ⟨eightFrames, by decide, by decide⟩

theorem eightFrames_shared {t : Nat} (shared : Shared eightFrames.mem 0 t) : t = 0 := by
  obtain ⟨v, visits⟩ := shared
  have absent : faults (entry eightFrames.mem 0 (hwIndex v .pml4)) .pml4 = true := by
    have word : entry eightFrames.mem 0 (hwIndex v .pml4) = 0xAAAAAAAAAAAAAAAA := by
      simp [entry, load64, loadLE, eightFrames]
    rw [word]
    decide
  rcases visits with rfl | ⟨present, _⟩
  · rfl
  · rw [absent] at present
    cases present

theorem eightFrames_fresh (t : Nat) (shared : Shared (bitmapSource.mem eightFramesReady) 0 t) :
    bitmapSource.held eightFramesReady (t / PAGESIZE) := by
  have shared' : Shared eightFrames.mem 0 t := shared
  rw [eightFrames_shared shared', Nat.zero_div]
  exact fun _ => by decide

theorem eightFrames_made :
    (mmuCreateVas bitmapSource 0 eightFramesReady).2.1 = some ⟨0x1000⟩ := by decide +kernel

theorem vas_refines_page_map_once :
    translate (bitmapSource.mem (mmuMapSingle bitmapSource (some ⟨0x1000⟩) 0x400000 0x5000
      PAGE_USER_EXEC_READ (mmuCreateVas bitmapSource 0 eightFramesReady).2.2).2) 0x1000 0x400123 =
      some ⟨0x5000, ⟨false, true, false⟩⟩ := by
  have run : MapRun bitmapSource 0 eightFramesReady ⟨0x1000⟩ _ _ :=
    MapRun.start.map 0x400000 0x5000 PAGE_USER_EXEC_READ (by decide) (by decide) (by decide +kernel)
  have fresh : ∀ t, Shared (bitmapSource.mem eightFramesReady)
      ((0 : BitVec 64) &&& PTE_ADDR_MASK).toNat t →
        bitmapSource.held eightFramesReady (t / PAGESIZE) := by
    have zero : ((0 : BitVec 64) &&& PTE_ADDR_MASK).toNat = 0 := by decide
    rw [zero]
    exact eightFrames_fresh
  have seen := (vas_refines_page_map fresh eightFrames_made run).1 0x400123 (by decide)
  exact seen.trans (by decide +kernel)

end Refinement

/-! Any number of address spaces. -/

section Isolation

variable {σ : Type} {src : FrameSource σ}

/-- Reachable states with the roots of the address spaces created so far. `boot` is
the top table that is current at the start, in state `c`. -/
inductive SpaceRun (src : FrameSource σ) (boot : Nat) (c : σ) : σ → Set Nat → Prop
  | start : SpaceRun src boot c c ∅
  | create {s : σ} {roots : Set Nat} (run : SpaceRun src boot c s roots) (cr3 : BitVec 64)
      (current : Known boot roots cr3) {vas : MmuVas}
      (made : (mmuCreateVas src cr3 s).2.1 = some vas) :
      SpaceRun src boot c (mmuCreateVas src cr3 s).2.2 (insert vas.cr3.toNat roots)
  | refused {s : σ} {roots : Set Nat} (run : SpaceRun src boot c s roots) (cr3 : BitVec 64)
      (current : Known boot roots cr3) (none : (mmuCreateVas src cr3 s).2.1 = none) :
      SpaceRun src boot c (mmuCreateVas src cr3 s).2.2 roots
  | map {s : σ} {roots : Set Nat} (run : SpaceRun src boot c s roots) {r : Nat} (hr : r ∈ roots)
      (v pBase : BitVec 64) (mFlags : Nat) (lower : Lower v) :
      SpaceRun src boot c (mmuMapSingle src (some ⟨BitVec.ofNat 64 r⟩) v pBase mFlags s).2 roots
  | unmap {s : σ} {roots : Set Nat} (run : SpaceRun src boot c s roots) {r : Nat} (hr : r ∈ roots)
      (v : BitVec 64) (lower : Lower v) :
      SpaceRun src boot c (mmuUnmapSingle src (some ⟨BitVec.ofNat 64 r⟩) v s).2 roots
  | other {s s' : σ} {roots : Set Nat} (run : SpaceRun src boot c s roots)
      (quiet : Quiet src (src.mem c) boot roots s s') : SpaceRun src boot c s' roots

theorem space_run_inv {boot : Nat} {c : σ} (page : IsPage boot)
    (fresh : ∀ t, Shared (src.mem c) boot t → src.held c (t / PAGESIZE)) {s : σ} {roots : Set Nat}
    (run : SpaceRun src boot c s roots) : Spaces src (src.mem c) boot roots s := by
  induction run with
  | start => exact Spaces.start page fresh
  | create _ cr3 current made ih =>
    rcases mmuCreateVas_spec ih current _ rfl with ⟨_, none, _⟩ | ⟨r, _, some, _, _, inv, _⟩
    · rw [none] at made
      cases made
    · obtain rfl := Option.some.inj (some.symm.trans made)
      rwa [(inv.root_page (Set.mem_insert _ _)).toNat]
  | refused _ cr3 current none ih =>
    rcases mmuCreateVas_spec ih current _ rfl with ⟨_, _, inv, _⟩ | ⟨r, _, some, _⟩
    · exact inv
    · rw [none] at some
      cases some
  | map _ hr v pBase mFlags lower ih => exact (mmuMapSingle_spec ih hr lower pBase mFlags _ rfl).1
  | unmap _ hr v lower ih => exact (mmuUnmapSingle_spec ih hr lower _ rfl).1
  | other _ quiet ih =>
    exact (ih.quiet _ (fun t table => (quiet t table).1) (fun t table => (quiet t table).2)).1

/-- Nothing changes but lower-half translations of the address space `r`. -/
def OnlyLowerOf (boot : Nat) (roots : Set Nat) (r : Nat) (m m' : Mem) : Prop :=
  ∀ r' ∈ insert boot roots, ∀ v, Canonical v → r' ≠ r ∨ Upper v →
    translate m' (BitVec.ofNat 64 r') v = translate m (BitVec.ofNat 64 r') v

/-- In every run, a call on one address space changes no translation of another one
and none of its own upper half; a new address space has an empty lower half and the
upper half of its creator. -/
theorem address_spaces_isolated {boot : Nat} {c : σ} (page : IsPage boot)
    (fresh : ∀ t, Shared (src.mem c) boot t → src.held c (t / PAGESIZE)) {s : σ} {roots : Set Nat}
    (run : SpaceRun src boot c s roots) :
    (∀ r ∈ roots, ∀ v pBase mFlags, Lower v → OnlyLowerOf boot roots r (src.mem s)
      (src.mem (mmuMapSingle src (some ⟨BitVec.ofNat 64 r⟩) v pBase mFlags s).2)) ∧
    (∀ r ∈ roots, ∀ v, Lower v → OnlyLowerOf boot roots r (src.mem s)
      (src.mem (mmuUnmapSingle src (some ⟨BitVec.ofNat 64 r⟩) v s).2)) ∧
    ∀ cr3 vas, Known boot roots cr3 → (mmuCreateVas src cr3 s).2.1 = some vas →
      vas.cr3.toNat ∉ insert boot roots ∧
      (∀ v, Lower v → translate (src.mem (mmuCreateVas src cr3 s).2.2) vas.cr3 v = none) ∧
      (∀ v, Upper v → translate (src.mem (mmuCreateVas src cr3 s).2.2) vas.cr3 v =
        translate (src.mem s) cr3 v) ∧
      ∀ r ∈ insert boot roots, ∀ v, Canonical v →
        translate (src.mem (mmuCreateVas src cr3 s).2.2) (BitVec.ofNat 64 r) v =
          translate (src.mem s) (BitVec.ofNat 64 r) v := by
  have inv := space_run_inv page fresh run
  have boot_same : ∀ {s' : σ} {roots' : Set Nat}, Spaces src (src.mem c) boot roots' s' → ∀ v,
      translate (src.mem s') (BitVec.ofNat 64 boot) v = translate (src.mem s)
        (BitVec.ofNat 64 boot) v :=
    fun inv' v => (inv'.translate_boot page v).trans (inv.translate_boot page v).symm
  refine ⟨?_, ?_, ?_⟩
  · rintro r hr v pBase mFlags lower r' hr' v' canonical other
    obtain ⟨inv', outcome⟩ := mmuMapSingle_spec inv hr lower pBase mFlags _ rfl
    rcases Set.mem_insert_iff.mp hr' with rfl | created
    · exact boot_same inv' v'
    · rcases outcome with ⟨_, kept⟩ | ⟨_, updated⟩
      · exact kept.translate inv inv' created canonical
      · exact updated.translate inv inv' created canonical (other.imp_right Or.inl)
  · rintro r hr v lower r' hr' v' canonical other
    obtain ⟨inv', _, updated⟩ := mmuUnmapSingle_spec inv hr lower _ rfl
    rcases Set.mem_insert_iff.mp hr' with rfl | created
    · exact boot_same inv' v'
    · exact updated.translate inv inv' created canonical (other.imp_right Or.inl)
  · intro cr3 vas current made
    rcases mmuCreateVas_spec inv current _ rfl with ⟨_, none, _⟩ | ⟨r, _, some, new, apart,
      inv', kept, empty⟩
    · rw [none] at made
      cases made
    obtain rfl := Option.some.inj (some.symm.trans made)
    have member : r ∈ insert r roots := Set.mem_insert _ _
    refine ⟨?_, ?_, ?_, ?_⟩
    · rw [(inv'.root_page member).toNat]
      exact fun old => (Set.mem_insert_iff.mp old).elim apart new
    · intro v lower
      rw [inv'.translate_lower lower member, empty v lower]
      decide
    · intro v upper
      have creator : translate (src.mem s) cr3 v =
          translate (src.mem s) (BitVec.ofNat 64 (cr3 &&& PTE_ADDR_MASK).toNat) v := by
        rw [Mmu.translate, Mmu.translate, (isPage_mask cr3).masked, (isPage_mask cr3).toNat]
      rw [inv'.translate_upper upper member, creator]
      rcases current with at_boot | created
      · rw [at_boot, inv.translate_boot page]
      · rw [inv.translate_upper upper created]
    · intro r' hr' v canonical
      rcases Set.mem_insert_iff.mp hr' with rfl | created
      · exact boot_same inv' v
      · rcases canonical with lower | upper
        · rw [inv'.translate_lower lower (Set.mem_insert_of_mem _ created),
            inv.translate_lower lower created, kept r' created v lower]
        · rw [inv'.translate_upper upper (Set.mem_insert_of_mem _ created),
            inv.translate_upper upper created]

theorem first_space {c : {s : PhysState // Ready s}}
    (made : (mmuCreateVas bitmapSource 0 c).2.1 = some ⟨0x1000⟩) :
    SpaceRun bitmapSource 0 c (mmuCreateVas bitmapSource 0 c).2.2 {0x1000} := by
  have roots : insert (⟨0x1000⟩ : MmuVas).cr3.toNat (∅ : Set Nat) = {0x1000} := by
    have top : (⟨0x1000⟩ : MmuVas).cr3.toNat = 0x1000 := by decide
    rw [top, insert_empty_eq]
  have current : ((0 : BitVec 64) &&& PTE_ADDR_MASK).toNat = 0 := by decide
  rw [← roots]
  exact SpaceRun.start.create 0 (Or.inl current) made

theorem zero_page : IsPage 0 := ⟨by rw [Nat.zero_div, Nat.zero_mul], by norm_num⟩

theorem first_space_unmapped {c : {s : PhysState // Ready s}}
    (fresh : ∀ t, Shared (bitmapSource.mem c) 0 t → bitmapSource.held c (t / PAGESIZE))
    (made : (mmuCreateVas bitmapSource 0 c).2.1 = some ⟨0x1000⟩) (v : BitVec 64) (lower : Lower v) :
    translate (bitmapSource.mem (mmuCreateVas bitmapSource 0 c).2.2) (BitVec.ofNat 64 0x1000)
      v = none := by
  have current : ((0 : BitVec 64) &&& PTE_ADDR_MASK).toNat = 0 := by decide
  rcases mmuCreateVas_spec (Spaces.start zero_page fresh) (Or.inl current) _ rfl with
    ⟨_, none, _⟩ | ⟨p, _, some, _, _, inv, _, empty⟩
  · rw [made] at none
    cases none
  · have root : (⟨0x1000⟩ : MmuVas) = ⟨BitVec.ofNat 64 p⟩ := Option.some.inj (made.symm.trans some)
    have seen := inv.translate_lower lower (Set.mem_insert p ∅)
    rw [empty v lower] at seen
    have same : BitVec.ofNat 64 p = BitVec.ofNat 64 0x1000 := (MmuVas.mk.inj root).symm
    rw [same] at seen
    exact seen.trans (by decide)

theorem address_spaces_isolated_first :
    OnlyLowerOf 0 {0x1000} 0x1000
      (bitmapSource.mem (mmuCreateVas bitmapSource 0 eightFramesReady).2.2)
      (bitmapSource.mem (mmuMapSingle bitmapSource (some ⟨BitVec.ofNat 64 0x1000⟩) 0x400000 0x5000
        PAGE_USER_EXEC_READ (mmuCreateVas bitmapSource 0 eightFramesReady).2.2).2) := by
  exact (address_spaces_isolated zero_page eightFrames_fresh (first_space eightFrames_made)).1
    0x1000
    (Set.mem_singleton _) 0x400000 0x5000 PAGE_USER_EXEC_READ (by decide)

end Isolation

end Algae.Platform.AddressSpaces
