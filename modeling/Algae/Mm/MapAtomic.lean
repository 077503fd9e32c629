/- Whether mapping a region is all or nothing: what mmMapPages leaves behind when it returns
   NULL, and when it does not. -/

import Algae.Mm.Page
import Algae.Platform.TableWrites

set_option autoImplicit false
set_option relaxedAutoImplicit false

namespace Algae.Mm.MapAtomic

open Algae.Lib.ByteMemory
open Algae.Sdk.Defs Algae.Mm.Frames Algae.Mm.Page
open Algae.Platform.Mmu Algae.Platform.PageTables Algae.Platform.AddressSpaces
  Algae.Platform.LargePages
open Algae.Platform.TableWrites

def MmRegion.virt (region : MmRegion) (i : Nat) : BitVec 64 :=
  region.vBase + BitVec.ofNat 64 (i * PAGESIZE)

def MmRegion.phys (region : MmRegion) (i : Nat) : BitVec 64 :=
  region.pBase + BitVec.ofNat 64 (i * PAGESIZE)

private theorem virtPage_virt (region : MmRegion) (i : Nat) :
    virtPage (MmRegion.virt region i) = (virtPage region.vBase + i) % 0x1000000000 := by
  rw [virtPage, virtPage, MmRegion.virt, BitVec.toNat_add, BitVec.toNat_ofNat, PAGESIZE]
  norm_num
  omega

section Loop

variable {σ : Type} {src : FrameSource σ} {root : Nat} {s : σ}

/-- The pages `[first, last)` of the region are mapped: each address in one of them to the
frame of the last page of the region that is there, and no other address. -/
structure PagesMapped (root : Nat) (region : MmRegion) (prot first last : Nat) (m m' : Mem) :
    Prop where
  outside : ∀ w, (∀ i, first ≤ i → i < last → virtPage w ≠ virtPage (MmRegion.virt region i)) →
    walk m' w [.pml4, .pdpt, .pd, .pt] root Rights.all = walk m w [.pml4, .pdpt, .pd, .pt]
      root Rights.all
  inside : ∀ w i, first ≤ i → i < last → virtPage w = virtPage (MmRegion.virt region i) →
    (∀ j, i < j → j < last → virtPage (MmRegion.virt region j) ≠ virtPage
      (MmRegion.virt region i)) →
    walk m' w [.pml4, .pdpt, .pd, .pt] root Rights.all =
      remap m w (leafFor (MmRegion.phys region i) prot) [.pml4, .pdpt, .pd] root Rights.all

private theorem mapLoop_tree (region : MmRegion) (prot rounds j : Nat) (tree : PageTree src root s)
    (only : ∀ i, j ≤ i → i < j + rounds →
      TablesOnly (src.mem s) (MmRegion.virt region i) [.pml4, .pdpt, .pd] root)
    (res : NtStatus × Nat × σ)
    (call : res = mapLoop src (some ⟨BitVec.ofNat 64 root⟩) region prot rounds (j * PAGESIZE) s) :
    ∃ k ≤ rounds, (res.1 = .success ↔ k = rounds) ∧
      (∀ n ≤ rounds, TablesFound src (some ⟨BitVec.ofNat 64 root⟩) region prot n (j * PAGESIZE) s ↔
      n ≤ k) ∧
      PagesMapped root region prot j (j + k) (src.mem s) (src.mem res.2.2) := by
  induction rounds generalizing j s with
  | zero =>
    subst call
    refine ⟨0, le_rfl, iff_of_true rfl rfl, fun n few => ?_, fun w _ => rfl,
      fun w i low high => by omega⟩
    obtain rfl : n = 0 := by omega
    exact iff_of_true True.intro le_rfl
  | succ rounds ih =>
    have here := only j le_rfl (by omega)
    obtain ⟨tree', remapped, outcome⟩ :=
      mmuMapSingle_tree tree here (MmRegion.phys region j) prot _ rfl
    have found := @mmuMapSingle_success _ src ⟨BitVec.ofNat 64 root⟩ (MmRegion.virt region j)
      (MmRegion.phys region j) prot s
    have next : j * PAGESIZE + PAGESIZE = (j + 1) * PAGESIZE := by ring
    rw [mapLoop] at call
    simp only at call
    change res =
      if (mmuMapSingle src _ (MmRegion.virt region j) (MmRegion.phys region j) prot s).1 ≠ _
      then _ else _ at call
    rcases outcome with ⟨refused, kept⟩ | ⟨done, walked⟩
    · have stop : (mmuMapSingle src (some ⟨BitVec.ofNat 64 root⟩) (MmRegion.virt region j)
          (MmRegion.phys region j) prot s).1 ≠ .success := by
        rw [refused]
        decide
      rw [if_pos stop] at call
      subst call
      refine ⟨0, Nat.zero_le _, iff_of_false stop (by omega), fun n _ => ?_, fun w _ => kept.walk w,
        fun w i low high => by omega⟩
      cases n with
      | zero => exact iff_of_true True.intro le_rfl
      | succ n => exact iff_of_false (fun tables => stop (found.mpr tables.1)) (by omega)
    · rw [if_neg (not_not.mpr done), next] at call
      have later : ∀ i, j + 1 ≤ i → i < j + 1 + rounds → TablesOnly (src.mem (mmuMapSingle src
          (some ⟨BitVec.ofNat 64 root⟩) (MmRegion.virt region j) (MmRegion.phys region j) prot s).2)
          (MmRegion.virt region i) [.pml4, .pdpt, .pd] root := by
        intro i low high
        rw [tablesOnly_iff (e := 0) _ _ Rights.all, remapped, ← tablesOnly_iff]
        exact only i (by omega) (by omega)
      obtain ⟨k, few, success, tables, mapped⟩ := ih (j + 1) tree' later call
      refine ⟨k + 1, by omega, by rw [success]; omega, fun n few' => ?_, fun w out => ?_,
        fun w i low high same last => ?_⟩
      · cases n with
        | zero => exact iff_of_true True.intro (Nat.zero_le _)
        | succ n =>
          rw [TablesFound, next]
          have rest := tables n (by omega)
          exact ⟨fun both => Nat.succ_le_succ (rest.mp both.2),
            fun below => ⟨found.mp done, rest.mpr (by omega)⟩⟩
      · rw [mapped.outside w fun i low high => out i (by omega) (by omega), walked,
          if_neg (out j le_rfl (by omega))]
      · by_cases first : i = j
        · subst first
          rw [mapped.outside w fun i' low' high' => same ▸ (last i' (by omega) (by omega)).symm,
            walked, if_pos same]
        · rw [mapped.inside w i (by omega) (by omega) same fun i' low' high' =>
            last i' low' (by omega), remapped]

end Loop

section Pages

variable {m : Mem} {w v : BitVec 64}

private theorem remap_page (same : virtPage w = virtPage v) (e : BitVec 64)
    (levels : List MapLevel) (table : Nat)
    (rights : Rights) : remap m w e levels table rights = remap m v e levels table rights := by
  have indices := virtPage_eq_iff.mp same
  induction levels generalizing table rights with
  | nil => rfl
  | cons level levels ih => simp only [remap, indices level, ih]

theorem walk_page (same : virtPage w = virtPage v) (levels : List MapLevel) (table : Nat)
    (rights : Rights) :
    walk m w levels table rights = walk m v levels table rights := by
  have indices := virtPage_eq_iff.mp same
  have offset : ∀ level :
      MapLevel, w.toNat % 2 ^ level.shift / 4096 = v.toNat % 2 ^ level.shift / 4096 := by
    intro level
    cases level with
    | pt | pd | pdpt | pml4 =>
      simp only [virtPage, MapLevel.shift] at same ⊢
      omega
  have leaf : ∀ e level, leafPage e w level = leafPage e v level := by
    intro e level
    rw [leafPage, leafPage, offset]
  induction levels generalizing table rights with
  | nil => rfl
  | cons level levels ih => simp only [walk_cons, indices level, leaf, ih]

private theorem remap_phys {e : BitVec 64} (levels : List MapLevel) (table : Nat) (rights : Rights)
    {t : Translation} (leads : remap m w e levels table rights = some t) :
    t.phys = (e &&& PTE_ADDR_MASK).toNat := by
  induction levels generalizing table rights with
  | nil =>
    obtain rfl := Option.some.inj leads
    rfl
  | cons level levels ih =>
    rw [remap] at leads
    split at leads
    · split at leads
      · cases leads
      · exact ih _ _ leads
    · obtain rfl := Option.some.inj leads
      rfl

private theorem leafFor_address (pBase : BitVec 64) (mFlags : Nat) :
    (leafFor pBase mFlags &&& PTE_ADDR_MASK).toNat = (pBase &&& PTE_ADDR_MASK).toNat := by
  have flags : mmuGetTableFlags mFlags &&& PTE_ADDR_MASK = 0#64 := by
    unfold mmuGetTableFlags
    split_ifs <;> decide
  rw [leafFor, BitVec.and_or_distrib_right, flags, BitVec.or_zero, toNat_mask, toNat_mask,
    alignDown_toNat]
  omega

private theorem phys_apart (region : MmRegion) (i : Nat) :
    (MmRegion.phys region (i + 0x1000000000) &&& PTE_ADDR_MASK).toNat ≠
      (MmRegion.phys region i &&& PTE_ADDR_MASK).toNat := by
  rw [toNat_mask, toNat_mask, MmRegion.phys, MmRegion.phys, BitVec.toNat_add, BitVec.toNat_add,
    BitVec.toNat_ofNat, BitVec.toNat_ofNat, PAGESIZE]
  norm_num
  omega

private theorem exists_last {P : Nat → Prop} {n i : Nat} (below : i < n) (holds : P i) :
    ∃ last < n, P last ∧ ∀ j, last < j → j < n → ¬P j := by
  classical
  refine ⟨Nat.findGreatest P (n - 1), ?_, Nat.findGreatest_spec (show i ≤ n - 1 by omega) holds, ?_⟩
  · have bound := Nat.findGreatest_le (P := P) (n - 1)
    omega
  · exact fun j above high => Nat.findGreatest_is_greatest above (by omega)

end Pages

section Results

variable {σ : Type} (src : FrameSource σ) (root : Nat) (region : MmRegion) (prot : Nat) (s : σ)

/-- NULL means that every address translates as before, any other result that every page of the
region is mapped to its frame. -/
structure AllOrNothing : Prop where
  undone : (mmMapPages src (some ⟨BitVec.ofNat 64 root⟩) (some region) prot s).1 = 0 → ∀ w,
    translate (src.mem (mmMapPages src (some ⟨BitVec.ofNat 64 root⟩) (some region) prot s).2)
      (BitVec.ofNat 64 root) w = translate (src.mem s) (BitVec.ofNat 64 root) w
  mapped : (mmMapPages src (some ⟨BitVec.ofNat 64 root⟩) (some region) prot s).1 ≠ 0 →
    ∀ i < region.aligned.pages, ∃ rights,
      translate (src.mem (mmMapPages src (some ⟨BitVec.ofNat 64 root⟩) (some region) prot s).2)
        (BitVec.ofNat 64 root) (MmRegion.virt region.aligned i) =
          some ⟨(MmRegion.phys region.aligned i &&& PTE_ADDR_MASK).toNat, rights⟩

def Supplied (n : Nat) : Prop :=
  TablesFound src (some ⟨BitVec.ofNat 64 root⟩) region.aligned prot n 0 s

/-- Each page that is mapped before the loop ends, and not by a later page again, translates
already as it will then. -/
def NothingNew : Prop :=
  ∀ i < region.aligned.pages, Supplied src root region prot s (i + 1) →
    (∀ j, i < j → j < region.aligned.pages → Supplied src root region prot s (j + 1) →
      virtPage (MmRegion.virt region.aligned j) ≠ virtPage (MmRegion.virt region.aligned i)) →
    translate (src.mem s) (BitVec.ofNat 64 root) (MmRegion.virt region.aligned i) =
      remap (src.mem s) (MmRegion.virt region.aligned i)
        (leafFor (MmRegion.phys region.aligned i) prot) [.pml4, .pdpt, .pd] root Rights.all

variable {src root region prot s}

private theorem PagesMapped.unchanged_iff {region : MmRegion} {k : Nat} {m m' : Mem}
    (mapped : PagesMapped root region prot 0 k m m') :
    (∀ w, walk m' w [.pml4, .pdpt, .pd, .pt] root Rights.all =
      walk m w [.pml4, .pdpt, .pd, .pt] root Rights.all) ↔
    ∀ i < k, (∀ j, i < j → j < k → virtPage (MmRegion.virt region j) ≠ virtPage
      (MmRegion.virt region i)) →
      walk m (MmRegion.virt region i) [.pml4, .pdpt, .pd, .pt] root Rights.all =
        remap m (MmRegion.virt region i) (leafFor (MmRegion.phys region i) prot)
          [.pml4, .pdpt, .pd] root
          Rights.all := by
  constructor
  · intro unchanged i below last
    rw [← unchanged, mapped.inside _ i (Nat.zero_le i) below rfl last]
  · intro same w
    by_cases there : ∃ i < k, virtPage w = virtPage (MmRegion.virt region i)
    · obtain ⟨_, low, page⟩ := there
      obtain ⟨i, below, here, last⟩ :=
        exists_last (P := fun i => virtPage w = virtPage (MmRegion.virt region i)) low page
      have final : ∀ j, i < j → j < k →
          virtPage (MmRegion.virt region j) ≠ virtPage (MmRegion.virt region i) :=
        fun j above high equal => last j above high (here.trans equal.symm)
      rw [mapped.inside w i (Nat.zero_le i) below here final, remap_page here, walk_page here,
        same i below final]
    · exact mapped.outside w fun i _ below page => there ⟨i, below, page⟩

private theorem PagesMapped.mapped_iff {region : MmRegion} {n : Nat} {m m' : Mem}
    (mapped : PagesMapped root region prot 0 n m m')
    (only : ∀ i < n, TablesOnly m (MmRegion.virt region i) [.pml4, .pdpt, .pd] root) :
    (∀ i < n, ∃ rights, walk m' (MmRegion.virt region i) [.pml4, .pdpt, .pd, .pt] root Rights.all =
      some ⟨(MmRegion.phys region i &&& PTE_ADDR_MASK).toNat, rights⟩) ↔ n ≤ 0x1000000000 := by
  have leads : ∀ w i, i < n → virtPage w = virtPage (MmRegion.virt region i) →
      (∀ j, i < j → j < n → virtPage (MmRegion.virt region j) ≠ virtPage (MmRegion.virt region i)) →
      ∃ rights, walk m' w [.pml4, .pdpt, .pd, .pt] root Rights.all =
        some ⟨(MmRegion.phys region i &&& PTE_ADDR_MASK).toNat, rights⟩ := by
    intro w i below here last
    rw [mapped.inside w i (Nat.zero_le i) below here last, remap_page here]
    obtain ⟨t, found⟩ :=
      Option.ne_none_iff_exists'.mp ((tablesOnly_iff _ _ Rights.all).mp (only i below))
    refine ⟨t.rights, found.trans ?_⟩
    rw [← leafFor_address (MmRegion.phys region i) prot, ← remap_phys _ _ _ found]
  constructor
  · intro all
    by_contra large
    obtain ⟨i, rfl⟩ : ∃ i, n = i + 0x1000000000 + 1 := ⟨n - 0x1000000001, by omega⟩
    have again : virtPage (MmRegion.virt region i) =
        virtPage (MmRegion.virt region (i + 0x1000000000)) := by
      rw [virtPage_virt, virtPage_virt]
      omega
    obtain ⟨_, first⟩ := all i (by omega)
    obtain ⟨_, second⟩ := leads _ (i + 0x1000000000) (by omega) again (by omega)
    have same := Option.some.inj (second.symm.trans first)
    exact phys_apart region i (congrArg Translation.phys same)
  · intro small i below
    refine leads _ i below rfl fun j above high => ?_
    rw [virtPage_virt, virtPage_virt]
    omega

/-- Below tables only, a call is all or nothing exactly if it maps the whole region and returns
its address, or what it maps is nothing new. -/
theorem map_all_or_nothing_iff (tree : PageTree src root s) (region : MmRegion) (prot : Nat)
    (only : ∀ i < region.aligned.pages,
      TablesOnly (src.mem s) (MmRegion.virt region.aligned i) [.pml4, .pdpt, .pd] root) :
    AllOrNothing src root region prot s ↔
      (Supplied src root region prot s region.aligned.pages ∧ region.aligned.vBase ≠ 0 ∧
        region.aligned.pages ≤ 0x1000000000) ∨
      (¬(Supplied src root region prot s region.aligned.pages ∧ region.aligned.vBase ≠ 0) ∧
        NothingNew src root region prot s) := by
  obtain ⟨k, few, success, tables, mapped⟩ :=
    mapLoop_tree region.aligned prot region.aligned.pages 0 tree
    (fun i _ below => only i (by omega)) _ rfl
  rw [Nat.zero_mul] at success tables mapped
  rw [Nat.zero_add] at mapped
  have found : Supplied src root region prot s region.aligned.pages ↔ k = region.aligned.pages := by
    rw [Supplied, tables _ le_rfl]
    omega
  have state : (mmMapPages src (some ⟨BitVec.ofNat 64 root⟩) (some region) prot s).2 =
      (mapLoop src (some ⟨BitVec.ofNat 64 root⟩) region.aligned prot region.aligned.pages
        0 s).2.2 := by
    rw [mmMapPages]
    simp only
    split
    · rfl
    · rfl
  have null : (mmMapPages src (some ⟨BitVec.ofNat 64 root⟩) (some region) prot s).1 ≠ 0 ↔
      k = region.aligned.pages ∧ region.aligned.vBase ≠ 0 := by
    rw [mmMapPages, ← success]
    simp only
    split
    · rename_i failed
      exact iff_of_false (not_not.mpr rfl) fun both => failed both.1
    · rename_i done
      exact (and_iff_right (not_not.mp done)).symm
  have new : NothingNew src root region prot s ↔
      ∀ w, walk
        (src.mem (mapLoop src (some ⟨BitVec.ofNat 64 root⟩) region.aligned prot
          region.aligned.pages 0
        s).2.2) w [.pml4, .pdpt, .pd, .pt] root Rights.all =
          walk (src.mem s) w [.pml4, .pdpt, .pd, .pt] root Rights.all := by
    rw [mapped.unchanged_iff, NothingNew]
    simp only [tree.translate]
    constructor
    · intro same i below last
      refine same i (by omega) ((tables (i + 1) (by omega)).mpr below) fun j above high found => ?_
      exact last j above ((tables (j + 1) (by omega)).mp found)
    · intro same i below found last
      refine same i ((tables (i + 1) (by omega)).mp found) fun j above high => ?_
      exact last j above (by omega) ((tables (j + 1) (by omega)).mpr high)
  rw [found, new]
  by_cases done : k = region.aligned.pages ∧ region.aligned.vBase ≠ 0
  · have all := mapped.mapped_iff fun i below => only i (by omega)
    rw [done.1] at all
    constructor
    · intro promised
      have every := promised.mapped (null.mpr done)
      rw [state] at every
      simp only [tree.translate] at every
      exact Or.inl ⟨done.1, done.2, all.mp every⟩
    · rintro (⟨_, _, small⟩ | ⟨not_done, _⟩)
      · refine ⟨fun zero => absurd zero (null.mpr done), fun _ => ?_⟩
        rw [state]
        simp only [tree.translate]
        exact all.mpr small
      · exact absurd done not_done
  · have zero := not_not.mp (mt null.mp done)
    constructor
    · intro promised
      have same := promised.undone zero
      rw [state] at same
      simp only [tree.translate] at same
      exact Or.inr ⟨done, same⟩
    · rintro (⟨all, nonzero, _⟩ | ⟨_, same⟩)
      · exact absurd ⟨all, nonzero⟩ done
      · refine ⟨fun _ w => ?_, fun nonzero => absurd zero nonzero⟩
        rw [state, tree.translate, tree.translate]
        exact same w

end Results

section Images

def twoPages : MmRegion := ⟨0x5000, 0x3FF000, 0x2000⟩

/-- The call fails at the second page and leaves the first one mapped. -/
theorem first_page_left_behind : PageTree bitmapSource 0x1000 largeFramesReady ∧
    ¬AllOrNothing bitmapSource 0x1000 twoPages PAGE_READWRITE largeFramesReady := by
  refine ⟨largeFrames_tree, fun all => ?_⟩
  have failed :
    (mmMapPages bitmapSource (some ⟨BitVec.ofNat 64 0x1000⟩) (some twoPages) PAGE_READWRITE
      largeFramesReady).1 = 0 := by decide +kernel
  have before :
      translate (bitmapSource.mem largeFramesReady) (BitVec.ofNat 64 0x1000) 0x3FF000 = none := by
    decide +kernel
  have after : translate (bitmapSource.mem (mmMapPages bitmapSource (some ⟨BitVec.ofNat 64 0x1000⟩)
      (some twoPages) PAGE_READWRITE largeFramesReady).2) (BitVec.ofNat 64 0x1000)
        0x3FF000 ≠ none := by
    decide +kernel
  exact after ((all.undone failed 0x3FF000).trans before)

theorem map_all_or_nothing_iff_first :
    AllOrNothing bitmapSource 0x1000 ⟨0x5000, 0x3FF000, 0x1000⟩ PAGE_READWRITE
      largeFramesReady := by
  have one : (MmRegion.aligned ⟨0x5000, 0x3FF000, 0x1000⟩).pages = 1 := by decide +kernel
  have first : MmRegion.virt (MmRegion.aligned ⟨0x5000, 0x3FF000, 0x1000⟩) 0 = 0x3FF000 := by
    decide +kernel
  refine (map_all_or_nothing_iff largeFrames_tree _ PAGE_READWRITE fun i below => ?_).mpr
    (Or.inl ⟨?_, by decide +kernel, ?_⟩)
  · obtain rfl : i = 0 := by omega
    rw [first]
    exact largeMem_tablesOnly
  · rw [one, Supplied, ← mapLoop_success_iff]
    decide +kernel
  · rw [one]
    decide

end Images

end Algae.Mm.MapAtomic
