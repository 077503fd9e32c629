/- What mapping and unmapping a page write to memory: tables, unless a large page is in the
   way. -/

import Algae.Platform.LargePages

set_option autoImplicit false
set_option relaxedAutoImplicit false

namespace Algae.Platform.TableWrites

open Algae.Lib.ByteMemory Algae.Lib.FirstFit Algae.Lib.RadixForest
open Algae.Sdk.Defs Algae.Mm.Frames Algae.Platform.Mmu Algae.Platform.PageTables
open Algae.Platform.AddressSpaces Algae.Platform.TableFrames Algae.Platform.LargePages

/-- Where the descent of an address comes to without a new table: the table, and the level of
its entry there. -/
def landing (m : Mem) (virtAddr : BitVec 64) : List MapLevel → Nat → Nat × MapLevel
  | [], table => (table, .pt)
  | level :: levels, table =>
    let e := entry m table (hwIndex virtAddr level)
    if has e PTE_P then
      landing m virtAddr levels (e &&& PTE_ADDR_MASK).toNat
    else
      (table, level)

private theorem landing_present {m : Mem} {v : BitVec 64} {level : MapLevel}
    {levels : List MapLevel} {table : Nat}
    (present : has (entry m table (hwIndex v level)) PTE_P = true) :
    landing m v (level :: levels) table =
      landing m v levels (entry m table (hwIndex v level) &&& PTE_ADDR_MASK).toNat := by
  rw [landing]
  exact if_pos present

private theorem landing_absent {m : Mem} {v : BitVec 64} {level : MapLevel}
    {levels : List MapLevel} {table : Nat}
    (absent : has (entry m table (hwIndex v level)) PTE_P = false) :
    landing m v (level :: levels) table = (table, level) := by
  rw [landing]
  exact if_neg (Bool.not_eq_true _ ▸ absent)

private theorem landing_aligned {m : Mem} {v : BitVec 64} (levels : List MapLevel) {table : Nat}
    (page : table = table / PAGESIZE * PAGESIZE) :
    (landing m v levels table).1 = (landing m v levels table).1 / PAGESIZE * PAGESIZE := by
  induction levels generalizing table with
  | nil => exact page
  | cons level levels ih =>
    by_cases present : has (entry m table (hwIndex v level)) PTE_P = true
    · rw [landing_present present]
      exact ih (isPage_mask _).aligned
    · rw [landing_absent (Bool.eq_false_of_not_eq_true present)]
      exact page

section Changes

variable {σ : Type} (src : ZeroingSource σ)

/-- Memory changes in the frame `f` and in frames that were taken on the way. -/
structure ChangesOnly (f : Nat) (s s' : σ) : Prop where
  mem : ∀ x, src.mem s' x ≠ src.mem s x →
    x / PAGESIZE = f ∨ (¬src.held s (x / PAGESIZE) ∧ src.held s' (x / PAGESIZE))
  held : ∀ g, src.held s g → src.held s' g

variable {src} {f : Nat} {s s' s'' : σ}

theorem ChangesOnly.refl (f : Nat) (s : σ) : ChangesOnly src f s s :=
  ⟨fun _ changed => absurd rfl changed, fun _ held => held⟩

theorem ChangesOnly.trans {g : Nat} (first : ChangesOnly src f s s')
    (second : ChangesOnly src g s' s'')
    (taken : g = f ∨ (¬src.held s g ∧ src.held s' g)) : ChangesOnly src f s s'' := by
  refine ⟨fun x changed => ?_, fun h held => second.held h (first.held h held)⟩
  by_cases later : src.mem s'' x = src.mem s' x
  · rw [later] at changed
    exact (first.mem x changed).imp_right fun new => ⟨new.1, second.held _ new.2⟩
  · rcases second.mem x later with rfl | ⟨before, after⟩
    · exact taken.imp_right fun new => ⟨new.1, second.held _ new.2⟩
    · exact Or.inr ⟨fun held => before (first.held _ held), after⟩

theorem ChangesOnly.alloc (f : Nat) (s : σ) : ChangesOnly src f s (src.mmAllocFrame s 1).2 := by
  refine ⟨fun x changed => Or.inr ?_, src.stays_held s 1⟩
  obtain ⟨nonzero, inside⟩ := src.only_block s 1 x changed
  obtain ⟨i, ret, _, fresh⟩ := src.fresh s 1 nonzero
  rw [ret, Nat.mul_div_cancel _ page_pos] at inside
  exact fresh _ inside

theorem ChangesOnly.setEntry {t i : Nat} (page : t = t / PAGESIZE * PAGESIZE) (hi : i < 512)
    (e : BitVec 64)
    (s : σ) : ChangesOnly src (t / PAGESIZE) s (setEntry src.toFrameSource s t i e) := by
  refine ⟨fun x changed => Or.inl ?_, fun g held => (held_setEntry s t i e g).mpr held⟩
  by_contra other
  exact changed (setEntry_other_frame page hi (Ne.symm other))

theorem ChangesOnly.linked {n d : Nat} (page : n = n / PAGESIZE * PAGESIZE) (hd : d < 512)
    (p : Nat) (s : σ) :
    ChangesOnly src (n / PAGESIZE) s (linked src.toFrameSource s n d p) := by
  have first :
      ChangesOnly src (n / PAGESIZE) s (Mmu.setEntry src.toFrameSource s n d (BitVec.ofNat 64 p)) :=
    ChangesOnly.setEntry page hd _ s
  rw [PageTables.linked]
  exact first.trans (ChangesOnly.setEntry page hd _ _) (Or.inl rfl)

def Closed (m : Mem) (p : Nat) : Prop :=
  ∀ i < 512, has (entry m p i) PTE_P = true → (entry m p i &&& PTE_ADDR_MASK).toNat = p

private theorem link_changes {n d : Nat} (page : n = n / PAGESIZE * PAGESIZE) (hd : d < 512)
    (nonzero : (src.mmAllocFrame s 1).1 ≠ 0) :
    Closed (src.mem
      (linked src.toFrameSource (src.mmAllocFrame s 1).2 n d (src.mmAllocFrame s 1).1))
      (src.mmAllocFrame s 1).1 ∧
    ChangesOnly src (n / PAGESIZE) s
      (linked src.toFrameSource (src.mmAllocFrame s 1).2 n d (src.mmAllocFrame s 1).1) := by
  obtain ⟨new, _, _, empty⟩ := frame_page src.toFrameSource s nonzero
  constructor
  · intro i hi present
    by_cases here : (src.mmAllocFrame s 1).1 = n ∧ i = d
    · obtain ⟨same, rfl⟩ := here
      have link :=
        @linked_here _ src.toFrameSource (src.mmAllocFrame s 1).2 n i (src.mmAllocFrame s 1).1
      rw [same] at link ⊢
      rw [link]
      exact (link_entry (same ▸ new)).2.2
    · rw [linked_other _ _ page new.aligned hd hi (not_and_or.mp here), empty i hi] at present
      exact absurd present (by decide)
  · exact (ChangesOnly.alloc _ s).trans (ChangesOnly.linked page hd _ _) (Or.inl rfl)

/-- The descent ends at a table that the callers of the source may write to. -/
def EndsIn (src : ZeroingSource σ) (f : Nat) (s : σ) (res : Nat × σ) : Prop :=
  ChangesOnly src f s res.2 ∧
  (res.1 = 0 ∨ (res.1 = res.1 / PAGESIZE * PAGESIZE ∧
    (res.1 / PAGESIZE = f ∨ (¬src.held s (res.1 / PAGESIZE) ∧ src.held res.2 (res.1 / PAGESIZE)))))

theorem EndsIn.after {g : Nat} {res : Nat × σ} (ends : EndsIn src g s' res)
    (first : ChangesOnly src f s s')
    (taken : g = f ∨ (¬src.held s g ∧ src.held s' g)) : EndsIn src f s res := by
  refine ⟨first.trans ends.1 taken, ends.2.imp_right fun there => ⟨there.1, ?_⟩⟩
  rcases there.2 with same | ⟨before, after⟩
  · rw [same]
    exact taken.imp_right fun new => ⟨new.1, ends.1.held _ new.2⟩
  · exact Or.inr ⟨fun held => before (first.held _ held), after⟩

private theorem descend_closed {v : BitVec 64} {alloc : Bool} (levels : List MapLevel)
    {p : Nat} {s : σ} (page : p = p / PAGESIZE * PAGESIZE) (closed : Closed (src.mem s) p) :
    EndsIn src (p / PAGESIZE) s (descend src.toFrameSource v alloc levels p s) := by
  induction levels generalizing p s with
  | nil => exact ⟨ChangesOnly.refl _ _, Or.inr ⟨page, Or.inl rfl⟩⟩
  | cons level levels ih =>
    by_cases present : has (entry (src.mem s) p (hwIndex v level)) PTE_P = true
    · rw [descend_present present, closed _ (hwIndex_lt v level) present]
      exact ih page closed
    · have absent := Bool.eq_false_of_not_eq_true present
      cases alloc with
      | false =>
        rw [descend_missing absent]
        exact ⟨ChangesOnly.refl _ _, Or.inl rfl⟩
      | true =>
        by_cases zero : (src.mmAllocFrame s 1).1 = 0
        · rw [descend_refused absent zero]
          exact ⟨ChangesOnly.alloc _ s, Or.inl rfl⟩
        · obtain ⟨new, unheld, held, _⟩ := frame_page src.toFrameSource s zero
          obtain ⟨closed', changes⟩ := link_changes page (hwIndex_lt v level) zero
          rw [descend_linked absent zero]
          refine (ih new.aligned closed').after changes (Or.inr ⟨unheld, ?_⟩)
          exact (linked_held _ _ _ _ _).mpr held

private theorem descend_landing {v : BitVec 64} {alloc : Bool} (levels : List MapLevel)
    (table : Nat) (s : σ) :
    ∃ rest, descend src.toFrameSource v alloc levels table s =
        descend src.toFrameSource v alloc rest (landing (src.mem s) v levels table).1 s ∧
      ((rest = [] ∧ (landing (src.mem s) v levels table).2 = .pt) ∨
        ∃ more, rest = (landing (src.mem s) v levels table).2 :: more ∧
          (landing (src.mem s) v levels table).2 ∈ levels ∧
          has (entry (src.mem s) (landing (src.mem s) v levels table).1
            (hwIndex v (landing (src.mem s) v levels table).2)) PTE_P = false) := by
  induction levels generalizing table with
  | nil => exact ⟨[], rfl, Or.inl ⟨rfl, rfl⟩⟩
  | cons level levels ih =>
    by_cases present : has (entry (src.mem s) table (hwIndex v level)) PTE_P = true
    · rw [descend_present present, landing_present present]
      obtain ⟨rest, goes, ending⟩ :=
        ih (entry (src.mem s) table (hwIndex v level) &&& PTE_ADDR_MASK).toNat
      refine ⟨rest, goes, ending.imp_right ?_⟩
      rintro ⟨more, first, member, absent⟩
      exact ⟨more, first, List.mem_cons_of_mem _ member, absent⟩
    · have absent := Bool.eq_false_of_not_eq_true present
      rw [landing_absent absent]
      exact ⟨level :: levels, rfl, Or.inr ⟨levels, rfl, List.mem_cons_self .., absent⟩⟩

private theorem descend_changes {v : BitVec 64} {alloc : Bool} (levels : List MapLevel)
    {table : Nat} (s : σ) (page : table = table / PAGESIZE * PAGESIZE) :
    EndsIn src ((landing (src.mem s) v levels table).1 / PAGESIZE) s
      (descend src.toFrameSource v alloc levels table s) := by
  have there := landing_aligned (m := src.mem s) (v := v) levels page
  obtain ⟨rest, goes, ending⟩ := @descend_landing _ src v alloc levels table s
  rw [goes]
  rcases ending with ⟨rfl, _⟩ | ⟨more, rfl, _, absent⟩
  · exact ⟨ChangesOnly.refl _ _, Or.inr ⟨there, Or.inl rfl⟩⟩
  · cases alloc with
    | false =>
      rw [descend_missing absent]
      exact ⟨ChangesOnly.refl _ _, Or.inl rfl⟩
    | true =>
      by_cases zero : (src.mmAllocFrame s 1).1 = 0
      · rw [descend_refused absent zero]
        exact ⟨ChangesOnly.alloc _ s, Or.inl rfl⟩
      · obtain ⟨new, unheld, held, _⟩ := frame_page src.toFrameSource s zero
        obtain ⟨closed, changes⟩ := link_changes there (hwIndex_lt v _) zero
        rw [descend_linked absent zero]
        refine (descend_closed more new.aligned closed).after changes (Or.inr ⟨unheld, ?_⟩)
        exact (linked_held _ _ _ _ _).mpr held

private theorem ChangesOnly.keeps_entry (changes : ChangesOnly src f s s') {n i : Nat}
    (page : n = n / PAGESIZE * PAGESIZE) (hi : i < 512) (held : src.held s (n / PAGESIZE))
    (other : n / PAGESIZE ≠ f) : entry (src.mem s') n i = entry (src.mem s) n i := by
  apply entry_congr page hi
  intro x frame
  by_contra changed
  rcases changes.mem _ changed with same | new
  · exact other (frame.symm.trans same)
  · exact new.1 (frame ▸ held)

theorem EndsIn.store {res : Nat × σ} (ends : EndsIn src f s res) (nonzero : res.1 ≠ 0) {i : Nat}
    (hi : i < 512)
    (e : BitVec 64) : ChangesOnly src f s (setEntry src.toFrameSource res.2 res.1 i e) := by
  obtain ⟨page, taken⟩ := ends.2.resolve_left nonzero
  exact ends.1.trans (ChangesOnly.setEntry page hi e _) taken

end Changes

section Safety

variable {σ : Type} (src : ZeroingSource σ) (root : Nat)

/-- Memory changes in tables of the tree and in new frames only, and translations in the page of
`v` only. -/
structure OnlyTables (v : BitVec 64) (s s' : σ) : Prop where
  frames : ∀ x, src.mem s' x ≠ src.mem s x →
    (∃ t, IsTable (src.mem s) root t ∧ x / PAGESIZE = t / PAGESIZE) ∨
      (¬src.held s (x / PAGESIZE) ∧ src.held s' (x / PAGESIZE))
  pages : ∀ w, virtPage w ≠ virtPage v →
    translate (src.mem s') (BitVec.ofNat 64 root) w = translate (src.mem s) (BitVec.ofNat 64 root) w

/-- Mapping stores nothing new at the entry where the descent of `v` lands: it is there
already, or stands for 0, or a table for it is refused. -/
def MapIdle (v pBase : BitVec 64) (mFlags : Nat) (s : σ) (land : Nat × MapLevel) : Prop :=
  if land.2 = .pt then
    land.1 = 0 ∨ entry (src.mem s) land.1 (hwIndex v .pt) = leafFor pBase mFlags
  else
    (src.mmAllocFrame s 1).1 = 0

def UnmapIdle (v : BitVec 64) (s : σ) (land : Nat × MapLevel) : Prop :=
  land.2 = .pt → land.1 = 0 ∨ entry (src.mem s) land.1 (hwIndex v .pt) = 0

variable {src root} {s : σ} {v : BitVec 64}

private theorem landing_alignDown {m : Mem} (levels : List MapLevel) (table : Nat) :
    landing m (alignDown v (BitVec.ofNat 64 PAGESIZE)) levels table = landing m v levels table := by
  induction levels generalizing table with
  | nil => rfl
  | cons level levels ih => simp only [landing, hwIndex_alignDown, ih]

private theorem landing_table (levels done : List MapLevel)
    (whole : done ++ (levels ++ [.pt]) = [.pml4, .pdpt, .pd, .pt]) {table : Nat}
    (here : follow (tableSlot (src.mem s)) root (done.map (hwIndex v)) = some table)
    (only : TablesOnly (src.mem s) v levels table) :
    IsTable (src.mem s) root (landing (src.mem s) v levels table).1 := by
  induction levels generalizing done table with
  | nil => exact ⟨root, rfl, _, path_of_levels whole (by simp), here⟩
  | cons level levels ih =>
    by_cases present : has (entry (src.mem s) table (hwIndex v level)) PTE_P = true
    · obtain ⟨small, below⟩ := only present
      obtain ⟨whole', there⟩ := follow_step whole here present small
      rw [landing_present present]
      exact ih (done ++ [level]) whole' there below
    · rw [landing_absent (Bool.eq_false_of_not_eq_true present)]
      exact ⟨root, rfl, _, path_of_levels whole (by simp), here⟩

private theorem mmuGetLevelPhys_ends (tree : PageTree src.toFrameSource root s) (alloc : Bool) :
    EndsIn src ((landing (src.mem s) v [.pml4, .pdpt, .pd] root).1 / PAGESIZE) s
      (mmuGetLevelPhys src.toFrameSource (some ⟨BitVec.ofNat 64 root⟩)
        (alignDown v (BitVec.ofNat 64 PAGESIZE)) .pt alloc s) := by
  have ends := @descend_changes _ src (alignDown v (BitVec.ofNat 64 PAGESIZE)) alloc
    [.pml4, .pdpt, .pd]
    root s tree.page.aligned
  rw [landing_alignDown] at ends
  simp only [mmuGetLevelPhys, MapLevel.above, tree.page.toNat]
  exact ends

private theorem mmuMapSingle_changes (tree : PageTree src.toFrameSource root s) (pBase : BitVec 64)
    (mFlags : Nat) :
    ChangesOnly src ((landing (src.mem s) v [.pml4, .pdpt, .pd] root).1 / PAGESIZE) s
      (mmuMapSingle src.toFrameSource (some ⟨BitVec.ofNat 64 root⟩) v pBase mFlags s).2 := by
  have ends := mmuGetLevelPhys_ends (v := v) tree true
  rw [mmuMapSingle]
  simp only
  split
  · exact ends.1
  · rename_i nonzero
    rw [mmuGetLevelIdx_eq]
    exact ends.store nonzero (hwIndex_lt _ _) _

private theorem mmuUnmapSingle_changes (tree : PageTree src.toFrameSource root s) :
    ChangesOnly src ((landing (src.mem s) v [.pml4, .pdpt, .pd] root).1 / PAGESIZE) s
      (mmuUnmapSingle src.toFrameSource (some ⟨BitVec.ofNat 64 root⟩) v s).2 := by
  have ends := mmuGetLevelPhys_ends (v := v) tree false
  rw [mmuUnmapSingle]
  simp only
  split
  · exact ends.1
  · rename_i nonzero
    rw [mmuGetLevelIdx_eq]
    exact ends.store nonzero (hwIndex_lt _ _) _

private theorem ChangesOnly.onlyTables {s' : σ} {t : Nat}
    (changes : ChangesOnly src (t / PAGESIZE) s s') (table : IsTable (src.mem s) root t)
    (pages : ∀ w, virtPage w ≠ virtPage v → translate (src.mem s') (BitVec.ofNat 64 root) w =
      translate (src.mem s) (BitVec.ofNat 64 root) w) : OnlyTables src root v s s' :=
  ⟨fun x changed => (changes.mem x changed).imp_left fun same => ⟨t, table, same⟩, pages⟩

private theorem calls_onlyTables (tree : PageTree src.toFrameSource root s)
    (only : TablesOnly (src.mem s) v [.pml4, .pdpt, .pd] root) (pBase : BitVec 64) (mFlags : Nat) :
    OnlyTables src root v s
      (mmuMapSingle src.toFrameSource (some ⟨BitVec.ofNat 64 root⟩) v pBase mFlags s).2 ∧
    OnlyTables src root v s
      (mmuUnmapSingle src.toFrameSource (some ⟨BitVec.ofNat 64 root⟩) v s).2 := by
  have table := landing_table [.pml4, .pdpt, .pd] [] rfl rfl only
  constructor
  · refine (mmuMapSingle_changes tree pBase mFlags).onlyTables table fun w other => ?_
    obtain ⟨_, _, ⟨_, kept⟩ | ⟨_, walked⟩⟩ := mmuMapSingle_tree tree only pBase mFlags _ rfl
    · rw [tree.translate, tree.translate, kept.walk]
    · rw [tree.translate, tree.translate, walked, if_neg other]
  · refine (mmuUnmapSingle_changes tree).onlyTables table fun w other => ?_
    obtain ⟨_, walked⟩ := mmuUnmapSingle_tree tree only _ rfl
    rw [tree.translate, tree.translate, walked w other]

private theorem OnlyTables.of_same {s' : σ} (same : src.mem s' = src.mem s) :
    OnlyTables src root v s s' :=
  ⟨fun x changed => absurd (congrFun same x) changed, fun _ _ => by rw [same]⟩

private theorem OnlyTables.keeps_entry {s' : σ} (only : OnlyTables src root v s s') {n i : Nat}
    (page : n = n / PAGESIZE * PAGESIZE) (hi : i < 512)
    (data : ∀ t, IsTable (src.mem s) root t → n / PAGESIZE ≠ t / PAGESIZE)
    (kept : src.held s (n / PAGESIZE) ∨ ¬src.held s' (n / PAGESIZE)) :
    entry (src.mem s') n i = entry (src.mem s) n i := by
  apply entry_congr page hi
  intro x frame
  by_contra changed
  rcases only.frames _ changed with ⟨t, table, same⟩ | ⟨free, taken⟩
  · exact data t table (frame.symm.trans same)
  · rw [frame] at free taken
    exact kept.elim free fun untaken => untaken taken

private theorem store_onlyTables_iff {n i : Nat} (page : n = n / PAGESIZE * PAGESIZE) (hi : i < 512)
    (data : ∀ t, IsTable (src.mem s) root t → n / PAGESIZE ≠ t / PAGESIZE) (e : BitVec 64) :
    OnlyTables src root v s (setEntry src.toFrameSource s n i e) ↔ entry (src.mem s) n i = e := by
  constructor
  · intro only
    have kept : src.held s (n / PAGESIZE) ∨
        ¬src.held (setEntry src.toFrameSource s n i e) (n / PAGESIZE) := by
      rw [held_setEntry]
      exact em _
    rw [← only.keeps_entry page hi data kept, entry_setEntry_same]
  · rintro rfl
    apply OnlyTables.of_same
    rw [setEntry, src.mem_setMem, entry, store64_load64]

private theorem landing_page (tree : PageTree src.toFrameSource root s) {n : Nat} {level : MapLevel}
    (land : landing (src.mem s) v [.pml4, .pdpt, .pd] root = (n, level)) :
    n = n / PAGESIZE * PAGESIZE := by
  have aligned := @landing_aligned (src.mem s) v [.pml4, .pdpt, .pd] root tree.page.aligned
  rwa [land] at aligned

private theorem mmuGetLevelPhys_lands (tree : PageTree src.toFrameSource root s) {n : Nat}
    {level : MapLevel}
    (land : landing (src.mem s) v [.pml4, .pdpt, .pd] root = (n, level)) (alloc : Bool) :
    (level = .pt ∧ mmuGetLevelPhys src.toFrameSource (some ⟨BitVec.ofNat 64 root⟩)
      (alignDown v (BitVec.ofNat 64 PAGESIZE)) .pt alloc s = (n, s)) ∨
    (level ≠ .pt ∧ has (entry (src.mem s) n (hwIndex v level)) PTE_P = false ∧
      ∃ more, mmuGetLevelPhys src.toFrameSource (some ⟨BitVec.ofNat 64 root⟩)
        (alignDown v (BitVec.ofNat 64 PAGESIZE)) .pt alloc s =
          descend src.toFrameSource (alignDown v (BitVec.ofNat 64 PAGESIZE)) alloc
            (level :: more) n s) := by
  obtain ⟨rest, goes, ending⟩ :=
    @descend_landing _ src (alignDown v (BitVec.ofNat 64 PAGESIZE)) alloc
    [.pml4, .pdpt, .pd] root s
  rw [landing_alignDown, land] at goes ending
  simp only [mmuGetLevelPhys, MapLevel.above, tree.page.toNat]
  rw [goes]
  rcases ending with ⟨rfl, last⟩ | ⟨more, rfl, member, absent⟩
  · exact Or.inl ⟨last, rfl⟩
  · rw [hwIndex_alignDown] at absent
    refine Or.inr ⟨?_, absent, more, rfl⟩
    rintro rfl
    simp at member

private theorem map_onlyTables_iff (tree : PageTree src.toFrameSource root s) {n : Nat}
    {level : MapLevel} (land : landing (src.mem s) v [.pml4, .pdpt, .pd] root = (n, level))
    (data : ∀ t, IsTable (src.mem s) root t → n / PAGESIZE ≠ t / PAGESIZE)
    (used : level ≠ .pt → src.held s (n / PAGESIZE)) (pBase : BitVec 64) (mFlags : Nat) :
    OnlyTables src root v s
      (mmuMapSingle src.toFrameSource (some ⟨BitVec.ofNat 64 root⟩) v pBase mFlags s).2 ↔
    MapIdle src v pBase mFlags s (n, level) := by
  have page := landing_page tree land
  rw [mmuMapSingle, MapIdle]
  simp only
  rcases mmuGetLevelPhys_lands tree land true with ⟨rfl, call⟩ | ⟨above, absent, more, call⟩
  · rw [call, if_pos rfl, mmuGetLevelIdx_eq, hwIndex_alignDown]
    simp only
    by_cases zero : n = 0
    · rw [if_pos zero]
      exact iff_of_true (OnlyTables.of_same rfl) (Or.inl zero)
    · rw [if_neg zero, or_iff_right zero]
      exact store_onlyTables_iff page (hwIndex_lt v .pt) data _
  · rw [call, if_neg above]
    by_cases zero : (src.mmAllocFrame s 1).1 = 0
    · rw [descend_refused (by rwa [hwIndex_alignDown]) zero]
      refine iff_of_true (OnlyTables.of_same (funext fun x => ?_)) zero
      by_contra changed
      exact (src.only_block s 1 x changed).1 zero
    · refine iff_of_false (fun only => ?_) zero
      obtain ⟨new, unheld, held, _⟩ := frame_page src.toFrameSource s zero
      obtain ⟨closed, _⟩ := link_changes page (hwIndex_lt v level) zero
      have kept := used above
      have later : ∀ s', ChangesOnly src ((src.mmAllocFrame s 1).1 / PAGESIZE)
          (linked src.toFrameSource (src.mmAllocFrame s 1).2 n (hwIndex v level)
            (src.mmAllocFrame s 1).1) s' →
          ¬OnlyTables src root v s s' := by
        intro s' changes only
        have before := only.keeps_entry page (hwIndex_lt v level) data (Or.inl kept)
        rw [changes.keeps_entry page (hwIndex_lt v level)
          ((linked_held _ _ _ _ _).mpr (src.stays_held s 1 _ kept))
          (fun same => unheld (same ▸ kept)), linked_here] at before
        rw [← before, (link_entry new).1] at absent
        cases absent
      rw [descend_linked (by rwa [hwIndex_alignDown]) zero, hwIndex_alignDown] at only
      have ends :=
        @descend_closed _ src (alignDown v (BitVec.ofNat 64 PAGESIZE)) true more _ _
          new.aligned closed
      split at only
      · exact later _ ends.1 only
      · rename_i nonzero
        rw [mmuGetLevelIdx_eq] at only
        exact later _ (ends.store nonzero (hwIndex_lt _ _) _) only

private theorem unmap_onlyTables_iff (tree : PageTree src.toFrameSource root s) {n : Nat}
    {level : MapLevel} (land : landing (src.mem s) v [.pml4, .pdpt, .pd] root = (n, level))
    (data : ∀ t, IsTable (src.mem s) root t → n / PAGESIZE ≠ t / PAGESIZE) :
    OnlyTables src root v s (mmuUnmapSingle src.toFrameSource (some ⟨BitVec.ofNat 64 root⟩) v s).2 ↔
    UnmapIdle src v s (n, level) := by
  have page := landing_page tree land
  rw [mmuUnmapSingle, UnmapIdle]
  simp only
  rcases mmuGetLevelPhys_lands tree land false with ⟨rfl, call⟩ | ⟨above, absent, more, call⟩
  · rw [call, mmuGetLevelIdx_eq, hwIndex_alignDown]
    simp only [forall_const]
    by_cases zero : n = 0
    · rw [if_pos zero]
      exact iff_of_true (OnlyTables.of_same rfl) (Or.inl zero)
    · rw [if_neg zero, or_iff_right zero]
      exact store_onlyTables_iff page (hwIndex_lt v .pt) data _
  · rw [call, descend_missing (by rwa [hwIndex_alignDown])]
    exact iff_of_true (OnlyTables.of_same rfl) fun last => absurd last above

/-- Where no large page is on the way, mapping and unmapping write tables only. Where one is,
and the descent lands in a frame that is no table, they do not, unless they do nothing. -/
theorem mappings_write_tables (tree : PageTree src.toFrameSource root s) (v pBase : BitVec 64)
    (mFlags : Nat) :
    (TablesOnly (src.mem s) v [.pml4, .pdpt, .pd] root →
      OnlyTables src root v s
        (mmuMapSingle src.toFrameSource (some ⟨BitVec.ofNat 64 root⟩) v pBase mFlags s).2 ∧
      OnlyTables src root v s
        (mmuUnmapSingle src.toFrameSource (some ⟨BitVec.ofNat 64 root⟩) v s).2) ∧
    ∀ n level, landing (src.mem s) v [.pml4, .pdpt, .pd] root = (n, level) →
      (∀ t, IsTable (src.mem s) root t → n / PAGESIZE ≠ t / PAGESIZE) →
      (level ≠ .pt → src.held s (n / PAGESIZE)) →
      (OnlyTables src root v s
        (mmuMapSingle src.toFrameSource (some ⟨BitVec.ofNat 64 root⟩) v pBase mFlags s).2 ↔
        MapIdle src v pBase mFlags s (n, level)) ∧
      (OnlyTables src root v s
      (mmuUnmapSingle src.toFrameSource (some ⟨BitVec.ofNat 64 root⟩) v s).2 ↔
        UnmapIdle src v s (n, level)) := by
  refine ⟨fun only => calls_onlyTables tree only pBase mFlags,
    fun n level land data used => ⟨?_, ?_⟩⟩
  · exact map_onlyTables_iff tree land data used pBase mFlags
  · exact unmap_onlyTables_iff tree land data

end Safety

section Images

open Algae.Mm.Phys (PhysState)
open Algae.Mm.PhysRuns (eightFrames)

/-- Page tables in frames 1 to 4. They map 2 MiB of data at 0x200000 to the lowest addresses, and
have a last-level table for the next ones. -/
def largeMem : Mem :=
  store64 (store64 (store64 (store64 (fun _ => 0) 0x1000 0x2003) 0x2000 0x3003) 0x3000 0x200083)
    0x3008 0x4003

def largeFrames : PhysState := { eightFrames with bitmap := fun _ => 0xFF, mem := largeMem }

def largeFramesReady : {s : PhysState // Ready s} := ⟨largeFrames, by decide, by decide⟩

private theorem largeMem_zero {t d : Nat} (table : t = 0x1000 ∨ t = 0x2000 ∨ t = 0x3000)
    (hd : d < 512) (later : d ≠ 0) (other : t ≠ 0x3000 ∨ d ≠ 1) : entry largeMem t d = 0 := by
  rw [entry, largeMem, load64_store64_disjoint _ _ (by omega),
    load64_store64_disjoint _ _ (by omega),
    load64_store64_disjoint _ _ (by omega), load64_store64_disjoint _ _ (by omega)]
  exact load64_zero fun _ _ => rfl

private theorem largeMem_slot {t d p : Nat} (table : t = 0x1000 ∨ t = 0x2000 ∨ t = 0x3000)
    (hd : d < 512) (here : tableSlot largeMem t d = some p) :
    (t = 0x1000 ∧ d = 0 ∧ p = 0x2000) ∨ (t = 0x2000 ∧ d = 0 ∧ p = 0x3000) ∨
      (t = 0x3000 ∧ d = 1 ∧ p = 0x4000) := by
  by_cases first : d = 0
  · subst first
    rcases table with rfl | rfl | rfl
    · exact Or.inl ⟨rfl, rfl, Option.some.inj (here.symm.trans (by decide +kernel))⟩
    · exact Or.inr (Or.inl ⟨rfl, rfl, Option.some.inj (here.symm.trans (by decide +kernel))⟩)
    · have none : tableSlot largeMem 0x3000 0 = none := by decide +kernel
      rw [none] at here
      cases here
  · by_cases last : t = 0x3000 ∧ d = 1
    · obtain ⟨rfl, rfl⟩ := last
      exact Or.inr (Or.inr ⟨rfl, rfl, Option.some.inj (here.symm.trans (by decide +kernel))⟩)
    · rw [tableSlot, largeMem_zero table hd first (not_and_or.mp last)] at here
      cases here

private theorem largeMem_tables {t : Nat} {ds : List Nat} (path : TablePath ds)
    (there : follow (tableSlot largeMem) 0x1000 ds = some t) :
    (ds = [] ∧ t = 0x1000) ∨ (ds = [0] ∧ t = 0x2000) ∨ (ds = [0, 0] ∧ t = 0x3000) ∨
      (ds = [0, 0, 1] ∧ t = 0x4000) := by
  induction ds using List.reverseRecOn generalizing t with
  | nil => exact Or.inl ⟨rfl, (Option.some.inj there).symm⟩
  | append_singleton ds d ih =>
    rw [follow_snoc] at there
    obtain ⟨n, here, last⟩ := Option.bind_eq_some_iff.mp there
    have hd : d < 512 := path.2 d (by simp)
    rcases ih (tablePathSet.init path) here with ⟨rfl, rfl⟩ | ⟨rfl, rfl⟩ | ⟨rfl, rfl⟩ | ⟨rfl, rfl⟩
    · obtain ⟨_, rfl, rfl⟩ | ⟨other, _⟩ | ⟨other, _⟩ := largeMem_slot (by omega) hd last
      · exact Or.inr (Or.inl ⟨rfl, rfl⟩)
      · omega
      · omega
    · obtain ⟨other, _⟩ | ⟨_, rfl, rfl⟩ | ⟨other, _⟩ := largeMem_slot (by omega) hd last
      · omega
      · exact Or.inr (Or.inr (Or.inl ⟨rfl, rfl⟩))
      · omega
    · obtain ⟨other, _⟩ | ⟨other, _⟩ | ⟨_, rfl, rfl⟩ := largeMem_slot (by omega) hd last
      · omega
      · omega
      · exact Or.inr (Or.inr (Or.inr ⟨rfl, rfl⟩))
    · exact absurd path.1 (by simp)

theorem largeFrames_tree : PageTree bitmapSource 0x1000 largeFramesReady where
  page := ⟨by rw [PAGESIZE], by norm_num⟩
  forest := by
    refine ⟨fun {r r' ds ds' n} root root' path path' there there' => ?_⟩
    obtain rfl : r = 0x1000 := root
    obtain rfl : r' = 0x1000 := root'
    refine ⟨rfl, ?_⟩
    rcases largeMem_tables path there with ⟨rfl, rfl⟩ | ⟨rfl, rfl⟩ | ⟨rfl, rfl⟩ | ⟨rfl, rfl⟩ <;>
      rcases largeMem_tables path' there' with ⟨rfl, same⟩ | ⟨rfl, same⟩ | ⟨rfl,
        same⟩ | ⟨rfl, same⟩ <;>
      first
      | rfl
      | omega
  held := by
    rintro t ⟨r, root, ds, path, there⟩
    obtain rfl : r = 0x1000 := root
    rcases largeMem_tables path there with ⟨_, rfl⟩ | ⟨_, rfl⟩ | ⟨_, rfl⟩ | ⟨_, rfl⟩
    · exact fun _ => by decide +kernel
    · exact fun _ => by decide +kernel
    · exact fun _ => by decide +kernel
    · exact fun _ => by decide +kernel

/-- Mapping the page at 0 writes an entry into the data behind the large page. -/
theorem large_page_overwritten : PageTree bitmapSource 0x1000 largeFramesReady ∧
    ¬OnlyTables bitmapZeroing 0x1000 0 largeFramesReady
      (mmuMapSingle bitmapSource (some ⟨BitVec.ofNat 64 0x1000⟩) 0 0x5000 PAGE_READWRITE
      largeFramesReady).2 := by
  refine ⟨largeFrames_tree, fun only => ?_⟩
  have land : landing largeMem 0 [.pml4, .pdpt, .pd] 0x1000 = (0x200000, .pt) := by decide +kernel
  have data : ∀ t, IsTable largeMem 0x1000 t → 0x200000 / PAGESIZE ≠ t / PAGESIZE := by
    rintro t ⟨r, root, ds, path, there⟩
    obtain rfl : r = 0x1000 := root
    rw [PAGESIZE]
    rcases largeMem_tables path there with ⟨_, rfl⟩ | ⟨_, rfl⟩ | ⟨_, rfl⟩ | ⟨_, rfl⟩
    · decide
    · decide
    · decide
    · decide
  have idle :=
    (@map_onlyTables_iff _ bitmapZeroing 0x1000 largeFramesReady 0 largeFrames_tree _ _ land data
    (fun above => absurd rfl above) 0x5000 PAGE_READWRITE).mp only
  rw [MapIdle, if_pos rfl] at idle
  have new : entry largeMem 0x200000 0 ≠ leafFor 0x5000 PAGE_READWRITE := by decide +kernel
  exact idle.elim (by decide) new

theorem largeMem_tablesOnly : TablesOnly largeMem 0x3FF000 [.pml4, .pdpt, .pd] 0x1000 :=
  (tablesOnly_iff (e := 0) _ _ Rights.all).mpr (by decide +kernel)

theorem mappings_write_tables_apart :
    OnlyTables bitmapZeroing 0x1000 0x3FF000 largeFramesReady
      (mmuMapSingle bitmapSource (some ⟨BitVec.ofNat 64 0x1000⟩) 0x3FF000 0x5000 PAGE_READWRITE
        largeFramesReady).2 :=
  ((@mappings_write_tables _ bitmapZeroing 0x1000 largeFramesReady largeFrames_tree 0x3FF000 0x5000
    PAGE_READWRITE).1 largeMem_tablesOnly).1

end Images

end Algae.Platform.TableWrites
