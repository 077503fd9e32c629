/- Page-table trees with large pages in them: what mapping and unmapping a page changes in
   memory, and which translations it changes. -/

import Algae.Platform.TableFrames

set_option autoImplicit false
set_option relaxedAutoImplicit false

namespace Algae.Platform.LargePages

open Algae.Lib.ByteMemory Algae.Lib.FirstFit Algae.Lib.RadixForest
open Algae.Sdk.Defs Algae.Mm.Frames Algae.Platform.Mmu Algae.Platform.PageTables
open Algae.Platform.AddressSpaces Algae.Platform.TableFrames

/-- The number of the page of an address, as far as the tables see it: bits 12 to 47. Of the
addresses with one number, one is canonical. -/
def virtPage (virtAddr : BitVec 64) : Nat := virtAddr.toNat / 4096 % 0x1000000000

theorem virtPage_eq_iff {v v' : BitVec 64} :
    virtPage v = virtPage v' ↔ ∀ level, hwIndex v level = hwIndex v' level := by
  constructor
  · intro same level
    cases level with
    | pt | pd | pdpt | pml4 =>
      simp only [virtPage, hwIndex, MapLevel.shift] at same ⊢
      omega
  · intro same
    have pt := same .pt
    have pd := same .pd
    have pdpt := same .pdpt
    have pml4 := same .pml4
    simp only [virtPage, hwIndex, MapLevel.shift] at *
    omega

/-- The table that an entry points to, which neither maps a large page nor is absent. -/
def tableSlot (m : Mem) (table i : Nat) : Option Nat :=
  if has (entry m table i) PTE_P = true ∧ has (entry m table i) PTE_PS = false then
    some (entry m table i &&& PTE_ADDR_MASK).toNat
  else
    none

def TablePath (ds : List Nat) : Prop := ds.length ≤ 3 ∧ ∀ d ∈ ds, d < 512

theorem tablePathSet : PathSet TablePath where
  nil := by simp [TablePath]
  init := by
    intro ds d path
    have short := path.1
    rw [List.length_append] at short
    exact ⟨by omega, fun e he => path.2 e (List.mem_append_left _ he)⟩

private theorem tablePath_path (v : BitVec 64) : TablePath (tablePath v) := by
  refine ⟨le_rfl, fun d member => ?_⟩
  simp only [tablePath, List.mem_cons, List.not_mem_nil, or_false] at member
  rcases member with rfl | rfl | rfl
  · exact hwIndex_lt v .pml4
  · exact hwIndex_lt v .pdpt
  · exact hwIndex_lt v .pd

def IsTable (m : Mem) (root t : Nat) : Prop := Node (tableSlot m) TablePath {root} t

/-- A tree of page tables: no table is shared, and all their frames are in use. Entries below
the top may map large pages. -/
structure PageTree {σ : Type} (src : FrameSource σ) (root : Nat) (s : σ) : Prop where
  page : IsPage root
  forest : Forest (tableSlot (src.mem s)) TablePath {root}
  held : ∀ t, IsTable (src.mem s) root t → src.held s (t / PAGESIZE)

/-- No large page is met on the way to the last-level table of `virtAddr`. -/
def TablesOnly (m : Mem) (virtAddr : BitVec 64) : List MapLevel → Nat → Prop
  | [], _ => True
  | level :: levels, table =>
    let e := entry m table (hwIndex virtAddr level)
    has e PTE_P = true → has e PTE_PS = false ∧
      TablesOnly m virtAddr levels (e &&& PTE_ADDR_MASK).toNat

/-- The translation of `virtAddr` once its last-level entry is `e` and the tables that it
lacks are new; `none` below a large page. -/
def remap (m : Mem) (virtAddr e : BitVec 64) : List MapLevel → Nat → Rights → Option Translation
  | [], _, rights => some ⟨(e &&& PTE_ADDR_MASK).toNat, rights.meet e⟩
  | level :: levels, table, rights =>
    let t := entry m table (hwIndex virtAddr level)
    if has t PTE_P then
      if has t PTE_PS then
        none
      else
        remap m virtAddr e levels (t &&& PTE_ADDR_MASK).toNat (rights.meet t)
    else
      some ⟨(e &&& PTE_ADDR_MASK).toNat, rights.meet e⟩

section Walks

variable {m m' : Mem} {root : Nat} {w : BitVec 64}

private theorem tableSlot_eq_some {t i p : Nat} : tableSlot m t i = some p ↔
    has (entry m t i) PTE_P = true ∧ has (entry m t i) PTE_PS = false ∧
      p = (entry m t i &&& PTE_ADDR_MASK).toNat := by
  rw [tableSlot]
  split
  · rename_i table
    exact ⟨fun same => ⟨table.1, table.2, (Option.some.inj same).symm⟩, fun given =>
      given.2.2 ▸ rfl⟩
  · rename_i other
    exact iff_of_false nofun fun given => other ⟨given.1, given.2.1⟩

private theorem tableSlot_of_entry {t i : Nat} (same : entry m' t i = entry m t i) :
    tableSlot m' t i = tableSlot m t i := by
  rw [tableSlot, tableSlot, same]

def Reads (m : Mem) (root : Nat) (w : BitVec 64) (t : Nat) (level : MapLevel) : Prop :=
  ∃ done rest, done ++ level :: rest = [.pml4, .pdpt, .pd, .pt] ∧
    follow (tableSlot m) root (done.map (hwIndex w)) = some t

theorem path_of_levels {done rest : List MapLevel} (whole : done ++ rest = [.pml4, .pdpt, .pd, .pt])
    (more : rest ≠ []) : TablePath (done.map (hwIndex w)) := by
  have count := congrArg List.length whole
  have some_left := List.length_pos_iff.mpr more
  simp only [List.length_append, List.length_cons, List.length_nil] at count
  refine ⟨by rw [List.length_map]; omega, fun d member => ?_⟩
  obtain ⟨level, _, rfl⟩ := List.mem_map.mp member
  exact hwIndex_lt w level

private theorem Reads.isTable {t : Nat} {level : MapLevel} (reads : Reads m root w t level) :
    IsTable m root t := by
  obtain ⟨done, rest, whole, there⟩ := reads
  exact ⟨root, rfl, _, path_of_levels whole (by simp), there⟩

theorem follow_step {done rest : List MapLevel} {level : MapLevel} {table : Nat}
    (whole : done ++ level :: rest = [.pml4, .pdpt, .pd, .pt])
    (here : follow (tableSlot m) root (done.map (hwIndex w)) = some table)
    (present : has (entry m table (hwIndex w level)) PTE_P = true)
    (small : has (entry m table (hwIndex w level)) PTE_PS = false) :
    (done ++ [level]) ++ rest = [.pml4, .pdpt, .pd, .pt] ∧
    follow (tableSlot m) root ((done ++ [level]).map (hwIndex w)) =
      some (entry m table (hwIndex w level) &&& PTE_ADDR_MASK).toNat := by
  refine ⟨by rw [← whole, List.append_assoc, List.singleton_append], ?_⟩
  rw [List.map_append, List.map_singleton, follow_snoc, here, Option.bind_some]
  exact tableSlot_eq_some.mpr ⟨present, small, rfl⟩

private theorem inner_entry {e : BitVec 64} {level : MapLevel} (goes : faults e level = false)
    (inner : isLeaf e level = false) : has e PTE_P = true ∧ has e PTE_PS = false := by
  cases level with
  | pt => cases inner
  | pd | pdpt | pml4 =>
    cases present : has e PTE_P with
    | false => simp [faults, present] at goes
    | true => simp_all [faults, isLeaf]

private theorem walk_behind {table : Nat} {level : MapLevel} {done levels : List MapLevel}
    (whole : done ++ level :: levels = [.pml4, .pdpt, .pd, .pt])
    (here : follow (tableSlot m) root (done.map (hwIndex w)) = some table)
    (head : entry m' table (hwIndex w level) = entry m table (hwIndex w level))
    (behind : ∀ next rights, (done ++ [level]) ++ levels = [.pml4, .pdpt, .pd, .pt] →
      follow (tableSlot m) root ((done ++ [level]).map (hwIndex w)) = some next →
      walk m' w levels next rights = walk m w levels next rights) (rights : Rights) :
    walk m' w (level :: levels) table rights = walk m w (level :: levels) table rights := by
  simp only [walk_cons, head]
  split
  · rfl
  · rename_i goes
    split
    · rfl
    · rename_i inner
      obtain ⟨present, small⟩ := inner_entry (Bool.eq_false_of_not_eq_true goes)
        (Bool.eq_false_of_not_eq_true inner)
      obtain ⟨whole', there⟩ := follow_step whole here present small
      exact behind _ _ whole' there

private theorem remap_behind {e : BitVec 64} {table : Nat} {level : MapLevel}
    {done levels : List MapLevel}
    (whole : done ++ level :: (levels ++ [.pt]) = [.pml4, .pdpt, .pd, .pt])
    (here : follow (tableSlot m) root (done.map (hwIndex w)) = some table)
    (head : entry m' table (hwIndex w level) = entry m table (hwIndex w level))
    (behind : ∀ next rights, (done ++ [level]) ++ (levels ++ [.pt]) = [.pml4, .pdpt, .pd, .pt] →
      follow (tableSlot m) root ((done ++ [level]).map (hwIndex w)) = some next →
      remap m' w e levels next rights = remap m w e levels next rights) (rights : Rights) :
    remap m' w e (level :: levels) table rights = remap m w e (level :: levels) table rights := by
  simp only [remap, head]
  split
  · rename_i present
    split
    · rfl
    · rename_i small
      obtain ⟨whole', there⟩ := follow_step whole here present (Bool.eq_false_of_not_eq_true small)
      exact behind _ _ whole' there
  · rfl

private theorem walk_reads (same : ∀ t level, Reads m root w t level →
      entry m' t (hwIndex w level) = entry m t (hwIndex w level))
    (levels done : List MapLevel) (whole : done ++ levels = [.pml4, .pdpt, .pd, .pt]) {table : Nat}
    (here : follow (tableSlot m) root (done.map (hwIndex w)) = some table) (rights : Rights) :
    walk m' w levels table rights = walk m w levels table rights := by
  induction levels generalizing done table rights with
  | nil => rfl
  | cons level levels ih =>
    have head := same table level ⟨done, levels, whole, here⟩
    refine walk_behind whole here head (fun next rights whole' there => ?_) rights
    exact ih (done ++ [level]) whole' there rights

private theorem remap_reads {e : BitVec 64}
    (same : ∀ t level, level ≠ .pt → Reads m root w t level →
      entry m' t (hwIndex w level) = entry m t (hwIndex w level))
    (levels done : List MapLevel) (whole : done ++ (levels ++ [.pt]) = [.pml4, .pdpt, .pd, .pt])
    {table : Nat} (here : follow (tableSlot m) root (done.map (hwIndex w)) = some table)
    (rights : Rights) :
    remap m' w e levels table rights = remap m w e levels table rights := by
  induction levels generalizing done table rights with
  | nil => rfl
  | cons level levels ih =>
    have inner : level ≠ .pt := by
      rintro rfl
      have count := congrArg (List.count .pt) whole
      simp only [List.count_append, List.cons_append, List.count_cons_self, List.count_nil] at count
      have one : List.count MapLevel.pt [.pml4, .pdpt, .pd, .pt] = 1 := rfl
      omega
    rw [List.cons_append] at whole
    have head := same table level inner ⟨done, levels ++ [.pt], whole, here⟩
    refine remap_behind whole here head (fun next rights whole' there => ?_) rights
    exact ih (done ++ [level]) whole' there rights

theorem tablesOnly_iff {e : BitVec 64} (levels : List MapLevel) (table : Nat) (rights : Rights) :
    TablesOnly m w levels table ↔ remap m w e levels table rights ≠ none := by
  induction levels generalizing table rights with
  | nil => exact iff_of_true True.intro nofun
  | cons level levels ih =>
    simp only [TablesOnly, remap]
    split
    · rename_i present
      split
      · rename_i large
        exact iff_of_false (fun only => by simpa [large] using (only present).1) (not_not.mpr rfl)
      · rename_i small
        rw [← ih]
        exact ⟨fun only => (only present).2, fun only _ =>
          ⟨Bool.eq_false_of_not_eq_true small, only⟩⟩
    · rename_i absent
      exact iff_of_true (fun present => absurd present absent) nofun

private theorem levels_of_last {done rest : List MapLevel} {level : MapLevel}
    (whole : done ++ level :: rest = [.pml4, .pdpt, .pd, .pt]) : level = .pt ↔ done.length = 3 := by
  have count := congrArg List.length whole
  have here := congrArg (fun levels => levels[done.length]?) whole
  simp only [List.getElem?_append_right le_rfl, Nat.sub_self, List.getElem?_cons_zero] at here
  simp only [List.length_append, List.length_cons, List.length_nil] at count
  rcases (show done.length = 0 ∨ done.length = 1 ∨ done.length = 2 ∨ done.length = 3 by omega) with
    short | short | short | short
  all_goals
    rw [short] at here ⊢
    simp only [List.getElem?_cons_zero, List.getElem?_cons_succ, Option.some.injEq] at here
    simp [here]

theorem Reads.inner {t : Nat} {level : MapLevel} (reads : Reads m root w t level) :
    ∃ ds, TablePath ds ∧ follow (tableSlot m) root ds = some t ∧ (level = .pt ↔ ds.length = 3) ∧
      (level = .pt → ds = tablePath w) := by
  obtain ⟨done, rest, whole, there⟩ := reads
  refine ⟨_, path_of_levels whole (by simp), there, ?_, ?_⟩
  · rw [List.length_map]
    exact levels_of_last whole
  · intro last
    have count := (levels_of_last whole).mp last
    have first := congrArg (List.take done.length) whole
    rw [List.take_left, count] at first
    rw [first]
    rfl

private theorem meet_permissive {e : BitVec 64} (permissive : Permissive e) (rights : Rights) :
    rights.meet e = rights := by
  cases rights
  simp [Rights.meet, permissive.rw, permissive.us, permissive.nx]

private theorem walk_link {n d p : Nat} (absent : has (entry m n d) PTE_P = false)
    (present : has (entry m' n d) PTE_P = true) (permissive : Permissive (entry m' n d))
    (next : (entry m' n d &&& PTE_ADDR_MASK).toNat = p) (empty : ∀ i < 512, entry m' p i = 0)
    (above : ∀ level, Reads m root w n level → level ≠ .pt)
    (same : ∀ t level, Reads m root w t level → t ≠ n ∨ hwIndex w level ≠ d →
      entry m' t (hwIndex w level) = entry m t (hwIndex w level))
    (levels done : List MapLevel) (whole : done ++ levels = [.pml4, .pdpt, .pd, .pt]) {table : Nat}
    (here : follow (tableSlot m) root (done.map (hwIndex w)) = some table) (rights : Rights) :
    walk m' w levels table rights = walk m w levels table rights := by
  induction levels generalizing done table rights with
  | nil => rfl
  | cons level levels ih =>
    have reads : Reads m root w table level := ⟨done, levels, whole, here⟩
    by_cases target : table = n ∧ hwIndex w level = d
    · obtain ⟨rfl, rfl⟩ := target
      have inner := above level reads
      have goes : faults (entry m' table (hwIndex w level)) level = false ∧
          isLeaf (entry m' table (hwIndex w level)) level = false := by
        cases level with
        | pt => exact absurd rfl inner
        | pd | pdpt | pml4 => simp [faults, isLeaf, present, permissive.ps]
      have stops : faults (entry m table (hwIndex w level)) level = true := by
        simp [faults, absent]
      simp only [walk_cons, goes, stops, if_true, Bool.false_eq_true, if_false, next]
      cases levels with
      | nil =>
        rw [walk]
      | cons level' levels =>
        have nothing : faults (0 : BitVec 64) level' = true := by
          cases level' <;> decide
        rw [walk_cons, empty _ (hwIndex_lt w level'), nothing, if_pos rfl]
    · have head := same table level reads (not_and_or.mp target)
      refine walk_behind whole here head (fun next rights whole' there => ?_) rights
      exact ih (done ++ [level]) whole' there rights

private theorem remap_link {e : BitVec 64} {n d p : Nat} (absent : has (entry m n d) PTE_P = false)
    (present : has (entry m' n d) PTE_P = true) (permissive : Permissive (entry m' n d))
    (next : (entry m' n d &&& PTE_ADDR_MASK).toNat = p) (empty : ∀ i < 512, entry m' p i = 0)
    (same : ∀ t level, Reads m root w t level → t ≠ n ∨ hwIndex w level ≠ d →
      entry m' t (hwIndex w level) = entry m t (hwIndex w level))
    (levels done : List MapLevel) (whole : done ++ (levels ++ [.pt]) = [.pml4, .pdpt, .pd, .pt])
    {table : Nat} (here : follow (tableSlot m) root (done.map (hwIndex w)) = some table)
    (rights : Rights) :
    remap m' w e levels table rights = remap m w e levels table rights := by
  induction levels generalizing done table rights with
  | nil => rfl
  | cons level levels ih =>
    rw [List.cons_append] at whole
    have reads : Reads m root w table level := ⟨done, levels ++ [.pt], whole, here⟩
    by_cases target : table = n ∧ hwIndex w level = d
    · obtain ⟨rfl, rfl⟩ := target
      simp only [remap, present, absent, permissive.ps, if_true, Bool.false_eq_true, if_false,
        meet_permissive permissive, next]
      cases levels with
      | nil => rfl
      | cons level' levels =>
        have nothing : has (0 : BitVec 64) PTE_P = false := by decide
        simp only [remap, empty _ (hwIndex_lt w level'), nothing, Bool.false_eq_true, if_false]
    · have head := same table level reads (not_and_or.mp target)
      refine remap_behind whole here head (fun next rights whole' there => ?_) rights
      exact ih (done ++ [level]) whole' there rights

private theorem walk_leaf {t : Nat} {e : BitVec 64} (levels : List MapLevel)
    (above : ∀ level ∈ levels, level ≠ .pt)
    (table : Nat) (there : follow (tableSlot m) table (levels.map (hwIndex w)) = some t)
    (leaf : entry m t (hwIndex w .pt) = e) (rights : Rights) :
    walk m w (levels ++ [.pt]) table rights =
      if has e PTE_P then remap m w e levels table rights else none := by
  induction levels generalizing table rights with
  | nil =>
    obtain rfl := Option.some.inj there
    have aligned := (isPage_mask e).aligned
    rw [PAGESIZE] at aligned
    have address : leafPage e w .pt = (e &&& PTE_ADDR_MASK).toNat := by
      simp only [leafPage, MapLevel.shift]
      omega
    cases present : has e PTE_P with
    | true => simp [walk, remap, faults, isLeaf, leaf, present, address]
    | false => simp [walk, faults, leaf, present]
  | cons level levels ih =>
    rw [List.map_cons, follow] at there
    obtain ⟨next, here, there⟩ := Option.bind_eq_some_iff.mp there
    obtain ⟨present, small, rfl⟩ := tableSlot_eq_some.mp here
    have inner := above level (List.mem_cons_self ..)
    have goes : faults (entry m table (hwIndex w level)) level = false ∧
        isLeaf (entry m table (hwIndex w level)) level = false := by
      cases level with
      | pt => exact absurd rfl inner
      | pd | pdpt | pml4 => simp [faults, isLeaf, present, small]
    rw [List.cons_append, walk_cons]
    simp only [goes, remap, present, small, Bool.false_eq_true, if_false, if_true]
    exact ih (fun l member => above l (List.mem_cons_of_mem _ member)) _ there _

end Walks

section Tree

variable {σ : Type} {src : FrameSource σ} {root : Nat} {s : σ}

/-- Every address translates as before, and mapping it would lead to the same. -/
structure ViewKept (root : Nat) (m m' : Mem) : Prop where
  walk : ∀ w, walk m' w [.pml4, .pdpt, .pd, .pt] root Rights.all =
    walk m w [.pml4, .pdpt, .pd, .pt] root Rights.all
  remap : ∀ w e, remap m' w e [.pml4, .pdpt, .pd] root Rights.all =
    remap m w e [.pml4, .pdpt, .pd] root Rights.all

theorem ViewKept.refl (root : Nat) (m : Mem) : ViewKept root m m := ⟨fun _ => rfl, fun _ _ => rfl⟩

theorem ViewKept.trans {m m' m'' : Mem} (first : ViewKept root m m')
    (second : ViewKept root m' m'') :
    ViewKept root m m'' :=
  ⟨fun w => (second.walk w).trans (first.walk w), fun w e => (second.remap w e).trans
    (first.remap w e)⟩

theorem PageTree.table_page (tree : PageTree src root s) {t : Nat}
    (table : IsTable (src.mem s) root t) :
    IsPage t := by
  obtain ⟨r, rfl, ds, _, there⟩ := table
  induction ds using List.reverseRecOn with
  | nil =>
    obtain rfl := Option.some.inj there
    exact tree.page
  | append_singleton ds d _ =>
    rw [follow_snoc] at there
    obtain ⟨n, _, last⟩ := Option.bind_eq_some_iff.mp there
    obtain ⟨_, _, rfl⟩ := tableSlot_eq_some.mp last
    exact isPage_mask _

theorem PageTree.quiet (tree : PageTree src root s) (s' : σ)
    (held : ∀ f, src.held s f → src.held s' f)
    (same : ∀ t, IsTable (src.mem s) root t → ∀ i < 512,
      entry (src.mem s') t i = entry (src.mem s) t i) :
    PageTree src root s' ∧ ViewKept root (src.mem s) (src.mem s') ∧
      ∀ ds, TablePath ds → follow (tableSlot (src.mem s')) root ds = follow
        (tableSlot (src.mem s)) root ds := by
  have slots : ∀ t i, Inner (tableSlot (src.mem s)) TablePath {root} t i →
      tableSlot (src.mem s') t i = tableSlot (src.mem s) t i := by
    intro t i inner
    obtain ⟨_, _, ds, path, _⟩ := id inner
    exact tableSlot_of_entry (same t (inner.node tablePathSet) i (path.2 i (by simp)))
  have moved : ∀ ds, TablePath ds →
      follow (tableSlot (src.mem s')) root ds = follow (tableSlot (src.mem s)) root ds :=
    fun ds path => follow_frame tablePathSet slots rfl path
  have reads : ∀ w t level, Reads (src.mem s) root w t level →
      entry (src.mem s') t (hwIndex w level) = entry (src.mem s) t (hwIndex w level) :=
    fun w t level here => same t here.isTable _ (hwIndex_lt w level)
  refine ⟨⟨tree.page, tree.forest.frame tablePathSet slots, ?_⟩, ⟨?_, ?_⟩, moved⟩
  · rintro t ⟨r, rfl, ds, path, there⟩
    rw [moved ds path] at there
    exact held _ (tree.held t ⟨r, rfl, ds, path, there⟩)
  · exact fun w => walk_reads (reads w) [.pml4, .pdpt, .pd, .pt] [] rfl rfl Rights.all
  · exact fun w e => remap_reads (fun t level _ => reads w t level) [.pml4, .pdpt, .pd]
      [] rfl rfl Rights.all

theorem PageTree.alloc (tree : PageTree src root s) (count : Nat) :
    PageTree src root (src.mmAllocFrame s count).2 ∧
      ViewKept root (src.mem s) (src.mem (src.mmAllocFrame s count).2) ∧
      ∀ ds, TablePath ds → follow (tableSlot (src.mem (src.mmAllocFrame s count).2)) root ds =
        follow (tableSlot (src.mem s)) root ds := by
  refine tree.quiet _ (src.stays_held s count) fun t table i hi => ?_
  exact entry_mmAllocFrame src s count (tree.table_page table).aligned (tree.held t table) hi

theorem PageTree.link_fresh (tree : PageTree src root s) {n d p : Nat} {ds : List Nat}
    (path : TablePath (ds ++ [d])) (here : follow (tableSlot (src.mem s)) root ds = some n)
    (absent : has (entry (src.mem s) n d) PTE_P = false) (page : IsPage p)
    (held : src.held s (p / PAGESIZE)) (fresh : ¬IsTable (src.mem s) root p)
    (empty : ∀ i < 512, entry (src.mem s) p i = 0) :
    PageTree src root (linked src s n d p) ∧
    follow (tableSlot (src.mem (linked src s n d p))) root (ds ++ [d]) = some p ∧
    ViewKept root (src.mem s) (src.mem (linked src s n d p)) := by
  have table : IsTable (src.mem s) root n := ⟨root, rfl, ds, tablePathSet.init path, here⟩
  have short : ds.length ≤ 2 := by
    have := path.1
    rw [List.length_append, List.length_singleton] at this
    omega
  have hd : d < 512 := path.2 d (by simp)
  have apart : p ≠ n := fun same => fresh (same ▸ table)
  obtain ⟨present, permissive, address⟩ := link_entry page
  rw [← @linked_here _ src s n d p] at present permissive address
  have old : ∀ t i, IsTable (src.mem s) root t → i < 512 → t ≠ n ∨ i ≠ d →
      entry (src.mem (linked src s n d p)) t i = entry (src.mem s) t i :=
    fun t i there hi other =>
      linked_other s p (tree.table_page table).aligned (tree.table_page there).aligned hd hi other
  have empty' : ∀ i < 512, entry (src.mem (linked src s n d p)) p i = 0 := by
    intro i hi
    rw [linked_other s p (tree.table_page table).aligned page.aligned hd hi (Or.inl apart)]
    exact empty i hi
  have slots : ∀ t i, Inner (tableSlot (src.mem s)) TablePath {root} t i → t ≠ n ∨ i ≠ d →
      tableSlot (src.mem (linked src s n d p)) t i = tableSlot (src.mem s) t i := by
    intro t i inner other
    obtain ⟨_, _, _, long, _⟩ := id inner
    exact tableSlot_of_entry (old t i (inner.node tablePathSet) (long.2 i (by simp)) other)
  have slot_here : tableSlot (src.mem (linked src s n d p)) n d = some p :=
    tableSlot_eq_some.mpr ⟨present, permissive.ps, address.symm⟩
  have slot_unused : tableSlot (src.mem s) n d = none := by
    rw [tableSlot, absent]
    rfl
  have slot_empty : ∀ e, TablePath (ds ++ [d] ++ [e]) →
      tableSlot (src.mem (linked src s n d p)) p e = none := by
    intro e long
    rw [tableSlot, empty' e (long.2 e (by simp))]
    rfl
  have moved : ∀ ds', TablePath ds' → _ := fun ds' path' =>
    follow_link tablePathSet tree.forest rfl path here slot_unused slot_here slot_empty slots
      (show root ∈ ({root} : Set Nat) from rfl) path'
  have above : ∀ w level, Reads (src.mem s) root w n level → level ≠ .pt := by
    intro w level reads last
    obtain ⟨ds', path', there, long, _⟩ := reads.inner
    obtain ⟨_, rfl⟩ := tree.forest.unique rfl rfl path' (tablePathSet.init path) there here
    have := long.mp last
    omega
  refine ⟨⟨tree.page, ?_, ?_⟩, ?_, ⟨?_, ?_⟩⟩
  · exact tree.forest.link tablePathSet rfl path here slot_unused fresh slot_here slot_empty slots
  · rintro t ⟨r, rfl, ds', path', there⟩
    rw [linked_held]
    rcases moved ds' path' with ⟨_, _, new⟩ | ⟨_, same⟩
    · obtain rfl : p = t := Option.some.inj (new.symm.trans there)
      exact held
    · exact tree.held t ⟨r, rfl, ds', path', same ▸ there⟩
  · rcases moved _ path with ⟨_, _, new⟩ | ⟨other, _⟩
    · exact new
    · exact absurd ⟨rfl, rfl⟩ other
  · intro w
    refine walk_link absent present permissive address empty' (above w) ?_
      [.pml4, .pdpt, .pd, .pt] [] rfl rfl
      Rights.all
    exact fun t level reads other => old t _ reads.isTable (hwIndex_lt w level) other
  · intro w e
    refine remap_link absent present permissive address empty' ?_ [.pml4, .pdpt, .pd]
      [] rfl rfl Rights.all
    exact fun t level reads other => old t _ reads.isTable (hwIndex_lt w level) other

theorem PageTree.fresh_frame (tree : PageTree src root s) (nonzero : (src.mmAllocFrame s 1).1 ≠ 0) :
    ¬IsTable (src.mem (src.mmAllocFrame s 1).2) root (src.mmAllocFrame s 1).1 := by
  obtain ⟨_, unheld, _, _⟩ := frame_page src s nonzero
  obtain ⟨_, _, moved⟩ := tree.alloc 1
  rintro ⟨r, rfl, ds, path, there⟩
  rw [moved ds path] at there
  exact unheld (tree.held _ ⟨r, rfl, ds, path, there⟩)

private theorem descend_tree {v : BitVec 64} (alloc : Bool) (levels done : List MapLevel)
    (whole : done ++ levels = [.pml4, .pdpt, .pd]) {table : Nat} (tree : PageTree src root s)
    (here : follow (tableSlot (src.mem s)) root (done.map (hwIndex v)) = some table)
    (only : TablesOnly (src.mem s) v levels table) :
    PageTree src root (descend src v alloc levels table s).2 ∧
    ViewKept root (src.mem s) (src.mem (descend src v alloc levels table s).2) ∧
    ((descend src v alloc levels table s).1 = 0 ∨
      follow (tableSlot (src.mem (descend src v alloc levels table s).2)) root (tablePath v) =
        some (descend src v alloc levels table s).1) := by
  induction levels generalizing done table s with
  | nil =>
    refine ⟨tree, ViewKept.refl _ _, Or.inr ?_⟩
    rw [List.append_nil] at whole
    rw [whole] at here
    exact here
  | cons level levels ih =>
    have whole' : (done ++ [level]) ++ levels = [.pml4, .pdpt, .pd] := by
      rw [← whole]
      simp
    have long : done ++ level :: (levels ++ [.pt]) = [.pml4, .pdpt, .pd, .pt] := by
      rw [← List.cons_append, ← List.append_assoc, whole]
      rfl
    have next : (done ++ [level]).map (hwIndex v) = done.map (hwIndex v) ++ [hwIndex v level] := by
      simp
    have path : TablePath (done.map (hwIndex v) ++ [hwIndex v level]) := by
      rw [← next]
      exact @path_of_levels v (done ++ [level]) (levels ++ [.pt]) (by simpa using long) (by simp)
    by_cases present : has (entry (src.mem s) table (hwIndex v level)) PTE_P = true
    · obtain ⟨small, below⟩ := only present
      rw [descend_present present]
      exact ih (done ++ [level]) whole' tree (follow_step long here present small).2 below
    · have absent : has (entry (src.mem s) table (hwIndex v level)) PTE_P = false :=
        Bool.eq_false_of_not_eq_true present
      cases alloc with
      | false =>
        rw [descend_missing absent]
        exact ⟨tree, ViewKept.refl _ _, Or.inl rfl⟩
      | true =>
        obtain ⟨tree₁, kept₁, moved₁⟩ := tree.alloc 1
        by_cases zero : (src.mmAllocFrame s 1).1 = 0
        · rw [descend_refused absent zero]
          exact ⟨tree₁, kept₁, Or.inl rfl⟩
        · obtain ⟨page, _, held, empty⟩ := frame_page src s zero
          have is_table : IsTable (src.mem s) root table :=
            ⟨root, rfl, _, tablePathSet.init path, here⟩
          have here₁ := (moved₁ _ (tablePathSet.init path)).trans here
          have absent₁ :
            has (entry (src.mem (src.mmAllocFrame s 1).2) table (hwIndex v level)) PTE_P =
              false := by
            rw [entry_mmAllocFrame src s 1 (tree.table_page is_table).aligned (tree.held _ is_table)
              (hwIndex_lt v level)]
            exact absent
          obtain ⟨tree₂, there, kept₂⟩ :=
            tree₁.link_fresh path here₁ absent₁ page held (tree.fresh_frame zero) empty
          have below :
            TablesOnly (src.mem (linked src (src.mmAllocFrame s 1).2 table (hwIndex v level)
              (src.mmAllocFrame s 1).1)) v levels (src.mmAllocFrame s 1).1 := by
            cases levels with
            | nil => exact True.intro
            | cons level' levels =>
              have apart : (src.mmAllocFrame s 1).1 ≠ table := by
                intro same
                exact tree.fresh_frame zero (same ▸ ⟨root, rfl, _, tablePathSet.init path, here₁⟩)
              intro set
              rw [linked_other _ _ (tree.table_page is_table).aligned page.aligned
                (hwIndex_lt v level)
                (hwIndex_lt v level') (Or.inl apart), empty _ (hwIndex_lt v level')] at set
              exact absurd set (by decide)
          obtain ⟨tree₃, kept₃, result⟩ := ih (done ++ [level]) whole' tree₂ (next ▸ there) below
          rw [descend_linked absent zero]
          exact ⟨tree₃, (kept₁.trans kept₂).trans kept₃, result⟩

theorem PageTree.store_leaf (tree : PageTree src root s) {v : BitVec 64} {t : Nat}
    (there : follow (tableSlot (src.mem s)) root (tablePath v) = some t) (e : BitVec 64) :
    PageTree src root (setEntry src s t (hwIndex v .pt) e) ∧
    (∀ w e', remap (src.mem (setEntry src s t (hwIndex v .pt) e)) w e' [.pml4, .pdpt, .pd]
    root Rights.all =
      remap (src.mem s) w e' [.pml4, .pdpt, .pd] root Rights.all) ∧
    ∀ w, walk (src.mem (setEntry src s t (hwIndex v .pt) e)) w [.pml4, .pdpt, .pd, .pt]
      root Rights.all =
      if virtPage w = virtPage v then
        if has e PTE_P then remap (src.mem s) w e [.pml4, .pdpt, .pd] root Rights.all else none
      else
        walk (src.mem s) w [.pml4, .pdpt, .pd, .pt] root Rights.all := by
  have table : IsTable (src.mem s) root t := ⟨root, rfl, _, tablePath_path v, there⟩
  have old : ∀ t' i, IsTable (src.mem s) root t' → i < 512 → t' ≠ t ∨ i ≠ hwIndex v .pt →
      entry (src.mem (setEntry src s t (hwIndex v .pt) e)) t' i = entry (src.mem s) t' i :=
    fun t' i there hi other => entry_setEntry_other src s e (tree.table_page table).aligned
      (tree.table_page there).aligned (hwIndex_lt v .pt) hi other
  have slots : ∀ t' i, Inner (tableSlot (src.mem s)) TablePath {root} t' i →
      tableSlot (src.mem (setEntry src s t (hwIndex v .pt) e)) t' i = tableSlot
        (src.mem s) t' i := by
    intro t' i inner
    obtain ⟨r, rfl, ds, path, here⟩ := id inner
    refine tableSlot_of_entry (old t' i (inner.node tablePathSet) (path.2 i (by simp)) (Or.inl ?_))
    rintro rfl
    obtain ⟨_, rfl⟩ :=
      tree.forest.unique rfl rfl (tablePathSet.init path) (tablePath_path v) here there
    have long := path.1
    rw [List.length_append] at long
    change 3 + 1 ≤ 3 at long
    omega
  have moved :
    ∀ ds, TablePath ds → follow (tableSlot (src.mem (setEntry src s t (hwIndex v .pt) e))) root ds =
      follow (tableSlot (src.mem s)) root ds :=
    fun ds path => follow_frame tablePathSet slots rfl path
  have inner : ∀ w t' level, level ≠ .pt → Reads (src.mem s) root w t' level → t' ≠ t := by
    rintro w _ level above reads rfl
    obtain ⟨ds, path, here, long, _⟩ := reads.inner
    obtain ⟨_, rfl⟩ := tree.forest.unique rfl rfl path (tablePath_path v) here there
    exact above (long.mpr rfl)
  have kept :
    ∀ w e', remap (src.mem (setEntry src s t (hwIndex v .pt) e)) w e' [.pml4, .pdpt, .pd] root
      Rights.all = remap (src.mem s) w e' [.pml4, .pdpt, .pd] root Rights.all := by
    intro w e'
    refine remap_reads ?_ [.pml4, .pdpt, .pd] [] rfl rfl Rights.all
    exact fun t' level above reads =>
      old t' _ reads.isTable (hwIndex_lt w level) (Or.inl (inner w t' level above reads))
  refine ⟨⟨tree.page, tree.forest.frame tablePathSet slots, ?_⟩, kept, fun w => ?_⟩
  · rintro t' ⟨r, rfl, ds, path, here⟩
    rw [moved ds path] at here
    exact (src.held_setMem _ _ _).mpr (tree.held t' ⟨r, rfl, ds, path, here⟩)
  · split
    · rename_i same
      have indices := virtPage_eq_iff.mp same
      have whole : tablePath w = tablePath v := by
        rw [tablePath, tablePath, indices .pml4, indices .pdpt, indices .pd]
      have leads :
        follow (tableSlot (src.mem (setEntry src s t (hwIndex v .pt) e))) root (tablePath w) =
          some t := (moved _ (tablePath_path w)).trans (whole ▸ there)
      have leaf : entry (src.mem (setEntry src s t (hwIndex v .pt) e)) t (hwIndex w .pt) = e := by
        rw [indices .pt]
        exact entry_setEntry_same src s t (hwIndex v .pt) e
      rw [← kept w e]
      exact walk_leaf [.pml4, .pdpt, .pd] (by decide) root leads leaf Rights.all
    · rename_i other
      refine walk_reads ?_ [.pml4, .pdpt, .pd, .pt] [] rfl rfl Rights.all
      intro t' level reads
      refine old t' _ reads.isTable (hwIndex_lt w level) ?_
      by_contra target
      obtain ⟨rfl, last⟩ := not_or.mp target |>.imp not_not.mp not_not.mp
      obtain ⟨ds, path, here, long, ending⟩ := reads.inner
      obtain ⟨_, rfl⟩ := tree.forest.unique rfl rfl path (tablePath_path v) here there
      obtain rfl := long.mpr rfl
      have indices := ending rfl
      simp only [tablePath, List.cons.injEq, and_true] at indices
      refine other (virtPage_eq_iff.mpr fun level => ?_)
      cases level with
      | pt => exact last
      | pd => exact indices.2.2.symm
      | pdpt => exact indices.2.1.symm
      | pml4 => exact indices.1.symm

end Tree

section Calls

variable {σ : Type} {src : FrameSource σ} {root : Nat} {s : σ}

private theorem has_or (e e' flag : BitVec 64) :
    has (e ||| e') flag = (has e flag || has e' flag) := by
  rw [has, has, has, BitVec.and_or_distrib_right, Bool.eq_iff_iff]
  simp only [bne_iff_ne, ne_eq, Bool.or_eq_true]
  exact (not_congr BitVec.or_eq_zero_iff).trans not_and_or

private theorem leafFor_present (pBase : BitVec 64) (mFlags : Nat) :
    has (leafFor pBase mFlags) PTE_P = true := by
  have flags : has (mmuGetTableFlags mFlags) PTE_P = true := by
    unfold mmuGetTableFlags
    split_ifs <;> decide
  rw [leafFor, has_or, flags, Bool.or_true]

private theorem tablesOnly_alignDown {m : Mem} {v : BitVec 64} (levels : List MapLevel)
    (table : Nat) :
    TablesOnly m (alignDown v (BitVec.ofNat 64 PAGESIZE)) levels table ↔
      TablesOnly m v levels table := by
  induction levels generalizing table with
  | nil => exact Iff.rfl
  | cons level levels ih => simp only [TablesOnly, hwIndex_alignDown, ih]

private theorem mmuGetLevelPhys_tree (tree : PageTree src root s) {v : BitVec 64}
    (only : TablesOnly (src.mem s) v [.pml4, .pdpt, .pd] root) (alloc : Bool) (res : Nat × σ)
    (call : res = mmuGetLevelPhys src (some ⟨BitVec.ofNat 64 root⟩)
      (alignDown v (BitVec.ofNat 64 PAGESIZE)) .pt alloc s) :
    PageTree src root res.2 ∧ ViewKept root (src.mem s) (src.mem res.2) ∧
    (res.1 = 0 ∨ follow (tableSlot (src.mem res.2)) root (tablePath v) = some res.1) := by
  subst call
  have spec :=
    descend_tree (v := alignDown v (BitVec.ofNat 64 PAGESIZE)) alloc [.pml4, .pdpt, .pd] [] rfl
    tree rfl ((tablesOnly_alignDown _ _).mpr only)
  rw [tablePath_alignDown] at spec
  simp only [mmuGetLevelPhys, MapLevel.above, tree.page.toNat]
  exact spec

theorem mmuMapSingle_tree (tree : PageTree src root s) {v : BitVec 64}
    (only : TablesOnly (src.mem s) v [.pml4, .pdpt, .pd] root) (pBase : BitVec 64) (mFlags : Nat)
    (res : NtStatus × σ)
    (call : res = mmuMapSingle src (some ⟨BitVec.ofNat 64 root⟩) v pBase mFlags s) :
    PageTree src root res.2 ∧
    (∀ w e, remap (src.mem res.2) w e [.pml4, .pdpt, .pd] root Rights.all =
      remap (src.mem s) w e [.pml4, .pdpt, .pd] root Rights.all) ∧
    ((res.1 = .notMapped ∧ ViewKept root (src.mem s) (src.mem res.2)) ∨
      (res.1 = .success ∧ ∀ w, walk (src.mem res.2) w [.pml4, .pdpt, .pd, .pt] root Rights.all =
        if virtPage w = virtPage v then
          remap (src.mem s) w (leafFor pBase mFlags) [.pml4, .pdpt, .pd] root Rights.all
        else
          walk (src.mem s) w [.pml4, .pdpt, .pd, .pt] root Rights.all)) := by
  obtain ⟨tree', kept, found⟩ := mmuGetLevelPhys_tree tree only true _ rfl
  rw [mmuMapSingle] at call
  simp only at call
  by_cases zero : (mmuGetLevelPhys src (some ⟨BitVec.ofNat 64 root⟩)
      (alignDown v (BitVec.ofNat 64 PAGESIZE)) .pt true s).1 = 0
  · rw [if_pos zero] at call
    subst call
    exact ⟨tree', kept.remap, Or.inl ⟨rfl, kept⟩⟩
  · rw [if_neg zero, mmuGetLevelIdx_eq, hwIndex_alignDown] at call
    subst call
    obtain ⟨stored, remapped, walked⟩ :=
      tree'.store_leaf (found.resolve_left zero) (leafFor pBase mFlags)
    refine ⟨stored, fun w e => (remapped w e).trans (kept.remap w e), Or.inr ⟨rfl, fun w => ?_⟩⟩
    refine (walked w).trans ?_
    rw [leafFor_present, if_pos rfl, kept.remap, kept.walk]

theorem mmuUnmapSingle_tree (tree : PageTree src root s) {v : BitVec 64}
    (only : TablesOnly (src.mem s) v [.pml4, .pdpt, .pd] root) (res : NtStatus × σ)
    (call : res = mmuUnmapSingle src (some ⟨BitVec.ofNat 64 root⟩) v s) :
    PageTree src root res.2 ∧ ∀ w, virtPage w ≠ virtPage v →
      walk (src.mem res.2) w [.pml4, .pdpt, .pd, .pt] root Rights.all =
        walk (src.mem s) w [.pml4, .pdpt, .pd, .pt] root Rights.all := by
  obtain ⟨tree', kept, found⟩ := mmuGetLevelPhys_tree tree only false _ rfl
  rw [mmuUnmapSingle] at call
  simp only at call
  by_cases zero : (mmuGetLevelPhys src (some ⟨BitVec.ofNat 64 root⟩)
      (alignDown v (BitVec.ofNat 64 PAGESIZE)) .pt false s).1 = 0
  · rw [if_pos zero] at call
    subst call
    exact ⟨tree', fun w _ => kept.walk w⟩
  · rw [if_neg zero, mmuGetLevelIdx_eq, hwIndex_alignDown] at call
    subst call
    obtain ⟨stored, _, walked⟩ := tree'.store_leaf (found.resolve_left zero) 0
    refine ⟨stored, fun w other => (walked w).trans ?_⟩
    rw [if_neg other, kept.walk]

theorem PageTree.translate (tree : PageTree src root s) (m : Mem) (w : BitVec 64) :
    translate m (BitVec.ofNat 64 root) w = walk m w [.pml4, .pdpt, .pd, .pt] root Rights.all := by
  rw [Mmu.translate, tree.page.masked, tree.page.toNat]

end Calls

end Algae.Platform.LargePages
