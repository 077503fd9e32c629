/- Reference counts: the count of an object is the number of its holders, and its block
   is given back with the last of them. -/

import Mathlib.Algebra.BigOperators.Group.Finset.Piecewise
import Algae.Ob.Names

set_option autoImplicit false
set_option relaxedAutoImplicit false

namespace Algae.Ob.Holders

open Algae.Lib.Namespace Algae.Rtl.Queue Algae.Rtl.String Algae.Sdk.Defs
open Algae.Ob.Store Algae.Ob.Table Algae.Ob.Directories Algae.Ob.Names

def Listed (s : ObStore) (o : ObjPtr) : Prop := ∃ p, Live s p ∧ o ∈ children s p

open Classical in
/-- One for the list of the parent, if the object is linked there. -/
noncomputable def listings (s : ObStore) (o : ObjPtr) : Nat := if Listed s o then 1 else 0

private theorem listings_pos {s : ObStore} {o : ObjPtr} (h : Listed s o) :
    listings s o = 1 := if_pos h

private theorem listings_neg {s : ObStore} {o : ObjPtr} (h : ¬Listed s o) :
    listings s o = 0 := if_neg h

private theorem listings_congr {s s' : ObStore} {o o' : ObjPtr} (h : Listed s' o' ↔ Listed s o) :
    listings s' o' = listings s o := by
  by_cases yes : Listed s o
  · rw [listings_pos yes, listings_pos (h.mpr yes)]
  · rw [listings_neg yes, listings_neg (fun no => yes (h.mp no))]

private theorem listings_mono {s s' : ObStore} {o : ObjPtr} (h : Listed s' o → Listed s o) :
    listings s' o ≤ listings s o := by
  by_cases yes : Listed s' o
  · rw [listings_pos yes, listings_pos (h yes)]
  · rw [listings_neg yes]
    exact Nat.zero_le _

private theorem listed_created_iff {s s' : ObStore} {o : ObjPtr} {type : NtObjectType}
    {name : CString} {ref : BitVec 16} (created : Created s s' o type name ref) (x : ObjPtr) :
    Listed s' x ↔ ∃ p, Live s p ∧ x ∈ children s' p := by
  constructor
  · rintro ⟨p, live, member⟩
    rcases (created.live p).mp live with rfl | live
    · rw [created.childless] at member
      cases member
    · exact ⟨p, live, member⟩
  · rintro ⟨p, live, member⟩
    exact ⟨p, (created.live p).mpr (Or.inr live), member⟩

private theorem listed_created_same {s s' : ObStore} {o : ObjPtr} {type : NtObjectType}
    {name : CString} {ref : BitVec 16} (created : Created s s' o type name ref)
    (lists : ∀ p, Live s p → children s' p = children s p) (x : ObjPtr) :
    Listed s' x ↔ Listed s x := by
  rw [listed_created_iff created]
  exact exists_congr fun p => and_congr_right fun live => by rw [lists p live]

private theorem resolve_placed {s : ObStore} (sound : Sound s) {r x : ObjPtr} {names : List CString}
    (root : s.rootObject = some r) (found : resolve (entries s) r names = some x) :
    s.rootObject = some x ∨ Listed s x := by
  obtain ⟨r', here, live⟩ := sound.root
  obtain rfl := Option.some.inj (here.symm.trans root)
  let placed : ObjPtr → Prop := fun x => Live s x ∧ (s.rootObject = some x ∨ Listed s x)
  have inherit : ∀ n, placed n → ∀ e ∈ entries s n, placed e.2 := by
    rintro n ⟨live, _⟩ e member
    refine ⟨sound.inherit n live e member, Or.inr ⟨n, live, ?_⟩⟩
    obtain ⟨x, inside, rfl⟩ := List.mem_map.mp member
    exact inside
  have both : placed x := resolve_invariant inherit ⟨live, Or.inl root⟩ found
  exact both.2

section Counts

variable {τ : Type} [DecidableEq τ] [Fintype τ]

def slots (s : ObState τ) (o : ObjPtr) : Nat := ∑ t, (s.tables t).ob.count (some o)

/-- The handles of an object, its parent's list, and its table slots. The root's handle
is kept by the store. -/
noncomputable def holders (s : ObState τ) (handles : List ObjPtr) (o : ObjPtr) : Nat :=
  handles.count o + (if s.store.rootObject = some o then 1 else 0) +
    listings s.store o + slots s o

/-- A new child goes to a parent with storage, no list with members is replaced, and no
count passes what its 16 bits hold. -/
def KeepsCounts (s : ObState τ) : ObOp τ → Prop
  | .create block params =>
    ∀ p name o parent, params = some p → Links s.store block p name o parent →
      (storage s.store parent).isSome
  | .allocateDir block dirObj => ∀ o, dirObj = some o → block.isSome → children s.store o = []
  | .tableAdd table ob => ∀ o, ob = some o → (firstFree (s.tables table)).isSome →
      (s.store.object o).ref ≠ 0xFFFF
  | .free _ => True

/-- Every count is the number of holders, what a table holds is live, and a directory
with members can be reached. -/
structure Counted (s : ObState τ) (handles : List ObjPtr) : Prop where
  kept : Kept s.store handles
  placed : ∀ p, Live s.store p → children s.store p ≠ [] → s.store.rootObject = some p ∨
    Listed s.store p
  tabled : ∀ t o, some o ∈ (s.tables t).ob → Live s.store o
  count : ∀ o, Live s.store o → (s.store.object o).ref.toNat = holders s handles o

omit [DecidableEq τ] in
private theorem slots_eq_zero {s : ObState τ} {o : ObjPtr} :
    slots s o = 0 ↔ ∀ t, some o ∉ (s.tables t).ob := by
  rw [slots, Finset.sum_eq_zero_iff]
  exact ⟨fun h t => List.count_eq_zero.mp (h t (Finset.mem_univ t)),
    fun h t _ => List.count_eq_zero.mpr (h t)⟩

omit [DecidableEq τ] in
theorem Counted.unheld {s : ObState τ} {handles : List ObjPtr} (h : Counted s handles) {o : ObjPtr}
    (dead : ¬Live s.store o) : o ∉ handles ∧ s.store.rootObject ≠ some o ∧ ¬Listed s.store o ∧
      slots s o = 0 := by
  refine ⟨fun held => dead (h.kept.live o held), fun root => ?_, ?_,
    slots_eq_zero.mpr fun t held => ?_⟩
  · obtain ⟨r, here, live⟩ := h.kept.sound.root
    exact dead (Option.some.inj (here.symm.trans root) ▸ live)
  · rintro ⟨p, live, member⟩
    exact dead (h.kept.sound.inside p live o member)
  · exact dead (h.tabled t o held)

omit [DecidableEq τ] in
private theorem holders_congr {s s' : ObState τ} {handles handles' : List ObjPtr} {o : ObjPtr}
    (handle : handles'.count o = handles.count o) (root : s'.store.rootObject = s.store.rootObject)
    (listed : Listed s'.store o ↔ Listed s.store o) (tables : s'.tables = s.tables) :
    holders s' handles' o = holders s handles o := by
  rw [holders, holders, handle, root, listings_congr listed, slots, slots, tables]

omit [DecidableEq τ] in
theorem Counted.create {s : ObState τ} {handles : List ObjPtr} (h : Counted s handles) {o : ObjPtr}
    {type : NtObjectType} {name : CString} {ref : BitVec 16} {store : ObStore}
    (fresh : s.store.objPool o = false) (created : Created s.store store o type name ref)
    (others : ∀ x, x ≠ o → (Listed store x ↔ Listed s.store x))
    (grown : ∀ x, Live s.store x → children store x ≠ [] → children s.store x ≠ [] ∨
      s.store.rootObject = some x ∨ Listed s.store x)
    (new : (Listed store o ∧ ref = 2) ∨ (¬Listed store o ∧ ref = 1)) :
    Counted { s with store := store } (o :: handles) := by
  have dead : ¬Live s.store o := by
    rw [Live, fresh]
    exact Bool.false_ne_true
  obtain ⟨unheld, not_root, _, no_slot⟩ := h.unheld dead
  refine ⟨h.kept.create fresh created, fun p live some_child => ?_, fun t x held => ?_,
    fun x live => ?_⟩
  · have other : p ≠ o := by
      rintro rfl
      exact some_child created.childless
    have live' : Live s.store p := ((created.live p).mp live).resolve_left other
    have before : s.store.rootObject = some p ∨ Listed s.store p := by
      rcases grown p live' some_child with some_child | placed
      · exact h.placed p live' some_child
      · exact placed
    rcases before with root | listed
    · exact Or.inl (created.root.trans root)
    · exact Or.inr ((others p other).mpr listed)
  · exact (created.live x).mpr (Or.inr (h.tabled t x held))
  · by_cases same : x = o
    · subst same
      have slots_eq : slots { s with store := store } x = 0 := no_slot
      have root : store.rootObject ≠ some x := by
        rw [created.root]
        exact not_root
      rw [holders, slots_eq, if_neg root, List.count_cons_self, List.count_eq_zero.mpr unheld,
        created.new]
      rcases new with ⟨listed, rfl⟩ | ⟨unlisted, rfl⟩
      · rw [listings_pos listed]
        rfl
      · rw [listings_neg unlisted]
        rfl
    · have live' : Live s.store x := ((created.live x).mp live).resolve_left same
      have unchanged : holders { s with store := store } (o :: handles) x = holders s handles x :=
        holders_congr (List.count_cons_of_ne (Ne.symm same)) created.root (others x same) rfl
      rw [created.object x live', h.count x live', unchanged]

private theorem slots_setSlot (s : ObState τ) {table : τ} {i : Nat} {o : ObjPtr}
    (free : firstFree (s.tables table) = some i) (store : ObStore) (x : ObjPtr) :
    slots ⟨store, Function.update s.tables table ((s.tables table).setSlot i o)⟩ x =
      slots s x + if x = o then 1 else 0 := by
  obtain ⟨short, empty, _⟩ := List.findIdx?_eq_some_iff_getElem.mp free
  have old : (s.tables table).ob[i] = none := by simpa using empty
  have one : ((s.tables table).setSlot i o).ob.count (some x) =
      (s.tables table).ob.count (some x) + if x = o then 1 else 0 := by
    rw [NtObTab.setSlot, List.count_set short, old]
    by_cases same : x = o
    · simp [same]
    · have other : o ≠ x := Ne.symm same
      simp only [beq_iff_eq, Option.some.injEq, same, other, if_false, reduceCtorEq, Nat.sub_zero]
  have terms :
    (fun t => ((Function.update s.tables table ((s.tables table).setSlot i o)) t).ob.count
      (some x)) = Function.update (fun t => (s.tables t).ob.count (some x)) table
        (((s.tables table).setSlot i o).ob.count (some x)) := by
    ext t
    by_cases same : t = table
    · subst same
      simp
    · simp [Function.update_of_ne same]
  rw [slots, slots, terms, Finset.sum_update_of_mem (Finset.mem_univ table), one,
    ← Finset.add_sum_erase _ _ (Finset.mem_univ table), Finset.sdiff_singleton_eq_erase]
  omega

theorem Counted.tableAdd {s : ObState τ} {handles : List ObjPtr} (h : Counted s handles) {table : τ}
    {i : Nat} {o : ObjPtr} (live : Live s.store o) (free : firstFree (s.tables table) = some i)
    (room : (s.store.object o).ref ≠ 0xFFFF) :
    Counted ⟨s.store.setRef o ((s.store.object o).ref + 1),
      Function.update s.tables table ((s.tables table).setSlot i o)⟩ handles := by
  have next : ((s.store.object o).ref + 1).toNat = (s.store.object o).ref.toNat + 1 := by
    generalize (s.store.object o).ref = ref at room
    bv_omega
  have listed : ∀ x, Listed (s.store.setRef o ((s.store.object o).ref + 1)) x ↔
      Listed s.store x := by
    intro x
    simp only [Listed, setRef_live, setRef_children]
  refine ⟨⟨setRef_sound h.kept.sound _ _, h.kept.live, h.kept.not_root, h.kept.nodup⟩, ?_, ?_, ?_⟩
  · intro p alive some_child
    rw [setRef_children] at some_child
    rw [listed]
    exact h.placed p alive some_child
  · intro t x held
    change some x ∈ (Function.update s.tables table ((s.tables table).setSlot i o) t).ob at held
    by_cases same : t = table
    · subst same
      rw [Function.update_self] at held
      rcases List.mem_or_eq_of_mem_set held with held | eq
      · exact h.tabled t x held
      · obtain rfl := Option.some.inj eq
        exact live
    · rw [Function.update_of_ne same] at held
      exact h.tabled t x held
  · intro x alive
    have old := h.count x alive
    rw [holders] at old ⊢
    rw [slots_setSlot s free, listings_congr (listed x)]
    change _ = _ + (if s.store.rootObject = some x then 1 else 0) + _ + _
    by_cases same : x = o
    · subst same
      have ref : ((s.store.setRef x ((s.store.object x).ref + 1)).object x).ref =
          (s.store.object x).ref + 1 := by
        simp [ObStore.setRef]
      rw [ref, next, old, if_pos rfl]
      omega
    · have ref : ((s.store.setRef o ((s.store.object o).ref + 1)).object x).ref =
          (s.store.object x).ref := by
        simp [ObStore.setRef, Function.update_of_ne same]
      rw [ref, old, if_neg same, Nat.add_zero]

omit [DecidableEq τ] in
private theorem Counted.last_handle {s : ObState τ} {handles : List ObjPtr}
    (h : Counted s handles) {o : ObjPtr} (held : o ∈ handles) :
    (s.store.object o).ref = 1 ↔ ¬Listed s.store o ∧ ∀ t, some o ∉ (s.tables t).ob := by
  have count := h.count o (h.kept.live o held)
  have once := List.count_eq_one_of_mem h.kept.nodup held
  rw [holders, once, if_neg (h.kept.not_root o held)] at count
  have one : (s.store.object o).ref = 1 ↔ (s.store.object o).ref.toNat = 1 := by
    generalize (s.store.object o).ref = ref
    bv_omega
  rw [one, count, ← slots_eq_zero]
  by_cases listed : Listed s.store o
  · rw [listings_pos listed]
    simp only [listed, not_true, false_and, iff_false]
    omega
  · rw [listings_neg listed]
    simp only [listed, not_false_eq_true, true_and]
    omega

omit [DecidableEq τ] in
theorem Counted.free {s : ObState τ} {handles : List ObjPtr} (h : Counted s handles) {o : ObjPtr}
    (held : o ∈ handles) :
    Counted { s with store := (obFreeObject s.store (some o)).2 } (handles.erase o) := by
  have last := h.last_handle held
  have safe : (s.store.object o).ref = 1 → ∀ p, Live s.store p → o ∉ children s.store p :=
    fun one p live member => (last.mp one).1 ⟨p, live, member⟩
  obtain ⟨_, lists, _, others, here, root, live⟩ :=
    obFreeObject_effect h.kept.sound (h.kept.not_root o held) safe
  have listed : ∀ x, Listed (obFreeObject s.store (some o)).2 x ↔ Listed s.store x := by
    intro x
    constructor
    · rintro ⟨p, alive, member⟩
      exact ⟨p, ((live p).mp alive).1, lists p ▸ member⟩
    · rintro ⟨p, alive, member⟩
      refine ⟨p, (live p).mpr ⟨alive, ?_⟩, (lists p).symm ▸ member⟩
      rintro rfl one
      rcases h.placed p alive (List.ne_nil_of_mem member) with root | listed
      · exact h.kept.not_root p held root
      · exact (last.mp one).1 listed
  refine ⟨h.kept.free held safe, fun p alive some_child => ?_, fun t x member => ?_,
    fun x alive => ?_⟩
  · rw [lists] at some_child
    rw [root, listed]
    exact h.placed p ((live p).mp alive).1 some_child
  · refine (live x).mpr ⟨h.tabled t x member, ?_⟩
    rintro rfl one
    exact (last.mp one).2 t member
  · have count := h.count x ((live x).mp alive).1
    by_cases same : x = o
    · subst same
      have once := List.count_eq_one_of_mem h.kept.nodup held
      have none : (handles.erase x).count x = 0 := by
        rw [List.count_erase_self, once]
      have pred : ((s.store.object x).ref - 1).toNat = (s.store.object x).ref.toNat - 1 := by
        have positive : (s.store.object x).ref.toNat ≠ 0 := by
          rw [count, holders, once]
          omega
        generalize (s.store.object x).ref = ref at positive
        bv_omega
      have slots_eq :
        slots { s with store := (obFreeObject s.store (some x)).2 } x = slots s x := rfl
      rw [here, pred, count, holders, holders, once, none, root,
        listings_congr (listed x), slots_eq]
      omega
    · have unchanged :
        holders { s with store := (obFreeObject s.store (some o)).2 } (handles.erase o) x =
          holders s handles x :=
        holders_congr (List.count_erase_of_ne same) root (listed x) rfl
      rw [others x same, count, unchanged]

omit [DecidableEq τ] in
theorem Counted.allocateDir {s : ObState τ} {handles : List ObjPtr} (h : Counted s handles)
    {block : Option DirPtr} (fresh : ∀ dir, block = some dir → s.store.dirPool dir = false)
    {dirObj : Option ObjPtr}
    (safe : ∀ o, dirObj = some o → block.isSome → children s.store o = []) :
    Counted { s with store := (obAllocateDir block s.store dirObj).2 } handles := by
  obtain ⟨sound, lists, data, root, pool⟩ := obAllocateDir_effect h.kept.sound fresh safe
  have live : ∀ x, Live (obAllocateDir block s.store dirObj).2 x ↔ Live s.store x := by
    intro x
    rw [Live, pool, Live]
  have listed : ∀ x, Listed (obAllocateDir block s.store dirObj).2 x ↔ Listed s.store x := by
    intro x
    refine exists_congr fun p => ?_
    rw [live]
    exact and_congr_right fun alive => by rw [lists p alive]
  refine ⟨⟨sound, fun o held => ?_, fun o held => ?_, h.kept.nodup⟩, fun p alive some_child => ?_,
    fun t x held => ?_, fun x alive => ?_⟩
  · exact (live o).mpr (h.kept.live o held)
  · rw [root]
    exact h.kept.not_root o held
  · rw [live] at alive
    rw [lists p alive] at some_child
    rw [root, listed]
    exact h.placed p alive some_child
  · exact (live x).mpr (h.tabled t x held)
  · have unchanged : holders { s with store := (obAllocateDir block s.store dirObj).2 } handles x =
        holders s handles x := holders_congr rfl root (listed x) rfl
    rw [(data x).2, h.count x ((live x).mp alive), unchanged]

private theorem run_counted {s : ObState τ} {handles : List ObjPtr} {made : List Made}
    (run : ObRun KeepsCounts s handles made) : Counted s handles := by
  induction run with
  | init objects done =>
    obtain ⟨sound, r, root, live, empty, ref, _⟩ := kiObjStoreInit_effect objects done
    have nothing : ∀ x : ObjPtr, some x ∉ emptyTable.ob := by
      intro x held
      cases List.eq_of_mem_replicate held
    refine ⟨⟨sound, ?_, ?_, List.nodup_nil⟩, fun p alive some_child => ?_, fun t x held => ?_,
      fun x alive => ?_⟩
    · exact fun _ held => by cases held
    · exact fun _ held => by cases held
    · rw [(live p).mp alive] at some_child
      exact absurd empty some_child
    · exact absurd held (nothing x)
    · rw [(live x).mp alive, ref, holders, if_pos root, listings_neg,
        slots_eq_zero.mpr fun _ => nothing r]
      · rfl
      · rintro ⟨p, alive, member⟩
        rw [(live p).mp alive, empty] at member
        cases member
  | @create s handles made _ block params safe fresh status result store done ih =>
    rcases obCreateObject_effect ih.kept.sound fresh done with ⟨_, rfl, rfl⟩ |
      ⟨p, name, o, rfl, _, rfl, rfl, block, created, lists⟩ |
      ⟨p, path, name, o, parent, rfl, path_eq, rfl, rfl, links, created, others, list⟩
    · exact ih
    · have dead : ¬Live s.store o := by
        rw [Live, fresh o block]
        exact Bool.false_ne_true
      have listed := listed_created_same created lists
      refine ih.create (fresh o block) created (fun x _ => listed x) (fun x alive some_child => ?_)
        (Or.inr ⟨fun yes => ?_, rfl⟩)
      · exact Or.inl (lists x alive ▸ some_child)
      · exact (ih.unheld dead).2.2.1 ((listed o).mp yes)
    · have dead : ¬Live s.store o := by
        rw [Live, fresh o links.block]
        exact Bool.false_ne_true
      have stored := safe p name o parent rfl links
      rw [stored, if_pos rfl] at list
      obtain ⟨live_parent, _, _, r, root, found⟩ :=
        createParent_spec ih.kept.sound (path_eq ▸ links.parent)
      have placed := resolve_placed ih.kept.sound root found
      have listed : ∀ x, Listed store x ↔ Listed s.store x ∨ x = o := by
        intro x
        rw [listed_created_iff created]
        constructor
        · rintro ⟨q, alive, member⟩
          by_cases same : q = parent
          · rw [same, list, List.mem_append, List.mem_singleton] at member
            exact member.imp (fun old => ⟨parent, live_parent, old⟩) id
          · exact Or.inl ⟨q, alive, others q alive same ▸ member⟩
        · rintro (⟨q, alive, member⟩ | rfl)
          · refine ⟨q, alive, ?_⟩
            by_cases same : q = parent
            · rw [same, list]
              exact List.mem_append_left _ (same ▸ member)
            · rw [others q alive same]
              exact member
          · refine ⟨parent, live_parent, ?_⟩
            rw [list]
            exact List.mem_append_right _ (List.mem_singleton_self _)
      refine ih.create (fresh o links.block) created (fun x other => ?_)
        (fun x alive some_child => ?_)
        (Or.inl ⟨(listed o).mpr (Or.inr rfl), rfl⟩)
      · rw [listed]
        exact or_iff_left other
      · by_cases same : x = parent
        · exact Or.inr (same ▸ placed)
        · exact Or.inl (others x alive same ▸ some_child)
  | @allocateDir s handles made _ block dirObj safe fresh _ ih => exact ih.allocateDir fresh safe
  | @tableAdd s handles made _ table ob safe live ih =>
    rcases tableAdd_cases s table ob with same | ⟨o, i, rfl, free, eq⟩
    · rw [same]
      exact ih
    · rw [eq]
      exact ih.tableAdd (live o rfl) free (safe o rfl (by rw [free]; rfl))
  | @free s handles made _ o _ held ih => exact ih.free held

/-- In every state the count of every object is the number of its holders, and
obFreeObject gives the block back exactly if no list and no table has the object. -/
theorem counts_are_holders {s : ObState τ} {handles : List ObjPtr} {made : List Made}
    (run : ObRun KeepsCounts s handles made) :
    (∀ o, Live s.store o → (s.store.object o).ref.toNat = holders s handles o) ∧
    ∀ o ∈ handles, ¬Live (obFreeObject s.store (some o)).2 o ↔
      (∀ p, Live s.store p → o ∉ children s.store p) ∧ ∀ t, some o ∉ (s.tables t).ob := by
  have counted := run_counted run
  refine ⟨counted.count, fun o held => ?_⟩
  have last := counted.last_handle held
  have safe : (s.store.object o).ref = 1 → ∀ p, Live s.store p → o ∉ children s.store p :=
    fun one p live member => (last.mp one).1 ⟨p, live, member⟩
  obtain ⟨_, _, _, _, _, _, live⟩ :=
    obFreeObject_effect counted.kept.sound (counted.kept.not_root o held) safe
  have freed : ¬Live (obFreeObject s.store (some o)).2 o ↔ (s.store.object o).ref = 1 := by
    rw [live]
    have here := counted.kept.live o held
    simp only [here, true_and, true_implies, ne_eq, not_not]
  rw [freed, last]
  refine and_congr_left fun _ => ?_
  simp only [Listed, not_exists, not_and]

omit [DecidableEq τ] in
private theorem unlinked_child_overcounted {s : ObState τ} {handles : List ObjPtr}
    (h : Counted s handles)
    {block : Option ObjPtr} {p : NtObjectCreate} {name : CString} {o parent : ObjPtr}
    {store : ObStore} (fresh : ∀ o, block = some o → s.store.objPool o = false)
    (links : Links s.store block p name o parent) (bare : storage s.store parent = none)
    (done : obCreateObject block s.store (some p) = some (.success, some o, store)) :
    (store.object o).ref = 2 ∧ holders { s with store := store } (o :: handles) o = 1 := by
  have dead : ¬Live s.store o := by
    rw [Live, fresh o links.block]
    exact Bool.false_ne_true
  obtain ⟨unheld, not_root, unlisted, no_slot⟩ := h.unheld dead
  rcases obCreateObject_effect h.kept.sound fresh done with ⟨failed, _⟩ |
    ⟨_, _, _, ⟨⟩, path, _, _, _, _⟩ | ⟨_, _, _, _, parent', ⟨⟩, _, _, ⟨⟩, links',
      created, others, list⟩
  · exact absurd rfl failed
  · have none := (createParent_none links.parent).mpr path
    cases none
  · obtain rfl : parent' = parent := by
      have same := links'.parent.symm.trans links.parent
      exact Option.some.inj (Prod.mk.inj (Option.some.inj same)).2
    rw [bare, Option.isSome_none, if_neg Bool.false_ne_true, List.append_nil] at list
    have still : ¬Listed store o := by
      rw [listed_created_iff created]
      rintro ⟨q, alive, member⟩
      by_cases same : q = parent'
      · subst same
        exact unlisted ⟨q, alive, list ▸ member⟩
      · exact unlisted ⟨q, alive, others q alive same ▸ member⟩
    have root : store.rootObject ≠ some o := by
      rw [created.root]
      exact not_root
    have slots_eq : slots { s with store := store } o = 0 := no_slot
    rw [created.new, holders, List.count_cons_self, List.count_eq_zero.mpr unheld, if_neg root,
      listings_neg still, slots_eq]
    exact ⟨rfl, rfl⟩

def CountsFit (s : ObState τ) : ObOp τ → Prop
  | .tableAdd table ob => ∀ o, ob = some o → (firstFree (s.tables table)).isSome →
      (s.store.object o).ref ≠ 0xFFFF
  | _ => True

/-- Every count covers the handle and the list of the parent. -/
structure Covered (s : ObStore) (handles : List ObjPtr) : Prop where
  kept : Kept s handles
  covered : ∀ o, Live s o → handles.count o + listings s o ≤ (s.object o).ref.toNat

theorem Covered.unlisted {s : ObStore} {handles : List ObjPtr} (h : Covered s handles) {o : ObjPtr}
    (held : o ∈ handles) (last : (s.object o).ref = 1) : ¬Listed s o := by
  intro listed
  have cover := h.covered o (h.kept.live o held)
  rw [List.count_eq_one_of_mem h.kept.nodup held, listings_pos listed, last] at cover
  exact absurd cover (by decide)

theorem Covered.create {s s' : ObStore} {handles : List ObjPtr} (h : Covered s handles) {o : ObjPtr}
    {type : NtObjectType} {name : CString} {ref : BitVec 16} (fresh : s.objPool o = false)
    (created : Created s s' o type name ref)
    (others : ∀ x, x ≠ o → Listed s' x → Listed s x) (enough : 1 + listings s' o ≤ ref.toNat) :
    Covered s' (o :: handles) := by
  have unheld : o ∉ handles := by
    intro held
    have live := h.kept.live o held
    rw [Live, fresh] at live
    cases live
  refine ⟨h.kept.create fresh created, fun x live => ?_⟩
  by_cases same : x = o
  · rw [same, List.count_cons_self, List.count_eq_zero.mpr unheld, created.new]
    omega
  · have live' : Live s x := ((created.live x).mp live).resolve_left same
    have cover := h.covered x live'
    have fewer := listings_mono (others x same)
    rw [List.count_cons_of_ne (Ne.symm same), created.object x live']
    omega

theorem Covered.step {s s' : ObStore} {handles handles' : List ObjPtr} (h : Covered s handles)
    (kept : Kept s' handles') (live : ∀ o, Live s' o → Live s o)
    (listed : ∀ o, Listed s' o → Listed s o)
    (counts : ∀ o, Live s' o → handles'.count o + (s.object o).ref.toNat ≤
      handles.count o + (s'.object o).ref.toNat) : Covered s' handles' := by
  refine ⟨kept, fun o here => ?_⟩
  have cover := h.covered o (live o here)
  have fewer := listings_mono (listed o)
  have count := counts o here
  omega

private theorem listed_of_created {s s' : ObStore} {o : ObjPtr} {type : NtObjectType}
    {name : CString} {ref : BitVec 16} (created : Created s s' o type name ref)
    (lists : ∀ p, Live s p → ∀ x ∈ children s' p, x ∈ children s p ∨ x = o) {x : ObjPtr}
    (listed : Listed s' x) : Listed s x ∨ x = o := by
  obtain ⟨p, live, member⟩ := (listed_created_iff created x).mp listed
  exact (lists p live x member).imp (fun old => ⟨p, live, old⟩) id

omit [Fintype τ] in
private theorem run_covered {s : ObState τ} {handles : List ObjPtr} {made : List Made}
    (run : ObRun CountsFit s handles made) :
    ObRun KeepsTree s handles made ∧ Covered s.store handles := by
  induction run with
  | @init s₀ store block dirBlock objects done =>
    obtain ⟨sound, r, _, live, empty, _⟩ := kiObjStoreInit_effect objects done
    have tree := @ObRun.init τ _ KeepsTree _ _ _ _ objects done
    refine ⟨tree, run_kept tree, fun o here => ?_⟩
    have unlisted : ¬Listed store o := by
      rintro ⟨p, alive, member⟩
      rw [(live p).mp alive, empty] at member
      cases member
    rw [listings_neg unlisted]
    exact Nat.zero_le _
  | @create s handles _ _ block params _ fresh status result store done ih =>
    obtain ⟨tree, h⟩ := ih
    refine ⟨tree.create True.intro fresh done, ?_⟩
    rcases obCreateObject_effect h.kept.sound fresh done with ⟨_, rfl, rfl⟩ |
      ⟨p, name, o, rfl, _, rfl, rfl, block, created, lists⟩ |
      ⟨p, path, name, o, parent, rfl, _, rfl, rfl, links, created, others, list⟩
    · exact h
    · have old : ∀ x, Listed store x → Listed s.store x := fun x =>
        (listed_created_same created lists x).mp
      have unlisted : ¬Listed store o := by
        intro listed
        obtain ⟨q, live, member⟩ := old o listed
        have live := h.kept.sound.inside q live o member
        rw [Live, fresh o block] at live
        cases live
      refine h.create (fresh o block) created (fun x _ => old x) ?_
      rw [listings_neg unlisted]
      decide
    · have grown : ∀ q, Live s.store q → ∀ x ∈ children store q,
          x ∈ children s.store q ∨ x = o := by
        intro q live x member
        by_cases same : q = parent
        · rw [same, list, List.mem_append] at member
          rw [same]
          refine member.imp_right fun added => ?_
          split at added
          · exact List.mem_singleton.mp added
          · cases added
        · exact Or.inl (others q live same ▸ member)
      refine h.create (fresh o links.block) created (fun x other listed => ?_) ?_
      · exact (listed_of_created created grown listed).resolve_right other
      · have once : listings store o ≤ 1 := by
          rw [listings]
          split <;> omega
        exact Nat.add_le_add_left once 1
  | @allocateDir s handles _ _ block dirObj _ fresh live ih =>
    obtain ⟨tree, h⟩ := ih
    have tree' := tree.allocateDir True.intro fresh live
    obtain ⟨_, lists, data, root, pool⟩ := obAllocateDir_lists h.kept.sound fresh dirObj
    have same : ∀ o, Live (obAllocateDir block s.store dirObj).2 o → Live s.store o := by
      intro o here
      rwa [Live, pool] at here
    refine ⟨tree', h.step (run_kept tree') same ?_ fun o _ => ?_⟩
    · rintro o ⟨q, alive, member⟩
      refine ⟨q, same q alive, ?_⟩
      rcases lists q (same q alive) with unchanged | ⟨_, _, bare⟩
      · exact unchanged ▸ member
      · rw [bare] at member
        cases member
    · rw [(data o).2]
  | @tableAdd s handles _ _ table ob fits live ih =>
    obtain ⟨tree, h⟩ := ih
    have tree' := @ObRun.tableAdd τ _ _ _ _ _ tree table ob True.intro live
    refine ⟨tree', ?_⟩
    rcases tableAdd_cases s table ob with same | ⟨o, i, rfl, free, eq⟩
    · rw [same]
      exact h
    · have room := fits o rfl (by rw [free]; rfl)
      have kept := run_kept tree'
      rw [eq] at kept ⊢
      refine h.step kept (fun _ alive => alive) ?_ fun x _ => ?_
      · rintro x ⟨q, alive, member⟩
        rw [setRef_children] at member
        exact ⟨q, alive, member⟩
      · apply Nat.add_le_add_left
        by_cases same : x = o
        · simp only [ObStore.setRef, same, Function.update_self]
          generalize (s.store.object o).ref = count at room
          bv_omega
        · simp only [ObStore.setRef, Function.update_of_ne same, Nat.le_refl]
  | @free s handles _ _ o _ held ih =>
    obtain ⟨tree, h⟩ := ih
    have safe : (s.store.object o).ref = 1 → ∀ p, Live s.store p → o ∉ children s.store p :=
      fun last p live member => h.unlisted held last ⟨p, live, member⟩
    have tree' := tree.free safe held
    obtain ⟨_, lists, _, refs, ref, _, live⟩ :=
      obFreeObject_effect h.kept.sound (h.kept.not_root o held) safe
    refine ⟨tree', h.step (run_kept tree') (fun x here => ((live x).mp here).1) ?_ fun x _ => ?_⟩
    · rintro x ⟨q, alive, member⟩
      exact ⟨q, ((live q).mp alive).1, lists q ▸ member⟩
    · by_cases same : x = o
      · have cover := h.covered o (h.kept.live o held)
        rw [same, ref, List.count_erase_self]
        rw [List.count_eq_one_of_mem h.kept.nodup held] at cover ⊢
        generalize (s.store.object o).ref = count at cover
        bv_omega
      · rw [refs x same, List.count_erase_of_ne same]

end Counts

theorem counts_are_holders_first : ∃ (s : ObState Unit) (handles : List ObjPtr) (made : List Made),
    ObRun KeepsCounts s handles made ∧ (s.store.object dirBlock).ref.toNat = 2 ∧
    (s.store.object dirBlock).ref.toNat = holders s handles dirBlock := by
  have done : kiObjStoreInit (some rootBlock) (some rootBlock) bootStore = some _ := rfl
  have run := @ObRun.init Unit _ KeepsCounts _ _ _ _ (fun _ => rfl) done
  have run := @ObRun.create Unit _ _ _ _ _ run (some dirBlock)
    (some ⟨some [slash], some dirName, .directory⟩) (by
      rintro p name o parent ⟨⟩ links
      cases links.parent
      rfl)
    (fun o h => by cases h; rfl) .success (some dirBlock) _ rfl
  exact ⟨_, _, _, run, rfl, (counts_are_holders run).1 dirBlock rfl⟩

/-- The object `x` under `/d`, which has no storage, counts two references and has one
holder. -/
theorem unstored_parent_miscounts : ∃ (s : ObState Unit) (handles : List ObjPtr) (made : List Made),
    ObRun (fun _ _ => True) s handles made ∧ Live s.store leafBlock ∧
    (s.store.object leafBlock).ref.toNat ≠ holders s handles leafBlock := by
  have done : kiObjStoreInit (some rootBlock) (some rootBlock) bootStore = some _ := rfl
  have counted := @ObRun.init Unit _ KeepsCounts _ _ _ _ (fun _ => rfl) done
  have counted := @ObRun.create Unit _ _ _ _ _ counted (some dirBlock)
    (some ⟨some [slash], some dirName, .directory⟩) (by
      rintro p name o parent ⟨⟩ links
      cases links.parent
      rfl)
    (fun o h => by cases h; rfl) .success (some dirBlock) _ rfl
  have run := @ObRun.mono Unit _ KeepsCounts (fun _ _ => True) (fun _ _ _ => trivial) _ _ _ counted
  have run := @ObRun.create Unit _ _ _ _ _ run (some leafBlock)
    (some ⟨some (slash :: dirName), some leafName, .timer⟩) trivial (fun o h => by cases h; rfl)
    .success (some leafBlock) _ rfl
  have overcounted := @unlinked_child_overcounted Unit _ _ _ (run_counted counted) (some leafBlock)
    ⟨some (slash :: dirName), some leafName, .timer⟩ leafName leafBlock dirBlock _
    (fun o h => by cases h; rfl) ⟨by decide, rfl, by decide, by decide, rfl, rfl⟩ rfl rfl
  refine ⟨_, _, _, run, rfl, fun same => ?_⟩
  have two := congrArg BitVec.toNat overcounted.1
  exact absurd (two.symm.trans (same.trans overcounted.2)) (by decide)

end Algae.Ob.Holders
