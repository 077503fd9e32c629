/- Runs of the object manager, and what the store does for names: a created object is
   found under its path, then and later. -/

import Algae.Ob.Directories
import Algae.Ob.Table

set_option autoImplicit false
set_option relaxedAutoImplicit false

namespace Algae.Ob.Names

open Algae.Lib.Namespace Algae.Rtl.Queue Algae.Rtl.String Algae.Sdk.Defs
open Algae.Ob.Store Algae.Ob.Table Algae.Ob.Directories

/-- The store and the object tables, one for each `τ`. -/
structure ObState (τ : Type) where
  store : ObStore
  tables : τ → NtObTab

/-- The calls; a create and an allocation come with what exAllocatePool answers. -/
inductive ObOp (τ : Type)
  | create (block : Option ObjPtr) (params : Option NtObjectCreate)
  | allocateDir (block : Option DirPtr) (dirObj : Option ObjPtr)
  | tableAdd (table : τ) (ob : Option ObjPtr)
  | free (object : ObjPtr)

structure Made where
  parent : CString
  name : CString
  object : ObjPtr

def noteMade (params : Option NtObjectCreate) (result : Option ObjPtr) : List Made :=
  match params, result with
  | some ⟨some parent, some name, _⟩, some object => [⟨parent, name, object⟩]
  | _, _ => []

section Runs

variable {τ : Type} [DecidableEq τ]

def tableAdd (s : ObState τ) (table : τ) (ob : Option ObjPtr) : ObState τ :=
  match obTableAdd s.store (some (s.tables table)) true ob with
  | (_, _, some result, store) => ⟨store, Function.update s.tables table result⟩
  | (_, _, none, store) => { s with store := store }

/-- Runs whose calls are all `ok`: the state reached, the handles that their creators
have not released, and what was created under a path. Callers pass live objects; the
root's handle is the store's own. -/
inductive ObRun (ok : ObState τ → ObOp τ → Prop) : ObState τ → List ObjPtr → List Made → Prop
  | init {s₀ store : ObStore} {block : Option ObjPtr} {dirBlock : Option DirPtr}
      (objects : ∀ o, s₀.objPool o = false) (done : kiObjStoreInit block dirBlock s₀ = some store) :
      ObRun ok ⟨store, fun _ => emptyTable⟩ [] []
  | create {s : ObState τ} {handles : List ObjPtr} {made : List Made}
    (run : ObRun ok s handles made)
      {block : Option ObjPtr} {params : Option NtObjectCreate} (safe : ok s (.create block params))
      (fresh : ∀ o, block = some o → s.store.objPool o = false) {status : NtStatus}
      {result : Option ObjPtr} {store : ObStore}
      (done : obCreateObject block s.store params = some (status, result, store)) :
      ObRun ok { s with store := store } (result.toList ++ handles) (noteMade params result ++ made)
  | allocateDir {s : ObState τ} {handles : List ObjPtr} {made : List Made}
      (run : ObRun ok s handles made) {block : Option DirPtr} {dirObj : Option ObjPtr}
      (safe : ok s (.allocateDir block dirObj))
      (fresh : ∀ dir, block = some dir → s.store.dirPool dir = false)
      (live : ∀ o, dirObj = some o → Live s.store o) :
      ObRun ok { s with store := (obAllocateDir block s.store dirObj).2 } handles made
  | tableAdd {s : ObState τ} {handles : List ObjPtr} {made : List Made}
      (run : ObRun ok s handles made)
      {table : τ} {ob : Option ObjPtr} (safe : ok s (.tableAdd table ob))
      (live : ∀ o, ob = some o → Live s.store o) : ObRun ok (tableAdd s table ob) handles made
  | free {s : ObState τ} {handles : List ObjPtr} {made : List Made} (run : ObRun ok s handles made)
      {object : ObjPtr} (safe : ok s (.free object)) (held : object ∈ handles) :
      ObRun ok { s with store := (obFreeObject s.store (some object)).2 }
        (handles.erase object) made

theorem tableAdd_cases (s : ObState τ) (table : τ) (ob : Option ObjPtr) :
    tableAdd s table ob = s ∨
    ∃ o i, ob = some o ∧ firstFree (s.tables table) = some i ∧
      tableAdd s table ob = ⟨s.store.setRef o ((s.store.object o).ref + 1),
        Function.update s.tables table ((s.tables table).setSlot i o)⟩ := by
  have unchanged :
      (⟨s.store, Function.update s.tables table (s.tables table)⟩ : ObState τ) = s := by
    rw [Function.update_eq_self]
  cases ob with
  | none => exact Or.inl unchanged
  | some o =>
    cases free : firstFree (s.tables table) with
    | none =>
      left
      simp only [tableAdd, obTableAdd, free]
      exact unchanged
    | some i =>
      refine Or.inr ⟨o, i, rfl, rfl, ?_⟩
      simp only [tableAdd, obTableAdd, free]

/-- What a run keeps about the lists and the handles, whatever the counts. -/
structure Kept (s : ObStore) (handles : List ObjPtr) : Prop where
  sound : Sound s
  live : ∀ o ∈ handles, Live s o
  not_root : ∀ o ∈ handles, s.rootObject ≠ some o
  nodup : handles.Nodup

theorem Kept.create {s s' : ObStore} {handles : List ObjPtr} (kept : Kept s handles) {o : ObjPtr}
    {type : NtObjectType} {name : CString} {ref : BitVec 16} (fresh : s.objPool o = false)
    (created : Created s s' o type name ref) : Kept s' (o :: handles) := by
  have new : ¬Live s o := by
    rw [Live, fresh]
    exact Bool.false_ne_true
  refine ⟨created.sound, ?_, ?_, ?_⟩
  · intro x member
    rcases List.mem_cons.mp member with rfl | member
    · exact (created.live _).mpr (Or.inl rfl)
    · exact (created.live x).mpr (Or.inr (kept.live x member))
  · intro x member
    rw [created.root]
    rcases List.mem_cons.mp member with rfl | member
    · intro root
      obtain ⟨r, here, live⟩ := kept.sound.root
      exact new (Option.some.inj (here.symm.trans root) ▸ live)
    · exact kept.not_root x member
  · exact List.nodup_cons.mpr ⟨fun member => new (kept.live o member), kept.nodup⟩

theorem Kept.free {s : ObStore} {handles : List ObjPtr} (kept : Kept s handles) {o : ObjPtr}
    (held : o ∈ handles) (safe : (s.object o).ref = 1 → ∀ p, Live s p → o ∉ children s p) :
    Kept (obFreeObject s (some o)).2 (handles.erase o) := by
  obtain ⟨sound, _, _, _, _, root, live⟩ :=
    obFreeObject_effect kept.sound (kept.not_root o held) safe
  refine ⟨sound, ?_, ?_, kept.nodup.erase o⟩
  · intro x member
    obtain ⟨other, member⟩ := kept.nodup.mem_erase_iff.mp member
    exact (live x).mpr ⟨kept.live x member, fun same => absurd same other⟩
  · intro x member
    rw [root]
    exact kept.not_root x (List.mem_of_mem_erase member)

/-- No call of the run does what loses a name: a new child has a name without separators
that no other child of its parent has, and the parent has storage; no list with members
is replaced; no object in a directory goes back to the pool. -/
def KeepsNames (s : ObState τ) : ObOp τ → Prop
  | .create block params =>
    ∀ p name o parent, params = some p → Links s.store block p name o parent →
      slash ∉ name ∧ (storage s.store parent).isSome ∧
        ∀ x ∈ children s.store parent, (s.store.object x).name ≠ name
  | .allocateDir block dirObj => ∀ o, dirObj = some o → block.isSome → children s.store o = []
  | .tableAdd _ _ => True
  | .free o => (s.store.object o).ref = 1 → ∀ p, Live s.store p → o ∉ children s.store p

def KeepsTree (s : ObState τ) : ObOp τ → Prop
  | .free o => (s.store.object o).ref = 1 → ∀ p, Live s.store p → o ∉ children s.store p
  | _ => True

omit [DecidableEq τ] in
private theorem noteMade_none (params : Option NtObjectCreate) : noteMade params none = [] := by
  unfold noteMade
  split
  · rename_i eq
    cases eq
  · rfl

theorem ObRun.mono {ok ok' : ObState τ → ObOp τ → Prop} (weaker : ∀ s op, ok s op → ok' s op)
    {s : ObState τ} {handles : List ObjPtr} {made : List Made} (run : ObRun ok s handles made) :
    ObRun ok' s handles made := by
  induction run with
  | init objects done => exact .init objects done
  | create _ safe fresh done ih => exact .create ih (weaker _ _ safe) fresh done
  | allocateDir _ safe fresh live ih => exact .allocateDir ih (weaker _ _ safe) fresh live
  | tableAdd _ safe live ih => exact .tableAdd ih (weaker _ _ safe) live
  | free _ safe held ih => exact .free ih (weaker _ _ safe) held

theorem run_kept {s : ObState τ} {handles : List ObjPtr} {made : List Made}
    (run : ObRun KeepsTree s handles made) : Kept s.store handles := by
  induction run with
  | init objects done =>
    obtain ⟨sound, _⟩ := kiObjStoreInit_effect objects done
    refine ⟨sound, ?_, ?_, List.nodup_nil⟩
    all_goals exact fun _ member => by cases member
  | create _ _ fresh done ih =>
    rcases obCreateObject_effect ih.sound fresh done with ⟨_, rfl, rfl⟩ |
      ⟨p, name, o, rfl, _, rfl, rfl, block, created, _⟩ |
      ⟨p, path, name, o, parent, rfl, _, rfl, rfl, links, created, _⟩
    · exact ih
    · exact ih.create (fresh o block) created
    · exact ih.create (fresh o links.block) created
  | @allocateDir s handles _ _ block dirObj _ fresh _ ih =>
    obtain ⟨sound, _, _, root, pool⟩ := obAllocateDir_lists ih.sound fresh dirObj
    refine ⟨sound, fun o member => ?_, fun o member => ?_, ih.nodup⟩
    · rw [Live, pool]
      exact ih.live o member
    · rw [root]
      exact ih.not_root o member
  | @tableAdd s _ _ _ table ob _ _ ih =>
    rcases tableAdd_cases s table ob with same | ⟨o, i, rfl, _, eq⟩
    · rw [same]
      exact ih
    · rw [eq]
      exact ⟨setRef_sound ih.sound _ _, ih.live, ih.not_root, ih.nodup⟩
  | free _ safe held ih => exact ih.free held safe

omit [DecidableEq τ] in
private theorem KeepsNames.keepsTree {s : ObState τ} {op : ObOp τ} (safe : KeepsNames s op) :
    KeepsTree s op := by
  cases op with
  | free o => exact safe
  | _ => exact True.intro

def Resolves (s : ObStore) (m : Made) : Prop :=
  Fits (components slash m.parent) ∧ slash ∉ m.name ∧ m.name ≠ [] ∧
    m.name.length < NT_OBNAME_LEN - 1 ∧
    ∃ r, s.rootObject = some r ∧
      resolve (entries s) r (components slash m.parent ++ [m.name]) = some m.object

theorem Resolves.grows {s s' : ObStore} {m : Made} (h : Resolves s m) (sound : Sound s)
    (root : s'.rootObject = s.rootObject)
    (lists : ∀ p, Live s p → children s p <+: children s' p)
    (names : ∀ p, Live s p → (s'.object p).name = (s.object p).name) : Resolves s' m := by
  obtain ⟨fits, pure, nonempty, short, r, here, found⟩ := h
  refine ⟨fits, pure, nonempty, short, r, root.trans here, ?_⟩
  refine resolve_grows sound.inherit ?_ ?_ found
  · intro n live
    obtain ⟨more, eq⟩ := lists n live
    refine ⟨more.map fun x => ((s'.object x).name, x), ?_⟩
    rw [entries, entries, ← eq, List.map_append]
    congr 1
    refine List.map_congr_left fun x member => ?_
    rw [names x (sound.inside n live x member)]
  · obtain ⟨r', here', live⟩ := sound.root
    exact Option.some.inj (here'.symm.trans here) ▸ live

theorem Resolves.new {s s' : ObStore} (sound : Sound s) {block : Option ObjPtr} {p : NtObjectCreate}
    {path name : CString} {o parent : ObjPtr} (asked : p.parent = some path)
    (links : Links s block p name o parent) (created : Created s s' o p.type name 2)
    (others : ∀ x, Live s x → x ≠ parent → children s' x = children s x)
    (list : children s' parent = children s parent ++ [o]) (pure : slash ∉ name)
    (unused : ∀ x ∈ children s parent, (s.object x).name ≠ name) : Resolves s' ⟨path, name, o⟩ := by
  obtain ⟨live, _, fits, r, root, found⟩ := createParent_spec sound (asked ▸ links.parent)
  have grows : ∀ n, Live s n → entries s n <+: entries s' n := by
    intro n live'
    by_cases same : n = parent
    · subst same
      exact ⟨_, (created.entries sound live' list).symm⟩
    · have list' := (others n live' same).trans (List.append_nil _).symm
      exact ⟨_, (created.entries sound live' list').symm⟩
  have still : resolve (entries s') r (components slash path) = some parent := by
    refine resolve_grows sound.inherit grows ?_ found
    obtain ⟨r', root', live'⟩ := sound.root
    exact Option.some.inj (root'.symm.trans root) ▸ live'
  refine ⟨fits, pure, List.ne_nil_of_length_pos (Nat.pos_of_ne_zero links.nonempty), links.short, r,
    created.root.trans root, ?_⟩
  rw [resolve_snoc, still, Option.bind_some]
  have entry : entries s' parent = entries s parent ++ [(name, o)] := by
    rw [created.entries sound live list, List.map_singleton, created.new]
  rw [entry]
  refine child_append_new ?_ o
  intro e member
  obtain ⟨x, inside, rfl⟩ := List.mem_map.mp member
  exact unused x inside

private theorem run_keeps_names {s : ObState τ} {handles : List ObjPtr} {made : List Made}
    (run : ObRun KeepsNames s handles made) : ∀ m ∈ made, Resolves s.store m := by
  induction run with
  | init => exact fun _ member => by cases member
  | @create s handles made before block params safe fresh status result store done found =>
    have kept := run_kept (before.mono fun _ _ => KeepsNames.keepsTree)
    rcases obCreateObject_effect kept.sound fresh done with ⟨_, rfl, rfl⟩ |
      ⟨p, name, o, rfl, path, rfl, rfl, block, created, lists⟩ |
      ⟨p, path, name, o, parent, rfl, path_eq, rfl, rfl, links, created, others, list⟩
    · rw [noteMade_none]
      exact found
    · have none : noteMade (some p) (some o) = [] := by
        obtain ⟨parent, name, type⟩ := p
        cases path
        rfl
      rw [none]
      intro m member
      refine (found m member).grows kept.sound created.root (fun x live => ?_) fun x live => ?_
      · rw [lists x live]
      · rw [created.object x live]
    · obtain ⟨pure, stored, unused⟩ := safe p name o parent rfl links
      rw [stored, if_pos rfl] at list
      intro m member
      rcases List.mem_append.mp member with member | member
      · have noted : noteMade (some p) (some o) = [⟨path, name, o⟩] := by
          obtain ⟨parent', name', type⟩ := p
          cases path_eq
          have named := links.named
          cases named
          rfl
        rw [noted, List.mem_singleton] at member
        rw [member]
        exact Resolves.new kept.sound path_eq links created others list pure unused
      · refine (found m member).grows kept.sound created.root (fun x live => ?_) fun x live => ?_
        · by_cases same : x = parent
          · subst same
            rw [list]
            exact List.prefix_append _ _
          · rw [others x live same]
        · rw [created.object x live]
  | allocateDir before safe fresh _ found =>
    have kept := run_kept (before.mono fun _ _ => KeepsNames.keepsTree)
    obtain ⟨_, lists, data, root, _⟩ := obAllocateDir_effect kept.sound fresh safe
    intro m member
    refine (found m member).grows kept.sound root (fun x live => ?_) fun x live => (data x).1
    rw [lists x live]
  | @tableAdd s handles made before table ob _ _ found =>
    have kept := run_kept (before.mono fun _ _ => KeepsNames.keepsTree)
    rcases tableAdd_cases s table ob with same | ⟨o, i, rfl, _, eq⟩
    · rw [same]
      exact found
    · rw [eq]
      intro m member
      refine (found m member).grows kept.sound rfl (fun x _ => ?_) fun x _ => setRef_name ..
      rw [setRef_children]
  | @free s handles made before o safe held found =>
    have kept := run_kept (before.mono fun _ _ => KeepsNames.keepsTree)
    obtain ⟨_, lists, names, _, _, root, _⟩ :=
      obFreeObject_effect kept.sound (kept.not_root o held) safe
    intro m member
    refine (found m member).grows kept.sound root (fun x _ => ?_) fun x _ => names x
    rw [lists x]

/-- In a run that loses no name every object created under a path is what a lookup of
the path and its name returns. -/
theorem created_objects_found {s : ObState τ} {handles : List ObjPtr} {made : List Made}
    (run : ObRun KeepsNames s handles made) : ∀ m ∈ made,
      obLookupObject s.store (some (m.parent ++ slash :: m.name)) true =
        some (.success, some m.object) := by
  intro m member
  have kept := run_kept (run.mono fun _ _ => KeepsNames.keepsTree)
  obtain ⟨fits, pure, nonempty, short, r, root, resolved⟩ := run_keeps_names run m member
  have live : Live s.store r := by
    obtain ⟨r', root', live⟩ := kept.sound.root
    exact Option.some.inj (root'.symm.trans root) ▸ live
  obtain ⟨status, result, run, _, iff⟩ := obLookupObject_spec kept.sound.isLinked kept.sound.inherit
    root live (m.parent ++ slash :: m.name)
  rw [components_below pure nonempty] at iff
  have all_fit : Fits (components slash m.parent ++ [m.name]) := by
    intro name inside
    rcases List.mem_append.mp inside with inside | inside
    · exact fits name inside
    · exact List.mem_singleton.mp inside ▸ short
  obtain ⟨rfl, rfl⟩ := (iff m.object).mpr ⟨all_fit, resolved⟩
  exact run

end Runs

def bootStore : ObStore where
  rootObject := none
  object := fun _ => ⟨.timer, [], 0, none⟩
  dirs := ⟨fun _ => none, fun dir => .first dir, fun _ => 0, fun _ => none, fun o => .next o⟩
  numEnt := fun _ => 0
  objPool := fun _ => false
  dirPool := fun _ => false

/-- Blocks for three objects; the first is also that of the root's directory. -/
def rootBlock : Pointer := ⟨0x1000, frame_one_ne_null⟩
def dirBlock : Pointer := ⟨0x2000, frame_two_ne_null⟩
def leafBlock : Pointer := ⟨0x3000, by decide⟩

def dirName : CString := [⟨0x64, d_ne_nul⟩]
def leafName : CString := [⟨0x78, x_ne_nul⟩]

theorem created_objects_found_first :
    ∃ (s : ObState Unit) (handles : List ObjPtr) (made : List Made),
    ObRun KeepsNames s handles made ∧ ⟨[slash], dirName, dirBlock⟩ ∈ made ∧
    obLookupObject s.store (some ([slash] ++ slash :: dirName)) true = some
      (.success, some dirBlock) := by
  have done : kiObjStoreInit (some rootBlock) (some rootBlock) bootStore = some _ := rfl
  have run := @ObRun.init Unit _ KeepsNames _ _ _ _ (fun _ => rfl) done
  have run := @ObRun.create Unit _ _ _ _ _ run (some dirBlock)
    (some ⟨some [slash], some dirName, .directory⟩) (by
      rintro p name o parent ⟨⟩ links
      cases links.named
      cases links.parent
      exact ⟨by decide, rfl, fun x member => by cases member⟩)
    (fun o h => by cases h; rfl) .success (some dirBlock) _ rfl
  exact ⟨_, _, _, run, List.mem_cons_self, created_objects_found run ⟨[slash], dirName, dirBlock⟩
    List.mem_cons_self⟩

/-- A directory without storage takes a child that no lookup finds. -/
theorem unstored_parent_loses_child :
    ∃ (s : ObState Unit) (handles : List ObjPtr) (made : List Made),
    ObRun (fun _ _ => True) s handles made ∧ ⟨slash :: dirName, leafName, leafBlock⟩ ∈ made ∧
    obLookupObject s.store (some ((slash :: dirName) ++ slash :: leafName)) true =
      some (.objectNotFound, none) := by
  have done : kiObjStoreInit (some rootBlock) (some rootBlock) bootStore = some _ := rfl
  have run := @ObRun.init Unit _ (fun _ _ => True) _ _ _ _ (fun _ => rfl) done
  have run := @ObRun.create Unit _ _ _ _ _ run (some dirBlock)
    (some ⟨some [slash], some dirName, .directory⟩) trivial (fun o h => by cases h; rfl)
    .success (some dirBlock) _ rfl
  have run := @ObRun.create Unit _ _ _ _ _ run (some leafBlock)
    (some ⟨some (slash :: dirName), some leafName, .timer⟩) trivial (fun o h => by cases h; rfl)
    .success (some leafBlock) _ rfl
  exact ⟨_, _, _, run, List.mem_cons_self, rfl⟩

end Algae.Ob.Names
