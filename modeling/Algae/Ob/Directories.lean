/- What the operations of the object store do to its directories. -/

import Algae.Ob.Store

set_option autoImplicit false
set_option relaxedAutoImplicit false

namespace Algae.Ob.Directories

open Algae.Lib.Namespace Algae.Rtl.Queue Algae.Rtl.String Algae.Sdk.Defs
open Algae.Ob.Store

def Live (s : ObStore) (object : ObjPtr) : Prop := s.objPool object = true

/-- Live objects only, each in one directory at most, and no list shared by two. -/
structure Sound (s : ObStore) : Prop where
  root : ∃ r, s.rootObject = some r ∧ Live s r
  linked : ∀ p, Live s p → ∀ dir, storage s p = some dir → Holds s.dirs dir (children s p)
  stored : ∀ p, Live s p → ∀ dir, storage s p = some dir → s.dirPool dir = true
  own : ∀ p p', Live s p → Live s p' → ∀ dir, storage s p = some dir →
    storage s p' = some dir → p = p'
  inside : ∀ p, Live s p → ∀ x ∈ children s p, Live s x
  once : ∀ p p', Live s p → Live s p' → ∀ x, x ∈ children s p → x ∈ children s p' → p = p'

section Steps

variable {s : ObStore}

private theorem children_of_none {p : ObjPtr} (h : storage s p = none) : children s p = [] := by
  rw [children, h]

private theorem children_of_holds {p : ObjPtr} {dir : DirPtr} {xs : List ObjPtr}
    (h : storage s p = some dir) (holds : Holds s.dirs dir xs) : children s p = xs := by
  rw [children, h]
  exact Holds_members holds

theorem Sound.isLinked (sound : Sound s) : Linked s (Live s) := by
  intro p live dir h
  have holds := sound.linked p live dir h
  rw [children, h] at holds
  exact holds

theorem Sound.inherit (sound : Sound s) : ∀ n, Live s n → ∀ e ∈ entries s n, Live s e.2 := by
  intro n live e member
  obtain ⟨x, inside, rfl⟩ := List.mem_map.mp member
  exact sound.inside n live x inside

private theorem Sound.transport (sound : Sound s) {s' : ObStore}
    (root : s'.rootObject = s.rootObject)
    (root_live : ∀ r, s.rootObject = some r → Live s' r) (pool : s'.dirPool = s.dirPool)
    (same : ∀ p, Live s' p → storage s' p = none ∨ (Live s p ∧ storage s' p = storage s p))
    (holds : ∀ p, Live s p → ∀ dir, storage s p = some dir → Holds s'.dirs dir (children s p))
    (inside : ∀ p, Live s' p → ∀ x ∈ children s p, storage s' p ≠ none → Live s' x) : Sound s' := by
  have lists : ∀ p, Live s' p → ∀ dir, storage s' p = some dir →
      Live s p ∧ storage s p = some dir ∧ children s' p = children s p := by
    intro p live dir h
    rcases same p live with none | ⟨live, eq⟩
    · rw [none] at h
      cases h
    · rw [eq] at h
      exact ⟨live, h, children_of_holds (eq.trans h) (holds p live dir h)⟩
  have listed : ∀ p, Live s' p → ∀ x ∈ children s' p, ∃ dir, storage s' p = some dir := by
    intro p live x member
    cases h : storage s' p with
    | none =>
      rw [children_of_none h] at member
      cases member
    | some dir => exact ⟨dir, rfl⟩
  refine ⟨?_, ?_, ?_, ?_, ?_, ?_⟩
  · obtain ⟨r, here, _⟩ := sound.root
    exact ⟨r, root.trans here, root_live r here⟩
  · intro p live dir h
    obtain ⟨live, h, eq⟩ := lists p live dir h
    exact eq ▸ holds p live dir h
  · intro p live dir h
    obtain ⟨live, h, _⟩ := lists p live dir h
    exact pool ▸ sound.stored p live dir h
  · intro p p' live live' dir h h'
    obtain ⟨live, h, _⟩ := lists p live dir h
    obtain ⟨live', h', _⟩ := lists p' live' dir h'
    exact sound.own p p' live live' dir h h'
  · intro p live x member
    obtain ⟨dir, h⟩ := listed p live x member
    rw [(lists p live dir h).2.2] at member
    exact inside p live x member (by rw [h]; exact Option.some_ne_none dir)
  · intro p p' live live' x member member'
    obtain ⟨dir, h⟩ := listed p live x member
    obtain ⟨dir', h'⟩ := listed p' live' x member'
    obtain ⟨live, _, eq⟩ := lists p live dir h
    obtain ⟨live', _, eq'⟩ := lists p' live' dir' h'
    exact sound.once p p' live live' x (eq ▸ member) (eq' ▸ member')

private theorem newObject_sound (sound : Sound s) {o : ObjPtr} (fresh : s.objPool o = false)
    (type : NtObjectType) (name : CString) :
    Sound (newObject s o type name) ∧
    (∀ p, Live (newObject s o type name) p ↔ p = o ∨ Live s p) ∧
    (∀ p, Live s p → (newObject s o type name).object p = s.object p ∧
      storage (newObject s o type name) p = storage s p ∧
      children (newObject s o type name) p = children s p) ∧
    storage (newObject s o type name) o = none := by
  have apart : ∀ p, Live s p → p ≠ o := by
    rintro p live rfl
    rw [Live, fresh] at live
    cases live
  have live : ∀ p, Live (newObject s o type name) p ↔ p = o ∨ Live s p := by
    intro p
    by_cases same : p = o
    · simp [Live, newObject, same]
    · simp [Live, newObject, same, Function.update_of_ne]
  have object : ∀ p, Live s p → (newObject s o type name).object p = s.object p :=
    fun p here => Function.update_of_ne (apart p here) _ _
  have bare : storage (newObject s o type name) o = none := by
    simp [storage, newObject]
  have same : ∀ p, Live s p → storage (newObject s o type name) p = storage s p := by
    intro p here
    rw [storage, storage, object p here]
  have holds : ∀ p, Live s p → ∀ dir, storage s p = some dir →
      Holds (newObject s o type name).dirs dir (children s p) := by
    intro p here dir h
    refine (sound.linked p here dir h).store_next_other ?_ _
    exact fun member => apart o (sound.inside p here o member) rfl
  refine ⟨sound.transport rfl ?_ rfl ?_ holds ?_, live, ?_, bare⟩
  · intro r here
    obtain ⟨r', here', alive⟩ := sound.root
    obtain rfl := Option.some.inj (here'.symm.trans here)
    exact (live _).mpr (Or.inr alive)
  · intro p here
    rcases (live p).mp here with rfl | here
    · exact Or.inl bare
    · exact Or.inr ⟨here, same p here⟩
  · intro p here x member stored
    rcases (live p).mp here with rfl | here
    · exact absurd bare stored
    · exact (live x).mpr (Or.inr (sound.inside p here x member))
  · intro p here
    refine ⟨object p here, same p here, ?_⟩
    cases h : storage s p with
    | none => rw [children_of_none h, children_of_none ((same p here).trans h)]
    | some dir => exact children_of_holds ((same p here).trans h) (holds p here dir h)

@[simp] theorem setRef_storage (o p : ObjPtr) (ref : BitVec 16) :
    storage (s.setRef o ref) p = storage s p := by
  by_cases same : p = o
  · subst same
    simp [storage, ObStore.setRef]
  · simp [storage, ObStore.setRef, Function.update_of_ne same]

@[simp] theorem setRef_children (o p : ObjPtr) (ref : BitVec 16) :
    children (s.setRef o ref) p = children s p := by
  rw [children, setRef_storage, children]
  rfl

@[simp] theorem setRef_name (o p : ObjPtr) (ref : BitVec 16) :
    ((s.setRef o ref).object p).name = (s.object p).name := by
  by_cases same : p = o
  · subst same
    simp [ObStore.setRef]
  · simp [ObStore.setRef, Function.update_of_ne same]

@[simp] theorem setRef_live (o p : ObjPtr) (ref : BitVec 16) : Live (s.setRef o ref) p ↔ Live s p :=
  Iff.rfl

theorem setRef_sound (sound : Sound s) (o : ObjPtr) (ref : BitVec 16) : Sound (s.setRef o ref) := by
  refine sound.transport rfl ?_ rfl ?_ (fun p live dir h => sound.linked p live dir h) ?_
  · intro r here
    obtain ⟨r', here', alive⟩ := sound.root
    exact Option.some.inj (here'.symm.trans here) ▸ alive
  · exact fun p live => Or.inr ⟨live, setRef_storage o p ref⟩
  · exact fun p live x member _ => sound.inside p live x member

private theorem obDirectoryAdd_sound (sound : Sound s) {p c : ObjPtr} {dir : DirPtr}
    (live : Live s p)
    (live_c : Live s c) (h : storage s p = some dir) (new : ∀ p', Live s p' → c ∉ children s p') :
    Sound (obDirectoryAdd s (some p) (some c)).2 ∧
    (obDirectoryAdd s (some p) (some c)).2.object = s.object ∧
    (obDirectoryAdd s (some p) (some c)).2.objPool = s.objPool ∧
    children (obDirectoryAdd s (some p) (some c)).2 p = children s p ++ [c] ∧
    ∀ p', Live s p' → p' ≠ p →
      children (obDirectoryAdd s (some p) (some c)).2 p' = children s p' := by
  have type : (s.object p).type = .directory := by
    by_contra other
    rw [storage, if_neg other] at h
    cases h
  have data : (s.object p).data = some dir := by
    rwa [storage, if_pos type] at h
  obtain ⟨dirs, object, pool, dirPool, root⟩ : (obDirectoryAdd s (some p) (some c)).2.dirs =
        tailqInsertTail s.dirs dir c ∧ (obDirectoryAdd s (some p) (some c)).2.object = s.object ∧
      (obDirectoryAdd s (some p) (some c)).2.objPool = s.objPool ∧
      (obDirectoryAdd s (some p) (some c)).2.dirPool = s.dirPool ∧
      (obDirectoryAdd s (some p) (some c)).2.rootObject = s.rootObject := by
    simp [obDirectoryAdd, type, data]
  generalize (obDirectoryAdd s (some p) (some c)).2 = s' at dirs object pool dirPool root ⊢
  have alive : ∀ x, Live s' x ↔ Live s x := fun x => by rw [Live, pool, Live]
  have stored : ∀ x, storage s' x = storage s x := fun x => by rw [storage, object, storage]
  have here := sound.linked p live dir h
  have appended : Holds s'.dirs dir (children s p ++ [c]) := dirs ▸ here.insertTail (new p live)
  have others : ∀ p', Live s p' → p' ≠ p → ∀ dir', storage s p' = some dir' →
      Holds s'.dirs dir' (children s p') := by
    intro p' live' apart dir' h'
    rw [dirs]
    refine (sound.linked p' live' dir' h').insertTail_other here ?_ (new p' live')
    rintro rfl
    exact apart (sound.own p' p live' live _ h' h)
  have list : children s' p = children s p ++ [c] :=
    children_of_holds ((stored p).trans h) appended
  have lists : ∀ p', Live s p' → p' ≠ p → children s' p' = children s p' := by
    intro p' live' apart
    cases h' : storage s p' with
    | none => rw [children_of_none h', children_of_none ((stored p').trans h')]
    | some dir' =>
      exact children_of_holds ((stored p').trans h') (others p' live' apart dir' h')
  have member_cases : ∀ p', Live s p' → ∀ x, x ∈ children s' p' →
      x ∈ children s p' ∨ (p' = p ∧ x = c) := by
    intro p' live' x member
    by_cases same : p' = p
    · subst same
      rw [list, List.mem_append, List.mem_singleton] at member
      rcases member with member | rfl
      · exact Or.inl member
      · exact Or.inr ⟨rfl, rfl⟩
    · rw [lists p' live' same] at member
      exact Or.inl member
  refine ⟨⟨?_, ?_, ?_, ?_, ?_, ?_⟩, object, pool, list, lists⟩
  · obtain ⟨r, here, live_r⟩ := sound.root
    exact ⟨r, root.trans here, (alive r).mpr live_r⟩
  · intro p' live' dir' h'
    rw [alive] at live'
    rw [stored] at h'
    by_cases same : p' = p
    · subst same
      obtain rfl := Option.some.inj (h.symm.trans h')
      exact list ▸ appended
    · exact (lists p' live' same) ▸ others p' live' same dir' h'
  · intro p' live' dir' h'
    rw [dirPool]
    exact sound.stored p' ((alive p').mp live') dir' ((stored p').symm.trans h')
  · intro p₁ p₂ live₁ live₂ dir' h₁ h₂
    rw [stored] at h₁ h₂
    exact sound.own p₁ p₂ ((alive p₁).mp live₁) ((alive p₂).mp live₂) dir' h₁ h₂
  · intro p' live' x member
    rw [alive] at live' ⊢
    rcases member_cases p' live' x member with member | ⟨_, rfl⟩
    · exact sound.inside p' live' x member
    · exact live_c
  · intro p₁ p₂ live₁ live₂ x member₁ member₂
    rw [alive] at live₁ live₂
    rcases member_cases p₁ live₁ x member₁ with old₁ | ⟨new₁, eq₁⟩
    · rcases member_cases p₂ live₂ x member₂ with old₂ | ⟨_, eq₂⟩
      · exact sound.once p₁ p₂ live₁ live₂ x old₁ old₂
      · exact absurd (eq₂ ▸ old₁) (new p₁ live₁)
    · rcases member_cases p₂ live₂ x member₂ with old₂ | ⟨new₂, _⟩
      · exact absurd (eq₁ ▸ old₂) (new p₂ live₂)
      · exact new₁.trans new₂.symm

private theorem newDir_sound (sound : Sound s) {o : ObjPtr} {dir : DirPtr}
    (fresh : s.dirPool dir = false)
    (type : (s.object o).type = .directory) : Sound (newDir s o dir) ∧
    (newDir s o dir).objPool = s.objPool ∧
    (∀ p, ((newDir s o dir).object p).name = (s.object p).name ∧
      ((newDir s o dir).object p).ref = (s.object p).ref) ∧
    (∀ p, p ≠ o → storage (newDir s o dir) p = storage s p) ∧
    (∀ p, Live s p → p ≠ o → children (newDir s o dir) p = children s p) ∧
    children (newDir s o dir) o = [] := by
  have here : storage (newDir s o dir) o = some dir := by
    simp [storage, newDir, type]
  have other : ∀ p, p ≠ o → storage (newDir s o dir) p = storage s p := by
    intro p apart
    simp [storage, newDir, Function.update_of_ne apart]
  have unused : ∀ p, Live s p → storage s p ≠ some dir := by
    intro p live h
    have stored := sound.stored p live dir h
    rw [fresh] at stored
    cases stored
  have empty : Holds (newDir s o dir).dirs dir [] := holds_init _ _
  have holds : ∀ p, Live s p → p ≠ o → ∀ d, storage s p = some d →
      Holds (newDir s o dir).dirs d (children s p) := by
    intro p live apart d h
    refine (sound.linked p live d h).init_other ?_
    rintro rfl
    exact unused p live h
  have bare : children (newDir s o dir) o = [] := children_of_holds here empty
  have lists : ∀ p, Live s p → p ≠ o → children (newDir s o dir) p = children s p := by
    intro p live apart
    cases h : storage s p with
    | some d => exact children_of_holds ((other p apart).trans h) (holds p live apart d h)
    | none => rw [children_of_none h, children_of_none ((other p apart).trans h)]
  have data : ∀ p, ((newDir s o dir).object p).name = (s.object p).name ∧
      ((newDir s o dir).object p).ref = (s.object p).ref := by
    intro p
    by_cases same : p = o
    · simp [newDir, same]
    · simp [newDir, Function.update_of_ne same]
  have old : ∀ p, Live s p → ∀ x, x ∈ children (newDir s o dir) p → x ∈ children s p := by
    intro p live x member
    by_cases same : p = o
    · rw [same, bare] at member
      cases member
    · rwa [lists p live same] at member
  refine ⟨⟨sound.root, ?_, ?_, ?_, ?_, ?_⟩, rfl, data, other, lists, bare⟩
  · intro p live d h
    by_cases same : p = o
    · subst same
      obtain rfl := Option.some.inj (here.symm.trans h)
      exact bare.symm ▸ empty
    · exact (lists p live same).symm ▸ holds p live same d ((other p same).symm.trans h)
  · intro p live d h
    by_cases same : d = dir
    · simp [newDir, same]
    · have apart : p ≠ o := by
        rintro rfl
        exact same (Option.some.inj (h.symm.trans here))
      rw [other p apart] at h
      simpa [newDir, Function.update_of_ne same] using sound.stored p live d h
  · intro p p' live live' d h h'
    by_cases same : p = o
    · by_cases same' : p' = o
      · exact same.trans same'.symm
      · rw [same, here] at h
        rw [other p' same'] at h'
        exact absurd (h'.trans h.symm) (unused p' live')
    · by_cases same' : p' = o
      · rw [same', here] at h'
        rw [other p same] at h
        exact absurd (h.trans h'.symm) (unused p live)
      · rw [other p same] at h
        rw [other p' same'] at h'
        exact sound.own p p' live live' d h h'
  · exact fun p live x member => sound.inside p live x (old p live x member)
  · intro p p' live live' x member member'
    exact sound.once p p' live live' x (old p live x member) (old p' live' x member')

private theorem release_sound (sound : Sound s) {o : ObjPtr}
    (unlisted : ∀ p, Live s p → o ∉ children s p) (not_root : s.rootObject ≠ some o) :
    Sound { s with objPool := Function.update s.objPool o false } := by
  have live : ∀ p, Live { s with objPool := Function.update s.objPool o false } p ↔
      p ≠ o ∧ Live s p := by
    intro p
    by_cases same : p = o
    · simp [Live, same]
    · simp [Live, same, Function.update_of_ne]
  refine sound.transport rfl ?_ rfl ?_ (fun p live dir h => sound.linked p live dir h) ?_
  · intro r here
    obtain ⟨r', here', alive⟩ := sound.root
    obtain rfl := Option.some.inj (here'.symm.trans here)
    exact (live _).mpr ⟨fun same => not_root (same ▸ here), alive⟩
  · exact fun p here => Or.inr ⟨((live p).mp here).2, rfl⟩
  · intro p here x member _
    have alive := ((live p).mp here).2
    refine (live x).mpr ⟨?_, sound.inside p alive x member⟩
    rintro rfl
    exact unlisted p alive member

/-! The operations. -/

/-- The call gets as far as linking the new object `o` to `parent`. -/
structure Links (s : ObStore) (block : Option ObjPtr) (params : NtObjectCreate) (name : CString)
    (o parent : ObjPtr) : Prop where
  type : params.type ≠ .max
  named : params.name = some name
  nonempty : name.length ≠ 0
  short : name.length < NT_OBNAME_LEN - 1
  block : block = some o
  parent : createParent s params.parent = some (.success, some parent)

/-- `s'` has the new object `o` and otherwise the objects of `s`. -/
structure Created (s s' : ObStore) (o : ObjPtr) (type : NtObjectType) (name : CString)
    (ref : BitVec 16) : Prop where
  sound : Sound s'
  live : ∀ p, Live s' p ↔ p = o ∨ Live s p
  object : ∀ p, Live s p → s'.object p = s.object p
  new : s'.object o = ⟨type, name, ref, none⟩
  root : s'.rootObject = s.rootObject

theorem Created.childless {s' : ObStore} {o : ObjPtr} {type : NtObjectType} {name : CString}
    {ref : BitVec 16} (created : Created s s' o type name ref) : children s' o = [] := by
  refine children_of_none ?_
  simp [storage, created.new]

theorem Created.entries {s' : ObStore} {o : ObjPtr} {type : NtObjectType} {name : CString}
    {ref : BitVec 16} (created : Created s s' o type name ref) (sound : Sound s) {p : ObjPtr}
    (live : Live s p) {more : List ObjPtr} (list : children s' p = children s p ++ more) :
    entries s' p = entries s p ++ more.map fun x => ((s'.object x).name, x) := by
  rw [Store.entries, Store.entries, list, List.map_append]
  congr 1
  refine List.map_congr_left fun x member => ?_
  rw [created.object x (sound.inside p live x member)]

theorem createParent_missing {path : CString} {status : NtStatus} {result : Option ObjPtr}
    (run : obLookupObject s (some path) true = some (status, result)) (failed : status ≠ .success) :
    createParent s (some path) = some (.badObjName, none) := by
  rw [createParent]
  cases status with
  | success => exact absurd rfl failed
  | _ => simp only [run]

theorem createParent_there {path : CString} {x : ObjPtr}
    (run : obLookupObject s (some path) true = some (.success, some x)) :
    createParent s (some path) =
      if (s.object x).type ≠ .directory then some (.notDirectory, none) else some
        (.success, some x) := by
  rw [createParent]
  simp only [run]

private theorem createParent_lookup {path : CString} {parent : Option ObjPtr}
    (found : createParent s (some path) = some (.success, parent)) :
    ∃ x, parent = some x ∧ obLookupObject s (some path) true = some (.success, some x) ∧
      (s.object x).type = .directory := by
  cases run : obLookupObject s (some path) true with
  | none =>
    rw [createParent] at found
    simp only [run] at found
    cases found
  | some res =>
    obtain ⟨status, result⟩ := res
    by_cases success : status = .success
    · subst success
      cases result with
      | none =>
        rw [createParent] at found
        simp only [run] at found
        cases found
      | some x =>
        rw [createParent_there run] at found
        by_cases directory : (s.object x).type = .directory
        · rw [if_neg (not_not.mpr directory)] at found
          cases found
          exact ⟨x, rfl, rfl, directory⟩
        · rw [if_pos directory] at found
          cases found
    · rw [createParent_missing run success] at found
      cases found

theorem createParent_spec (sound : Sound s) {path : CString} {parent : ObjPtr}
    (found : createParent s (some path) = some (.success, some parent)) :
    Live s parent ∧ (s.object parent).type = .directory ∧ Fits (components slash path) ∧
      ∃ r, s.rootObject = some r ∧ resolve (entries s) r (components slash path) = some parent := by
  obtain ⟨r, root, live⟩ := sound.root
  obtain ⟨status, result, run, _, iff⟩ :=
    obLookupObject_spec sound.isLinked sound.inherit root live path
  obtain ⟨x, same, lookup, directory⟩ := createParent_lookup found
  cases same
  rw [run] at lookup
  cases lookup
  obtain ⟨fits, resolved⟩ := (iff parent).mp ⟨rfl, rfl⟩
  exact ⟨resolve_invariant sound.inherit live resolved, directory, fits, r, root, resolved⟩

theorem createParent_none {parent : Option ObjPtr} {path : Option CString}
    (found : createParent s path = some (.success, parent)) : parent = none ↔ path = none := by
  cases path with
  | none =>
    obtain ⟨_, rfl⟩ := Prod.mk.inj (Option.some.inj found)
    exact iff_of_true rfl rfl
  | some path =>
    obtain ⟨x, rfl, _⟩ := createParent_lookup found
    exact iff_of_false (Option.some_ne_none _) (Option.some_ne_none _)

private theorem obCreateObject_cases {block : Option ObjPtr} {params : Option NtObjectCreate}
    {status : NtStatus} {result : Option ObjPtr} {s' : ObStore}
    (done : obCreateObject block s params = some (status, result, s')) :
    (status ≠ .success ∧ result = none ∧ s' = s) ∨
    ∃ p name o parent, params = some p ∧ p.type ≠ .max ∧ p.name = some name ∧ name.length ≠ 0 ∧
      name.length < NT_OBNAME_LEN - 1 ∧ block = some o ∧
      createParent s p.parent = some (.success, parent) ∧ status = .success ∧ result = some o ∧
      s' = match parent with
        | none => newObject s o p.type name
        | some parent =>
          (obDirectoryAdd ((newObject s o p.type name).setRef o 2) (some parent) (some o)).2 := by
  cases params with
  | none =>
    cases done
    exact Or.inl ⟨(fun same => by cases same), rfl, rfl⟩
  | some p =>
    simp only [obCreateObject] at done
    split at done
    · cases done
      exact Or.inl ⟨(fun same => by cases same), rfl, rfl⟩
    · rename_i type
      split at done
      · cases done
        exact Or.inl ⟨(fun same => by cases same), rfl, rfl⟩
      · rename_i name here
        split at done
        · rename_i parent found
          split at done
          · cases done
            exact Or.inl ⟨(fun same => by cases same), rfl, rfl⟩
          · rename_i length
            obtain ⟨nonempty, short⟩ := not_or.mp length
            split at done
            · cases done
              exact Or.inl ⟨(fun same => by cases same), rfl, rfl⟩
            · rename_i o
              refine Or.inr ⟨p, name, o, parent, rfl, type, here, nonempty, not_le.mp short, rfl,
                found, ?_⟩
              cases parent with
              | none =>
                cases done
                exact ⟨rfl, rfl, rfl⟩
              | some parent =>
                cases done
                refine ⟨rfl, rfl, ?_⟩
                have one : ((newObject s o p.type name).object o).ref + 1 = 2 := by
                  simp [newObject]
                rw [one]
        · rename_i status' _ failed found
          cases done
          exact Or.inl ⟨failed, rfl, rfl⟩
        · cases done

theorem obCreateObject_effect (sound : Sound s) {block : Option ObjPtr}
    (fresh : ∀ o, block = some o → s.objPool o = false) {params : Option NtObjectCreate}
    {status : NtStatus} {result : Option ObjPtr} {s' : ObStore}
    (done : obCreateObject block s params = some (status, result, s')) :
    (status ≠ .success ∧ result = none ∧ s' = s) ∨
    (∃ p name o, params = some p ∧ p.parent = none ∧ status = .success ∧ result = some o ∧
      block = some o ∧ Created s s' o p.type name 1 ∧ ∀ x, Live s x →
        children s' x = children s x) ∨
    ∃ p path name o parent, params = some p ∧ p.parent = some path ∧ status = .success ∧
      result = some o ∧ Links s block p name o parent ∧ Created s s' o p.type name 2 ∧
      (∀ x, Live s x → x ≠ parent → children s' x = children s x) ∧
      children s' parent = children s
        parent ++ (if (storage s parent).isSome then [o] else []) := by
  rcases obCreateObject_cases done with failed |
    ⟨p, name, o, parent, rfl, type, named, nonempty, short, rfl, found, rfl, rfl, rfl⟩
  · exact Or.inl failed
  right
  have free := fresh o rfl
  obtain ⟨sound', live, old, bare⟩ := newObject_sound sound free p.type name
  have apart : ∀ x, Live s x → x ≠ o := by
    rintro x here rfl
    rw [Live, free] at here
    cases here
  cases parent with
  | none =>
    have path := (createParent_none found).mp rfl
    refine Or.inl
      ⟨p, name, o, rfl, path, rfl, rfl, rfl, ⟨sound', live, fun x h => (old x h).1, ?_, rfl⟩,
      fun x h => (old x h).2.2⟩
    simp [newObject]
  | some parent =>
    have path : p.parent ≠ none := fun none => by
      cases (createParent_none found).mpr none
    obtain ⟨path, path_eq⟩ := Option.ne_none_iff_exists'.mp path
    obtain ⟨live_parent, directory, _⟩ := createParent_spec sound (path_eq ▸ found)
    have stored : storage ((newObject s o p.type name).setRef o 2) parent = storage s parent := by
      rw [setRef_storage, (old parent live_parent).2.1]
    have object :
        ∀ x, Live s x → ((newObject s o p.type name).setRef o 2).object x = s.object x := by
      intro x h
      rw [ObStore.setRef]
      exact (Function.update_of_ne (apart x h) _ _).trans (old x h).1
    have new : ((newObject s o p.type name).setRef o 2).object o = ⟨p.type, name, 2, none⟩ := by
      simp [ObStore.setRef, newObject]
    refine Or.inr ⟨p, path, name, o, parent, rfl, path_eq, rfl, rfl,
      ⟨type, named, nonempty, short, rfl, found⟩, ?_⟩
    cases h : storage s parent with
    | none =>
      have data : (((newObject s o p.type name).setRef o 2).object parent).data = none := by
        rw [object parent live_parent]
        rwa [storage, if_pos directory] at h
      have unlinked :
        (obDirectoryAdd ((newObject s o p.type name).setRef o 2) (some parent) (some o)).2 =
          (newObject s o p.type name).setRef o 2 := by
        simp only [obDirectoryAdd, data]
        split <;> rfl
      simp only [unlinked]
      refine ⟨⟨setRef_sound sound' _ _, live, object, new, rfl⟩, ?_, ?_⟩
      · exact fun x here _ => (setRef_children ..).trans (old x here).2.2
      · rw [setRef_children, (old parent live_parent).2.2, Option.isSome_none]
        simp
    | some dir =>
      have unlisted : ∀ x, Live ((newObject s o p.type name).setRef o 2) x →
          o ∉ children ((newObject s o p.type name).setRef o 2) x := by
        intro x here member
        rw [setRef_children] at member
        rcases (live x).mp here with rfl | here
        · rw [children_of_none bare] at member
          cases member
        · rw [(old x here).2.2] at member
          exact apart o (sound.inside x here o member) rfl
      obtain ⟨linked, object', pool, list, lists⟩ :=
        obDirectoryAdd_sound (setRef_sound sound' o 2) ((live parent).mpr (Or.inr live_parent))
          ((live o).mpr (Or.inl rfl)) (stored.trans h) unlisted
      refine ⟨⟨linked, ?_, ?_, ?_, ?_⟩, ?_, ?_⟩
      · intro x
        rw [Live, pool]
        exact live x
      · exact fun x here => (congrFun object' x).trans (object x here)
      · exact (congrFun object' o).trans new
      · have data : (((newObject s o p.type name).setRef o 2).object parent).data = some dir := by
          rw [object parent live_parent]
          rwa [storage, if_pos directory] at h
        have type' :
            (((newObject s o p.type name).setRef o 2).object parent).type = .directory := by
          rw [object parent live_parent, directory]
        simp only [obDirectoryAdd, type', data, ne_eq, not_true, if_false]
        rfl
      · intro x here other
        rw [lists x ((live x).mpr (Or.inr here)) other, setRef_children, (old x here).2.2]
      · rw [list, setRef_children, (old parent live_parent).2.2, Option.isSome_some, if_pos rfl]

theorem obFreeObject_effect (sound : Sound s) {o : ObjPtr} (not_root : s.rootObject ≠ some o)
    (safe : (s.object o).ref = 1 → ∀ p, Live s p → o ∉ children s p) :
    Sound (obFreeObject s (some o)).2 ∧
    (∀ x, children (obFreeObject s (some o)).2 x = children s x) ∧
    (∀ x, ((obFreeObject s (some o)).2.object x).name = (s.object x).name) ∧
    (∀ x, x ≠ o → ((obFreeObject s (some o)).2.object x).ref = (s.object x).ref) ∧
    ((obFreeObject s (some o)).2.object o).ref = (s.object o).ref - 1 ∧
    (obFreeObject s (some o)).2.rootObject = s.rootObject ∧
    ∀ x, Live (obFreeObject s (some o)).2 x ↔ Live s x ∧ (x = o → (s.object o).ref ≠ 1) := by
  have set : ((s.setRef o ((s.object o).ref - 1)).object o).ref = (s.object o).ref - 1 := by
    simp [ObStore.setRef]
  have others : ∀ x, x ≠ o →
      ((s.setRef o ((s.object o).ref - 1)).object x).ref = (s.object x).ref := by
    intro x other
    simp [ObStore.setRef, Function.update_of_ne other]
  have zero : (s.object o).ref - 1 = 0 ↔ (s.object o).ref = 1 := by
    generalize (s.object o).ref = ref
    bv_omega
  by_cases last : (s.object o).ref = 1
  · have result : (obFreeObject s (some o)).2 = { s.setRef o ((s.object o).ref - 1) with
        objPool := Function.update (s.setRef o ((s.object o).ref - 1)).objPool o false } := by
      simp only [obFreeObject]
      rw [if_pos (set.trans (zero.mpr last))]
    rw [result]
    have alone : ∀ p, Live (s.setRef o ((s.object o).ref - 1)) p →
        o ∉ children (s.setRef o ((s.object o).ref - 1)) p := by
      intro p live
      rw [setRef_children]
      exact safe last p live
    refine ⟨release_sound (setRef_sound sound o _) alone not_root, fun x => ?_, fun x => ?_,
      others, set, rfl, fun x => ?_⟩
    · exact setRef_children o x _
    · exact setRef_name o x _
    · by_cases same : x = o
      · simp [Live, same, last]
      · simp [Live, same, Function.update_of_ne, ObStore.setRef]
  · have result : (obFreeObject s (some o)).2 = s.setRef o ((s.object o).ref - 1) := by
      simp only [obFreeObject]
      rw [if_neg (fun eq => last (zero.mp (set.symm.trans eq)))]
    rw [result]
    refine ⟨setRef_sound sound o _, fun x => setRef_children o x _, fun x => setRef_name o x _,
      others, set, rfl, fun x => ?_⟩
    rw [setRef_live]
    exact ⟨fun live => ⟨live, fun _ => last⟩, And.left⟩

theorem obAllocateDir_lists (sound : Sound s) {block : Option DirPtr}
    (fresh : ∀ dir, block = some dir → s.dirPool dir = false) (dirObj : Option ObjPtr) :
    Sound (obAllocateDir block s dirObj).2 ∧
    (∀ x, Live s x → children (obAllocateDir block s dirObj).2 x = children s x ∨
      (dirObj = some x ∧ block.isSome ∧ children (obAllocateDir block s dirObj).2 x = [])) ∧
    (∀ x, ((obAllocateDir block s dirObj).2.object x).name = (s.object x).name ∧
      ((obAllocateDir block s dirObj).2.object x).ref = (s.object x).ref) ∧
    (obAllocateDir block s dirObj).2.rootObject = s.rootObject ∧
    (obAllocateDir block s dirObj).2.objPool = s.objPool := by
  cases dirObj with
  | none => exact ⟨sound, fun _ _ => Or.inl rfl, fun _ => ⟨rfl, rfl⟩, rfl, rfl⟩
  | some o =>
    by_cases type : (s.object o).type = .directory
    · cases block with
      | none =>
        have same : (obAllocateDir none s (some o)).2 = s := by
          simp [obAllocateDir, type]
        rw [same]
        exact ⟨sound, fun _ _ => Or.inl rfl, fun _ => ⟨rfl, rfl⟩, rfl, rfl⟩
      | some dir =>
        have result : (obAllocateDir (some dir) s (some o)).2 = newDir s o dir := by
          simp [obAllocateDir, type]
        rw [result]
        obtain ⟨sound', pool, data, _, lists, bare⟩ := newDir_sound sound (fresh dir rfl) type
        refine ⟨sound', fun x live => ?_, data, rfl, pool⟩
        by_cases same : x = o
        · exact Or.inr ⟨congrArg some same.symm, rfl, same ▸ bare⟩
        · exact Or.inl (lists x live same)
    · have same : (obAllocateDir block s (some o)).2 = s := by
        simp [obAllocateDir, type]
      rw [same]
      exact ⟨sound, fun _ _ => Or.inl rfl, fun _ => ⟨rfl, rfl⟩, rfl, rfl⟩

theorem obAllocateDir_effect (sound : Sound s) {block : Option DirPtr}
    (fresh : ∀ dir, block = some dir → s.dirPool dir = false) {dirObj : Option ObjPtr}
    (safe : ∀ o, dirObj = some o → block.isSome → children s o = []) :
    Sound (obAllocateDir block s dirObj).2 ∧
    (∀ x, Live s x → children (obAllocateDir block s dirObj).2 x = children s x) ∧
    (∀ x, ((obAllocateDir block s dirObj).2.object x).name = (s.object x).name ∧
      ((obAllocateDir block s dirObj).2.object x).ref = (s.object x).ref) ∧
    (obAllocateDir block s dirObj).2.rootObject = s.rootObject ∧
    (obAllocateDir block s dirObj).2.objPool = s.objPool := by
  obtain ⟨sound', lists, rest⟩ := obAllocateDir_lists sound fresh dirObj
  refine ⟨sound', fun x live => ?_, rest⟩
  rcases lists x live with same | ⟨asked, got, bare⟩
  · exact same
  · rw [bare, safe x asked got]

end Steps

theorem kiObjStoreInit_effect {block : Option ObjPtr} {dirBlock : Option DirPtr} {s₀ s : ObStore}
    (objects : ∀ o, s₀.objPool o = false) (done : kiObjStoreInit block dirBlock s₀ = some s) :
    Sound s ∧ ∃ r, s.rootObject = some r ∧ (∀ x, Live s x ↔ x = r) ∧ children s r = [] ∧
      (s.object r).ref = 1 ∧ (storage s r).isSome := by
  cases block with
  | none => cases done
  | some r =>
    cases dirBlock with
    | none => cases done
    | some dir =>
      have made :
          s = newDir { newObject s₀ r .directory [slash] with rootObject := some r } r dir := by
        simpa [kiObjStoreInit, obCreateObject, createParent, NT_OBNAME_LEN] using done.symm
      have live : ∀ x, Live s x ↔ x = r := by
        intro x
        by_cases same : x = r
        · simp [made, Live, newDir, newObject, same]
        · simp [made, Live, newDir, newObject, same, Function.update_of_ne, objects x]
      have stored : storage s r = some dir := by
        simp [made, storage, newDir, newObject]
      have holds : Holds s.dirs dir [] := made ▸ holds_init _ _
      have empty : children s r = [] := children_of_holds stored holds
      refine ⟨⟨⟨r, by rw [made]; rfl, (live r).mpr rfl⟩, ?_, ?_, ?_, ?_, ?_⟩, r, ?_, live,
        empty, ?_, ?_⟩
      · intro p here d h
        rw [live] at here
        subst here
        obtain rfl := Option.some.inj (stored.symm.trans h)
        rw [empty]
        exact holds
      · intro p here d h
        rw [live] at here
        subst here
        obtain rfl := Option.some.inj (stored.symm.trans h)
        simp [made, newDir]
      · intro p p' here here' _ _ _
        exact ((live p).mp here).trans ((live p').mp here').symm
      · intro p here x member
        rw [live] at here
        rw [here, empty] at member
        cases member
      · intro p p' here here' _ _ _
        exact ((live p).mp here).trans ((live p').mp here').symm
      · rw [made]
        rfl
      · simp [made, newDir, newObject]
      · rw [stored, Option.isSome_some]

end Algae.Ob.Directories
