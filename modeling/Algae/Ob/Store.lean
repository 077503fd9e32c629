/- The object store: objects by name in directories of directories. -/

import Algae.Lib.Namespace
import Algae.Rtl.Queue
import Algae.Rtl.String
import Algae.Sdk.Defs

set_option autoImplicit false
set_option relaxedAutoImplicit false

namespace Algae.Ob.Store

open Algae.Lib.Namespace Algae.Rtl.Queue Algae.Rtl.String Algae.Sdk.Defs

def NT_OBNAME_LEN : Nat := 32

inductive NtObjectType
  | directory | timer | mapper | max
  deriving DecidableEq, Repr

abbrev ObjPtr := Pointer

abbrev DirPtr := Pointer

/-- An object without its link. The buffer of the name is zeroed before a shorter name
is copied into it. -/
structure NtObject where
  type : NtObjectType
  name : CString
  ref : BitVec 16
  data : Option DirPtr

structure NtObjectCreate where
  parent : Option CString
  name : Option CString
  type : NtObjectType

/-- All objects and object directories, the links between them, and which blocks of the
pool hold one. -/
structure ObStore where
  rootObject : Option ObjPtr
  object : ObjPtr → NtObject
  dirs : Tailqs DirPtr ObjPtr
  numEnt : DirPtr → BitVec 64
  objPool : ObjPtr → Bool
  dirPool : DirPtr → Bool

def obDirectoryAdd (s : ObStore) (parent child : Option ObjPtr) : NtStatus × ObStore :=
  match parent, child with
  | some parent, some child =>
    if (s.object parent).type ≠ .directory then
      (.notDirectory, s)
    else
      match (s.object parent).data with
      | none => (.objectNotFound, s)
      | some dir => (.success, { s with
          dirs := tailqInsertTail s.dirs dir child
          numEnt := Function.update s.numEnt dir (s.numEnt dir + 1) })
  | _, _ => (.invalidHandle, s)

def visitBound : Nat := 0x10000000000000000

/-- The loop over a directory from `cur` on; `none` is a loop that never ends. -/
def findName (s : ObStore) (name : CString) :
    Nat → Option ObjPtr → Option (NtStatus × Option ObjPtr)
  | _, none => some (.objectNotFound, none)
  | 0, some _ => none
  | fuel + 1, some cur =>
    if rtlStrcmp (s.object cur).name name = 0 then some (.success, some cur)
    else findName s name fuel (s.dirs.tqe_next cur)

/-- The second result is what was stored through `result`, a flag for a pointer other
than NULL. -/
def obDirectoryLookup (s : ObStore) (parent : Option ObjPtr) (name : Option CString)
    (result : Bool) :
    Option (NtStatus × Option ObjPtr) :=
  match parent, name, result with
  | some parent, some name, true =>
    if (s.object parent).type ≠ .directory then
      some (.badObjType, none)
    else
      match (s.object parent).data with
      | none => some (.objectNotFound, none)
      | some dir => findName s name visitBound (s.dirs.tqh_first dir)
  | _, _, _ => some (.invalidHandle, none)

/-- The component at the head of the path and what follows it, `i` characters of the
buffer being used; `none` if the buffer is too small. -/
def pathComponent (i : Nat) : CString → Option (CString × CString)
  | [] => some ([], [])
  | c :: tail =>
    if c = slash then some ([], c :: tail)
    else if i + 1 ≥ NT_OBNAME_LEN - 1 then none
    else (pathComponent (i + 1) tail).map fun (component, rest) => (c :: component, rest)

/-- The components of `tail`, looked up one in the other. Each takes a character, so
the length of the path is fuel enough. -/
def lookupComponents (s : ObStore) : Nat → CString → Option ObjPtr →
    Option (NtStatus × Option ObjPtr)
  | 0, _, curObject => some (.success, curObject)
  | _ + 1, [], curObject => some (.success, curObject)
  | fuel + 1, c :: tail, curObject =>
    match pathComponent 0 (c :: tail) with
    | none => some (.badObjName, none)
    | some (component, rest) =>
      match obDirectoryLookup s curObject (some component) true with
      | some (.success, next) => lookupComponents s fuel (rest.dropWhile (· = slash)) next
      | some (status, _) => some (status, none)
      | none => none

def obLookupObject (s : ObStore) (path : Option CString) (result : Bool) :
    Option (NtStatus × Option ObjPtr) :=
  match path, result with
  | some path, true =>
    let tail := path.dropWhile (· = slash)
    if tail = [] then some (.success, s.rootObject)
    else lookupComponents s tail.length tail s.rootObject
  | _, _ => some (.invalidHandle, none)

/-- The parent a new object is to be added to; `none` is a NULL pointer read. -/
def createParent (s : ObStore) : Option CString → Option (NtStatus × Option ObjPtr)
  | none => some (.success, none)
  | some path =>
    match obLookupObject s (some path) true with
    | some (.success, some parent) =>
      if (s.object parent).type ≠ .directory then some (.notDirectory, none)
      else some (.success, some parent)
    | some (.success, none) => none
    | some (_, _) => some (.badObjName, none)
    | none => none

def newObject (s : ObStore) (object : ObjPtr) (type : NtObjectType) (name : CString) : ObStore :=
  { s with
    object := Function.update s.object object ⟨type, name, 1, none⟩
    dirs := s.dirs.store (.next object) none
    objPool := Function.update s.objPool object true }

def ObStore.setRef (s : ObStore) (object : ObjPtr) (ref : BitVec 16) : ObStore :=
  { s with object := Function.update s.object object { s.object object with ref := ref } }

/-- `block` is what exAllocatePool returns if it is called. The second result is the
object stored through `result`. -/
def obCreateObject (block : Option ObjPtr) (s : ObStore) (params : Option NtObjectCreate) :
    Option (NtStatus × Option ObjPtr × ObStore) :=
  match params with
  | none => some (.invalidHandle, none, s)
  | some params =>
    if params.type = .max then
      some (.badObjType, none, s)
    else
      match params.name with
      | none => some (.badObjName, none, s)
      | some name =>
        match createParent s params.parent with
        | some (.success, parent) =>
          if name.length = 0 ∨ name.length ≥ NT_OBNAME_LEN - 1 then
            some (.badObjName, none, s)
          else
            match block with
            | none => some (.noMemory, none, s)
            | some object =>
              let s := newObject s object params.type name
              match parent with
              | none => some (.success, some object, s)
              | some parent =>
                let s := s.setRef object ((s.object object).ref + 1)
                some (.success, some object, (obDirectoryAdd s (some parent) (some object)).2)
        | some (status, _) => some (status, none, s)
        | none => none

def obFreeObject (s : ObStore) (object : Option ObjPtr) : NtStatus × ObStore :=
  match object with
  | none => (.invalidHandle, s)
  | some object =>
    let s := s.setRef object ((s.object object).ref - 1)
    if (s.object object).ref = 0 then
      (.success, { s with objPool := Function.update s.objPool object false })
    else
      (.success, s)

/-- An empty directory at `dir`, which exAllocatePool returned. -/
def newDir (s : ObStore) (object : ObjPtr) (dir : DirPtr) : ObStore :=
  { s with
    object := Function.update s.object object { s.object object with data := some dir }
    dirs := tailqInit s.dirs dir
    numEnt := Function.update s.numEnt dir 0
    dirPool := Function.update s.dirPool dir true }

def obAllocateDir (block : Option DirPtr) (s : ObStore) (dirObj : Option ObjPtr) :
    NtStatus × ObStore :=
  match dirObj with
  | none => (.invalidHandle, s)
  | some dirObj =>
    if (s.object dirObj).type ≠ .directory then
      (.notDirectory, s)
    else
      match block with
      | none => (.noMemory, s)
      | some dir => (.success, newDir s dirObj dir)

def kiObjStoreInit (block : Option ObjPtr) (dirBlock : Option DirPtr) (s : ObStore) :
    Option ObStore :=
  match obCreateObject block s (some ⟨none, some [slash], .directory⟩) with
  | some (.success, some root, s) =>
    match dirBlock with
    | none => none
    | some dir => some (newDir { s with rootObject := some root } root dir)
  | _ => none

/-! What the store is for: a name space. -/

/-- The objects in a directory, as the loops of the store visit them. -/
def members (s : ObStore) (dir : DirPtr) : List ObjPtr :=
  (tailqVisit s.dirs visitBound (s.dirs.tqh_first dir)).getD []

def storage (s : ObStore) (object : ObjPtr) : Option DirPtr :=
  if (s.object object).type = .directory then (s.object object).data else none

def children (s : ObStore) (object : ObjPtr) : List ObjPtr :=
  match storage s object with
  | none => []
  | some dir => members s dir

def entries (s : ObStore) (object : ObjPtr) : List (CString × ObjPtr) :=
  (children s object).map fun child => ((s.object child).name, child)

def lookupStep (s : ObStore) (p : ObjPtr) (name : CString) : Except NtStatus ObjPtr :=
  if name.length > NT_OBNAME_LEN - 2 then .error .badObjName
  else if (s.object p).type ≠ .directory then .error .badObjType
  else match child (entries s p) name with
    | some x => .ok x
    | none => .error .objectNotFound

/-- The status and what is stored through `result` for the end of a resolution. -/
def outcome : Except NtStatus ObjPtr → NtStatus × Option ObjPtr
  | .ok x => (.success, some x)
  | .error status => (status, none)

theorem Holds_members {s : ObStore} {dir : DirPtr} {xs : List ObjPtr} (h : Holds s.dirs dir xs) :
    members s dir = xs := by
  have few := pointers_few h.nodup
  rw [members, h.chained.visit (by rw [visitBound]; omega), Option.getD_some]

section Lookup

variable {s : ObStore}

private theorem findName_spec (name : CString) {fuel : Nat} {cur : Option ObjPtr} {xs : List ObjPtr}
    (visit : tailqVisit s.dirs fuel cur = some xs) : findName s name fuel cur =
      match child (xs.map fun x => ((s.object x).name, x)) name with
      | some x => some (.success, some x)
      | none => some (.objectNotFound, none) := by
  induction fuel generalizing cur xs with
  | zero =>
    cases cur with
    | none =>
      cases visit
      rfl
    | some x => cases visit
  | succ fuel ih =>
    cases cur with
    | none =>
      cases visit
      rfl
    | some x =>
      obtain ⟨rest, onward, rfl⟩ := Option.map_eq_some_iff.mp visit
      rw [findName, ih onward]
      by_cases same : (s.object x).name = name
      · rw [if_pos ((rtlStrcmp_eq_zero _ _).mpr same)]
        simp [child, same]
      · rw [if_neg (fun zero => same ((rtlStrcmp_eq_zero _ _).mp zero))]
        simp [child, same]

/-- Every directory of the store that `good` objects have is well linked. -/
def Linked (s : ObStore) (good : ObjPtr → Prop) : Prop :=
  ∀ p, good p → ∀ dir, storage s p = some dir → Holds s.dirs dir (members s dir)

private theorem obDirectoryLookup_run {good : ObjPtr → Prop} (linked : Linked s good) {p : ObjPtr}
    (here : good p) (name : CString) : obDirectoryLookup s (some p) (some name) true =
      if (s.object p).type ≠ .directory then some (.badObjType, none)
      else match child (entries s p) name with
        | some x => some (.success, some x)
        | none => some (.objectNotFound, none) := by
  by_cases type : (s.object p).type = .directory
  · rw [if_neg (not_not.mpr type)]
    cases data : (s.object p).data with
    | none =>
      have bare : entries s p = [] := by
        simp [entries, children, storage, type, data]
      rw [bare]
      simp only [obDirectoryLookup, type, data, ne_eq, not_true, if_false]
      rfl
    | some dir =>
      have holds := linked p here dir (by rw [storage, if_pos type, data])
      have few := pointers_few holds.nodup
      have visit := holds.chained.visit (show _ ≤ visitBound by rw [visitBound]; omega)
      have run : obDirectoryLookup s (some p) (some name) true =
          findName s name visitBound (s.dirs.tqh_first dir) := by
        simp only [obDirectoryLookup, type, data, ne_eq, not_true, if_false]
      have names : entries s p = (members s dir).map fun x => ((s.object x).name, x) := by
        simp only [entries, children, storage, type, data, if_true]
      rw [run, findName_spec name visit, names]
  · rw [if_pos type]
    simp only [obDirectoryLookup, ne_eq, type, not_false_eq_true, if_true]

private theorem entries_of_file {p : ObjPtr} (type : (s.object p).type ≠ .directory) :
    entries s p = [] := by
  rw [entries, children, storage, if_neg type]
  rfl

private theorem pathComponent_spec (i : Nat) (room : i < NT_OBNAME_LEN - 1) (tail : CString) :
    ∃ name rest, tail = name ++ rest ∧ slash ∉ name ∧
      (rest = [] ∨ ∃ more, rest = slash :: more) ∧
      pathComponent i tail =
        if i + name.length < NT_OBNAME_LEN - 1 then some (name, rest) else none := by
  induction tail generalizing i with
  | nil => exact ⟨[], [], rfl, List.not_mem_nil, Or.inl rfl, by
      rw [pathComponent, List.length_nil, Nat.add_zero, if_pos room]⟩
  | cons c tail ih =>
    by_cases sep : c = slash
    · refine ⟨[], c :: tail, rfl, List.not_mem_nil, Or.inr ⟨tail, by rw [sep]⟩, ?_⟩
      rw [pathComponent, if_pos sep, List.length_nil, if_pos (by omega)]
    · by_cases full : i + 1 ≥ NT_OBNAME_LEN - 1
      · obtain ⟨name, rest, split, pure, ends, _⟩ := ih 0 (by decide)
        refine ⟨c :: name, rest, by rw [split]; rfl, ?_, ends, ?_⟩
        · rw [List.mem_cons, not_or]
          exact ⟨fun same => sep same.symm, pure⟩
        · rw [pathComponent, if_neg sep, if_pos full, if_neg]
          rw [List.length_cons]
          omega
      · obtain ⟨name, rest, split, pure, ends, result⟩ := ih (i + 1) (by omega)
        refine ⟨c :: name, rest, by rw [split]; rfl, ?_, ends, ?_⟩
        · rw [List.mem_cons, not_or]
          exact ⟨fun same => sep same.symm, pure⟩
        · rw [pathComponent, if_neg sep, if_neg full, result, List.length_cons]
          by_cases fits : i + 1 + name.length < NT_OBNAME_LEN - 1
          · rw [if_pos fits, if_pos (by omega)]
            rfl
          · rw [if_neg fits, if_neg (by omega)]
            rfl

theorem pathComponent_first {c : CChar} {tail : CString} (start : c ≠ slash) : ∃ name rest,
    pathComponent 0 (c :: tail) =
      (if name.length < NT_OBNAME_LEN - 1 then some (name, rest) else none) ∧
    components slash (c :: tail) = name :: components slash (rest.dropWhile (· = slash)) ∧
    (rest.dropWhile (· = slash)).length ≤ tail.length := by
  obtain ⟨name, rest, split, pure, ends, cut⟩ := pathComponent_spec 0 (by decide) (c :: tail)
  have nonempty : name ≠ [] := by
    rintro rfl
    rcases ends with rfl | ⟨more, rfl⟩
    · cases split
    · exact start (List.cons.inj split).1
  refine ⟨name, rest, ?_, ?_, ?_⟩
  · rw [cut, Nat.zero_add]
  · rw [split, components_dropWhile]
    rcases ends with rfl | ⟨more, rfl⟩
    · rw [List.append_nil, components_single pure nonempty, components_nil]
    · have skip := components_append_sep (List.not_mem_nil (a := slash)) more
      rw [List.nil_append, if_pos rfl] at skip
      rw [components_append_sep pure, if_neg nonempty, skip]
  · have lengths := congrArg List.length split
    have drop := (List.dropWhile_sublist (fun x => decide (x = slash)) (l := rest)).length_le
    have positive := List.length_pos_iff.mpr nonempty
    rw [List.length_append, List.length_cons] at lengths
    omega

theorem head_dropWhile_slash (path : CString) :
    (path.dropWhile (· = slash)).head? ≠ some slash := by
  intro same
  have off := List.head?_dropWhile_not (fun x => decide (x = slash)) path
  rw [same] at off
  simp at off

private theorem name_fits_iff {name : CString} :
    ¬name.length > NT_OBNAME_LEN - 2 ↔ name.length < NT_OBNAME_LEN - 1 := by
  rw [NT_OBNAME_LEN]
  omega

private theorem lookupComponents_fold {good : ObjPtr → Prop} (linked : Linked s good)
    (inherit : ∀ n, good n → ∀ e ∈ entries s n, good e.2) {fuel : Nat} {tail : CString}
    (enough : tail.length ≤ fuel) (start : tail.head? ≠ some slash) {p : ObjPtr} (here : good p) :
    lookupComponents s fuel tail (some p) =
      some (outcome ((components slash tail).foldlM (lookupStep s) p)) := by
  induction fuel generalizing tail p with
  | zero =>
    obtain rfl : tail = [] := List.eq_nil_of_length_eq_zero (by omega)
    rw [components_nil]
    rfl
  | succ fuel ih =>
    cases tail with
    | nil =>
      rw [components_nil]
      rfl
    | cons c tail =>
      have first : c ≠ slash := fun same => start (congrArg some same)
      obtain ⟨name, rest, cut, parts, shorter⟩ := @pathComponent_first c tail first
      rw [List.length_cons] at enough
      rw [lookupComponents, cut, parts, List.foldlM_cons, lookupStep]
      by_cases fits : name.length < NT_OBNAME_LEN - 1
      · have run := obDirectoryLookup_run linked here name
        rw [if_pos fits, if_neg (name_fits_iff.mpr fits)]
        by_cases type : (s.object p).type = .directory
        · rw [if_neg (not_not.mpr type)] at run ⊢
          cases entry : child (entries s p) name with
          | none =>
            rw [entry] at run
            simp only [run]
            rfl
          | some x =>
            rw [entry] at run
            simp only [run]
            exact ih (by omega) (head_dropWhile_slash rest) (inherit p here _ (mem_of_child entry))
        · rw [if_pos type] at run ⊢
          simp only [run]
          rfl
      · rw [if_neg fits, if_pos (not_not.mp (mt name_fits_iff.mp fits))]
        rfl

theorem obLookupObject_fold {good : ObjPtr → Prop} (linked : Linked s good)
    (inherit : ∀ n, good n → ∀ e ∈ entries s n, good e.2) {root : ObjPtr}
    (here : s.rootObject = some root) (start : good root) (path : CString) :
    obLookupObject s (some path) true =
      some (outcome ((components slash path).foldlM (lookupStep s) root)) := by
  have same : components slash (path.dropWhile (· = slash)) = components slash path :=
    components_dropWhile slash path
  rw [← same]
  by_cases empty : path.dropWhile (· = slash) = []
  · rw [empty, components_nil]
    simp only [obLookupObject, empty, if_true, here]
    rfl
  · simp only [obLookupObject, empty, if_false, here]
    exact lookupComponents_fold linked inherit (Nat.le_refl _) (head_dropWhile_slash path) start

def Fits (names : List CString) : Prop := ∀ name ∈ names, name.length < NT_OBNAME_LEN - 1

theorem lookupStep_ok {p x : ObjPtr} {name : CString} : lookupStep s p name = .ok x ↔
    name.length < NT_OBNAME_LEN - 1 ∧ child (entries s p) name = some x := by
  rw [lookupStep]
  by_cases fits : name.length < NT_OBNAME_LEN - 1
  · rw [if_neg (name_fits_iff.mpr fits)]
    by_cases type : (s.object p).type = .directory
    · rw [if_neg (not_not.mpr type)]
      cases child (entries s p) name <;> simp [fits]
    · rw [if_pos type, entries_of_file type]
      simp [child]
  · rw [if_pos (not_not.mp (mt name_fits_iff.mp fits))]
    simp [fits]

private theorem lookupStep_error {p : ObjPtr} {name : CString} {status : NtStatus}
    (failed : lookupStep s p name = .error status) : status ≠ .success := by
  rintro rfl
  rw [lookupStep] at failed
  split at failed
  · cases failed
  · split at failed
    · cases failed
    · split at failed <;> cases failed

theorem outcome_success {p : ObjPtr} {names : List CString} {found : Option ObjPtr} :
    outcome (names.foldlM (lookupStep s) p) = (.success, found) ↔
      ∃ x, found = some x ∧ names.foldlM (lookupStep s) p = .ok x := by
  induction names generalizing p with
  | nil =>
    change (NtStatus.success, some p) = (.success, found) ↔ ∃ x, found = some x ∧
      Except.ok p = .ok x
    constructor
    · intro same
      exact ⟨p, (Prod.mk.inj same).2.symm, rfl⟩
    · rintro ⟨x, rfl, same⟩
      rw [Except.ok.inj same]
  | cons name names ih =>
    rw [List.foldlM_cons]
    cases step : lookupStep s p name with
    | error status =>
      change (status, none) = (.success, found) ↔ ∃ x, found = some x ∧ Except.error status = .ok x
      constructor
      · intro same
        exact absurd (Prod.mk.inj same).1 (lookupStep_error step)
      · rintro ⟨x, _, same⟩
        cases same
    | ok y => exact ih

private theorem foldlM_lookupStep_ok {p x : ObjPtr} {names : List CString} :
    names.foldlM (lookupStep s) p = .ok x ↔ Fits names ∧ resolve (entries s) p names = some x := by
  induction names generalizing p with
  | nil =>
    simp only [List.foldlM_nil, Fits, resolve, List.not_mem_nil, false_implies,
      implies_true, true_and]
    exact ⟨fun h => congrArg some (Except.ok.inj h),
      fun h => congrArg Except.ok (Option.some.inj h)⟩
  | cons name names ih =>
    rw [List.foldlM_cons, resolve, Fits, List.forall_mem_cons]
    cases step : lookupStep s p name with
    | error status =>
      have unresolved : ¬(name.length < NT_OBNAME_LEN - 1 ∧ (child (entries s p) name).isSome) := by
        rintro ⟨short, found⟩
        obtain ⟨y, found⟩ := Option.isSome_iff_exists.mp found
        have ok := lookupStep_ok.mpr ⟨short, found⟩
        rw [step] at ok
        cases ok
      constructor
      · intro h
        cases h
      · rintro ⟨⟨short, _⟩, found⟩
        obtain ⟨y, entry, _⟩ := Option.bind_eq_some_iff.mp found
        exact absurd ⟨short, by rw [entry]; rfl⟩ unresolved
    | ok y =>
      obtain ⟨short, entry⟩ := lookupStep_ok.mp step
      rw [entry, Option.bind_some]
      exact ih.trans ⟨fun h => ⟨⟨short, h.1⟩, h.2⟩, fun h => ⟨h.1.2, h.2⟩⟩

theorem obLookupObject_spec {good : ObjPtr → Prop} (linked : Linked s good)
    (inherit : ∀ n, good n → ∀ e ∈ entries s n, good e.2) {root : ObjPtr}
    (here : s.rootObject = some root) (start : good root) (path : CString) :
    ∃ status found, obLookupObject s (some path) true = some (status, found) ∧
      (status = .success → found.isSome) ∧
      ∀ x, status = .success ∧ found = some x ↔
        Fits (components slash path) ∧
          resolve (entries s) root (components slash path) = some x := by
  have run := obLookupObject_fold linked inherit here start path
  have success := fun found => @outcome_success s root (components slash path) found
  generalize ends :
    outcome ((components slash path).foldlM (lookupStep s) root) = result at run success
  obtain ⟨status, found⟩ := result
  refine ⟨status, found, run, ?_, fun x => ?_⟩
  · rintro rfl
    obtain ⟨x, rfl, _⟩ := (success found).mp rfl
    rfl
  · rw [← foldlM_lookupStep_ok]
    constructor
    · rintro ⟨rfl, rfl⟩
      obtain ⟨y, same, reached⟩ := (success (some x)).mp rfl
      exact Option.some.inj same ▸ reached
    · intro reached
      obtain ⟨rfl, rfl⟩ := Prod.mk.inj ((success (some x)).mpr ⟨x, rfl, reached⟩)
      exact ⟨rfl, rfl⟩

end Lookup

end Algae.Ob.Store
