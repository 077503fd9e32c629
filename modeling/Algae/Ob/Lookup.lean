/- The lookup of a path with its buffer for one component, and what creations do to the
   lookups of all paths. -/

import Algae.Ob.Names

set_option autoImplicit false
set_option relaxedAutoImplicit false

namespace Algae.Ob.Lookup

open Algae.Lib.Namespace Algae.Lib.ByteMemory Algae.Rtl.Queue Algae.Rtl.String Algae.Sdk.Defs
open Algae.Ob.Store Algae.Ob.Table Algae.Ob.Directories Algae.Ob.Names

def setChar (component : List Byte) (i : Nat) (c : Byte) : Option (List Byte) :=
  if i < component.length then some (component.set i c) else none

/-- The string at the start of the buffer, which has to end there. -/
def bufferString (component : List Byte) : Option CString :=
  if (0 : Byte) ∈ component then some (cString component) else none

/-- The inner loop, up to a separator or the end of the path. The inner `none` is the
return for a component that is too long. -/
def copyComponent (component : List Byte) (i : Nat) :
    CString → Option (Option (List Byte × Nat × CString))
  | [] => some (some (component, i, []))
  | c :: tail =>
    if c = slash then some (some (component, i, c :: tail))
    else
      match setChar component i c.val with
      | none => none
      | some component =>
        if i + 1 ≥ NT_OBNAME_LEN - 1 then some none else copyComponent component (i + 1) tail

/-- The outer loop, which reads at least a character in each turn. -/
def componentLoop (s : ObStore) : Nat → List Byte → Nat → CString → Option ObjPtr →
    Option (NtStatus × Option ObjPtr)
  | _, _, _, [], curObject => some (.success, curObject)
  | 0, _, _, _ :: _, _ => none
  | fuel + 1, component, i, c :: tail, curObject =>
    match copyComponent component i (c :: tail) with
    | none => none
    | some none => some (.badObjName, none)
    | some (some (component, i, tail)) =>
      match (setChar component i 0).bind bufferString with
      | none => none
      | some name =>
        match obDirectoryLookup s curObject (some name) true with
        | some (.success, next) =>
          componentLoop s fuel (List.replicate NT_OBNAME_LEN 0) 0 (tail.dropWhile (· = slash)) next
        | some (status, _) => some (status, none)
        | none => none

/-- `component` is what the stack holds where the buffer is. `none` is an index outside
the buffer, a name without its NUL or a loop that never ends. -/
def obLookupObject (component : List Byte) (s : ObStore) (path : Option CString) (result : Bool) :
    Option (NtStatus × Option ObjPtr) :=
  match path, result with
  | some path, true =>
    let tail := path.dropWhile (· = slash)
    if tail = [] then some (.success, s.rootObject)
    else componentLoop s tail.length component 0 tail s.rootObject
  | _, _ => some (.invalidHandle, none)

section Buffer

variable {component : List Byte}

private theorem setChar_inside {i : Nat} (inside : i < component.length) (c : Byte) :
    setChar component i c = some (component.set i c) := if_pos inside

private theorem bufferString_ended {name : CString} (inside : name.length < component.length)
    (filled : component.take name.length = CString.bytes name) :
    (setChar component name.length 0).bind bufferString = some name := by
  have split : component.set name.length 0 =
      CString.bytes name ++ 0 :: component.drop (name.length + 1) := by
    rw [List.set_eq_take_append_cons_drop, if_pos inside, filled]
  rw [setChar_inside inside, Option.bind_some, split, bufferString, if_pos (by simp),
    cString_bytes_nul]

private theorem copyComponent_run (i : Nat) (room : i < NT_OBNAME_LEN - 1)
    (size : component.length = NT_OBNAME_LEN) (tail : CString) :
    match pathComponent i tail with
    | none => copyComponent component i tail = some none
    | some (name, rest) => ∃ component', component'.length = NT_OBNAME_LEN ∧
        i + name.length < NT_OBNAME_LEN - 1 ∧
        component'.take (i + name.length) = component.take i ++ CString.bytes name ∧
        copyComponent component i tail = some (some (component', i + name.length, rest)) := by
  induction tail generalizing i component with
  | nil => exact ⟨component, size, room, by simp [CString.bytes], rfl⟩
  | cons c tail ih =>
    by_cases sep : c = slash
    · rw [Store.pathComponent, if_pos sep]
      refine ⟨component, size, room, by simp [CString.bytes], ?_⟩
      rw [copyComponent, if_pos sep, List.length_nil, Nat.add_zero]
    · have inside : i < component.length := by
        rw [size]
        omega
      rw [Store.pathComponent, if_neg sep, copyComponent, if_neg sep]
      simp only [setChar_inside inside]
      by_cases full : i + 1 ≥ NT_OBNAME_LEN - 1
      · rw [if_pos full, if_pos full]
      · rw [if_neg full, if_neg full]
        have size' : (component.set i c.val).length = NT_OBNAME_LEN :=
          (List.length_set ..).trans size
        have here : (component.set i c.val).take (i + 1) = component.take i ++ [c.val] := by
          rw [List.take_add_one, List.take_set_of_le (Nat.le_refl i), List.getElem?_set_self inside]
          rfl
        have later := ih (i + 1) (by omega) size'
        cases cut : pathComponent (i + 1) tail with
        | none =>
          rw [cut] at later
          exact later
        | some found =>
          obtain ⟨name, rest⟩ := found
          rw [cut] at later
          obtain ⟨component', size', short, filled, run⟩ := later
          have length : i + (c :: name).length = i + 1 + name.length := by
            rw [List.length_cons]
            omega
          rw [Option.map_some]
          refine ⟨component', size', ?_, ?_, ?_⟩
          · rw [length]
            exact short
          · rw [length, filled, here, List.append_assoc]
            rfl
          · rw [length]
            exact run

private theorem componentLoop_run {s : ObStore} {fuel : Nat}
    (size : component.length = NT_OBNAME_LEN)
    {tail : CString} (enough : tail.length ≤ fuel) (start : tail.head? ≠ some slash)
    (curObject : Option ObjPtr) :
    componentLoop s fuel component 0 tail curObject = lookupComponents s fuel tail curObject := by
  induction fuel generalizing component tail curObject with
  | zero =>
    obtain rfl : tail = [] := List.eq_nil_of_length_eq_zero (by omega)
    rfl
  | succ fuel ih =>
    cases tail with
    | nil => rfl
    | cons c tail =>
      have first : c ≠ slash := fun same => start (congrArg some same)
      obtain ⟨name, rest, cut, _, shorter⟩ := @pathComponent_first c tail first
      have copied := copyComponent_run 0 (by decide) size (c :: tail)
      rw [List.length_cons] at enough
      rw [componentLoop, lookupComponents]
      by_cases fits : name.length < NT_OBNAME_LEN - 1
      · rw [if_pos fits] at cut
        rw [cut] at copied
        obtain ⟨component', size', short, filled, run⟩ := copied
        rw [Nat.zero_add] at filled run
        have read := bufferString_ended (show name.length < component'.length by omega) filled
        simp only [cut, run, read]
        cases found : obDirectoryLookup s curObject (some name) true with
        | none => rfl
        | some answer =>
          obtain ⟨status, next⟩ := answer
          cases status with
          | success => exact ih List.length_replicate (by omega) (head_dropWhile_slash rest) next
          | _ => rfl
      · rw [if_neg fits] at cut
        rw [cut] at copied
        simp only [cut, copied]

private theorem obLookupObject_run (size : component.length = NT_OBNAME_LEN) (s : ObStore)
    (path : Option CString) (result : Bool) :
    obLookupObject component s path result = Store.obLookupObject s path result := by
  cases path with
  | none => rfl
  | some path =>
    cases result with
    | false => rfl
    | true =>
      by_cases empty : path.dropWhile (· = slash) = []
      · simp only [obLookupObject, Store.obLookupObject, empty, if_true]
      · simp only [obLookupObject, Store.obLookupObject, empty, if_false]
        exact componentLoop_run size (Nat.le_refl _) (head_dropWhile_slash path) s.rootObject

end Buffer

section Runs

variable {τ : Type} [DecidableEq τ] {s : ObState τ} {handles : List ObjPtr} {made : List Made}
  {component component' : List Byte}

private theorem obLookupObject_sound {s : ObStore} (sound : Sound s)
    (size : component.length = NT_OBNAME_LEN)
    {root : ObjPtr} (here : s.rootObject = some root) (path : CString) :
    obLookupObject component s (some path) true =
      some (outcome ((components slash path).foldlM (lookupStep s) root)) := by
  obtain ⟨r, here', live⟩ := sound.root
  obtain rfl := Option.some.inj (here'.symm.trans here)
  rw [obLookupObject_run size]
  exact obLookupObject_fold sound.isLinked sound.inherit here live path

/-- In every tree a lookup resolves the components of the path from the root, each in
the object before it, up to the first that fails. -/
theorem lookup_is_resolution (run : ObRun KeepsTree s handles made)
    (size : component.length = NT_OBNAME_LEN) (path : CString) :
    ∃ root, s.store.rootObject = some root ∧
      obLookupObject component s.store (some path) true =
        some (match (components slash path).foldlM (lookupStep s.store) root with
          | .ok x => (.success, some x)
          | .error status => (status, none)) := by
  have sound := (run_kept run).sound
  obtain ⟨root, here, _⟩ := sound.root
  refine ⟨root, here, (obLookupObject_sound sound size here path).trans ?_⟩
  unfold outcome
  rfl

private theorem lookupStep_grown {s s' : ObStore} {p o : ObjPtr}
    (type : (s'.object p).type = (s.object p).type)
    {more : List (CString × ObjPtr)} (grown : entries s' p = entries s p ++ more)
    (new : ∀ e ∈ more, e.2 = o) (name : CString) : lookupStep s' p name = lookupStep s p name ∨
      ((∃ status, lookupStep s p name = .error status) ∧ lookupStep s' p name = .ok o) := by
  simp only [lookupStep, type, grown]
  by_cases long : name.length > NT_OBNAME_LEN - 2
  · rw [if_pos long, if_pos long]
    exact Or.inl rfl
  · rw [if_neg long, if_neg long]
    by_cases other : (s.object p).type ≠ .directory
    · rw [if_pos other, if_pos other]
      exact Or.inl rfl
    · rw [if_neg other, if_neg other]
      cases old : child (entries s p) name with
      | some x =>
        rw [child_append_left old]
        exact Or.inl rfl
      | none =>
        rw [child_append_right old]
        cases added : child more name with
        | none => exact Or.inl rfl
        | some x =>
          obtain rfl : x = o := new _ (mem_of_child added)
          exact Or.inr ⟨⟨_, rfl⟩, rfl⟩

private theorem lookupStep_inherit {s : ObStore} (sound : Sound s) (p : ObjPtr) (live : Live s p)
    (name : CString) (x : ObjPtr) (found : lookupStep s p name = .ok x) : Live s x :=
  sound.inherit p live _ (mem_of_child (lookupStep_ok.mp found).2)

private theorem obCreateObject_extends {s s' : ObStore} (sound : Sound s) {block : Option ObjPtr}
    (fresh : ∀ o, block = some o → s.objPool o = false) {params : Option NtObjectCreate}
    {status : NtStatus} {result : Option ObjPtr}
    (done : obCreateObject block s params = some (status, result, s')) :
    (status ≠ .success ∧ s' = s) ∨ ∃ o, status = .success ∧ result = some o ∧ ¬Live s o ∧ Sound s' ∧
      s'.rootObject = s.rootObject ∧ Extends (Live s) o (lookupStep s) (lookupStep s') := by
  have unlive : ∀ o, block = some o → ¬Live s o := by
    intro o here
    rw [Live, fresh o here]
    exact Bool.false_ne_true
  rcases obCreateObject_effect sound fresh done with ⟨failed, _, rfl⟩ |
    ⟨p, name, o, rfl, _, rfl, rfl, rfl, created, lists⟩ |
    ⟨p, path, name, o, parent, rfl, _, rfl, rfl, links, created, others, list⟩
  · exact Or.inl ⟨failed, rfl⟩
  · refine Or.inr ⟨o, rfl, rfl, unlive o rfl, created.sound, created.root, fun x live name => ?_⟩
    have same := created.entries sound live ((lists x live).trans (List.append_nil _).symm)
    exact lookupStep_grown (by rw [created.object x live]) same
      (fun e member => by cases member) name
  · refine Or.inr ⟨o, rfl, rfl, unlive o links.block, created.sound, created.root,
      fun x live name => ?_⟩
    have grown : ∃ more, children s' x = children s x ++ more ∧ ∀ y ∈ more, y = o := by
      by_cases same : x = parent
      · subst same
        refine ⟨_, list, fun y member => ?_⟩
        split at member
        · exact List.mem_singleton.mp member
        · cases member
      · exact ⟨[], (others x live same).trans (List.append_nil _).symm,
          fun y member => by cases member⟩
    obtain ⟨more, list, only⟩ := grown
    refine lookupStep_grown (by rw [created.object x live])
      (created.entries sound live list) ?_ name
    intro e member
    obtain ⟨y, inside, rfl⟩ := List.mem_map.mp member
    exact only y inside

private theorem obCreateObject_returns {s : ObStore} (sound : Sound s) (block : Option ObjPtr)
    (params : Option NtObjectCreate) : ∃ status result s',
      obCreateObject block s params = some (status, result, s') := by
  have parent : ∀ path, ∃ status result, createParent s path = some (status, result) := by
    intro path
    cases path with
    | none => exact ⟨_, _, rfl⟩
    | some path =>
      obtain ⟨root, here, live⟩ := sound.root
      have run := obLookupObject_fold sound.isLinked sound.inherit here live path
      cases ends : (components slash path).foldlM (lookupStep s) root with
      | error status =>
        rw [ends] at run
        have failed : status ≠ .success := by
          rintro rfl
          obtain ⟨_, _, reached⟩ := outcome_success.mp (congrArg outcome ends)
          rw [ends] at reached
          cases reached
        exact ⟨_, _, createParent_missing run failed⟩
      | ok x =>
        rw [ends] at run
        rw [createParent_there run]
        split
        · exact ⟨_, _, rfl⟩
        · exact ⟨_, _, rfl⟩
  cases params with
  | none => exact ⟨_, _, _, rfl⟩
  | some p =>
    obtain ⟨status, parent, found⟩ := parent p.parent
    simp only [obCreateObject, found]
    split
    · exact ⟨_, _, _, rfl⟩
    · split
      · exact ⟨_, _, _, rfl⟩
      · cases status with
        | success =>
          simp only
          split
          · exact ⟨_, _, _, rfl⟩
          · cases block with
            | none => exact ⟨_, _, _, rfl⟩
            | some o => cases parent <;> exact ⟨_, _, _, rfl⟩
        | _ => exact ⟨_, _, _, rfl⟩

/-- A creation keeps every path that resolved; if it fails it changes no lookup, and if
it succeeds only lookups of paths that pass through the new object. -/
theorem creation_keeps_lookups (run : ObRun KeepsTree s handles made) {block : Option ObjPtr}
    (fresh : ∀ o, block = some o → s.store.objPool o = false) (params : Option NtObjectCreate)
    (size : component.length = NT_OBNAME_LEN) (size' : component'.length = NT_OBNAME_LEN) :
    ∃ status result store, obCreateObject block s.store params = some (status, result, store) ∧
      (∀ path x, obLookupObject component s.store (some path) true = some (.success, some x) →
        obLookupObject component' store (some path) true = some (.success, some x)) ∧
      (status ≠ .success → ∀ path, obLookupObject component' store (some path) true =
        obLookupObject component s.store (some path) true) ∧
      (status = .success → ∃ o root, result = some o ∧ ¬Live s.store o ∧
        store.rootObject = some root ∧ ∀ path, obLookupObject component' store (some path) true ≠
          obLookupObject component s.store (some path) true →
            ∃ front more, components slash path = front ++ more ∧
              front.foldlM (lookupStep store) root = .ok o) := by
  have sound := (run_kept run).sound
  obtain ⟨status, result, store, done⟩ := obCreateObject_returns sound block params
  obtain ⟨root, here, live⟩ := sound.root
  have before := obLookupObject_sound sound size here
  refine ⟨status, result, store, done, ?_⟩
  rcases obCreateObject_extends sound fresh done with ⟨failed, rfl⟩ |
    ⟨o, rfl, rfl, new, sound', same, extends_⟩
  · have after := obLookupObject_sound sound size' here
    refine ⟨fun path x found => ?_, fun _ path => ?_, fun success => absurd success failed⟩
    · rw [after, ← before, found]
    · rw [after, before]
  · have here' := same.trans here
    have after := obLookupObject_sound sound' size' here'
    have inherit := lookupStep_inherit sound
    refine ⟨fun path x found => ?_, fun failed => absurd rfl failed,
      fun _ => ⟨o, root, rfl, new, here', ?_⟩⟩
    · rw [before] at found
      obtain ⟨y, eq, reached⟩ := outcome_success.mp (Option.some.inj found)
      cases eq
      rw [after, extends_.reached inherit live reached]
      rfl
    · intro path changed
      rw [before, after] at changed
      rcases extends_.walk inherit live (components slash path) with same | ⟨_, through⟩
      · exact absurd (congrArg (fun r => some (outcome r)) same) changed
      · exact through

end Runs

private theorem tree_of_one : ∃ (s : ObState Unit) (handles : List ObjPtr) (made : List Made),
    ObRun KeepsTree s handles made ∧ s.store.rootObject = some rootBlock ∧
    s.store.objPool leafBlock = false ∧ (components slash (slash :: dirName)).foldlM
      (lookupStep s.store) rootBlock = .ok dirBlock := by
  have done : kiObjStoreInit (some rootBlock) (some rootBlock) bootStore = some _ := rfl
  have run := @ObRun.init Unit _ KeepsTree _ _ _ _ (fun _ => rfl) done
  have run := @ObRun.create Unit _ _ _ _ _ run (some dirBlock)
    (some ⟨some [slash], some dirName, .directory⟩) True.intro (fun o h => by cases h; rfl)
    .success (some dirBlock) _ rfl
  exact ⟨_, _, _, run, rfl, rfl, rfl⟩

def staleBuffer : List Byte := List.replicate NT_OBNAME_LEN 0xAA

theorem lookup_is_resolution_first :
    ∃ (s : ObState Unit) (handles : List ObjPtr) (made : List Made),
    ObRun KeepsTree s handles made ∧ staleBuffer.length = NT_OBNAME_LEN ∧
    obLookupObject staleBuffer s.store (some (slash :: dirName)) true =
      some (.success, some dirBlock) := by
  obtain ⟨s, handles, made, run, here, _, walk⟩ := tree_of_one
  obtain ⟨root, here', found⟩ :=
    lookup_is_resolution run (List.length_replicate (a := (0xAA : Byte)))
    (slash :: dirName)
  obtain rfl := Option.some.inj (here.symm.trans here')
  rw [walk] at found
  exact ⟨s, handles, made, run, List.length_replicate, found⟩

theorem creation_keeps_lookups_first :
    ∃ (s : ObState Unit) (handles : List ObjPtr) (made : List Made)
    (status : NtStatus) (result : Option ObjPtr) (store : ObStore), ObRun KeepsTree s handles made ∧
    s.store.objPool leafBlock = false ∧ staleBuffer.length = NT_OBNAME_LEN ∧
    obCreateObject (some leafBlock) s.store (some ⟨some [slash], some dirName, .timer⟩) =
      some (status, result, store) ∧
    obLookupObject staleBuffer store (some (slash :: dirName)) true =
      some (.success, some dirBlock) := by
  obtain ⟨s, handles, made, run, here, free, walk⟩ := tree_of_one
  have size : staleBuffer.length = NT_OBNAME_LEN := List.length_replicate
  have fresh : ∀ o, some leafBlock = some o → s.store.objPool o = false := by
    intro o same
    exact Option.some.inj same ▸ free
  obtain ⟨status, result, store, done, keeps, _⟩ := creation_keeps_lookups run fresh
    (some ⟨some [slash], some dirName, .timer⟩) size size
  have found := obLookupObject_sound (run_kept run).sound size here (slash :: dirName)
  rw [walk] at found
  exact ⟨s, handles, made, status, result, store, run, free, size, done, keeps _ _ found⟩

section Wraps

abbrev ManyTables := Fin 2048

/-- The slots of a table after `k` references to `o` went to the tables one after the other. -/
private def filled (o : ObjPtr) (k : Nat) (t : ManyTables) : List (Option ObjPtr) :=
  List.replicate (min NT_OBTAB_ENTRIES (k - NT_OBTAB_ENTRIES * t.val)) (some o) ++
    List.replicate (NT_OBTAB_ENTRIES - (k - NT_OBTAB_ENTRIES * t.val)) none

private theorem filled_firstFree (o : ObjPtr) {k : Nat} {t : ManyTables}
    (low : NT_OBTAB_ENTRIES * t.val ≤ k) (high : k < NT_OBTAB_ENTRIES * t.val + NT_OBTAB_ENTRIES) :
    (filled o k t).findIdx? (· = none) = some (k - NT_OBTAB_ENTRIES * t.val) := by
  obtain ⟨j, rfl⟩ := Nat.exists_eq_add_of_le low
  rw [Nat.add_sub_cancel_left, filled, Nat.add_sub_cancel_left, Nat.min_eq_right (by omega),
    List.findIdx?_append, List.findIdx?_replicate, List.findIdx?_replicate]
  simp
  omega

private theorem filled_set (o : ObjPtr) {k : Nat} {t : ManyTables}
    (low : NT_OBTAB_ENTRIES * t.val ≤ k) (high : k < NT_OBTAB_ENTRIES * t.val + NT_OBTAB_ENTRIES) :
    (filled o k t).set (k - NT_OBTAB_ENTRIES * t.val) (some o) = filled o (k + 1) t := by
  obtain ⟨j, rfl⟩ := Nat.exists_eq_add_of_le low
  have short : j < NT_OBTAB_ENTRIES := by omega
  obtain ⟨m, hm⟩ : ∃ m, NT_OBTAB_ENTRIES - j = m + 1 := ⟨NT_OBTAB_ENTRIES - j - 1, by omega⟩
  rw [Nat.add_sub_cancel_left, filled, filled, Nat.add_assoc, Nat.add_sub_cancel_left,
    Nat.add_sub_cancel_left,
    Nat.min_eq_right (by omega), Nat.min_eq_right (by omega), hm, List.replicate_succ,
    show NT_OBTAB_ENTRIES - (j + 1) = m by omega, List.replicate_succ', List.append_assoc]
  rw [List.set_append_right _ _ (by simp)]
  simp

private theorem filled_other (o : ObjPtr) {k : Nat} {t : ManyTables}
    (other : k < NT_OBTAB_ENTRIES * t.val ∨ NT_OBTAB_ENTRIES * t.val + NT_OBTAB_ENTRIES ≤ k) :
    filled o (k + 1) t = filled o k t := by
  unfold filled
  congr 2 <;> omega

private theorem many_adds {s : ObState ManyTables} {handles : List ObjPtr} {made : List Made}
    (run : ObRun (fun _ _ => True) s handles made) {o : ObjPtr} (live : Live s.store o)
    (empty : s.tables = fun _ => emptyTable) {k : Nat} (room : k ≤ 65536) :
    ∃ s', ObRun (fun _ _ => True) s' handles made ∧
      s'.store = s.store.setRef o ((s.store.object o).ref + BitVec.ofNat 16 k) ∧
      ∀ t, (s'.tables t).ob = filled o k t := by
  induction k with
  | zero =>
    refine ⟨s, run, ?_, fun t => ?_⟩
    · simp [ObStore.setRef]
    · rw [empty, filled, Nat.zero_sub, Nat.sub_zero, Nat.min_zero]
      rfl
  | succ k ih =>
    obtain ⟨s', run', store, tables⟩ := ih (by omega)
    have live' : Live s'.store o := by
      rw [store]
      exact live
    let t : ManyTables := ⟨k / NT_OBTAB_ENTRIES, by rw [NT_OBTAB_ENTRIES]; omega⟩
    have low : NT_OBTAB_ENTRIES * t.val ≤ k := Nat.mul_div_le k _
    have high : k < NT_OBTAB_ENTRIES * t.val + NT_OBTAB_ENTRIES := Nat.lt_mul_div_succ k (by decide)
    have free : firstFree (s'.tables t) = some (k - NT_OBTAB_ENTRIES * t.val) := by
      rw [firstFree, tables]
      exact filled_firstFree o low high
    have next := @ObRun.tableAdd ManyTables _ _ _ _ _ run' t (some o) trivial
      fun _ same => Option.some.inj same ▸ live'
    refine ⟨_, next, ?_, fun t' => ?_⟩
    · simp only [tableAdd, obTableAdd, free, store]
      simp [ObStore.setRef, BitVec.add_assoc, BitVec.ofNat_add]
    · simp only [tableAdd, obTableAdd, free]
      by_cases same : t' = t
      · subst same
        rw [Function.update_self, ← filled_set o low high, ← tables]
        rfl
      · rw [Function.update_of_ne same, tables, filled_other]
        have apart : t'.val ≠ k / NT_OBTAB_ENTRIES := fun eq => same (Fin.ext eq)
        rw [NT_OBTAB_ENTRIES] at apart ⊢
        omega

private theorem findName_loop {s : ObStore} {name : CString} {o : ObjPtr}
    (other : (s.object o).name ≠ name)
    (itself : s.dirs.tqe_next o = some o) (fuel : Nat) : findName s name fuel (some o) = none := by
  have differ : rtlStrcmp (s.object o).name name ≠ 0 :=
    fun zero => other ((rtlStrcmp_eq_zero _ _).mp zero)
  induction fuel with
  | zero => rfl
  | succ fuel ih => rw [findName, if_neg differ, itself, ih]

private theorem wrapped_free {s : ObState ManyTables} {handles : List ObjPtr} {made : List Made}
    (run : ObRun (fun _ _ => True) s handles made) {o : ObjPtr} (held : o ∈ handles)
    (live : Live s.store o)
    (two : (s.store.object o).ref = 2) (empty : s.tables = fun _ => emptyTable) :
    ∃ tables : ManyTables → NtObTab, ObRun (fun _ _ => True)
      ⟨{ s.store.setRef o 0 with objPool := Function.update s.store.objPool o false }, tables⟩
      (handles.erase o) made := by
  obtain ⟨s', run', store, _⟩ := many_adds run live empty (show 65535 ≤ 65536 by decide)
  have next := @ObRun.free ManyTables _ _ _ _ _ run' o trivial held
  refine ⟨s'.tables, ?_⟩
  have wrapped :
      s.store.setRef o ((s.store.object o).ref + BitVec.ofNat 16 65535) = s.store.setRef o 1 := by
    rw [two]
    rfl
  have freed : (obFreeObject (s.store.setRef o 1) (some o)).2 =
      { s.store.setRef o 0 with objPool := Function.update s.store.objPool o false } := by
    have last : ((s.store.setRef o 1).object o).ref - 1 = 0 := by
      simp [ObStore.setRef]
    have zero : ((s.store.setRef o 1).setRef o 0) = s.store.setRef o 0 := by
      simp [ObStore.setRef]
    rw [obFreeObject, last, zero]
    simp [ObStore.setRef]
  rw [store, wrapped, freed] at next
  exact next

private theorem looped_list : ∃ (s : ObState ManyTables) (handles : List ObjPtr) (made : List Made),
    ObRun (fun _ _ => True) s handles made ∧ s.store.rootObject = some rootBlock ∧
    (s.store.object rootBlock).type = .directory ∧
    (s.store.object rootBlock).data = some rootBlock ∧
    s.store.dirs.tqh_first rootBlock = some dirBlock ∧
      s.store.dirs.tqe_next dirBlock = some dirBlock ∧
    (s.store.object dirBlock).name = dirName := by
  have done : kiObjStoreInit (some rootBlock) (some rootBlock) bootStore = some _ := rfl
  have run := @ObRun.init ManyTables _ (fun _ _ => True) _ _ _ _ (fun _ => rfl) done
  have run := @ObRun.create ManyTables _ _ _ _ _ run (some dirBlock)
    (some ⟨some [slash], some dirName, .timer⟩) trivial (fun o h => by cases h; rfl)
    .success (some dirBlock) _ rfl
  obtain ⟨tables, run⟩ := wrapped_free run List.mem_cons_self rfl rfl rfl
  have run := @ObRun.create ManyTables _ _ _ _ _ run (some dirBlock)
    (some ⟨some [slash], some dirName, .timer⟩) trivial (fun o h => by cases h; rfl)
    .success (some dirBlock) _ rfl
  exact ⟨_, _, _, run, rfl, rfl, rfl, rfl, rfl, rfl⟩

/-- The count of `d` wraps around, its block is given back while the root lists it, and the object
that gets the block next is put behind itself: the lookup of any other name never ends. -/
theorem freed_child_never_found :
    ∃ (s : ObState ManyTables) (handles : List ObjPtr) (made : List Made),
    ObRun (fun _ _ => True) s handles made ∧ staleBuffer.length = NT_OBNAME_LEN ∧
    ∀ root, s.store.rootObject = some root →
      obLookupObject staleBuffer s.store (some (slash :: leafName)) true ≠
        some (match (components slash (slash :: leafName)).foldlM (lookupStep s.store) root with
          | .ok x => (.success, some x)
          | .error status => (status, none)) := by
  obtain ⟨s, handles, made, run, root, type, data, first, next, name⟩ := looped_list
  have size : staleBuffer.length = NT_OBNAME_LEN := List.length_replicate
  refine ⟨s, handles, made, run, size, fun _ _ => ?_⟩
  have other : (s.store.object dirBlock).name ≠ leafName := by
    rw [name]
    decide
  have loop : obDirectoryLookup s.store (some rootBlock) (some leafName) true = none := by
    simp only [obDirectoryLookup, type, data, first, findName_loop other next, ne_eq,
      not_true, if_false]
  have component : pathComponent 0 leafName = some (leafName, []) := by decide
  have lookup : Store.obLookupObject s.store (some (slash :: leafName)) true = none := by
    change lookupComponents s.store 1 leafName s.store.rootObject = none
    rw [root, leafName, lookupComponents, ← leafName, component]
    simp only [loop]
  rw [obLookupObject_run size, lookup]
  exact (Option.some_ne_none _).symm

/-- The count of `d` wraps around and its block, freed while the root lists it, is given to another
object: the list ends there, and `x` behind it is not found any more. -/
theorem reused_block_hides_sibling :
    ∃ (s : ObState ManyTables) (handles : List ObjPtr) (made : List Made)
    (store : ObStore), ObRun (fun _ _ => True) s handles made ∧ s.store.objPool dirBlock = false ∧
    obCreateObject (some dirBlock) s.store (some ⟨none, some dirName, .timer⟩) =
      some (.success, some dirBlock, store) ∧
    obLookupObject staleBuffer s.store (some (slash :: leafName)) true = some
      (.success, some leafBlock) ∧
    obLookupObject staleBuffer store (some (slash :: leafName)) true = some
      (.objectNotFound, none) := by
  have done : kiObjStoreInit (some rootBlock) (some rootBlock) bootStore = some _ := rfl
  have run := @ObRun.init ManyTables _ (fun _ _ => True) _ _ _ _ (fun _ => rfl) done
  have run := @ObRun.create ManyTables _ _ _ _ _ run (some dirBlock)
    (some ⟨some [slash], some dirName, .timer⟩) trivial (fun o h => by cases h; rfl)
    .success (some dirBlock) _ rfl
  have run := @ObRun.create ManyTables _ _ _ _ _ run (some leafBlock)
    (some ⟨some [slash], some leafName, .timer⟩) trivial (fun o h => by cases h; rfl)
    .success (some leafBlock) _ rfl
  obtain ⟨tables, run⟩ := wrapped_free (o := dirBlock) run (by decide) rfl rfl rfl
  exact ⟨_, _, _, _, run, rfl, rfl, rfl, rfl⟩

end Wraps

end Algae.Ob.Lookup
