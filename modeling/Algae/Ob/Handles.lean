/- The handles that an object table gives out, and the count of them that it does not
   keep. -/

import Algae.Ob.Names

set_option autoImplicit false
set_option relaxedAutoImplicit false

namespace Algae.Ob.Handles

open Algae.Sdk.Defs Algae.Ob.Store Algae.Ob.Table Algae.Ob.Names

/-- A call of obTableAdd: flags for pointers to the table and to the handle that are not
NULL, and the object. -/
structure AddCall where
  table : Bool
  handRes : Bool
  ob : Option ObjPtr

def AddCall.Given (call : AddCall) : Prop :=
  call.table = true ∧ call.handRes = true ∧ call.ob.isSome = true

/-- A table and the handles returned so far, the last one first. -/
structure TableState where
  store : ObStore
  table : NtObTab
  returned : List (Nat × ObjPtr)

def addCall (st : TableState) (call : AddCall) : NtStatus × TableState :=
  match obTableAdd st.store (if call.table then some st.table else none) call.handRes call.ob with
  | (status, handle, table, store) =>
    (status, ⟨store, table.getD st.table,
      (match handle, call.ob with
        | some handle, some ob => [(handle, ob)]
        | _, _ => []) ++ st.returned⟩)

def tableRun (store : ObStore) (memory : NtObTab) (calls : List AddCall) : TableState :=
  calls.foldl (fun st call => (addCall st call).2)
    ⟨store, (obInitTable (some memory)).2.getD memory, []⟩

def occupied (table : NtObTab) : Nat := table.ob.countP fun slot => slot.isSome

/-- The handles denote their objects, and calls fail for lack of space and in no other
way that leaves a trace. -/
structure Tracked (st : TableState) : Prop where
  distinct : (st.returned.map Prod.fst).Nodup
  denotes : ∀ handle ob, (handle, ob) ∈ st.returned → st.table.ob[handle]? = some (some ob)
  full : ∀ call, AddCall.Given call →
    ((addCall st call).1 = .noSpace ↔ occupied st.table = NT_OBTAB_ENTRIES)
  failed : ∀ call, (addCall st call).1 ≠ .success → (addCall st call).2 = st

structure Consistent (st : TableState) : Prop extends Tracked st where
  counted : st.table.openCount.toNat = occupied st.table

section Runs

variable {st : TableState}

private theorem addCall_cases (st : TableState) (call : AddCall) :
    (¬call.Given ∧ addCall st call = (.invalidHandle, st)) ∨
    (call.Given ∧ firstFree st.table = none ∧ addCall st call = (.noSpace, st)) ∨
    ∃ ob i, call.Given ∧ call.ob = some ob ∧ firstFree st.table = some i ∧ addCall st call =
      (.success, ⟨st.store.setRef ob ((st.store.object ob).ref + 1), st.table.setSlot i ob,
        (i, ob) :: st.returned⟩) := by
  obtain ⟨table, handRes, ob⟩ := call
  cases table with
  | false => exact Or.inl ⟨(fun given => by cases given.1), rfl⟩
  | true =>
    cases handRes with
    | false => exact Or.inl ⟨(fun given => by cases given.2.1), rfl⟩
    | true =>
      cases ob with
      | none => exact Or.inl ⟨(fun given => by cases given.2.2), rfl⟩
      | some ob =>
        right
        cases free : firstFree st.table with
        | none =>
          refine Or.inl ⟨⟨rfl, rfl, rfl⟩, rfl, ?_⟩
          simp only [addCall, obTableAdd, free, if_true]
          rfl
        | some i =>
          refine Or.inr ⟨ob, i, ⟨rfl, rfl, rfl⟩, rfl, rfl, ?_⟩
          simp only [addCall, obTableAdd, free, if_true]
          rfl

private theorem firstFree_none :
    firstFree st.table = none ↔ occupied st.table = NT_OBTAB_ENTRIES := by
  rw [firstFree, List.findIdx?_eq_none_iff, occupied, ← st.table.entries, List.countP_eq_length]
  refine forall₂_congr fun slot _ => ?_
  cases slot <;> simp

/-- What the runs keep: the handles are those of the slots in use. -/
structure Held (st : TableState) : Prop where
  distinct : (st.returned.map Prod.fst).Nodup
  denotes : ∀ handle ob, (handle, ob) ∈ st.returned → st.table.ob[handle]? = some (some ob)
  number : occupied st.table = st.returned.length
  uncounted : st.table.openCount = 0

theorem Held.add (held : Held st) (call : AddCall) : Held (addCall st call).2 := by
  rcases addCall_cases st call with ⟨_, same⟩ | ⟨_, _, same⟩ | ⟨ob, i, _, _, free, done⟩
  · rw [same]
    exact held
  · rw [same]
    exact held
  · obtain ⟨short, empty, _⟩ := List.findIdx?_eq_some_iff_getElem.mp free
    have old : st.table.ob[i] = none := by simpa using empty
    rw [done]
    refine ⟨?_, ?_, ?_, held.uncounted⟩
    · rw [List.map_cons, List.nodup_cons]
      refine ⟨?_, held.distinct⟩
      intro member
      obtain ⟨⟨handle, ob'⟩, member, same⟩ := List.mem_map.mp member
      have taken := held.denotes handle ob' member
      change handle = i at same
      subst same
      rw [List.getElem?_eq_getElem short, old] at taken
      cases taken
    · intro handle ob' member
      rcases List.mem_cons.mp member with new | member
      · cases new
        exact List.getElem?_set_self short
      · have there := held.denotes handle ob' member
        have apart : i ≠ handle := by
          rintro rfl
          rw [List.getElem?_eq_getElem short, old] at there
          cases there
        exact (List.getElem?_set_ne apart).trans there
    · have one : occupied (st.table.setSlot i ob) = occupied st.table + 1 := by
        rw [occupied, NtObTab.setSlot, List.countP_set short, old]
        simp [occupied]
      rw [one, held.number, List.length_cons]

private theorem held_tableRun (store : ObStore) (memory : NtObTab) (calls : List AddCall) :
    Held (tableRun store memory calls) := by
  induction calls using List.reverseRecOn with
  | nil =>
    refine ⟨List.nodup_nil, (fun _ _ member => by cases member), ?_, rfl⟩
    exact List.countP_eq_zero.mpr fun slot member => by simp [List.eq_of_mem_replicate member]
  | append_singleton calls call ih =>
    rw [tableRun, List.foldl_append]
    exact ih.add call

private theorem Held.tracked (held : Held st) : Tracked st := by
  refine ⟨held.distinct, held.denotes, fun call given => ?_, fun call failed => ?_⟩
  · rw [← firstFree_none]
    rcases addCall_cases st call with ⟨not_given, _⟩ | ⟨_, full, done⟩ | ⟨ob, i, _, _, free, done⟩
    · exact absurd given not_given
    · simp [done, full]
    · simp [done, free]
  · rcases addCall_cases st call with ⟨_, done⟩ | ⟨_, _, done⟩ | ⟨ob, i, _, _, _, done⟩
    · rw [done]
    · rw [done]
    · exact absurd (by rw [done]) failed

private theorem returned_eq_nil (store : ObStore) (memory : NtObTab) (calls : List AddCall) :
    (tableRun store memory calls).returned = [] ↔ ∀ call ∈ calls, ¬call.Given := by
  induction calls using List.reverseRecOn with
  | nil => exact iff_of_true rfl fun _ member => by cases member
  | append_singleton calls last ih =>
    rw [List.forall_mem_append, List.forall_mem_singleton, ← ih, tableRun, List.foldl_append]
    change (addCall (tableRun store memory calls) last).2.returned = [] ↔ _
    rcases addCall_cases (tableRun store memory calls) last with
      ⟨not_given, done⟩ | ⟨given, full, done⟩ | ⟨ob, i, given, _, _, done⟩
    · rw [done]
      exact (and_iff_left not_given).symm
    · rw [done]
      refine iff_of_false ?_ fun both => both.2 given
      intro none
      have number := (held_tableRun store memory calls).number
      rw [firstFree_none.mp full, none] at number
      cases number
    · rw [done]
      exact iff_of_false (List.cons_ne_nil _ _) fun both => both.2 given

/-- In every run the handles are distinct and denote their objects; the table counts
its slots in use in no state after a call without NULL arguments. -/
theorem table_consistent_iff (store : ObStore) (memory : NtObTab) (calls : List AddCall) :
    Tracked (tableRun store memory calls) ∧
    ((∀ reached, reached <+: calls → Consistent (tableRun store memory reached)) ↔
      ∀ call ∈ calls, ¬call.Given) := by
  refine ⟨(held_tableRun store memory calls).tracked, ?_, ?_⟩
  · intro consistent
    have held := held_tableRun store memory calls
    have counted := (consistent calls List.prefix_rfl).counted
    rw [held.uncounted, held.number] at counted
    exact (returned_eq_nil store memory calls).mp (List.eq_nil_of_length_eq_zero counted.symm)
  · intro none reached earlier
    have held := held_tableRun store memory reached
    have empty := (returned_eq_nil store memory reached).mpr fun call member =>
      none call (earlier.subset member)
    refine ⟨held.tracked, ?_⟩
    rw [held.uncounted, held.number, empty]
    rfl

end Runs

/-- The first object added to a table is not counted. -/
theorem first_add_uncounted :
    ¬Consistent (tableRun bootStore emptyTable [⟨true, true, some leafBlock⟩]) := by
  intro consistent
  exact absurd consistent.counted (by decide)

end Algae.Ob.Handles
