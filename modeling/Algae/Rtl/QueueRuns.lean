/- Runs of tail queue operations: the queues follow plain lists, and their element
   counts are right as long as no concatenation moves an element to another head. -/

import Algae.Rtl.QueueOps
import Algae.Sdk.Defs

set_option autoImplicit false
set_option relaxedAutoImplicit false

namespace Algae.Rtl.QueueRuns

open Algae.Rtl.Queue Algae.Sdk.Defs

/-- The operations of queue.h that are given a head. -/
inductive QueueOp (η α : Type)
  | init (head : η)
  | insertHead (head : η) (elm : α)
  | insertTail (head : η) (elm : α)
  | insertAfter (head : η) (listelm elm : α)
  | remove (head : η) (elm : α)
  | replace (head : η) (elm elm2 : α)
  | concat (head1 head2 : η)

/-- All queues, with the heads that TAILQ_INIT was used on. -/
structure Heap (η α : Type) where
  queues : Tailqs η α
  heads : List η

section Steps

variable {η α : Type} [DecidableEq η] [DecidableEq α]

def QueueOp.apply : QueueOp η α → Heap η α → Heap η α
  | .init head, s => ⟨tailqInit s.queues head, head :: s.heads⟩
  | .insertHead head elm, s => { s with queues := tailqInsertHead s.queues head elm }
  | .insertTail head elm, s => { s with queues := tailqInsertTail s.queues head elm }
  | .insertAfter head listelm elm, s =>
    { s with queues := tailqInsertAfter s.queues head listelm elm }
  | .remove head elm, s => { s with queues := tailqRemove s.queues head elm }
  | .replace head elm elm2, s => { s with queues := tailqReplace s.queues head elm elm2 }
  | .concat head1 head2, s => { s with queues := tailqConcat s.queues head1 head2 }

def Within (q : Tailqs η α) (head : η) (elm : α) : Prop :=
  ∃ xs, Chained q head xs ∧ elm ∈ xs

def Free (s : Heap η α) (elm : α) : Prop :=
  ∀ head ∈ s.heads, ¬Within s.queues head elm

/-- The operation is used on initialised heads and on elements in the right list. -/
def QueueOp.Right : QueueOp η α → Heap η α → Prop
  | .init _, _ => True
  | .insertHead head elm, s => head ∈ s.heads ∧ Free s elm
  | .insertTail head elm, s => head ∈ s.heads ∧ Free s elm
  | .insertAfter head listelm elm, s => head ∈ s.heads ∧ Within s.queues head listelm ∧ Free s elm
  | .remove head elm, s => head ∈ s.heads ∧ Within s.queues head elm
  | .replace head elm elm2, s => head ∈ s.heads ∧ Within s.queues head elm ∧ Free s elm2
  | .concat head1 head2, s => head1 ∈ s.heads ∧ head2 ∈ s.heads

/-- The operation is a concatenation that moves elements to another head. -/
def QueueOp.Moves : QueueOp η α → Heap η α → Prop
  | .concat head1 head2, s => head1 ≠ head2 ∧ s.queues.tqh_first head2 ≠ none
  | _, _ => False

/-- Every step of a run has the property in the state before it. -/
def EachStep (P : QueueOp η α → Heap η α → Prop) : Heap η α → List (QueueOp η α) → Prop
  | _, [] => True
  | s, op :: ops => P op s ∧ EachStep P (op.apply s) ops

/-- Every state of a run has the property, the first and the last one too. -/
def EachState (P : Heap η α → Prop) : Heap η α → List (QueueOp η α) → Prop
  | s, [] => P s
  | s, op :: ops => P s ∧ EachState P (op.apply s) ops

/-! What the operations mean on plain lists. -/

def insertBehind (listelm elm : α) : List α → List α
  | [] => []
  | x :: xs => if x = listelm then x :: elm :: xs else x :: insertBehind listelm elm xs

def QueueOp.onLists : QueueOp η α → (η → List α) → η → List α
  | .init head, lists => Function.update lists head []
  | .insertHead head elm, lists => Function.update lists head (elm :: lists head)
  | .insertTail head elm, lists => Function.update lists head (lists head ++ [elm])
  | .insertAfter head listelm elm, lists =>
    Function.update lists head (insertBehind listelm elm (lists head))
  | .remove head elm, lists => Function.update lists head ((lists head).erase elm)
  | .replace head elm elm2, lists => Function.update lists head ((lists head).replace elm elm2)
  | .concat head1 head2, lists =>
    Function.update (Function.update lists head1 (lists head1 ++ lists head2)) head2 []

def Represents (s : Heap η α) (lists : η → List α) : Prop :=
  ∀ head ∈ s.heads, Chained s.queues head (lists head)

/-- The counters of the initialised queues are the lengths of the lists. -/
def Counted (s : Heap η α) (lists : η → List α) : Prop :=
  ∀ head ∈ s.heads, s.queues.nelem head = BitVec.ofNat 64 (lists head).length

omit [DecidableEq η] in
private theorem insertBehind_split {before after : List α} {x elm : α} (new : x ∉ before) :
    insertBehind x elm (before ++ x :: after) = before ++ x :: elm :: after := by
  induction before with
  | nil => rw [List.nil_append, insertBehind, if_pos rfl, List.nil_append]
  | cons y before ih =>
    have other : y ≠ x := Ne.symm (List.ne_of_not_mem_cons new)
    rw [List.cons_append, insertBehind, if_neg other, ih (List.not_mem_of_not_mem_cons new),
      List.cons_append]

variable {s : Heap η α} {lists : η → List α}

omit [DecidableEq η] [DecidableEq α] in
private theorem Represents.within_iff (rep : Represents s lists) {head : η}
    (known : head ∈ s.heads) (elm : α) :
    Within s.queues head elm ↔ elm ∈ lists head := by
  constructor
  · rintro ⟨xs, chained, member⟩
    rw [chained.unique (rep head known)] at member
    exact member
  · exact fun member => ⟨lists head, rep head known, member⟩

omit [DecidableEq η] [DecidableEq α] in
private theorem Represents.free_iff (rep : Represents s lists) (elm : α) :
    Free s elm ↔ ∀ head ∈ s.heads, elm ∉ lists head := by
  constructor
  · exact fun free head known member => free head known ((rep.within_iff known elm).mpr member)
  · exact fun free head known within => free head known ((rep.within_iff known elm).mp within)

omit [DecidableEq η] [DecidableEq α] in
theorem Represents.split (rep : Represents s lists) {head : η} (known : head ∈ s.heads) {elm : α}
    (within : Within s.queues head elm) : ∃ before after, lists head = before ++ elm :: after ∧
      elm ∉ before ∧ Chained s.queues head (before ++ elm :: after) := by
  have member := (rep.within_iff known elm).mp within
  obtain ⟨before, after, split⟩ := List.append_of_mem member
  have chained := rep head known
  rw [split] at chained
  refine ⟨before, after, split, ?_, chained⟩
  intro inside
  exact (List.nodup_append.mp chained.nodup).2.2 elm inside elm List.mem_cons_self rfl

omit [DecidableEq α] in
private theorem represents_update {q : Tailqs η α} {head : η} {xs : List α}
    (own : Chained q head xs)
    (others : ∀ other ∈ s.heads, other ≠ head → Chained q other (lists other)) :
    Represents ⟨q, s.heads⟩ (Function.update lists head xs) := by
  intro other known
  by_cases same : other = head
  · rw [same, Function.update_self]
    exact own
  · rw [Function.update_of_ne same]
    exact others other known same

private theorem apply_represents (rep : Represents s lists) {op : QueueOp η α}
    (right : op.Right s) :
    Represents (op.apply s) (op.onLists lists) := by
  cases op with
  | init head =>
    intro other known
    by_cases same : other = head
    · rw [same, QueueOp.onLists, Function.update_self]
      exact chained_init s.queues head
    · rw [QueueOp.onLists, Function.update_of_ne same]
      exact (rep other (List.mem_of_ne_of_mem same known)).init_other same
  | insertHead head elm =>
    obtain ⟨known, free⟩ := right
    have new := (rep.free_iff elm).mp free
    have here : Segment s.queues (.first head) [] (.first head) := rfl
    have chained : Chained s.queues head ([] ++ lists head) := rep head known
    apply represents_update
    · exact chained.insertAt here (new head known)
    · intro other known' apart
      exact (rep other known').insertAt_other chained here apart (new other known')
  | insertTail head elm =>
    obtain ⟨known, free⟩ := right
    have new := (rep.free_iff elm).mp free
    apply represents_update
    · exact (rep head known).insertTail (new head known)
    · intro other known' apart
      exact (rep other known').insertTail_other (rep head known) apart (new other known')
  | insertAfter head listelm elm =>
    obtain ⟨known, within, free⟩ := right
    have new := (rep.free_iff elm).mp free
    obtain ⟨before, after, split, once, chained⟩ := rep.split known within
    have new_here : elm ∉ before ++ listelm :: after := split ▸ new head known
    rw [List.append_cons] at new_here
    have regrouped := chained
    rw [List.append_cons] at regrouped
    apply represents_update
    · rw [split, insertBehind_split once, List.append_cons]
      exact regrouped.insertAt chained.through new_here
    · intro other known' apart
      exact (rep other known').insertAt_other regrouped chained.through apart (new other known')
  | remove head elm =>
    obtain ⟨known, within⟩ := right
    obtain ⟨before, after, split, once, chained⟩ := rep.split known within
    apply represents_update
    · rw [split, List.erase_append_right _ once, List.erase_cons_head]
      exact chained.remove
    · exact fun other known' apart => (rep other known').remove_other chained apart
  | replace head elm elm2 =>
    obtain ⟨known, within, free⟩ := right
    have new := (rep.free_iff elm2).mp free
    obtain ⟨before, after, split, once, chained⟩ := rep.split known within
    apply represents_update
    · rw [split, List.replace_append, if_neg once, List.replace_cons_self]
      exact chained.replace (split ▸ new head known)
    · intro other known' apart
      exact (rep other known').replace_other chained apart (new other known')
  | concat head1 head2 =>
    obtain ⟨known1, known2⟩ := right
    intro head known
    by_cases moved : head = head2
    · rw [moved, QueueOp.onLists, Function.update_self]
      exact (rep head2 known2).concat_moved head1
    · rw [QueueOp.onLists, Function.update_of_ne moved]
      by_cases same : head = head1
      · subst same
        rw [Function.update_self]
        exact (rep head known1).concat (rep head2 known2) moved
      · rw [Function.update_of_ne same]
        exact (rep head known).concat_other (rep head1 known1) (rep head2 known2) same moved

omit [DecidableEq α] in
private theorem counted_update (counted : Counted s lists) {q : Tailqs η α} {head : η} {xs : List α}
    (own : q.nelem head = BitVec.ofNat 64 xs.length)
    (others : ∀ other, other ≠ head → q.nelem other = s.queues.nelem other) :
    Counted ⟨q, s.heads⟩ (Function.update lists head xs) := by
  intro other known
  by_cases same : other = head
  · rw [same, Function.update_self]
    exact own
  · rw [Function.update_of_ne same]
    exact (others other same).trans (counted other known)

omit [DecidableEq α] in
private theorem counted_insert (counted : Counted s lists) {q : Tailqs η α} {head : η}
    (known : head ∈ s.heads) {xs : List α} (length : xs.length = (lists head).length + 1)
    (nelem : q.nelem = Function.update s.queues.nelem head (s.queues.nelem head + 1)) :
    Counted ⟨q, s.heads⟩ (Function.update lists head xs) := by
  apply counted_update counted
  · rw [nelem, Function.update_self, counted head known, length, BitVec.ofNat_add]
    rfl
  · intro other apart
    rw [nelem, Function.update_of_ne apart]

private theorem apply_counted (rep : Represents s lists) (counted : Counted s lists)
    {op : QueueOp η α}
    (right : op.Right s) (still : ¬op.Moves s) : Counted (op.apply s) (op.onLists lists) := by
  cases op with
  | init head =>
    obtain ⟨_, _, nelem⟩ := init_fields s.queues head
    intro other known
    by_cases same : other = head
    · rw [same, QueueOp.onLists, QueueOp.apply, nelem, Function.update_self, Function.update_self]
      rfl
    · rw [QueueOp.onLists, QueueOp.apply, nelem, Function.update_of_ne same,
        Function.update_of_ne same]
      exact counted other (List.mem_of_ne_of_mem same known)
  | insertHead head elm =>
    apply counted_insert counted right.1 List.length_cons
    exact (insertAt_fields s.queues head (.first head) elm).2.2
  | insertTail head elm =>
    apply counted_insert counted right.1 List.length_append
    exact (insertTail_fields s.queues head elm).2.2
  | insertAfter head listelm elm =>
    obtain ⟨before, after, split, once, _⟩ := rep.split right.1 right.2.1
    refine counted_insert counted right.1 ?_ (insertAt_fields s.queues head (.next listelm) elm).2.2
    rw [split, insertBehind_split once]
    simp only [List.length_append, List.length_cons, Nat.add_assoc]
  | remove head elm =>
    obtain ⟨before, after, split, once, _⟩ := rep.split right.1 right.2
    apply counted_update counted
    · have holds := (rep head right.1).holds (counted head right.1)
      rw [split] at holds ⊢
      rw [List.erase_append_right _ once, List.erase_cons_head]
      exact holds.remove.count
    · exact fun other apart => ((remove_fields s.queues head elm).1 other apart).2
  | replace head elm elm2 =>
    obtain ⟨before, after, split, once, chained⟩ := rep.split right.1 right.2.1
    have nelem := (replace_fields s.queues head elm2 chained.next_ne).2.2
    apply counted_update counted
    · rw [nelem, List.length_replace]
      exact counted head right.1
    · exact fun other _ => congrFun nelem other
  | concat head1 head2 =>
    intro head known
    cases nonempty : s.queues.tqh_first head2 with
    | none =>
      have empty : lists head2 = [] :=
        List.head?_eq_none_iff.mp ((rep head2 right.2).first_eq.symm.trans nonempty)
      have kept : (QueueOp.concat head1 head2).onLists lists = lists := by
        rw [QueueOp.onLists, empty, List.append_nil, Function.update_eq_self, ← empty,
          Function.update_eq_self]
      rw [kept, QueueOp.apply, tailqConcat, nonempty]
      exact counted head known
    | some first =>
      have same : head1 = head2 := by
        by_contra apart
        exact still ⟨apart, fun none => by cases nonempty.symm.trans none⟩
      obtain ⟨_, _, nelem⟩ := concat_fields s.queues head1 nonempty
      rw [QueueOp.onLists, QueueOp.apply, nelem]
      by_cases moved : head = head2
      · rw [moved, Function.update_self, Function.update_self]
        rfl
      · rw [Function.update_of_ne moved, Function.update_of_ne moved, same,
          Function.update_of_ne moved]
        exact counted head known

private theorem moves_cases {op : QueueOp η α} (moves : op.Moves s) :
    ∃ head1 head2, op = .concat head1 head2 ∧
    head1 ≠ head2 ∧ (op.apply s).queues.nelem head1 = s.queues.nelem head1 ∧
    s.queues.tqh_first head2 ≠ none := by
  cases op with
  | concat head1 head2 =>
    obtain ⟨apart, some_elm⟩ := moves
    obtain ⟨first, nonempty⟩ := Option.ne_none_iff_exists'.mp some_elm
    obtain ⟨_, _, nelem⟩ := concat_fields s.queues head1 nonempty
    refine ⟨head1, head2, rfl, apart, ?_, some_elm⟩
    rw [QueueOp.apply, nelem, Function.update_of_ne apart]
  | _ => exact moves.elim

def runOps : List (QueueOp η α) → Heap η α → Heap η α
  | [], s => s
  | op :: ops, s => runOps ops (op.apply s)

def runLists : List (QueueOp η α) → (η → List α) → η → List α
  | [], lists => lists
  | op :: ops, lists => runLists ops (op.onLists lists)

private theorem run_represents (ops : List (QueueOp η α)) (rep : Represents s lists)
    (right : EachStep QueueOp.Right s ops) : Represents (runOps ops s) (runLists ops lists) := by
  induction ops generalizing s lists with
  | nil => exact rep
  | cons op ops ih => exact ih (apply_represents rep right.1) right.2

theorem EachState.here {P : Heap η α → Prop} {ops : List (QueueOp η α)} (h : EachState P s ops) :
    P s := by
  cases ops with
  | nil => exact h
  | cons op ops => exact h.1

end Steps

section Counts

variable {η : Type} [DecidableEq η]

/-- The list of `head` ends in NULL, tqh_last and every tqe_prev point at the link that refers
to the next position, and nelem is the number of elements reached from tqh_first. -/
def Exact (q : Tailqs η Pointer) (head : η) : Prop :=
  ∃ xs, Chained q head xs ∧ tailqVisit q xs.length (q.tqh_first head) = some xs ∧
    (q.nelem head).toNat = xs.length

def AllExact (s : Heap η Pointer) : Prop :=
  ∀ head ∈ s.heads, Exact s.queues head

variable {s : Heap η Pointer} {lists : η → List Pointer}

omit [DecidableEq η] in
private theorem Represents.exact_iff (rep : Represents s lists) : AllExact s ↔ Counted s lists := by
  constructor
  · intro exact head known
    obtain ⟨xs, chained, _, count⟩ := exact head known
    obtain rfl := chained.unique (rep head known)
    rw [← count, BitVec.ofNat_toNat, BitVec.setWidth_eq]
  · intro counted head known
    have chained := rep head known
    refine ⟨lists head, chained, chained.visit (Nat.le_refl _), ?_⟩
    rw [counted head known, BitVec.toNat_ofNat]
    exact Nat.mod_eq_of_lt (pointers_few chained.nodup)

private theorem apply_exact_iff (rep : Represents s lists) (counted : Counted s lists)
    {op : QueueOp η Pointer}
    (right : op.Right s) : Counted (op.apply s) (op.onLists lists) ↔ ¬op.Moves s := by
  constructor
  · intro counted' moves
    obtain ⟨head1, head2, rfl, apart, nelem, some_elm⟩ := moves_cases moves
    have known1 : head1 ∈ s.heads := right.1
    have known2 : head2 ∈ s.heads := right.2
    have after := counted' head1 known1
    have chained := apply_represents rep right head1 known1
    have lists' :
        (QueueOp.concat head1 head2).onLists lists head1 = lists head1 ++ lists head2 := by
      rw [QueueOp.onLists, Function.update_of_ne apart, Function.update_self]
    rw [lists'] at after chained
    rw [nelem, counted head1 known1] at after
    have few := pointers_few (rep head1 known1).nodup
    have few' := pointers_few chained.nodup
    have same := congrArg BitVec.toNat after
    rw [BitVec.toNat_ofNat, BitVec.toNat_ofNat, Nat.mod_eq_of_lt few, Nat.mod_eq_of_lt few',
      List.length_append] at same
    have empty : lists head2 = [] := List.eq_nil_of_length_eq_zero (by omega)
    apply some_elm
    rw [(rep head2 known2).first_eq, empty, List.head?_nil]
  · exact apply_counted rep counted right

omit [DecidableEq η] in
private theorem uninitialised (q : Tailqs η Pointer) :
    Represents ⟨q, []⟩ (fun _ => []) ∧ Counted ⟨q, []⟩ (fun _ => []) := by
  constructor
  · intro head none
    cases none
  · intro head none
    cases none

private theorem run_exact_iff (ops : List (QueueOp η Pointer)) (rep : Represents s lists)
    (counted : Counted s lists) (right : EachStep QueueOp.Right s ops) :
    EachState AllExact s ops ↔ EachStep (fun op s => ¬op.Moves s) s ops := by
  induction ops generalizing s lists with
  | nil =>
    have exact := rep.exact_iff.mpr counted
    exact ⟨fun _ => trivial, fun _ => exact⟩
  | cons op ops ih =>
    obtain ⟨right_here, right⟩ := right
    have exact := rep.exact_iff.mpr counted
    have rep' := apply_represents rep right_here
    have step := apply_exact_iff rep counted right_here
    constructor
    · rintro ⟨_, rest⟩
      have counted' := rep'.exact_iff.mp rest.here
      exact ⟨step.mp counted', (ih rep' counted' right).mp rest⟩
    · rintro ⟨still, rest⟩
      exact ⟨exact, (ih rep' (step.mpr still) right).mpr rest⟩

/-- In a run from uninitialised memory the links and counts of all initialised queues are right
in every state if and only if no TAILQ_CONCAT moves elements to another head. -/
theorem counts_exact_iff (q : Tailqs η Pointer) (ops : List (QueueOp η Pointer))
    (right : EachStep QueueOp.Right ⟨q, []⟩ ops) :
    EachState AllExact ⟨q, []⟩ ops ↔ EachStep (fun op s => ¬op.Moves s) ⟨q, []⟩ ops := by
  obtain ⟨rep, counted⟩ := uninitialised q
  exact run_exact_iff ops rep counted right

def stray : Tailqs Bool Pointer where
  tqh_first _ := some ⟨0x2000, frame_two_ne_null⟩
  tqh_last _ := .first false
  nelem _ := 7
  tqe_next _ := none
  tqe_prev _ := .first true

def onlyElm : Pointer := ⟨0x1000, frame_one_ne_null⟩

/-- One element in the second of two queues, and then a concatenation. -/
def concatRun (head1 head2 : Bool) : List (QueueOp Bool Pointer) :=
  [.init true, .init false, .insertTail false onlyElm, .concat head1 head2]

private theorem concatRun_right (head1 head2 : Bool) :
    EachStep QueueOp.Right ⟨stray, []⟩ (concatRun head1 head2) := by
  have initialised : ∀ head : Bool, head ∈ [false, true] := by decide
  have rep := run_represents [.init true, .init false] (uninitialised stray).1
    ⟨trivial, trivial, trivial⟩
  have free := (rep.free_iff onlyElm).mpr fun head _ => by
    cases head with
    | false => exact List.not_mem_nil
    | true => exact List.not_mem_nil
  exact ⟨trivial, trivial, ⟨initialised false, free⟩, ⟨initialised head1, initialised head2⟩,
    trivial⟩

theorem counts_exact_iff_empty : EachStep QueueOp.Right ⟨stray, []⟩ (concatRun false true) ∧
    EachState AllExact ⟨stray, []⟩ (concatRun false true) := by
  refine ⟨concatRun_right false true,
    (counts_exact_iff stray _ (concatRun_right false true)).mpr ?_⟩
  refine ⟨fun moves => moves, fun moves => moves, fun moves => moves, ?_, trivial⟩
  rintro ⟨_, some_elm⟩
  exact some_elm rfl

/-- A queue with an element is concatenated to an empty one, which still counts none. -/
theorem moved_uncounted : EachStep QueueOp.Right ⟨stray, []⟩ (concatRun true false) ∧
    (runOps (concatRun true false) ⟨stray, []⟩).queues.nelem true = 0 ∧
    (runOps (concatRun true false) ⟨stray, []⟩).queues.tqh_first true = some onlyElm ∧
    ¬EachState AllExact ⟨stray, []⟩ (concatRun true false) := by
  have nelem : (runOps (concatRun true false) ⟨stray, []⟩).queues.nelem true = 0 := rfl
  have first :
    (runOps (concatRun true false) ⟨stray, []⟩).queues.tqh_first true = some onlyElm := rfl
  refine ⟨concatRun_right true false, nelem, first, ?_⟩
  rintro ⟨_, _, _, _, exact⟩
  obtain ⟨xs, _, visit, count⟩ := exact true (by decide)
  change ((runOps (concatRun true false) ⟨stray, []⟩).queues.nelem true).toNat = _ at count
  change tailqVisit _ _ ((runOps (concatRun true false) ⟨stray, []⟩).queues.tqh_first true) = _
    at visit
  rw [nelem] at count
  rw [first, ← count] at visit
  cases visit

end Counts

end Algae.Rtl.QueueRuns
