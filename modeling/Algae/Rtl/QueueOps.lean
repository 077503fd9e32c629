/- Replacing an element of a tail queue, and moving one queue behind another. -/

import Algae.Rtl.Queue

set_option autoImplicit false
set_option relaxedAutoImplicit false

namespace Algae.Rtl.Queue

variable {η α : Type} [DecidableEq η] [DecidableEq α]

def tailqReplace (q : Tailqs η α) (head : η) (elm elm2 : α) : Tailqs η α :=
  let follower := q.tqe_next elm
  let q := q.store (.next elm2) follower
  let q := match follower with
    | some next => q.setPrev next (.next elm2)
    | none => q.setLast head (.next elm2)
  let q := q.setPrev elm2 (q.tqe_prev elm)
  q.store (q.tqe_prev elm2) (some elm2)

def tailqConcat (q : Tailqs η α) (head1 head2 : η) : Tailqs η α :=
  match q.tqh_first head2 with
  | none => q
  | some first =>
    let q := q.store (q.tqh_last head1) (some first)
    let q := q.setPrev first (q.tqh_last head1)
    let q := q.setLast head1 (q.tqh_last head2)
    tailqInit q head2

section Fields

variable (q : Tailqs η α)

private theorem replace_load (head : η) {elm : α} (elm2 : α) (apart : q.tqe_next elm ≠ some elm)
    (l : Link η α) :
    (tailqReplace q head elm elm2).load l =
      if l = q.tqe_prev elm then some elm2 else if l = .next elm2 then q.tqe_next
        elm else q.load l := by
  rw [tailqReplace]
  cases next : q.tqe_next elm with
  | none =>
    simp only [load_store, load_setPrev, load_setLast]
    simp [Tailqs.setPrev, Tailqs.setLast]
  | some follower =>
    have other : elm ≠ follower := by
      rintro rfl
      exact apart next
    simp only [load_store, load_setPrev]
    simp [Tailqs.setPrev, Function.update_of_ne other]

theorem replace_fields (head : η) {elm : α} (elm2 : α) (apart : q.tqe_next elm ≠ some elm) :
    (∀ x, (tailqReplace q head elm elm2).tqe_prev x =
      if x = elm2 then q.tqe_prev elm else if q.tqe_next elm = some x then .next
        elm2 else q.tqe_prev x) ∧
    (∀ other, (tailqReplace q head elm elm2).tqh_last other =
      if other = head ∧ q.tqe_next elm = none then .next elm2 else q.tqh_last other) ∧
    (tailqReplace q head elm elm2).nelem = q.nelem := by
  rw [tailqReplace]
  cases next : q.tqe_next elm with
  | none =>
    refine ⟨fun x => ?_, fun other => ?_, ?_⟩
    · simp [Tailqs.setPrev, Tailqs.setLast, Function.update_apply]
    · simp [Tailqs.setPrev, Tailqs.setLast, Function.update_apply]
    · simp [Tailqs.setPrev, Tailqs.setLast]
  | some follower =>
    have other : elm ≠ follower := by
      rintro rfl
      exact apart next
    refine ⟨fun x => ?_, fun other => ?_, ?_⟩
    · simp [Tailqs.setPrev, Function.update_apply, other, eq_comm]
    · simp [Tailqs.setPrev]
    · simp [Tailqs.setPrev]

private theorem replace_eq (head : η) {elm : α} (elm2 : α) (apart : q.tqe_next elm ≠ some elm) :
    let q' := tailqInsertAt (tailqRemove q head elm) head (q.tqe_prev elm) elm2
    (∀ l, (tailqReplace q head elm elm2).load l = q'.load l) ∧
    (∀ other, (tailqReplace q head elm elm2).tqh_last other = q'.tqh_last other) ∧
    ∀ x, (tailqReplace q head elm elm2).tqe_prev x = q'.tqe_prev x := by
  obtain ⟨prev, last, _⟩ := replace_fields q head elm2 apart
  obtain ⟨prev', last', _⟩ := insertAt_fields (tailqRemove q head elm) head (q.tqe_prev elm) elm2
  have removed := remove_load q head apart
  have follower : (tailqRemove q head elm).load (q.tqe_prev elm) = q.tqe_next elm := by
    rw [removed, if_pos rfl]
  refine ⟨fun l => ?_, fun other => ?_, fun x => ?_⟩
  · rw [replace_load q head elm2 apart, insertAt_load, follower, removed]
    by_cases here : l = q.tqe_prev elm
    · rw [if_pos here, if_pos here]
    · rw [if_neg here, if_neg here, if_neg here]
  · rw [last, last', follower]
    by_cases own : other = head
    · by_cases none : q.tqe_next elm = none
      · rw [if_pos ⟨own, none⟩, if_pos ⟨own, none⟩]
      · rw [if_neg (fun both => none both.2), if_neg (fun both => none both.2), own,
          (remove_own q head elm).2.1, if_neg none]
    · rw [if_neg (fun both => own both.1), if_neg (fun both => own both.1),
        ((remove_fields q head elm).1 other own).1]
  · rw [prev, prev', follower]
    by_cases next : q.tqe_next elm = some x
    · rw [if_pos next, if_pos next]
    · rw [if_neg next, if_neg next, (remove_fields q head elm).2 x next]

private theorem concat_load (head1 : η) {head2 : η} {first : α}
    (nonempty : q.tqh_first head2 = some first)
    (l : Link η α) : (tailqConcat q head1 head2).load l =
      if l = .first head2 then none else if l = q.tqh_last head1 then some first else q.load l := by
  simp only [tailqConcat, nonempty, init_load, load_setLast, load_setPrev, load_store]

theorem concat_fields (head1 : η) {head2 : η} {first : α}
    (nonempty : q.tqh_first head2 = some first) :
    (tailqConcat q head1 head2).tqe_prev = Function.update q.tqe_prev first (q.tqh_last head1) ∧
    (tailqConcat q head1 head2).tqh_last =
      Function.update (Function.update q.tqh_last head1 (q.tqh_last head2)) head2 (.first head2) ∧
    (tailqConcat q head1 head2).nelem = Function.update q.nelem head2 0 := by
  simp only [tailqConcat, nonempty, init_fields]
  simp [Tailqs.setPrev, Tailqs.setLast]

end Fields

section Lists

variable {q : Tailqs η α} {head : η} {xs : List α}

private theorem Chained.remove_before {before after : List α} {x : α}
    (h : Chained q head (before ++ x :: after)) :
    Segment (tailqRemove q head x) (.first head) before (q.tqe_prev x) := by
  obtain ⟨mid, first, _, back, _⟩ := (segment_append _ _ _ _).mp h.linked
  obtain ⟨mid', first', _⟩ := (segment_append _ _ _ _).mp h.remove.linked
  rw [back, first.stop_eq first']
  exact first'

theorem Chained.replace {before after : List α} {x : α} (h : Chained q head (before ++ x :: after))
    {elm2 : α} (new : elm2 ∉ before ++ x :: after) :
    Chained (tailqReplace q head x elm2) head (before ++ elm2 :: after) := by
  obtain ⟨load, last, prev⟩ := replace_eq q head elm2 h.next_ne
  have new' : elm2 ∉ before ++ after := by
    intro member
    apply new
    rcases List.mem_append.mp member with member | member
    · exact List.mem_append_left _ member
    · exact List.mem_append_right _ (List.mem_cons_of_mem _ member)
  have inserted := h.remove.insertAt h.remove_before new'
  exact inserted.frame (last head) (load _) (fun y _ => load _) fun y _ => prev y

theorem Chained.replace_other {other : η} {before after : List α} {x : α} (h : Chained q head xs)
    (h' : Chained q other (before ++ x :: after)) (apart : head ≠ other) {elm2 : α}
    (new : elm2 ∉ xs) :
    Chained (tailqReplace q other x elm2) head xs := by
  obtain ⟨load, last, prev⟩ := replace_eq q other elm2 h'.next_ne
  have inserted := (h.remove_other h' apart).insertAt_other h'.remove h'.remove_before apart new
  exact inserted.frame (last head) (load _) (fun y _ => load _) fun y _ => prev y

theorem Chained.concat {head2 : η} {ys : List α} (h : Chained q head xs) (h' : Chained q head2 ys)
    (apart : head ≠ head2) : Chained (tailqConcat q head head2) head (xs ++ ys) := by
  cases ys with
  | nil =>
    have empty : q.tqh_first head2 = none := h'.first_eq
    rw [List.append_nil, tailqConcat, empty]
    exact h
  | cons y ys =>
    have nonempty : q.tqh_first head2 = some y := h'.first_eq
    obtain ⟨prev, last, _⟩ := concat_fields q head nonempty
    have load := concat_load q head nonempty
    have disjoint : ∀ x ∈ xs, x ∉ y :: ys := fun x member inside =>
      apart (h.same_head h' member inside)
    have last_here : (tailqConcat q head head2).tqh_last head = q.tqh_last head2 := by
      rw [last, Function.update_of_ne apart, Function.update_self]
    obtain ⟨_, _, tail⟩ := h'.linked
    obtain ⟨new_y, nodup_ys⟩ := List.nodup_cons.mp h'.nodup
    have later : ∀ x ∈ y :: ys, (tailqConcat q head head2).load (.next x) = q.load (.next x) := by
      intro x member
      have not_last : Link.next x ≠ q.tqh_last head :=
        h.linked.stop_ne_next fun inside => disjoint x inside member
      rw [load, if_neg (fun same => by cases same), if_neg not_last]
    have first' : Segment (tailqConcat q head head2) (.first head) xs (q.tqh_last head) := by
      refine h.linked.congr ?_ ?_ ?_ h.nodup
      · intro some_elm
        have not_last : Link.first head ≠ q.tqh_last head :=
          h.linked.stop_ne_first fun _ => some_elm
        rw [load, if_neg (fun same => apart (Link.first.inj same)), if_neg not_last]
      · intro x _ not_last
        rw [load, if_neg (fun same => by cases same), if_neg not_last]
      · intro x member
        rw [prev, Function.update_of_ne]
        rintro rfl
        exact disjoint x member List.mem_cons_self
    have tail' : Segment (tailqConcat q head head2) (.next y) ys (q.tqh_last head2) := by
      refine tail.congr ?_ ?_ ?_ nodup_ys
      · exact fun _ => later y List.mem_cons_self
      · exact fun x member _ => later x (List.mem_cons_of_mem _ member)
      · intro x member
        rw [prev, Function.update_of_ne]
        rintro rfl
        exact new_y member
    refine ⟨?_, ?_, ?_⟩
    · rw [last_here]
      refine (segment_append _ _ _ _).mpr ⟨q.tqh_last head, first', ?_, ?_, tail'⟩
      · have not_first : q.tqh_last head ≠ .first head2 := by
          apply Ne.symm
          apply h.linked.stop_ne_first
          exact fun same => absurd same.symm apart
        rw [load, if_neg not_first, if_pos rfl]
      · rw [prev, Function.update_self]
    · rw [last_here, tail.load_stop (later y List.mem_cons_self) fun x member =>
        later x (List.mem_cons_of_mem _ member)]
      exact h'.ended
    · refine List.nodup_append.mpr ⟨h.nodup, h'.nodup, ?_⟩
      rintro x member _ inside rfl
      exact disjoint x member inside

theorem Chained.concat_moved {head2 : η} {ys : List α} (h' : Chained q head2 ys) (head1 : η) :
    Chained (tailqConcat q head1 head2) head2 [] := by
  cases nonempty : q.tqh_first head2 with
  | none =>
    have empty : ys = [] := List.head?_eq_none_iff.mp (h'.first_eq.symm.trans nonempty)
    rw [tailqConcat, nonempty, ← empty]
    exact h'
  | some first =>
    simp only [tailqConcat, nonempty]
    exact chained_init _ _

theorem Chained.concat_other {head1 head2 : η} {xs1 xs2 : List α} (h : Chained q head xs)
    (h1 : Chained q head1 xs1) (h2 : Chained q head2 xs2) (apart1 : head ≠ head1)
    (apart2 : head ≠ head2) : Chained (tailqConcat q head1 head2) head xs := by
  cases nonempty : q.tqh_first head2 with
  | none =>
    rw [tailqConcat, nonempty]
    exact h
  | some first =>
    obtain ⟨prev, last, _⟩ := concat_fields q head1 nonempty
    have load := concat_load q head1 nonempty
    refine h.frame ?_ ?_ ?_ ?_
    · rw [last, Function.update_of_ne apart2, Function.update_of_ne apart1]
    · have not_last : Link.first head ≠ q.tqh_last head1 :=
        h1.linked.stop_ne_first fun same => absurd same apart1
      rw [load, if_neg (fun same => apart2 (Link.first.inj same)), if_neg not_last]
    · intro x member
      have not_last : Link.next x ≠ q.tqh_last head1 :=
        h1.linked.stop_ne_next fun inside => apart1 (h.same_head h1 member inside)
      rw [load, if_neg (fun same => by cases same), if_neg not_last]
    · intro x member
      rw [prev, Function.update_of_ne]
      rintro rfl
      have inside : x ∈ xs2 := List.mem_of_head? (h2.first_eq.symm.trans nonempty)
      exact apart2 (h.same_head h2 member inside)

end Lists

end Algae.Rtl.Queue
