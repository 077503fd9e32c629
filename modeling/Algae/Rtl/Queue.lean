/- Tail queues with their pointers: heads and elements point at each other, and an
   insertion or removal writes through the address of the previous link. -/

import Mathlib.Data.List.Nodup
import Mathlib.Logic.Function.Basic

set_option autoImplicit false
set_option relaxedAutoImplicit false

namespace Algae.Rtl.Queue

/-- The address of a link field: `&(head)->tqh_first` or `&(elm)->field.tqe_next`. -/
inductive Link (η α : Type)
  | first (head : η)
  | next (elm : α)
  deriving DecidableEq

/-- All heads and elements of one type; a NULL pointer is `none`. -/
structure Tailqs (η α : Type) where
  tqh_first : η → Option α
  tqh_last : η → Link η α
  nelem : η → BitVec 64
  tqe_next : α → Option α
  tqe_prev : α → Link η α

variable {η α : Type} [DecidableEq η] [DecidableEq α]

namespace Tailqs

def load (q : Tailqs η α) : Link η α → Option α
  | .first head => q.tqh_first head
  | .next elm => q.tqe_next elm

def store (q : Tailqs η α) (link : Link η α) (v : Option α) : Tailqs η α :=
  match link with
  | .first head => { q with tqh_first := Function.update q.tqh_first head v }
  | .next elm => { q with tqe_next := Function.update q.tqe_next elm v }

def setPrev (q : Tailqs η α) (elm : α) (link : Link η α) : Tailqs η α :=
  { q with tqe_prev := Function.update q.tqe_prev elm link }

def setLast (q : Tailqs η α) (head : η) (link : Link η α) : Tailqs η α :=
  { q with tqh_last := Function.update q.tqh_last head link }

def setNelem (q : Tailqs η α) (head : η) (n : BitVec 64) : Tailqs η α :=
  { q with nelem := Function.update q.nelem head n }

end Tailqs

def tailqInit (q : Tailqs η α) (head : η) : Tailqs η α :=
  ((q.store (.first head) none).setLast head (.first head)).setNelem head 0

def tailqInsertTail (q : Tailqs η α) (head : η) (elm : α) : Tailqs η α :=
  let q := q.store (.next elm) none
  let q := q.setPrev elm (q.tqh_last head)
  let q := q.store (q.tqh_last head) (some elm)
  let q := q.setLast head (.next elm)
  q.setNelem head (q.nelem head + 1)

/-- What TAILQ_INSERT_HEAD and TAILQ_INSERT_AFTER do, for the link they insert at. -/
def tailqInsertAt (q : Tailqs η α) (head : η) (link : Link η α) (elm : α) : Tailqs η α :=
  let follower := q.load link
  let q := q.store (.next elm) follower
  let q := match follower with
    | some next => q.setPrev next (.next elm)
    | none => q.setLast head (.next elm)
  let q := q.store link (some elm)
  let q := q.setPrev elm link
  q.setNelem head (q.nelem head + 1)

def tailqInsertHead (q : Tailqs η α) (head : η) (elm : α) : Tailqs η α :=
  tailqInsertAt q head (.first head) elm

def tailqInsertAfter (q : Tailqs η α) (head : η) (listelm elm : α) : Tailqs η α :=
  tailqInsertAt q head (.next listelm) elm

def tailqRemove (q : Tailqs η α) (head : η) (elm : α) : Tailqs η α :=
  let q := match q.tqe_next elm with
    | some follower => q.setPrev follower (q.tqe_prev elm)
    | none => q.setLast head (q.tqe_prev elm)
  let q := q.store (q.tqe_prev elm) (q.tqe_next elm)
  q.setNelem head (q.nelem head - 1)

/-- What TAILQ_FOREACH visits from `x` on, if that are at most `fuel` elements. -/
def tailqVisit (q : Tailqs η α) : Nat → Option α → Option (List α)
  | _, none => some []
  | 0, some _ => none
  | fuel + 1, some x => (tailqVisit q fuel (q.tqe_next x)).map (x :: ·)

section Fields

variable (q : Tailqs η α)

theorem load_store (link link' : Link η α) (v : Option α) :
    (q.store link v).load link' = if link' = link then v else q.load link' := by
  cases link with
  | first head =>
    cases link' with
    | first head' => simp [Tailqs.store, Tailqs.load, Function.update_apply]
    | next elm' => simp [Tailqs.store, Tailqs.load]
  | next elm =>
    cases link' with
    | first head' => simp [Tailqs.store, Tailqs.load]
    | next elm' => simp [Tailqs.store, Tailqs.load, Function.update_apply]

@[simp] theorem store_prev (link : Link η α) (v : Option α) :
    (q.store link v).tqe_prev = q.tqe_prev := by
  cases link <;> rfl

@[simp] theorem store_last (link : Link η α) (v : Option α) :
    (q.store link v).tqh_last = q.tqh_last := by
  cases link <;> rfl

@[simp] theorem store_nelem (link : Link η α) (v : Option α) :
    (q.store link v).nelem = q.nelem := by
  cases link <;> rfl

omit [DecidableEq η] in
@[simp] theorem load_setPrev (elm : α) (link link' : Link η α) :
    (q.setPrev elm link).load link' = q.load link' := by
  cases link' <;> rfl

omit [DecidableEq α] in
@[simp] theorem load_setLast (head : η) (link link' : Link η α) :
    (q.setLast head link).load link' = q.load link' := by
  cases link' <;> rfl

omit [DecidableEq α] in
@[simp] theorem load_setNelem (head : η) (n : BitVec 64) (link : Link η α) :
    (q.setNelem head n).load link = q.load link := by
  cases link <;> rfl

end Fields

/-! What a well-linked queue is. -/

/-- From the given link on, the elements `xs` follow each other, each pointing back
at the link that refers to it; `stop` is the link after the last one. -/
def Segment (q : Tailqs η α) : Link η α → List α → Link η α → Prop
  | link, [], stop => stop = link
  | link, x :: xs, stop => q.load link = some x ∧ q.tqe_prev x = link ∧ Segment q (.next x) xs stop

/-- The links of the queue of `head` are those of `xs`, in this order. -/
structure Chained (q : Tailqs η α) (head : η) (xs : List α) : Prop where
  linked : Segment q (.first head) xs (q.tqh_last head)
  ended : q.load (q.tqh_last head) = none
  nodup : xs.Nodup

/-- The queue of `head` consists of `xs`, in this order. -/
structure Holds (q : Tailqs η α) (head : η) (xs : List α) : Prop where
  linked : Segment q (.first head) xs (q.tqh_last head)
  ended : q.load (q.tqh_last head) = none
  count : q.nelem head = BitVec.ofNat 64 xs.length
  nodup : xs.Nodup

section Segments

variable {q q' : Tailqs η α}

omit [DecidableEq η] [DecidableEq α] in
theorem segment_append (link stop : Link η α) (xs ys : List α) :
    Segment q link (xs ++ ys) stop ↔ ∃ mid, Segment q link xs mid ∧ Segment q mid ys stop := by
  induction xs generalizing link with
  | nil => simp [Segment]
  | cons x xs ih =>
    simp only [List.cons_append, Segment, ih]
    constructor
    · rintro ⟨here, back, mid, first, second⟩
      exact ⟨mid, ⟨here, back, first⟩, second⟩
    · rintro ⟨mid, ⟨here, back, first⟩, second⟩
      exact ⟨here, back, mid, first, second⟩

omit [DecidableEq η] [DecidableEq α] in
private theorem Segment.stop_cases {link stop : Link η α} {xs : List α}
    (h : Segment q link xs stop) :
    (xs = [] ∧ stop = link) ∨ ∃ x ∈ xs, stop = .next x := by
  induction xs generalizing link with
  | nil => exact Or.inl ⟨rfl, h⟩
  | cons x xs ih =>
    right
    rcases ih h.2.2 with ⟨rfl, rfl⟩ | ⟨y, member, rfl⟩
    · exact ⟨x, List.mem_cons_self, rfl⟩
    · exact ⟨y, List.mem_cons_of_mem _ member, rfl⟩

omit [DecidableEq η] [DecidableEq α] in
theorem Segment.stop_ne_next {head : η} {stop : Link η α} {xs : List α}
    (h : Segment q (.first head) xs stop) {y : α} (new : y ∉ xs) : Link.next y ≠ stop := by
  intro same
  rcases h.stop_cases with ⟨_, start⟩ | ⟨x, member, next⟩
  · cases same.trans start
  · exact new (Link.next.inj (same.trans next) ▸ member)

omit [DecidableEq η] [DecidableEq α] in
theorem Segment.stop_ne_first {head other : η} {stop : Link η α} {xs : List α}
    (h : Segment q (.first head) xs stop) (apart : other = head → xs ≠ []) :
    Link.first other ≠ stop := by
  intro same
  rcases h.stop_cases with ⟨none, start⟩ | ⟨x, _, next⟩
  · exact apart (Link.first.inj (same.trans start)) none
  · cases same.trans next

omit [DecidableEq η] [DecidableEq α] in
theorem Segment.load_stop {link stop : Link η α} {xs : List α} (h : Segment q link xs stop)
    (start : q'.load link = q.load link)
    (links : ∀ x ∈ xs, q'.load (.next x) = q.load (.next x)) : q'.load stop = q.load stop := by
  rcases h.stop_cases with ⟨_, rfl⟩ | ⟨x, member, rfl⟩
  · exact start
  · exact links x member

omit [DecidableEq η] [DecidableEq α] in
theorem Segment.stop_eq {link stop stop' : Link η α} {xs : List α} (h : Segment q link xs stop)
    (h' : Segment q' link xs stop') : stop = stop' := by
  induction xs generalizing link with
  | nil => exact Eq.trans h (Eq.symm h')
  | cons x xs ih => exact ih h.2.2 h'.2.2

omit [DecidableEq η] [DecidableEq α] in
theorem Segment.congr {link stop : Link η α} {xs : List α} (h : Segment q link xs stop)
    (start : xs ≠ [] → q'.load link = q.load link)
    (links : ∀ x ∈ xs, Link.next x ≠ stop → q'.load (.next x) = q.load (.next x))
    (backs : ∀ x ∈ xs, q'.tqe_prev x = q.tqe_prev x) (nodup : xs.Nodup) :
    Segment q' link xs stop := by
  induction xs generalizing link with
  | nil => exact h
  | cons x xs ih =>
    obtain ⟨here, back, rest⟩ := h
    obtain ⟨new, nodup⟩ := List.nodup_cons.mp nodup
    refine ⟨(start (List.cons_ne_nil _ _)).trans here,
      (backs x List.mem_cons_self).trans back, ih rest ?_ ?_ ?_ nodup⟩
    · intro more
      refine links x List.mem_cons_self ?_
      rcases rest.stop_cases with ⟨empty, _⟩ | ⟨y, member, rfl⟩
      · exact absurd empty more
      · intro same
        exact new (Link.next.inj same ▸ member)
    · exact fun y member => links y (List.mem_cons_of_mem _ member)
    · exact fun y member => backs y (List.mem_cons_of_mem _ member)

end Segments

section Operations

variable {q : Tailqs η α} {head : η} {xs : List α}

omit [DecidableEq η] [DecidableEq α] in
theorem Holds.chained (h : Holds q head xs) : Chained q head xs :=
  ⟨h.linked, h.ended, h.nodup⟩

omit [DecidableEq η] [DecidableEq α] in
theorem Chained.holds (h : Chained q head xs) (count : q.nelem head = BitVec.ofNat 64 xs.length) :
    Holds q head xs :=
  ⟨h.linked, h.ended, count, h.nodup⟩

omit [DecidableEq η] [DecidableEq α] in
private theorem Chained.load_link {before after : List α} {link : Link η α}
    (h : Chained q head (before ++ after))
    (here : Segment q (.first head) before link) : q.load link = after.head? := by
  obtain ⟨mid, first, rest⟩ := (segment_append _ _ _ _).mp h.linked
  obtain rfl := first.stop_eq here
  cases after with
  | nil =>
    have stop : q.tqh_last head = mid := rest
    rw [← stop]
    exact h.ended
  | cons y after => exact rest.1

omit [DecidableEq η] [DecidableEq α] in
theorem Chained.through {before after : List α} {x : α}
    (h : Chained q head (before ++ x :: after)) :
    Segment q (.first head) (before ++ [x]) (.next x) := by
  obtain ⟨mid, first, here, back, _⟩ := (segment_append _ _ _ _).mp h.linked
  exact (segment_append _ _ _ _).mpr ⟨mid, first, here, back, rfl⟩

omit [DecidableEq η] [DecidableEq α] in
theorem Chained.first_eq (h : Chained q head xs) : q.tqh_first head = xs.head? := by
  have whole : Chained q head ([] ++ xs) := h
  have start : Segment q (.first head) [] (.first head) := rfl
  exact whole.load_link start

omit [DecidableEq η] [DecidableEq α] in
theorem Chained.next_eq {before after : List α} {x : α}
    (h : Chained q head (before ++ x :: after)) :
    q.tqe_next x = after.head? := by
  have regrouped := h
  rw [List.append_cons] at regrouped
  exact regrouped.load_link h.through

omit [DecidableEq η] [DecidableEq α] in
theorem Chained.visit (h : Chained q head xs) {fuel : Nat} (enough : xs.length ≤ fuel) :
    tailqVisit q fuel (q.tqh_first head) = some xs := by
  have suffix : ∀ after before : List α, xs = before ++ after → ∀ fuel, after.length ≤ fuel →
      tailqVisit q fuel after.head? = some after := by
    intro after
    induction after with
    | nil => exact fun before split fuel enough => by cases fuel <;> rfl
    | cons x after ih =>
      intro before split fuel enough
      cases fuel with
      | zero => exact absurd enough (by simp)
      | succ fuel =>
        have rest := ih (before ++ [x]) (by simp [split]) fuel (by simpa using enough)
        have next : q.tqe_next x = after.head? := Chained.next_eq (split ▸ h)
        rw [List.head?_cons, tailqVisit, next, rest]
        rfl
  rw [h.first_eq]
  exact suffix xs [] rfl fuel enough

omit [DecidableEq η] [DecidableEq α] in
theorem Chained.unique {ys : List α} (h : Chained q head xs) (h' : Chained q head ys) :
    xs = ys := by
  have first := h.visit (Nat.le_max_left xs.length ys.length)
  have second := h'.visit (Nat.le_max_right xs.length ys.length)
  exact Option.some.inj (first.symm.trans second)

omit [DecidableEq η] [DecidableEq α] in
theorem Chained.same_head {other : η} {ys : List α} (h : Chained q head xs)
    (h' : Chained q other ys) {x : α} (inside : x ∈ xs) (inside' : x ∈ ys) : head = other := by
  have back : ∀ n (before after : List α) (x : α), before.length = n → xs = before ++ x :: after →
      x ∈ ys → head = other := by
    intro n
    induction n using Nat.strongRecOn with
    | _ n ih =>
      intro before after x length split inside'
      obtain ⟨before', after', split'⟩ := List.append_of_mem inside'
      obtain ⟨mid, segment, _, prev, _⟩ := (segment_append _ _ _ _).mp (split ▸ h.linked)
      obtain ⟨mid', segment', _, prev', _⟩ := (segment_append _ _ _ _).mp (split' ▸ h'.linked)
      have same := prev.symm.trans prev'
      rcases segment.stop_cases with ⟨_, start⟩ | ⟨y, member, next⟩
      · rcases segment'.stop_cases with ⟨_, start'⟩ | ⟨y', _, next'⟩
        · exact Link.first.inj (start.symm.trans (same.trans start'))
        · cases start.symm.trans (same.trans next')
      · rcases segment'.stop_cases with ⟨_, start'⟩ | ⟨y', member', next'⟩
        · cases next.symm.trans (same.trans start')
        · obtain rfl := Link.next.inj (next.symm.trans (same.trans next'))
          obtain ⟨first, rest, cut⟩ := List.append_of_mem member
          refine ih first.length ?_ first (rest ++ x :: after) y rfl ?_ ?_
          · rw [← length, cut]
            simp
          · rw [split, cut]
            simp
          · rw [split']
            exact List.mem_append_left _ member'
  obtain ⟨before, after, split⟩ := List.append_of_mem inside
  exact back before.length before after x rfl split inside'

theorem init_load (q : Tailqs η α) (head : η) (link : Link η α) :
    (tailqInit q head).load link = if link = .first head then none else q.load link := by
  rw [tailqInit, load_setNelem, load_setLast, load_store]

theorem init_fields (q : Tailqs η α) (head : η) :
    (tailqInit q head).tqe_prev = q.tqe_prev ∧
    (tailqInit q head).tqh_last = Function.update q.tqh_last head (.first head) ∧
    (tailqInit q head).nelem = Function.update q.nelem head 0 := by
  simp [tailqInit, Tailqs.setNelem, Tailqs.setLast]

theorem chained_init (q : Tailqs η α) (head : η) : Chained (tailqInit q head) head [] := by
  obtain ⟨_, last, _⟩ := init_fields q head
  have here : (tailqInit q head).tqh_last head = .first head := by
    rw [last, Function.update_self]
  refine ⟨here, ?_, List.nodup_nil⟩
  rw [here, init_load, if_pos rfl]

theorem holds_init (q : Tailqs η α) (head : η) : Holds (tailqInit q head) head [] := by
  obtain ⟨_, _, nelem⟩ := init_fields q head
  apply (chained_init q head).holds
  rw [nelem, Function.update_self]
  rfl

omit [DecidableEq η] [DecidableEq α] in
theorem Chained.frame {q' : Tailqs η α} (h : Chained q head xs)
    (last : q'.tqh_last head = q.tqh_last head)
    (first : q'.load (.first head) = q.load (.first head))
    (links : ∀ x ∈ xs, q'.load (.next x) = q.load (.next x))
    (backs : ∀ x ∈ xs, q'.tqe_prev x = q.tqe_prev x) : Chained q' head xs := by
  have linked : Segment q' (.first head) xs (q.tqh_last head) :=
    h.linked.congr (fun _ => first) (fun x member _ => links x member) backs h.nodup
  refine ⟨last ▸ linked, ?_, h.nodup⟩
  rw [last, h.linked.load_stop first links]
  exact h.ended

theorem Chained.init_other {other : η} (h : Chained q head xs) (apart : head ≠ other) :
    Chained (tailqInit q other) head xs := by
  obtain ⟨back, last, _⟩ := init_fields q other
  have load : ∀ link, link ≠ .first other → (tailqInit q other).load link = q.load link := by
    intro link different
    rw [init_load, if_neg different]
  refine h.frame ?_ (load _ ?_) (fun x _ => load _ ?_) (fun x _ => congrFun back x)
  · rw [last, Function.update_of_ne apart]
  · exact fun same => apart (Link.first.inj same)
  · exact fun same => by cases same

theorem Holds.init_other {other : η} (h : Holds q head xs) (apart : head ≠ other) :
    Holds (tailqInit q other) head xs := by
  obtain ⟨_, _, nelem⟩ := init_fields q other
  apply (h.chained.init_other apart).holds
  rw [nelem, Function.update_of_ne apart]
  exact h.count

theorem Chained.store_next_other (h : Chained q head xs) {elm : α} (new : elm ∉ xs) (v : Option α) :
    Chained (q.store (.next elm) v) head xs := by
  refine h.frame (by simp) ?_ ?_ (fun x _ => by simp)
  · rw [load_store, if_neg (fun same => by cases same)]
  · intro x member
    rw [load_store, if_neg]
    exact fun same => new (Link.next.inj same ▸ member)

theorem Holds.store_next_other (h : Holds q head xs) {elm : α} (new : elm ∉ xs) (v : Option α) :
    Holds (q.store (.next elm) v) head xs := by
  apply (h.chained.store_next_other new v).holds
  rw [store_nelem]
  exact h.count

theorem insertAt_load (q : Tailqs η α) (head : η) (link : Link η α) (elm : α) (l : Link η α) :
    (tailqInsertAt q head link elm).load l =
      if l = link then some elm else if l = .next elm then q.load link else q.load l := by
  rw [tailqInsertAt]
  cases q.load link with
  | none => simp only [load_setNelem, load_setPrev, load_store, load_setLast]
  | some next => simp only [load_setNelem, load_setPrev, load_store]

theorem insertAt_fields (q : Tailqs η α) (head : η) (link : Link η α) (elm : α) :
    (∀ x, (tailqInsertAt q head link elm).tqe_prev x =
      if x = elm then link else if q.load link = some x then .next elm else q.tqe_prev x) ∧
    (∀ other, (tailqInsertAt q head link elm).tqh_last other =
      if other = head ∧ q.load link = none then .next elm else q.tqh_last other) ∧
    (tailqInsertAt q head link elm).nelem = Function.update q.nelem head (q.nelem head + 1) := by
  rw [tailqInsertAt]
  cases q.load link with
  | none =>
    refine ⟨fun x => ?_, fun other => ?_, ?_⟩
    · simp [Tailqs.setNelem, Tailqs.setPrev, Tailqs.setLast, Function.update_apply]
    · simp [Tailqs.setNelem, Tailqs.setPrev, Tailqs.setLast, Function.update_apply]
    · simp [Tailqs.setNelem, Tailqs.setPrev, Tailqs.setLast]
  | some next =>
    refine ⟨fun x => ?_, fun other => ?_, ?_⟩
    · simp [Tailqs.setNelem, Tailqs.setPrev, Function.update_apply, eq_comm]
    · simp [Tailqs.setNelem, Tailqs.setPrev]
    · simp [Tailqs.setNelem, Tailqs.setPrev]

theorem Segment.insertAt {before : List α} {link : Link η α}
    (here : Segment q (.first head) before link)
    (nodup : before.Nodup) {elm : α} (new : elm ∉ before)
    (follower : ∀ x ∈ before, q.load link ≠ some x) :
    Segment (tailqInsertAt q head link elm) (.first head) before link := by
  have not_elm : ∀ x ∈ before, x ≠ elm := by
    rintro x member rfl
    exact new member
  refine here.congr ?_ ?_ ?_ nodup
  · intro some_elm
    have not_link : Link.first head ≠ link := here.stop_ne_first fun _ => some_elm
    rw [insertAt_load, if_neg not_link, if_neg (fun same => by cases same)]
  · intro x member not_link
    rw [insertAt_load, if_neg not_link, if_neg]
    exact fun same => not_elm x member (Link.next.inj same)
  · intro x member
    rw [(insertAt_fields q head link elm).1, if_neg (not_elm x member), if_neg (follower x member)]

theorem Chained.insertAt {before after : List α} {link : Link η α}
    (h : Chained q head (before ++ after))
    (here : Segment q (.first head) before link) {elm : α} (new : elm ∉ before ++ after) :
    Chained (tailqInsertAt q head link elm) head (before ++ elm :: after) := by
  obtain ⟨mid, first, rest⟩ := (segment_append _ _ _ _).mp h.linked
  obtain rfl := first.stop_eq here
  obtain ⟨prev, last, _⟩ := insertAt_fields q head mid elm
  have load := insertAt_load q head mid elm
  obtain ⟨nodup_before, nodup_after, apart⟩ := List.nodup_append.mp h.nodup
  have new_before : elm ∉ before := fun member => new (List.mem_append_left _ member)
  have new_after : elm ∉ after := fun member => new (List.mem_append_right _ member)
  have nodup' : (before ++ elm :: after).Nodup := by
    refine List.nodup_append.mpr ⟨nodup_before, List.nodup_cons.mpr ⟨new_after, nodup_after⟩, ?_⟩
    intro a member b member'
    rcases List.mem_cons.mp member' with rfl | member'
    · rintro rfl
      exact new_before member
    · exact apart a member b member'
  have at_link : (tailqInsertAt q head mid elm).load mid = some elm := by
    rw [load, if_pos rfl]
  have behind : (tailqInsertAt q head mid elm).load (.next elm) = q.load mid := by
    rw [load, if_neg (first.stop_ne_next new_before), if_pos rfl]
  have back : (tailqInsertAt q head mid elm).tqe_prev elm = mid := by
    rw [prev, if_pos rfl]
  have follows := h.load_link here
  have kept : ∀ x ∈ before, q.load mid ≠ some x := by
    intro x member
    rw [follows]
    exact fun next => apart x member x (List.mem_of_head? next) rfl
  have first' := first.insertAt nodup_before new_before kept
  cases after with
  | nil =>
    have none : q.load mid = none := follows
    have last_here : (tailqInsertAt q head mid elm).tqh_last head = .next elm := by
      rw [last, if_pos ⟨rfl, none⟩]
    refine ⟨?_, ?_, nodup'⟩
    · rw [last_here]
      exact (segment_append _ _ _ _).mpr ⟨mid, first', at_link, back, rfl⟩
    · rw [last_here, behind]
      exact none
  | cons y after =>
    have some_y : q.load mid = some y := follows
    obtain ⟨_, _, tail⟩ := rest
    obtain ⟨new_y, nodup_tail⟩ := List.nodup_cons.mp nodup_after
    have not_elm : ∀ x ∈ y :: after, x ≠ elm := by
      rintro x member rfl
      exact new_after member
    have later : ∀ x ∈ y :: after,
        (tailqInsertAt q head mid elm).load (.next x) = q.load (.next x) := by
      intro x member
      have not_mid : Link.next x ≠ mid :=
        first.stop_ne_next fun inside => apart x inside x member rfl
      rw [load, if_neg not_mid, if_neg]
      exact fun same => not_elm x member (Link.next.inj same)
    have last_here : (tailqInsertAt q head mid elm).tqh_last head = q.tqh_last head := by
      rw [last, if_neg]
      exact fun both => by cases some_y.symm.trans both.2
    have prev_y : (tailqInsertAt q head mid elm).tqe_prev y = .next elm := by
      rw [prev, if_neg (not_elm y List.mem_cons_self), if_pos some_y]
    have tail' : Segment (tailqInsertAt q head mid elm) (.next y) after (q.tqh_last head) := by
      refine tail.congr ?_ ?_ ?_ nodup_tail
      · exact fun _ => later y List.mem_cons_self
      · exact fun x member _ => later x (List.mem_cons_of_mem _ member)
      · intro x member
        have not_next : q.load mid ≠ some x := by
          rw [some_y]
          rintro ⟨⟩
          exact new_y member
        rw [prev, if_neg (not_elm x (List.mem_cons_of_mem _ member)), if_neg not_next]
    refine ⟨?_, ?_, nodup'⟩
    · rw [last_here]
      exact (segment_append _ _ _ _).mpr
        ⟨mid, first', at_link, back, behind.trans some_y, prev_y, tail'⟩
    · rw [last_here, tail.load_stop (later y List.mem_cons_self) fun x member =>
        later x (List.mem_cons_of_mem _ member)]
      exact h.ended

theorem Chained.insertAt_other {other : η} {before after : List α} {link : Link η α}
    (h : Chained q head xs) (h' : Chained q other (before ++ after))
    (here : Segment q (.first other) before link) (apart : head ≠ other) {elm : α}
    (new : elm ∉ xs) :
    Chained (tailqInsertAt q other link elm) head xs := by
  obtain ⟨prev, last, _⟩ := insertAt_fields q other link elm
  have load := insertAt_load q other link elm
  have elsewhere : ∀ x ∈ xs, x ∉ before ++ after := fun x member inside =>
    apart (h.same_head h' member inside)
  have not_elm : ∀ x ∈ xs, x ≠ elm := by
    rintro x member rfl
    exact new member
  have follower : ∀ x ∈ xs, q.load link ≠ some x := by
    intro x member
    rw [h'.load_link here]
    intro first
    exact elsewhere x member (List.mem_append_right _ (List.mem_of_head? first))
  refine h.frame ?_ ?_ ?_ ?_
  · rw [last, if_neg (fun both => apart both.1)]
  · have not_link : Link.first head ≠ link := here.stop_ne_first fun same => absurd same apart
    rw [load, if_neg not_link, if_neg (fun same => by cases same)]
  · intro x member
    have not_link : Link.next x ≠ link :=
      here.stop_ne_next fun inside => elsewhere x member (List.mem_append_left _ inside)
    rw [load, if_neg not_link, if_neg]
    exact fun same => not_elm x member (Link.next.inj same)
  · intro x member
    rw [prev, if_neg (not_elm x member), if_neg (follower x member)]

private theorem insertTail_load (q : Tailqs η α) (head : η) (elm : α) (link : Link η α) :
    (tailqInsertTail q head elm).load link =
      if link = q.tqh_last head then some elm else if link = .next
        elm then none else q.load link := by
  simp only [tailqInsertTail, load_setNelem, load_setLast, load_store, load_setPrev]
  simp [Tailqs.setPrev]

theorem insertTail_fields (q : Tailqs η α) (head : η) (elm : α) :
    (tailqInsertTail q head elm).tqe_prev = Function.update q.tqe_prev elm (q.tqh_last head) ∧
    (tailqInsertTail q head elm).tqh_last = Function.update q.tqh_last head (.next elm) ∧
    (tailqInsertTail q head elm).nelem = Function.update q.nelem head (q.nelem head + 1) := by
  simp [tailqInsertTail, Tailqs.setNelem, Tailqs.setLast, Tailqs.setPrev]

private theorem Chained.insertTail_eq (h : Chained q head xs) (elm : α) :
    let q' := tailqInsertAt q head (q.tqh_last head) elm
    (∀ l, (tailqInsertTail q head elm).load l = q'.load l) ∧
    (∀ other, (tailqInsertTail q head elm).tqh_last other = q'.tqh_last other) ∧
    ∀ x, (tailqInsertTail q head elm).tqe_prev x = q'.tqe_prev x := by
  obtain ⟨prev, last, _⟩ := insertTail_fields q head elm
  obtain ⟨prev', last', _⟩ := insertAt_fields q head (q.tqh_last head) elm
  refine ⟨fun l => ?_, fun other => ?_, fun x => ?_⟩
  · rw [insertTail_load, insertAt_load, h.ended]
  · rw [last, last', h.ended, Function.update_apply]
    simp only [and_true]
  · rw [prev, prev', h.ended, Function.update_apply]
    rfl

theorem Chained.insertTail (h : Chained q head xs) {elm : α} (new : elm ∉ xs) :
    Chained (tailqInsertTail q head elm) head (xs ++ [elm]) := by
  obtain ⟨load, last, prev⟩ := h.insertTail_eq elm
  have whole : Chained q head (xs ++ []) := (List.append_nil xs).symm ▸ h
  have inserted := whole.insertAt h.linked ((List.append_nil xs).symm ▸ new)
  exact inserted.frame (last head) (load _) (fun x _ => load _) fun x _ => prev x

theorem Holds.insertTail (h : Holds q head xs) {elm : α} (new : elm ∉ xs) :
    Holds (tailqInsertTail q head elm) head (xs ++ [elm]) := by
  obtain ⟨_, _, nelem⟩ := insertTail_fields q head elm
  apply (h.chained.insertTail new).holds
  rw [nelem, Function.update_self, h.count, List.length_append, List.length_singleton,
    BitVec.ofNat_add]
  rfl

theorem Chained.insertTail_other {other : η} {ys : List α} (h : Chained q head xs)
    (h' : Chained q other ys) (apart : head ≠ other) {elm : α} (new : elm ∉ xs) :
    Chained (tailqInsertTail q other elm) head xs := by
  obtain ⟨load, last, prev⟩ := h'.insertTail_eq elm
  have whole : Chained q other (ys ++ []) := (List.append_nil ys).symm ▸ h'
  have inserted := h.insertAt_other whole h'.linked apart new
  exact inserted.frame (last head) (load _) (fun x _ => load _) fun x _ => prev x

theorem Holds.insertTail_other {other : η} {ys : List α} (h : Holds q head xs)
    (h' : Holds q other ys) (apart : head ≠ other) {elm : α} (new : elm ∉ xs) :
    Holds (tailqInsertTail q other elm) head xs := by
  obtain ⟨_, _, nelem⟩ := insertTail_fields q other elm
  apply (h.chained.insertTail_other h'.chained apart new).holds
  rw [nelem, Function.update_of_ne apart]
  exact h.count

theorem remove_load (q : Tailqs η α) (head : η) {elm : α} (apart : q.tqe_next elm ≠ some elm)
    (link : Link η α) : (tailqRemove q head elm).load link =
      if link = q.tqe_prev elm then q.tqe_next elm else q.load link := by
  rw [tailqRemove]
  cases next : q.tqe_next elm with
  | none =>
    have same : (q.setLast head (q.tqe_prev elm)).tqe_next elm = none := next
    simp only [load_setNelem, load_store, same, load_setLast]
    rfl
  | some follower =>
    have other : elm ≠ follower := by
      rintro rfl
      exact apart next
    have same : (q.setPrev follower (q.tqe_prev elm)).tqe_next elm = some follower := next
    have prev : (q.setPrev follower (q.tqe_prev elm)).tqe_prev elm = q.tqe_prev elm :=
      Function.update_of_ne other _ _
    simp only [load_setNelem, load_store, same, prev, load_setPrev]

theorem remove_fields (q : Tailqs η α) (head : η) (elm : α) :
    (∀ other, other ≠ head → (tailqRemove q head elm).tqh_last other = q.tqh_last other ∧
      (tailqRemove q head elm).nelem other = q.nelem other) ∧
    ∀ x, q.tqe_next elm ≠ some x → (tailqRemove q head elm).tqe_prev x = q.tqe_prev x := by
  rw [tailqRemove]
  cases q.tqe_next elm with
  | none =>
    refine ⟨fun other apart => ?_, fun x _ => ?_⟩
    · simp [Tailqs.setNelem, Tailqs.setLast, Function.update_of_ne apart]
    · simp [Tailqs.setNelem, Tailqs.setLast]
  | some follower =>
    refine ⟨fun other apart => ?_, fun x different => ?_⟩
    · simp [Tailqs.setNelem, Tailqs.setPrev, Function.update_of_ne apart]
    · have other : x ≠ follower := fun same => different (congrArg some same.symm)
      simp [Tailqs.setNelem, Tailqs.setPrev, Function.update_of_ne other]

theorem remove_own (q : Tailqs η α) (head : η) (elm : α) :
    (tailqRemove q head elm).nelem head = q.nelem head - 1 ∧
    (tailqRemove q head elm).tqh_last head =
      (if q.tqe_next elm = none then q.tqe_prev elm else q.tqh_last head) ∧
    ∀ x, q.tqe_next elm = some x → (tailqRemove q head elm).tqe_prev x = q.tqe_prev elm := by
  rw [tailqRemove]
  cases q.tqe_next elm with
  | none =>
    refine ⟨?_, ?_, fun x none => by cases none⟩
    · simp [Tailqs.setNelem, Tailqs.setLast]
    · simp [Tailqs.setNelem, Tailqs.setLast]
  | some follower =>
    refine ⟨?_, ?_, fun x next => ?_⟩
    · simp [Tailqs.setNelem, Tailqs.setPrev]
    · simp [Tailqs.setNelem, Tailqs.setPrev]
    · obtain rfl := Option.some.inj next
      simp [Tailqs.setNelem, Tailqs.setPrev]

omit [DecidableEq η] [DecidableEq α] in
theorem Chained.next_ne {before after : List α} {x : α}
    (h : Chained q head (before ++ x :: after)) :
    q.tqe_next x ≠ some x := by
  rw [h.next_eq]
  intro same
  exact (List.nodup_cons.mp (List.nodup_append.mp h.nodup).2.1).1 (List.mem_of_head? same)

theorem Chained.remove {before after : List α} {x : α} (h : Chained q head (before ++ x :: after)) :
    Chained (tailqRemove q head x) head (before ++ after) := by
  obtain ⟨mid, first, _, back, rest⟩ := (segment_append _ _ _ _).mp h.linked
  obtain ⟨nodup_before, nodup_rest, apart⟩ := List.nodup_append.mp h.nodup
  have nodup_after := (List.nodup_cons.mp nodup_rest).2
  have next := h.next_eq
  have load := remove_load q head h.next_ne
  obtain ⟨_, last, follower⟩ := remove_own q head x
  have prev := (remove_fields q head x).2
  rw [back] at load last follower
  have new : ∀ y ∈ after, y ∉ before := fun y member inside =>
    apart y inside y (List.mem_cons_of_mem _ member) rfl
  have nodup' : (before ++ after).Nodup := by
    refine List.nodup_append.mpr ⟨nodup_before, nodup_after, ?_⟩
    exact fun a ha b hb => apart a ha b (List.mem_cons_of_mem _ hb)
  have first' : Segment (tailqRemove q head x) (.first head) before mid := by
    refine first.congr ?_ ?_ ?_ nodup_before
    · exact fun some_elm => by rw [load, if_neg (first.stop_ne_first fun _ => some_elm)]
    · exact fun y _ other => by rw [load, if_neg other]
    · intro y member
      apply prev
      rw [next]
      exact fun head => new y (List.mem_of_head? head) member
  cases after with
  | nil =>
    have none : q.tqe_next x = none := next
    rw [if_pos none] at last
    refine ⟨?_, ?_, nodup'⟩
    · rw [last, List.append_nil]
      exact first'
    · rw [last, load, if_pos rfl]
      exact none
  | cons y after =>
    have follows : q.tqe_next x = some y := next
    rw [if_neg (by simp [follows])] at last
    obtain ⟨_, _, tail⟩ := rest
    have later : ∀ z ∈ y :: after, (tailqRemove q head x).load (.next z) = q.load (.next z) := by
      intro z member
      rw [load, if_neg (first.stop_ne_next (new z member))]
    refine ⟨?_, ?_, nodup'⟩
    · rw [last]
      refine (segment_append _ _ _ _).mpr ⟨mid, first', ?_, follower y follows, ?_⟩
      · rw [load, if_pos rfl]
        exact follows
      · obtain ⟨new_y, nodup_tail⟩ := List.nodup_cons.mp nodup_after
        refine tail.congr ?_ ?_ ?_ nodup_tail
        · exact fun _ => later y List.mem_cons_self
        · exact fun z member _ => later z (List.mem_cons_of_mem _ member)
        · intro z member
          apply prev
          rw [follows]
          rintro ⟨⟩
          exact new_y member
    · rw [last, tail.load_stop (later y List.mem_cons_self) fun z member =>
        later z (List.mem_cons_of_mem _ member)]
      exact h.ended

theorem Holds.remove {before after : List α} {x : α} (h : Holds q head (before ++ x :: after)) :
    Holds (tailqRemove q head x) head (before ++ after) := by
  have lengths : (before ++ x :: after).length = (before ++ after).length + 1 := by
    simp only [List.length_append, List.length_cons]
    omega
  apply h.chained.remove.holds
  rw [(remove_own q head x).1, h.count, lengths, BitVec.ofNat_add]
  exact BitVec.add_sub_cancel _ _

theorem Chained.remove_other {other : η} {before after : List α} {x : α} (h : Chained q head xs)
    (h' : Chained q other (before ++ x :: after)) (apart : head ≠ other) :
    Chained (tailqRemove q other x) head xs := by
  obtain ⟨mid, first, _, back, _⟩ := (segment_append _ _ _ _).mp h'.linked
  obtain ⟨fields, prev⟩ := remove_fields q other x
  have disjoint : ∀ y ∈ xs, y ∉ before ++ x :: after := fun y inside inside' =>
    apart (h.same_head h' inside inside')
  have load := remove_load q other h'.next_ne
  rw [back] at load
  refine h.frame (fields head apart).1 ?_ ?_ ?_
  · rw [load, if_neg (first.stop_ne_first fun same => absurd same apart)]
  · intro y member
    have new : y ∉ before := fun inside => disjoint y member (List.mem_append_left _ inside)
    rw [load, if_neg (first.stop_ne_next new)]
  · intro y member
    apply prev
    intro next
    rw [h'.next_eq] at next
    exact disjoint y member
      (List.mem_append_right _ (List.mem_cons_of_mem _ (List.mem_of_head? next)))

theorem Holds.remove_other {other : η} {before after : List α} {x : α} (h : Holds q head xs)
    (h' : Holds q other (before ++ x :: after)) (apart : head ≠ other) :
    Holds (tailqRemove q other x) head xs := by
  apply (h.chained.remove_other h'.chained apart).holds
  rw [((remove_fields q other x).1 head apart).2]
  exact h.count

theorem Chained.remove_next {before after : List α} {x : α}
    (h : Chained q head (before ++ x :: after)) :
    (tailqRemove q head x).tqe_next x = q.tqe_next x := by
  obtain ⟨mid, first, _, back, _⟩ := (segment_append _ _ _ _).mp h.linked
  have new : x ∉ before := fun member =>
    (List.nodup_append.mp h.nodup).2.2 x member x List.mem_cons_self rfl
  have load := remove_load q head h.next_ne (.next x)
  rw [back, if_neg (first.stop_ne_next new)] at load
  exact load

end Operations

end Algae.Rtl.Queue
