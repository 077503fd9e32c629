/- Doubly linked lists threaded through their members, with one null at both ends whose own
   fields mean nothing. -/

import Mathlib.Data.List.Chain
import Mathlib.Data.List.Nodup

set_option autoImplicit false
set_option relaxedAutoImplicit false

namespace Algae.Lib.ThreadedList

section Chains

variable {α : Type} {R S : α → α → Prop}

private theorem isChain_congr {l : List α} (h : l.IsChain R)
    (keep : ∀ a ∈ l.dropLast, ∀ b ∈ l.tail, R a b → S a b) : l.IsChain S := by
  induction l with
  | nil => exact List.isChain_nil
  | cons a l ih =>
    cases l with
    | nil => exact List.isChain_singleton a
    | cons b l =>
      obtain ⟨first, rest⟩ := List.isChain_cons_cons.mp h
      refine List.isChain_cons_cons.mpr ⟨keep a (by simp) b (by simp) first, ih rest ?_⟩
      intro c member d member'
      exact keep c (by simp [member]) d (List.mem_cons_of_mem _ member')

end Chains

variable {α : Type} {next prev next' prev' : α → α} {null : α}

def Linked (next prev : α → α) (null x y : α) : Prop :=
  (x ≠ null → next x = y) ∧ (y ≠ null → prev y = x)

def Threaded (next prev : α → α) (null : α) (xs : List α) : Prop :=
  (null :: (xs ++ [null])).IsChain (Linked next prev null)

theorem threaded_nil : Threaded next prev null [] :=
  List.isChain_cons_cons.mpr
    ⟨⟨fun no => absurd rfl no, fun no => absurd rfl no⟩, List.isChain_singleton _⟩

theorem Threaded.congr {xs : List α} (h : Threaded next prev null xs)
    (nexts : ∀ x ∈ xs, next' x = next x)
    (prevs : ∀ x ∈ xs, prev' x = prev x) : Threaded next' prev' null xs := by
  refine isChain_congr h fun x member y member' linked => ⟨fun real => ?_, fun real => ?_⟩
  · have inside : x ∈ xs := by
      rw [← List.cons_append, List.dropLast_concat] at member
      exact (List.mem_cons.mp member).resolve_left real
    exact (nexts x inside).trans (linked.1 real)
  · have inside : y ∈ xs := by
      rw [List.tail_cons] at member'
      exact (List.mem_append.mp member').resolve_right fun last => real (List.mem_singleton.mp last)
    exact (prevs y inside).trans (linked.2 real)

private theorem ends_head (null : α) (xs : List α) : ∃ rest, xs ++ [null] = xs.headD null :: rest ∧
    ∀ x ∈ rest, x ≠ null → x ∈ xs.tail := by
  cases xs with
  | nil => exact ⟨[], rfl, fun _ none => by cases none⟩
  | cons x xs =>
    refine ⟨xs ++ [null], rfl, fun y member other => ?_⟩
    rcases List.mem_append.mp member with inside | last
    · exact inside
    · exact absurd (List.mem_singleton.mp last) other

private theorem ends_last (null : α) (xs : List α) :
    ∃ front, null :: xs = front ++ [xs.getLastD null] ∧
    ∀ x ∈ front, x ≠ null → x ∈ xs.dropLast := by
  rcases List.eq_nil_or_concat xs with rfl | ⟨ys, y, rfl⟩
  · exact ⟨[], rfl, fun _ none => by cases none⟩
  · refine ⟨null :: ys, by simp, fun x member other => ?_⟩
    rcases List.mem_cons.mp member with same | inside
    · exact absurd same other
    · simpa using inside

theorem Threaded.neighbours {before after : List α} {x : α}
    (h : Threaded next prev null (before ++ x :: after))
    (real : x ≠ null) : prev x = before.getLastD null ∧ next x = after.headD null := by
  obtain ⟨front, split, _⟩ := ends_last null before
  obtain ⟨rest, split', _⟩ := ends_head null after
  rw [Threaded, List.append_assoc, List.cons_append, ← List.cons_append, split, split',
    List.append_assoc, List.singleton_append] at h
  obtain ⟨_, left, right⟩ := List.isChain_append_cons_cons.mp h
  exact ⟨left.2 real, (List.isChain_cons_cons.mp right).1.1 real⟩

theorem Threaded.push {xs : List α} (h : Threaded next prev null xs) (nodup : xs.Nodup) {b : α}
    (next_b : next' b = xs.headD null) (prev_b : prev' b = null)
    (prev_head : xs.headD null ≠ null → prev' (xs.headD null) = b)
    (nexts : ∀ x ∈ xs, next' x = next x) (prevs : ∀ x ∈ xs, x ≠ xs.headD null → prev' x = prev x) :
    Threaded next' prev' null (b :: xs) := by
  obtain ⟨rest, split, tail⟩ := ends_head null xs
  rw [Threaded, split] at h
  rw [Threaded, List.cons_append, split]
  refine List.isChain_cons_cons.mpr ⟨⟨fun no => absurd rfl no, fun _ => prev_b⟩, ?_⟩
  refine List.isChain_cons_cons.mpr ⟨⟨fun _ => next_b, prev_head⟩, ?_⟩
  refine isChain_congr (List.isChain_cons_cons.mp h).2 fun x member y member' linked => ?_
  have inside : x ∈ xs := by
    have last : (xs ++ [null]).dropLast = xs := List.dropLast_concat
    rw [← split, last] at member
    exact member
  refine ⟨fun real => (nexts x inside).trans (linked.1 real), fun real => ?_⟩
  have later := tail y member' real
  refine (prevs y (List.mem_of_mem_tail later) ?_).trans (linked.2 real)
  cases xs with
  | nil => cases later
  | cons z xs =>
    rintro rfl
    exact (List.nodup_cons.mp nodup).1 later

theorem Threaded.unlink {before after : List α} {x : α}
    (h : Threaded next prev null (before ++ x :: after))
    (nodup : (null :: (before ++ x :: after)).Nodup)
    (next_p : before.getLastD null ≠ null → next' (before.getLastD null) = after.headD null)
    (prev_n : after.headD null ≠ null → prev' (after.headD null) = before.getLastD null)
    (nexts : ∀ y ∈ before ++ after, y ≠ before.getLastD null → next' y = next y)
    (prevs : ∀ y ∈ before ++ after, y ≠ after.headD null → prev' y = prev y) :
    Threaded next' prev' null (before ++ after) := by
  obtain ⟨front, split, early⟩ := ends_last null before
  obtain ⟨rest, split', late⟩ := ends_head null after
  rw [Threaded, List.append_assoc, List.cons_append, ← List.cons_append, split, split',
    List.append_assoc, List.singleton_append] at h
  rw [Threaded, List.append_assoc, ← List.cons_append, split, split', List.append_assoc,
    List.singleton_append]
  obtain ⟨left, _, right⟩ := List.isChain_append_cons_cons.mp h
  have right := (List.isChain_cons_cons.mp right).2
  obtain ⟨fresh, nodup⟩ := List.nodup_cons.mp nodup
  obtain ⟨nodup_before, nodup_after, apart⟩ := List.nodup_append.mp nodup
  have nodup_after := (List.nodup_cons.mp nodup_after).2
  refine List.isChain_append_cons_cons.mpr ⟨?_, ⟨next_p, prev_n⟩, ?_⟩
  · refine isChain_congr left fun y member z member' linked => ?_
    have y_front : y ∈ front := by
      have last : (front ++ [before.getLastD null]).dropLast = front := List.dropLast_concat
      rw [last] at member
      exact member
    have z_inside : z ∈ before := by
      rw [← split] at member'
      exact member'
    refine ⟨fun real => ?_, fun real => ?_⟩
    · have y_early := early y y_front real
      refine (nexts y (List.mem_append_left _ (List.dropLast_subset _ y_early)) ?_).trans
        (linked.1 real)
      rintro rfl
      rcases List.eq_nil_or_concat before with rfl | ⟨ys, p, rfl⟩
      · cases y_early
      · simp only [List.concat_eq_append, List.getLastD_concat, List.dropLast_concat]
          at y_early nodup_before
        exact (List.nodup_append.mp nodup_before).2.2 p y_early p List.mem_cons_self rfl
    · refine (prevs z (List.mem_append_left _ z_inside) ?_).trans (linked.2 real)
      rintro rfl
      cases after with
      | nil => exact real rfl
      | cons n after =>
        exact apart n z_inside n (List.mem_cons_of_mem _ List.mem_cons_self) rfl
  · refine isChain_congr right fun y member z member' linked => ?_
    have y_inside : y ∈ after := by
      have last : (after ++ [null]).dropLast = after := List.dropLast_concat
      rw [← split', last] at member
      exact member
    refine ⟨fun real => ?_, fun real => ?_⟩
    · refine (nexts y (List.mem_append_right _ y_inside) ?_).trans (linked.1 real)
      rintro rfl
      rcases List.eq_nil_or_concat before with rfl | ⟨ys, p, rfl⟩
      · exact real rfl
      · simp only [List.concat_eq_append, List.getLastD_concat] at y_inside
        exact apart p (by simp) p (List.mem_cons_of_mem _ y_inside) rfl
    · have z_late := late z member' real
      refine (prevs z (List.mem_append_right _ (List.mem_of_mem_tail z_late)) ?_).trans
        (linked.2 real)
      cases after with
      | nil => cases z_late
      | cons n after =>
        rintro rfl
        exact (List.nodup_cons.mp nodup_after).1 z_late

end Algae.Lib.ThreadedList
