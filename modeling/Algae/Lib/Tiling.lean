/- Pieces laid end to end: each one begins in the state in which the piece before it ends. What
   stands around a piece stays where it is when the piece is replaced. -/

import Mathlib.Data.List.Pairwise
import Mathlib.Order.Basic

set_option autoImplicit false
set_option relaxedAutoImplicit false

namespace Algae.Lib.Tiling

variable {α σ : Type} {start finish : α → σ}

def Path (start finish : α → σ) : σ → List α → σ → Prop
  | s, [], t => s = t
  | s, x :: xs, t => start x = s ∧ Path start finish (finish x) xs t

private theorem path_append {s t : σ} {xs ys : List α} :
    Path start finish s (xs ++ ys) t ↔ ∃ r, Path start finish s xs r ∧
      Path start finish r ys t := by
  induction xs generalizing s with
  | nil =>
    constructor
    · exact fun path => ⟨s, rfl, path⟩
    · rintro ⟨r, rfl, path⟩
      exact path
  | cons x xs ih =>
    rw [List.cons_append, Path, ih]
    constructor
    · rintro ⟨first, r, left, right⟩
      exact ⟨r, ⟨first, left⟩, right⟩
    · rintro ⟨r, ⟨first, left⟩, right⟩
      exact ⟨first, r, left, right⟩

theorem path_singleton {s t : σ} {x : α} : Path start finish s [x] t ↔ start x = s ∧ finish x = t :=
  Iff.rfl

theorem path_pair {s t : σ} {x y : α} :
    Path start finish s [x, y] t ↔ start x = s ∧ start y = finish x ∧ finish y = t :=
  Iff.rfl

theorem Path.next {s t : σ} {xs ys : List α} {x : α} (path : Path start finish s (xs ++ x :: ys) t)
    (more : finish x ≠ t) : ∃ y rest, ys = y :: rest ∧ start y = finish x := by
  obtain ⟨r, _, right⟩ := path_append.mp path
  cases ys with
  | nil => exact absurd right.2 more
  | cons y rest => exact ⟨y, rest, rfl, right.2.1⟩

theorem Path.previous {s t : σ} {xs ys : List α} {x : α}
    (path : Path start finish s (xs ++ x :: ys) t)
    (more : start x ≠ s) : ∃ front y, xs = front ++ [y] ∧ finish y = start x := by
  rcases List.eq_nil_or_concat xs with rfl | ⟨front, y, rfl⟩
  · exact absurd path.1 more
  · rw [List.concat_eq_append] at path ⊢
    refine ⟨front, y, rfl, ?_⟩
    rw [List.append_assoc, List.singleton_append] at path
    obtain ⟨r, _, right⟩ := path_append.mp path
    exact right.2.1.symm

theorem Path.replace {s t : σ} {xs mid mid' ys : List α} {y y' : α}
    (path : Path start finish s (xs ++ mid ++ y :: ys) t)
    (middle : ∀ r, Path start finish r mid (start y) → Path start finish r mid' (start y'))
    (leave : finish y' = finish y) : Path start finish s (xs ++ mid' ++ y' :: ys) t := by
  obtain ⟨r', left, right⟩ := path_append.mp path
  obtain ⟨r, left, inside⟩ := path_append.mp left
  obtain ⟨enter, rest⟩ := right
  rw [← enter] at inside
  refine path_append.mpr ⟨start y', path_append.mpr ⟨r, left, middle r inside⟩, rfl, ?_⟩
  rw [leave]
  exact rest

section Order

variable {ρ : Type} [Preorder ρ] (rank : σ → ρ)

private theorem Path.rank_le {s t : σ} {xs : List α} (path : Path start finish s xs t)
    (forth : ∀ x ∈ xs, rank (start x) ≤ rank (finish x)) : rank s ≤ rank t := by
  induction xs generalizing s with
  | nil =>
    cases path
    exact le_refl _
  | cons x xs ih =>
    obtain ⟨rfl, rest⟩ := path
    have later := ih rest fun y member => forth y (List.mem_cons_of_mem _ member)
    exact le_trans (forth x List.mem_cons_self) later

theorem Path.bounds {s t : σ} {xs : List α} (path : Path start finish s xs t)
    (forth : ∀ x ∈ xs, rank (start x) ≤ rank (finish x)) {x : α} (member : x ∈ xs) :
    rank s ≤ rank (start x) ∧ rank (finish x) ≤ rank t := by
  obtain ⟨front, back, rfl⟩ := List.append_of_mem member
  obtain ⟨r, left, enter, right⟩ := path_append.mp path
  subst enter
  constructor
  · exact left.rank_le rank fun y inside => forth y (List.mem_append_left _ inside)
  · exact right.rank_le rank fun y inside =>
      forth y (List.mem_append_right _ (List.mem_cons_of_mem _ inside))

theorem Path.pairwise {s t : σ} {xs : List α} (path : Path start finish s xs t)
    (forth : ∀ x ∈ xs, rank (start x) ≤ rank (finish x)) :
    xs.Pairwise fun x y => rank (finish x) ≤ rank (start y) := by
  induction xs generalizing s with
  | nil => exact List.Pairwise.nil
  | cons x xs ih =>
    have later : ∀ y ∈ xs, rank (start y) ≤ rank (finish y) := fun y member =>
      forth y (List.mem_cons_of_mem _ member)
    exact List.pairwise_cons.mpr
      ⟨fun y member => (path.2.bounds rank later member).1, ih path.2 later⟩

end Order

end Algae.Lib.Tiling
