/- Runs of free cells, the lowest-first search for one, and the ownership of
   cells by a changing list of extents. -/

import Mathlib.Data.List.Perm.Basic
import Mathlib.Data.Nat.Find
import Mathlib.Data.Set.BooleanAlgebra
import Mathlib.Order.Disjoint
import Mathlib.Order.BooleanAlgebra.Set
import Mathlib.Order.CompletePartialOrder

set_option autoImplicit false
set_option relaxedAutoImplicit false

namespace Algae.Lib.FirstFit

def FreeRun (free : Nat → Prop) (i n : Nat) : Prop := ∀ j, i ≤ j → j < i + n → free j

/-- The first run of `n` free cells below `bound` starts at `i`. -/
structure LowestRun (free : Nat → Prop) (n bound i : Nat) : Prop where
  run : FreeRun free i n
  fits : i + n ≤ bound
  lowest : ∀ k, k + n ≤ bound → FreeRun free k n → i ≤ k

/-- A left-to-right search for `n` free cells has looked at all cells below
`next`; the run it is in started at `start`, and no start below that works. -/
structure Searching (free : Nat → Prop) (n start next : Nat) : Prop where
  le : start ≤ next
  run : FreeRun free start (next - start)
  short : next - start < n
  skipped : ∀ k < start, ¬FreeRun free k n

theorem Searching.begin (free : Nat → Prop) {n : Nat} (h : 0 < n) : Searching free n 0 0 where
  le := le_rfl
  run := by intro j _ hj; omega
  short := by omega
  skipped := by intro k hk; omega

private theorem Searching.extend_run {free : Nat → Prop} {n start next : Nat}
    (h : Searching free n start next) (hfree : free next) :
    FreeRun free start (next + 1 - start) := by
  intro j low high
  have := h.le
  by_cases last : j = next
  · exact last ▸ hfree
  · exact h.run j low (by omega)

theorem Searching.grow {free : Nat → Prop} {n start next : Nat}
    (h : Searching free n start next) (hfree : free next) (short : next + 1 - start < n) :
    Searching free n start (next + 1) where
  le := Nat.le_succ_of_le h.le
  run := h.extend_run hfree
  short := short
  skipped := h.skipped

theorem Searching.found {free : Nat → Prop} {n start next bound : Nat}
    (h : Searching free n start next) (hfree : free next) (long : next + 1 - start = n)
    (hb : next < bound) : LowestRun free n bound start where
  run := long ▸ h.extend_run hfree
  fits := by have := h.le; omega
  lowest := by
    intro k _ hk
    by_contra lower
    exact h.skipped k (by omega) hk

theorem Searching.reset {free : Nat → Prop} {n start next : Nat}
    (h : Searching free n start next) (hused : ¬free next) :
    Searching free n (next + 1) (next + 1) where
  le := le_rfl
  run := by intro j _ hj; omega
  short := by have := h.short; omega
  skipped := by
    intro k hk hrun
    have := h.short
    by_cases below : k < start
    · exact h.skipped k below hrun
    · exact hused (hrun next (by omega) (by omega))

theorem Searching.exhausted {free : Nat → Prop} {n start bound : Nat}
    (h : Searching free n start bound) : ∀ k, k + n ≤ bound → ¬FreeRun free k n := by
  intro k hk
  have := h.short
  have := h.le
  exact h.skipped k (by omega)

theorem LowestRun.unique {free : Nat → Prop} {n bound i j : Nat}
    (hi : LowestRun free n bound i) (hj : LowestRun free n bound j) : i = j :=
  le_antisymm (hi.lowest j hj.fits hj.run) (hj.lowest i hi.fits hi.run)

section Lengths

variable {free : Nat → Prop} {m n bound i k : Nat}

theorem FreeRun.shorten (run : FreeRun free i n) (le : m ≤ n) : FreeRun free i m :=
  fun j low high => run j low (by omega)

theorem FreeRun.succ_iff : FreeRun free i (n + 1) ↔ FreeRun free i n ∧ free (i + n) := by
  constructor
  · intro run
    exact ⟨run.shorten (Nat.le_succ n), run (i + n) (by omega) (by omega)⟩
  · rintro ⟨run, last⟩ j low high
    by_cases here : j = i + n
    · exact here ▸ last
    · exact run j low (by omega)

theorem LowestRun.exists_le (fits : k + n ≤ bound) (run : FreeRun free k n) :
    ∃ i ≤ k, LowestRun free n bound i := by
  classical
  have found : ∃ i, i + n ≤ bound ∧ FreeRun free i n := ⟨k, fits, run⟩
  obtain ⟨inside, free_run⟩ := Nat.find_spec found
  exact ⟨Nat.find found, Nat.find_min' found ⟨fits, run⟩, free_run, inside,
    fun j inside run => Nat.find_min' found ⟨inside, run⟩⟩

private theorem LowestRun.lengthen (lowest : LowestRun free m bound i) (le : m ≤ n)
    (run : FreeRun free i n) (fits : i + n ≤ bound) : LowestRun free n bound i where
  run := run
  fits := fits
  lowest := fun k inside run => lowest.lowest k (by omega) (run.shorten le)

theorem LowestRun.agree_iff (le : m ≤ n) :
    (∀ i, LowestRun free m bound i ↔ LowestRun free n bound i) ↔
      ∀ i, LowestRun free m bound i → i + n ≤ bound ∧ FreeRun free i n := by
  constructor
  · intro same i lowest
    have long := (same i).mp lowest
    exact ⟨long.fits, long.run⟩
  · intro goes_on i
    constructor
    · intro lowest
      obtain ⟨fits, run⟩ := goes_on i lowest
      exact lowest.lengthen le run fits
    · intro long
      have short : i + m ≤ bound := by
        have := long.fits
        omega
      obtain ⟨j, _, lowest⟩ := LowestRun.exists_le short (long.run.shorten le)
      obtain ⟨fits, run⟩ := goes_on j lowest
      obtain rfl := (lowest.lengthen le run fits).unique long
      exact lowest

end Lengths

def span (start len : Nat) : Set Nat := {i | start ≤ i ∧ i < start + len}

theorem mem_span {start len i : Nat} : i ∈ span start len ↔ start ≤ i ∧ i < start + len := Iff.rfl

/-- Every used cell is reserved or belongs to exactly one live owner. -/
structure Ownership {α : Type} (cells : α → Set Nat) (reserved : Set Nat) (live : List α)
    (used : Set Nat) : Prop where
  used_iff : ∀ i, i ∈ used ↔ i ∈ reserved ∨ ∃ b ∈ live, i ∈ cells b
  apart : live.Pairwise fun b c => Disjoint (cells b) (cells c)
  unreserved : ∀ b ∈ live, Disjoint (cells b) reserved

section Owners

variable {α : Type} {cells : α → Set Nat} {reserved used : Set Nat} {live : List α}

theorem Ownership.nil (cells : α → Set Nat) (reserved : Set Nat) :
    Ownership cells reserved [] reserved where
  used_iff := by simp
  apart := List.Pairwise.nil
  unreserved := by simp

theorem Ownership.take (own : Ownership cells reserved live used) {b : α}
    (unused : Disjoint (cells b) used) :
    Ownership cells reserved (b :: live) (used ∪ cells b) where
  used_iff := by
    intro i
    simp only [Set.mem_union, own.used_iff, List.mem_cons, exists_eq_or_imp]
    rw [or_right_comm, or_assoc]
  apart := by
    refine List.pairwise_cons.mpr ⟨?_, own.apart⟩
    intro c hc
    refine unused.mono_right ?_
    intro i hi
    exact (own.used_iff i).mpr (Or.inr ⟨c, hc, hi⟩)
  unreserved := by
    intro c hc
    rcases List.mem_cons.mp hc with rfl | hc
    · refine unused.mono_right ?_
      intro i hi
      exact (own.used_iff i).mpr (Or.inl hi)
    · exact own.unreserved c hc

theorem Ownership.release [DecidableEq α] (own : Ownership cells reserved live used) {b : α}
    (hb : b ∈ live) : Ownership cells reserved (live.erase b) (used \ cells b) := by
  have perm := List.perm_cons_erase hb
  have apart : (b :: live.erase b).Pairwise fun b c => Disjoint (cells b) (cells c) :=
    (List.Perm.pairwise_iff (fun h => Disjoint.symm h) perm).mp own.apart
  obtain ⟨head, tail⟩ := List.pairwise_cons.mp apart
  refine ⟨?_, tail, fun c hc => own.unreserved c (List.mem_of_mem_erase hc)⟩
  intro i
  constructor
  · rintro ⟨hused, out⟩
    rcases (own.used_iff i).mp hused with hr | ⟨c, hc, hi⟩
    · exact Or.inl hr
    · rcases List.mem_cons.mp (perm.mem_iff.mp hc) with rfl | hc
      · exact absurd hi out
      · exact Or.inr ⟨c, hc, hi⟩
  · rintro (hr | ⟨c, hc, hi⟩)
    · exact ⟨(own.used_iff i).mpr (Or.inl hr),
        fun hi => Set.disjoint_left.mp (own.unreserved b hb) hi hr⟩
    · exact ⟨(own.used_iff i).mpr (Or.inr ⟨c, List.mem_of_mem_erase hc, hi⟩),
        fun hi' => Set.disjoint_left.mp (head c hc) hi' hi⟩

end Owners

end Algae.Lib.FirstFit
