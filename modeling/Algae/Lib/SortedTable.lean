/- Tables ordered by a key: the last entry whose key is at most a bound. -/

import Mathlib.Order.Lattice

set_option autoImplicit false
set_option relaxedAutoImplicit false

namespace Algae.Lib.SortedTable

variable {κ β : Type} [LinearOrder κ] (key : β → κ)

def lastAtMost (table : List β) (k : κ) : Option β := (table.filter fun b => key b ≤ k).getLast?

variable {key} {table : List β} {k : κ}

theorem lastAtMost_eq_none : lastAtMost key table k = none ↔ ∀ b ∈ table, k < key b := by
  rw [lastAtMost, List.getLast?_eq_none_iff, List.filter_eq_nil_iff]
  simp only [decide_eq_true_eq, not_le]

theorem lastAtMost_split {b : β} (found : lastAtMost key table k = some b) :
    ∃ before after, table = before ++ b :: after ∧ key b ≤ k ∧ ∀ c ∈ after, k < key c := by
  induction table with
  | nil => cases found
  | cons c table ih =>
    cases rest : lastAtMost key table k with
    | some d =>
      have same : lastAtMost key (c :: table) k = some d := by
        unfold lastAtMost at rest ⊢
        rw [List.filter_cons]
        split
        · rw [List.getLast?_cons, rest, Option.getD_some]
        · exact rest
      obtain rfl := Option.some.inj (found.symm.trans same)
      obtain ⟨before, after, split, bound, larger⟩ := ih rest
      exact ⟨c :: before, after, congrArg (c :: ·) split, bound, larger⟩
    | none =>
      have larger := lastAtMost_eq_none.mp rest
      unfold lastAtMost at rest found
      rw [List.filter_cons] at found
      split at found
      · rename_i bound
        rw [List.getLast?_cons, rest, Option.getD_none] at found
        obtain rfl := Option.some.inj found
        exact ⟨[], table, rfl, of_decide_eq_true bound, larger⟩
      · rw [rest] at found
        cases found

theorem filter_sorted (sorted : table.Pairwise fun b c => key b ≤ key c) :
    (table.filter fun b => key b ≤ k) = table.takeWhile fun b => key b ≤ k := by
  induction table with
  | nil => rfl
  | cons b table ih =>
    obtain ⟨first, sorted⟩ := List.pairwise_cons.mp sorted
    by_cases bound : key b ≤ k
    · rw [List.filter_cons_of_pos (by simpa using bound),
        List.takeWhile_cons_of_pos (by simpa using bound), ih sorted]
    · rw [List.filter_cons_of_neg (by simpa using bound),
        List.takeWhile_cons_of_neg (by simpa using bound), List.filter_eq_nil_iff]
      intro c member
      simp only [decide_eq_true_eq, not_le]
      exact (not_le.mp bound).trans_le (first c member)

end Algae.Lib.SortedTable
