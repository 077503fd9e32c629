/- Cursors that go round a number of places. -/

import Mathlib.Data.List.Chain
import Mathlib.Data.List.Nodup
import Mathlib.Data.List.Perm.Subperm
import Mathlib.Data.List.Range
import Mathlib.Data.Nat.ModEq

set_option autoImplicit false
set_option relaxedAutoImplicit false

namespace Algae.Lib.RoundRobin

def advance (n i : Nat) : Nat := if i + 1 ≥ n then 0 else i + 1

private theorem advance_eq_mod {n i : Nat} (inside : i < n) : advance n i = (i + 1) % n := by
  rw [advance]
  by_cases last : i + 1 ≥ n
  · have same : i + 1 = n := by omega
    rw [if_pos last, same, Nat.mod_self]
  · rw [if_neg last, Nat.mod_eq_of_lt (by omega)]

theorem advance_lt {n : Nat} (some_place : 0 < n) (i : Nat) : advance n i < n := by
  rw [advance]
  split <;> omega

private theorem chain_getElem {n : Nat} {places : List Nat}
    (chain : places.IsChain fun i j => j = advance n i) (inside : ∀ i ∈ places, i < n) (k : Nat)
    (short : k < places.length) :
    places[k] = (places.get ⟨0, Nat.zero_lt_of_lt short⟩ + k) % n := by
  induction k with
  | zero =>
    rw [Nat.add_zero, Nat.mod_eq_of_lt (inside _ (List.get_mem _ _))]
    rfl
  | succ k ih =>
    have here := ih (Nat.lt_of_succ_lt short)
    have step := List.isChain_iff_getElem.mp chain k short
    rw [step, advance_eq_mod (inside _ (List.getElem_mem _)), here, Nat.mod_add_mod, Nat.add_assoc]

theorem chain_perm {n : Nat} {places : List Nat}
    (chain : places.IsChain fun i j => j = advance n i) (inside : ∀ i ∈ places, i < n)
    (length : places.length = n) : places.Perm (List.range n) := by
  have distinct : places.Nodup := by
    rw [List.nodup_iff_injective_getElem]
    rintro ⟨i, short⟩ ⟨j, short'⟩ same
    change places[i] = places[j] at same
    rw [chain_getElem chain inside i short, chain_getElem chain inside j short'] at same
    have cursor : Nat.ModEq n i j := Nat.ModEq.add_left_cancel' _ same
    exact Fin.ext (cursor.eq_of_lt_of_lt (length ▸ short) (length ▸ short'))
  have within : places ⊆ List.range n := fun i member => List.mem_range.mpr (inside i member)
  refine (List.subperm_of_subset distinct within).perm_of_length_le ?_
  rw [List.length_range, length]

end Algae.Lib.RoundRobin
