/- Functions written point by point: what a sequence of writes leaves alone, and what it
   leaves where the writes agree. -/

import Mathlib.Logic.Function.Basic

set_option autoImplicit false
set_option relaxedAutoImplicit false

namespace Algae.Lib.PointWrites

variable {α β : Type} [DecidableEq α]

def writes (m : α → β) (ws : List (α × β)) : α → β :=
  ws.foldl (fun m w => Function.update m w.1 w.2) m

theorem writes_append (m : α → β) (ws vs : List (α × β)) :
    writes m (ws ++ vs) = writes (writes m ws) vs :=
  List.foldl_append

theorem writes_other {m : α → β} {ws : List (α × β)} {a : α} (other : ∀ w ∈ ws, w.1 ≠ a) :
    writes m ws a = m a := by
  induction ws generalizing m with
  | nil => rfl
  | cons w ws ih =>
    rw [List.forall_mem_cons] at other
    refine (ih other.2).trans ?_
    exact Function.update_of_ne (Ne.symm other.1) _ _

theorem writes_same {m : α → β} {ws : List (α × β)} {a : α} {c : β} (here : ∃ w ∈ ws, w.1 = a)
    (same : ∀ w ∈ ws, w.1 = a → w.2 = c) : writes m ws a = c := by
  induction ws generalizing m with
  | nil =>
    obtain ⟨w, member, _⟩ := here
    cases member
  | cons w ws ih =>
    rw [List.forall_mem_cons] at same
    change writes (Function.update m w.1 w.2) ws a = c
    by_cases later : ∃ w ∈ ws, w.1 = a
    · exact ih later same.2
    · obtain ⟨v, member, equal⟩ := here
      obtain rfl : v = w := by
        rcases List.mem_cons.mp member with first | rest
        · exact first
        · exact absurd ⟨v, rest, equal⟩ later
      rw [writes_other fun u inside same_point => later ⟨u, inside, same_point⟩, ← equal,
        Function.update_self]
      exact same.1 equal

end Algae.Lib.PointWrites
