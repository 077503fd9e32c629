/- Stacks that grow down in a memory of words, `d` being the distance between two
   neighbouring ones, and the saving of registers on such a stack. -/

import Mathlib.Algebra.Group.Basic
import Mathlib.Data.List.Nodup
import Mathlib.Logic.Function.Basic
import Mathlib.Tactic.Abel

set_option autoImplicit false
set_option relaxedAutoImplicit false

namespace Algae.Lib.WordStack

variable {α β ρ : Type} [AddCommGroup α] (d : α)

def Words (m : α → β) (a : α) : List β → Prop
  | [] => True
  | w :: ws => m a = w ∧ Words m (a + d) ws

def Apart (n : Nat) : Prop := ∀ k, 0 < k → k ≤ n → k • d ≠ 0

variable {d}

theorem Words.get {m : α → β} {a : α} {ws : List β} (h : Words d m a ws) {i : Nat}
    (hi : i < ws.length) :
    m (a + i • d) = ws[i] := by
  induction ws generalizing a i with
  | nil => cases hi
  | cons w ws ih =>
    cases i with
    | zero => rw [zero_nsmul, add_zero]; exact h.1
    | succ i =>
      have next : a + (i + 1) • d = a + d + i • d := by rw [succ_nsmul]; abel
      rw [next]
      exact ih h.2 (Nat.lt_of_succ_lt_succ hi)

theorem words_append {m : α → β} {a : α} {ws vs : List β} :
    Words d m a (ws ++ vs) ↔ Words d m a ws ∧ Words d m (a + ws.length • d) vs := by
  induction ws generalizing a with
  | nil => simp [Words]
  | cons w ws ih =>
    have next : a + (ws.length + 1) • d = a + d + ws.length • d := by rw [succ_nsmul]; abel
    rw [List.cons_append, Words, Words, ih, List.length_cons, next, and_assoc]

variable [DecidableEq α]

theorem Words.update {m : α → β} {a : α} {ws : List β} {n : Nat} (apart : Apart d n)
    (h : Words d m a ws) {k : Nat} (low : 0 < k) (high : k + ws.length ≤ n + 1) (w : β) :
    Words d (Function.update m (a - k • d) w) a ws := by
  induction ws generalizing a k with
  | nil => trivial
  | cons v ws ih =>
    rw [List.length_cons] at high
    have other : a ≠ a - k • d := by
      intro same
      exact apart k low (by omega) (sub_eq_self.mp same.symm)
    have next : a - k • d = a + d - (k + 1) • d := by rw [succ_nsmul]; abel
    refine ⟨by rw [Function.update_of_ne other]; exact h.1, ?_⟩
    rw [next]
    exact ih h.2 (by omega) (by omega)

structure Stack (α β : Type) where
  mem : α → β
  top : α

def Stack.push (d : α) (s : Stack α β) (w : β) : Stack α β :=
  ⟨Function.update s.mem (s.top - d) w, s.top - d⟩

theorem Words.push {s : Stack α β} {ws : List β} {n : Nat} (apart : Apart d n)
    (h : Words d s.mem s.top ws) (room : ws.length ≤ n) (w : β) :
    Words d (s.push d w).mem (s.push d w).top (w :: ws) := by
  refine ⟨Function.update_self _ _ _, ?_⟩
  have kept := h.update apart Nat.one_pos (by omega) w
  rw [one_nsmul] at kept
  rw [Stack.push, sub_add_cancel]
  exact kept

def Stack.save (d : α) (reg : ρ → β) (s : Stack α β) (rs : List ρ) : Stack α β :=
  rs.foldl (fun s r => s.push d (reg r)) s

theorem Stack.save_words (reg : ρ → β) {s : Stack α β} {ws : List β} {n : Nat} (apart : Apart d n)
    (h : Words d s.mem s.top ws) {rs : List ρ} (room : rs.length + ws.length ≤ n + 1) :
    Words d (s.save d reg rs).mem (s.save d reg rs).top (rs.reverse.map reg ++ ws) := by
  induction rs generalizing s ws with
  | nil => exact h
  | cons r rs ih =>
    rw [List.length_cons] at room
    have pushed := h.push apart (by omega) (reg r)
    have rest := ih pushed (by rw [List.length_cons]; omega)
    rw [List.reverse_cons, List.map_append, List.append_assoc]
    exact rest

theorem Stack.save_top (reg : ρ → β) (s : Stack α β) (rs : List ρ) :
    (s.save d reg rs).top = s.top - rs.length • d := by
  induction rs generalizing s with
  | nil => simp [Stack.save]
  | cons r rs ih =>
    have here : s.save d reg (r :: rs) = (s.push d (reg r)).save d reg rs := rfl
    rw [here, ih, Stack.push, List.length_cons, succ_nsmul, sub_sub, add_comm d]

variable [DecidableEq ρ]

def restore (d : α) (m : α → β) (reg : ρ → β) (top : α) : List ρ → (ρ → β) × α
  | [] => (reg, top)
  | r :: rs => restore d m (Function.update reg r (m top)) (top + d) rs

omit [DecidableEq α] in
theorem restore_top (m : α → β) (reg : ρ → β) (top : α) (rs : List ρ) :
    (restore d m reg top rs).2 = top + rs.length • d := by
  induction rs generalizing reg top with
  | nil => simp [restore]
  | cons r rs ih =>
    rw [restore, ih, List.length_cons, succ_nsmul]
    abel

omit [DecidableEq α] in
private theorem restore_other (m : α → β) (reg : ρ → β) (top : α) {rs : List ρ} {r : ρ}
    (h : r ∉ rs) :
    (restore d m reg top rs).1 r = reg r := by
  induction rs generalizing reg top with
  | nil => rfl
  | cons r' rs ih =>
    obtain ⟨other, rest⟩ := not_or.mp (fun member => h (List.mem_cons.mpr member))
    rw [restore, ih _ _ rest, Function.update_of_ne other]

omit [DecidableEq α] in
theorem restore_words {m : α → β} {top : α} {rs : List ρ} {value : ρ → β} (nodup : rs.Nodup)
    (h : Words d m top (rs.map value)) (reg : ρ → β) {r : ρ} (member : r ∈ rs) :
    (restore d m reg top rs).1 r = value r := by
  induction rs generalizing reg top with
  | nil => cases member
  | cons r' rs ih =>
    obtain ⟨new, nodup⟩ := List.nodup_cons.mp nodup
    rcases List.mem_cons.mp member with rfl | member
    · rw [restore, restore_other _ _ _ new, Function.update_self]
      exact h.1
    · exact ih nodup h.2 _ member

end Algae.Lib.WordStack
