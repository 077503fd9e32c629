/- Buffers that remember how far they have been written to: texts laid over the first cells,
   and the loop that turns the order of some cells around. -/

import Mathlib.Data.List.GetD
import Mathlib.Data.List.Induction

set_option autoImplicit false
set_option relaxedAutoImplicit false

namespace Algae.Lib.CellBuffer

variable {α : Type}

/-- Every index that was written to is below `extent`. -/
@[ext] structure Buffer (α : Type) where
  items : List α
  extent : Nat
  deriving DecidableEq

def Buffer.set (b : Buffer α) (i : Nat) (c : α) : Buffer α where
  items := b.items.set i c
  extent := max b.extent (i + 1)

def Buffer.get [Inhabited α] (b : Buffer α) (i : Nat) : α := b.items.getD i default

def Buffer.overlay (b : Buffer α) (text : List α) : Buffer α where
  items := text ++ b.items.drop text.length
  extent := max b.extent text.length

/-- Exchange the outermost of the cells from `j` to `i`, and so on inwards. -/
def swapEnds [Inhabited α] (j i : Nat) (b : Buffer α) : Buffer α :=
  if j < i then
    let tmp := b.get j
    swapEnds (j + 1) (i - 1) ((b.set j (b.get i)).set i tmp)
  else
    b
termination_by i - j

@[simp] theorem Buffer.set_extent (b : Buffer α) (i : Nat) (c : α) :
    (b.set i c).extent = max b.extent (i + 1) := rfl

@[simp] theorem Buffer.overlay_items (b : Buffer α) (text : List α) :
    (b.overlay text).items = text ++ b.items.drop text.length := rfl

@[simp] theorem Buffer.overlay_extent (b : Buffer α) (text : List α) :
    (b.overlay text).extent = max b.extent text.length := rfl

@[simp] theorem Buffer.overlay_nil (b : Buffer α) : b.overlay [] = b := by
  ext1
  · rfl
  · exact Nat.max_eq_left (Nat.zero_le _)

theorem Buffer.length_overlay (b : Buffer α) {text : List α} (fits : text.length ≤ b.items.length) :
    (b.overlay text).items.length = b.items.length := by
  rw [Buffer.overlay_items, List.length_append, List.length_drop]
  omega

private theorem Buffer.set_cons {b : Buffer α} {front back : List α} {x : α}
    (items : b.items = front ++ x :: back) (c : α) :
    (b.set front.length c).items = front ++ c :: back := by
  rw [Buffer.set, items, List.set_append_right _ _ (Nat.le_refl _), Nat.sub_self,
    List.set_cons_zero]

private theorem Buffer.get_cons [Inhabited α] {b : Buffer α} {front back : List α} {x : α}
    (items : b.items = front ++ x :: back) : b.get front.length = x := by
  rw [Buffer.get, items, List.getD_append_right _ _ _ _ (Nat.le_refl _), Nat.sub_self,
    List.getD_cons_zero]

theorem Buffer.overlay_set (b : Buffer α) (front back : List α) (x c : α) :
    (b.overlay (front ++ x :: back)).set front.length c = b.overlay (front ++ c :: back) := by
  have length : (front ++ c :: back).length = (front ++ x :: back).length := by
    rw [List.length_append, List.length_append, List.length_cons, List.length_cons]
  have items : (b.overlay (front ++ x :: back)).items =
      front ++ x :: (back ++ b.items.drop (front ++ x :: back).length) := by
    rw [Buffer.overlay_items, List.append_assoc, List.cons_append]
  ext1
  · rw [Buffer.set_cons items, Buffer.overlay_items, length, List.append_assoc, List.cons_append]
  · rw [Buffer.set_extent, Buffer.overlay_extent, Buffer.overlay_extent, length, List.length_append,
      List.length_cons]
    omega

theorem Buffer.overlay_push (b : Buffer α) {text : List α} (room : text.length < b.items.length)
    (c : α) :
    (b.overlay text).set text.length c = b.overlay (text ++ [c]) := by
  have items : (b.overlay text).items =
      text ++ b.items[text.length] :: b.items.drop (text.length + 1) := by
    rw [Buffer.overlay_items, List.drop_eq_getElem_cons room]
  ext1
  · rw [Buffer.set_cons items, Buffer.overlay_items, List.length_append, List.length_singleton,
      List.append_assoc, List.singleton_append]
  · rw [Buffer.set_extent, Buffer.overlay_extent, Buffer.overlay_extent, List.length_append,
      List.length_singleton]
    omega

private theorem swapEnds_stop [Inhabited α] (b : Buffer α) {j i : Nat} (met : ¬j < i) :
    swapEnds j i b = b := by
  rw [swapEnds, if_neg met]

private theorem swapEnds_eq [Inhabited α] (mid : List α) {front back : List α}
    {b : Buffer α} {i : Nat}
    (items : b.items = front ++ mid ++ back) (last : i + 1 = front.length + mid.length)
    (written : i < b.extent) :
    swapEnds front.length i b = ⟨front ++ mid.reverse ++ back, b.extent⟩ := by
  induction mid using List.bidirectionalRec generalizing front back b i with
  | nil =>
    rw [List.length_nil] at last
    rw [swapEnds_stop _ (by omega), List.reverse_nil, ← items]
  | singleton x =>
    rw [List.length_singleton] at last
    rw [swapEnds_stop _ (by omega), List.reverse_singleton, ← items]
  | cons_append x l y ih =>
    rw [List.length_cons, List.length_append, List.length_singleton] at last
    have first : b.items = front ++ x :: (l ++ y :: back) := by
      rw [items]
      simp
    have other : b.items = (front ++ x :: l) ++ y :: back := by
      rw [items]
      simp
    have at_i : i = (front ++ x :: l).length := by
      rw [List.length_append, List.length_cons]
      omega
    have at_i' : i = (front ++ y :: l).length := at_i.trans (by simp)
    have swapped :
        ((b.set front.length (b.get i)).set i x).items = (front ++ [y]) ++ l ++ (x :: back) := by
      have exchanged : (b.set front.length y).items = (front ++ y :: l) ++ y :: back := by
        rw [Buffer.set_cons first]
        simp
      have second : ((b.set front.length y).set i x).items = (front ++ y :: l) ++ x :: back := by
        rw [at_i']
        exact Buffer.set_cons exchanged x
      rw [show b.get i = y by rw [at_i]; exact Buffer.get_cons other, second]
      simp
    have rest := ih (i := i - 1) swapped (by
      rw [List.length_append, List.length_singleton]
      omega) (by
      rw [Buffer.set_extent, Buffer.set_extent]
      omega)
    rw [List.length_append, List.length_singleton] at rest
    rw [swapEnds, if_pos (by omega), Buffer.get_cons first]
    refine rest.trans (Buffer.ext ?_ ?_)
    · simp
    · simp only [Buffer.set_extent]
      omega

theorem swapEnds_overlay [Inhabited α] (b : Buffer α) {mid back : List α} (nonempty : mid ≠ []) :
    swapEnds 0 (mid.length - 1) (b.overlay (mid ++ back)) = b.overlay (mid.reverse ++ back) := by
  have positive := List.length_pos_iff.mpr nonempty
  have items :
      (b.overlay (mid ++ back)).items = [] ++ mid ++
        (back ++ b.items.drop (mid ++ back).length) := by
    rw [Buffer.overlay_items, List.nil_append, List.append_assoc]
  have length : (mid.reverse ++ back).length = (mid ++ back).length := by
    rw [List.length_append, List.length_append, List.length_reverse]
  have result := swapEnds_eq mid items (i := mid.length - 1) (by
    rw [List.length_nil]
    omega) (by
    rw [Buffer.overlay_extent, List.length_append]
    omega)
  refine result.trans (Buffer.ext ?_ ?_)
  · rw [Buffer.overlay_items, length, List.nil_append, List.append_assoc]
  · rw [Buffer.overlay_extent, Buffer.overlay_extent, length]

end Algae.Lib.CellBuffer
