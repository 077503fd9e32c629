/- Byte strings of finite length: reads that fail outside of them, comparisons with a
   constant, and little-endian numbers. -/

import Mathlib.Data.List.Basic
import Mathlib.Data.List.TakeDrop
import Algae.Lib.ByteMemory

set_option autoImplicit false
set_option relaxedAutoImplicit false

namespace Algae.Lib.ByteImage

open Algae.Lib.ByteMemory (Byte)

def readBytes (s : List Byte) (n : Nat) : Option (List Byte) :=
  if n ≤ s.length then some (s.take n) else none

def leNat : List Byte → Nat
  | [] => 0
  | b :: s => b.toNat + 256 * leNat s

def leBytes : Nat → Nat → List Byte
  | 0, _ => []
  | n + 1, v => BitVec.ofNat 8 v :: leBytes n (v / 256)

def readLE (s : List Byte) (n : Nat) : Option Nat := (readBytes s n).map leNat

theorem readBytes_eq_some {s bytes : List Byte} {n : Nat} :
    readBytes s n = some bytes ↔ n ≤ s.length ∧ bytes = s.take n := by
  rw [readBytes]
  split
  · rename_i fits
    simp [fits, eq_comm]
  · rename_i short
    simp [short]

theorem readBytes_eq_none {s : List Byte} {n : Nat} : readBytes s n = none ↔ s.length < n := by
  simp [readBytes]

theorem readBytes_append {s : List Byte} {n : Nat} (fits : n ≤ s.length) (rest : List Byte) :
    readBytes (s ++ rest) n = some (s.take n) := by
  rw [readBytes, List.length_append, if_pos (by omega), List.take_append_of_le_length fits]

@[simp] theorem leBytes_length (n v : Nat) : (leBytes n v).length = n := by
  induction n generalizing v with
  | zero => rfl
  | succ n ih => rw [leBytes, List.length_cons, ih]

theorem leNat_leBytes (n v : Nat) : leNat (leBytes n v) = v % 256 ^ n := by
  induction n generalizing v with
  | zero => rw [leBytes, leNat, pow_zero, Nat.mod_one]
  | succ n ih =>
    have word : 2 ^ 8 = 256 := rfl
    rw [leBytes, leNat, ih, BitVec.toNat_ofNat, word, pow_succ, Nat.mul_comm (256 ^ n) 256,
      Nat.mod_mul]

theorem leNat_lt (s : List Byte) : leNat s < 256 ^ s.length := by
  induction s with
  | nil => exact Nat.one_pos
  | cons b s ih =>
    have head := b.isLt
    rw [leNat, List.length_cons, pow_succ]
    omega

/-- Comparing byte by byte up to the first difference; `none` is a read outside of `s`. -/
def startsWith (s : List Byte) : List Byte → Option Bool
  | [] => some true
  | b :: bs =>
    match s with
    | [] => none
    | a :: s => if a = b then startsWith s bs else some false

theorem startsWith_eq_true {s bs : List Byte} : startsWith s bs = some true ↔ bs <+: s := by
  induction bs generalizing s with
  | nil => simp [startsWith]
  | cons b bs ih =>
    cases s with
    | nil => simp [startsWith]
    | cons a s =>
      by_cases same : a = b
      · simp [startsWith, same, ih, List.cons_prefix_cons]
      · simp [startsWith, same, List.cons_prefix_cons, Ne.symm same]

private theorem startsWith_eq_none {s bs : List Byte} :
    startsWith s bs = none ↔ s <+: bs ∧ s ≠ bs := by
  induction bs generalizing s with
  | nil => simp [startsWith]
  | cons b bs ih =>
    cases s with
    | nil => simp [startsWith]
    | cons a s =>
      by_cases same : a = b
      · simp [startsWith, same, ih, List.cons_prefix_cons]
      · simp [startsWith, same, List.cons_prefix_cons]

theorem startsWith_eq_false {s bs : List Byte} : startsWith s bs = some false ↔ ¬bs <+: s ∧
    ¬s <+: bs := by
  have yes := @startsWith_eq_true s bs
  have out := @startsWith_eq_none s bs
  cases result : startsWith s bs with
  | none =>
    rw [result] at out
    simp [(out.mp rfl).1]
  | some found =>
    rw [result] at yes out
    cases found with
    | true => simp [yes.mp rfl]
    | false =>
      have not_leading : ¬bs <+: s := fun h => by cases yes.mpr h
      have not_short : ¬s <+: bs := by
        intro h
        by_cases same : s = bs
        · exact not_leading (same ▸ List.prefix_refl s)
        · cases out.mpr ⟨h, same⟩
      simp [not_leading, not_short]

end Algae.Lib.ByteImage
