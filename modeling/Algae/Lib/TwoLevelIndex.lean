/- Buckets indexed by a two-level bitmap: the word of a row has a bit for each bucket of the
   row that is in use, and one more word has a bit for each row with such a bucket. -/

import Mathlib.Data.List.Range
import Mathlib.Logic.Function.Basic
import Mathlib.Order.Basic

set_option autoImplicit false
set_option relaxedAutoImplicit false

namespace Algae.Lib.TwoLevelIndex

section Words

variable {w : Nat}

def lowestBit (word : BitVec w) : Option Nat := (List.range w).find? fun i => word.getLsbD i

def bitsFrom (word : BitVec w) (k : Nat) : BitVec w := word &&& (BitVec.allOnes w <<< k)

def withBit (word : BitVec w) (k : Nat) : BitVec w := word ||| (1#w <<< k)

def withoutBit (word : BitVec w) (k : Nat) : BitVec w := word &&& ~~~(1#w <<< k)

theorem lowestBit_eq_none {word : BitVec w} : lowestBit word = none ↔ word = 0 := by
  rw [lowestBit, List.find?_eq_none]
  constructor
  · intro clear
    apply BitVec.eq_of_getLsbD_eq
    intro i below
    have zero := clear i (List.mem_range.mpr below)
    simpa using zero
  · rintro rfl i _
    simp

theorem lowestBit_eq_some {word : BitVec w} {i : Nat} (found : lowestBit word = some i) :
    i < w ∧ word.getLsbD i = true ∧ ∀ j < i, word.getLsbD j = false := by
  obtain ⟨set, below, lower⟩ := List.find?_range_eq_some.mp found
  refine ⟨List.mem_range.mp below, set, fun j less => ?_⟩
  simpa using lower j less

theorem one_shift_getLsbD (k i : Nat) : (1#w <<< k).getLsbD i = decide (i < w ∧ i = k) := by
  rw [BitVec.getLsbD_shiftLeft, BitVec.getLsbD_one]
  by_cases same : i = k
  · subst same
    by_cases below : i < w
    · have some_bit : 0 < w := by omega
      simp [below, some_bit]
    · simp [below]
  · have apart : i < k ∨ ¬i - k = 0 := by omega
    rcases apart with low | high
    · simp [low, same]
    · simp [high, same]

theorem bitsFrom_getLsbD (word : BitVec w) (k i : Nat) :
    (bitsFrom word k).getLsbD i = (word.getLsbD i && decide (k ≤ i)) := by
  rw [bitsFrom, BitVec.getLsbD_and, BitVec.getLsbD_shiftLeft]
  by_cases below : i < w
  · by_cases high : k ≤ i
    · have inside : i - k < w := by omega
      simp [below, high, inside]
    · have low : i < k := by omega
      simp [below, high, low]
  · rw [BitVec.getLsbD_of_ge word i (by omega)]
    rfl

theorem withBit_getLsbD (word : BitVec w) (k i : Nat) :
    (withBit word k).getLsbD i = (word.getLsbD i || decide (i < w ∧ i = k)) := by
  rw [withBit, BitVec.getLsbD_or, one_shift_getLsbD]

theorem withoutBit_getLsbD (word : BitVec w) (k i : Nat) :
    (withoutBit word k).getLsbD i = (word.getLsbD i && decide (i ≠ k)) := by
  rw [withoutBit, BitVec.getLsbD_and, BitVec.getLsbD_not, one_shift_getLsbD]
  by_cases below : i < w
  · simp [below]
  · rw [BitVec.getLsbD_of_ge word i (by omega)]
    rfl

private theorem withBit_ne_zero (word : BitVec w) {k : Nat} (below : k < w) :
    withBit word k ≠ 0 := by
  intro zero
  have set := withBit_getLsbD word k k
  rw [zero] at set
  simp [below] at set

end Words

section Index

variable {n w : Nat}

def Reaches (i j a b : Nat) : Prop := i < a ∨ i = a ∧ j ≤ b

/-- The row word tells which of the first `count` rows have a bucket in use. -/
def Summary (count : Nat) (rows : BitVec n) (cells : Nat → BitVec w) : Prop :=
  ∀ i, rows.getLsbD i = true ↔ i < count ∧ cells i ≠ 0

def search (rows : BitVec n) (cells : Nat → BitVec w) (i j : Nat) : Option (Nat × Nat) :=
  match lowestBit (bitsFrom (cells i) j) with
  | some b => some (i, b)
  | none =>
    match lowestBit (bitsFrom rows (i + 1)) with
    | some a => (lowestBit (cells a)).map (a, ·)
    | none => none

variable {count : Nat} {rows : BitVec n} {cells : Nat → BitVec w}

private theorem row_clear {word : BitVec w} {j b : Nat} (none : lowestBit (bitsFrom word j) = none)
    (later : j ≤ b) :
    word.getLsbD b = false := by
  have zero := congrArg (BitVec.getLsbD · b) (lowestBit_eq_none.mp none)
  simpa [bitsFrom_getLsbD, later] using zero

theorem search_some (summary : Summary count rows cells) {i j a b : Nat} (row : i < count)
    (found : search rows cells i j = some (a, b)) :
    a < count ∧ b < w ∧ (cells a).getLsbD b = true ∧ Reaches i j a b ∧
      ∀ a' b', a' < count → (cells a').getLsbD b' = true → Reaches i j a' b' →
        Reaches a b a' b' := by
  rw [search] at found
  cases here : lowestBit (bitsFrom (cells i) j) with
  | some b' =>
    simp only [here, Option.some.injEq, Prod.mk.injEq] at found
    obtain ⟨rfl, rfl⟩ := found
    obtain ⟨below, set, lower⟩ := lowestBit_eq_some here
    rw [bitsFrom_getLsbD, Bool.and_eq_true, decide_eq_true_eq] at set
    refine ⟨row, below, set.1, Or.inr ⟨rfl, set.2⟩, ?_⟩
    rintro a c _ used (later | ⟨rfl, later⟩)
    · exact Or.inl later
    · refine Or.inr ⟨rfl, ?_⟩
      by_contra less
      have clear := lower c (by omega)
      simp [bitsFrom_getLsbD, used, later] at clear
  | none =>
    simp only [here] at found
    cases next : lowestBit (bitsFrom rows (i + 1)) with
    | none =>
      simp only [next] at found
      cases found
    | some a' =>
      simp only [next] at found
      obtain ⟨b', first, same⟩ := Option.map_eq_some_iff.mp found
      obtain ⟨rfl, rfl⟩ := Prod.mk.inj same
      obtain ⟨_, set, lower⟩ := lowestBit_eq_some next
      rw [bitsFrom_getLsbD, Bool.and_eq_true, decide_eq_true_eq] at set
      obtain ⟨inside, _⟩ := (summary _).mp set.1
      obtain ⟨below, used, first⟩ := lowestBit_eq_some first
      refine ⟨inside, below, used, Or.inl (by omega), ?_⟩
      intro c d inside' used' later
      rcases later with later | ⟨rfl, later⟩
      · rcases Nat.lt_trichotomy a' c with less | rfl | more
        · exact Or.inl less
        · refine Or.inr ⟨rfl, ?_⟩
          by_contra less
          rw [first d (by omega)] at used'
          cases used'
        · have nonzero : cells c ≠ 0 := by
            intro zero
            rw [zero] at used'
            simp at used'
          have row_set := (summary c).mpr ⟨inside', nonzero⟩
          have clear := lower c more
          simp [bitsFrom_getLsbD, row_set] at clear
          omega
      · rw [row_clear here later] at used'
        cases used'

theorem search_none (summary : Summary count rows cells) {i j : Nat}
    (failed : search rows cells i j = none) {a b : Nat} (inside : a < count)
    (used : (cells a).getLsbD b = true) : ¬Reaches i j a b := by
  rw [search] at failed
  cases here : lowestBit (bitsFrom (cells i) j) with
  | some b' => simp [here] at failed
  | none =>
    simp only [here] at failed
    rintro (later | ⟨rfl, later⟩)
    · have nonzero : cells a ≠ 0 := by
        intro zero
        rw [zero] at used
        simp at used
      have row_set := (summary a).mpr ⟨inside, nonzero⟩
      cases next : lowestBit (bitsFrom rows (i + 1)) with
      | none =>
        have clear := row_clear next (show i + 1 ≤ a from later)
        rw [row_set] at clear
        cases clear
      | some a' =>
        simp only [next, Option.map_eq_none_iff] at failed
        obtain ⟨_, set, _⟩ := lowestBit_eq_some next
        rw [bitsFrom_getLsbD, Bool.and_eq_true] at set
        exact ((summary a').mp set.1).2 (lowestBit_eq_none.mp failed)
    · rw [row_clear here later] at used
      cases used

theorem Summary.insert (summary : Summary count rows cells) {i j : Nat} (row : i < count)
    (wide : count ≤ n) (col : j < w) :
    Summary count (withBit rows i) (Function.update cells i (withBit (cells i) j)) := by
  intro k
  rw [withBit_getLsbD, Bool.or_eq_true, summary k, decide_eq_true_eq]
  by_cases same : k = i
  · subst same
    rw [Function.update_self]
    have nonzero := withBit_ne_zero (cells k) col
    constructor
    · exact fun _ => ⟨row, nonzero⟩
    · exact fun _ => Or.inr ⟨by omega, rfl⟩
  · rw [Function.update_of_ne same]
    simp [same]

theorem Summary.remove (summary : Summary count rows cells) (i j : Nat) :
    Summary count (if withoutBit (cells i) j = 0 then withoutBit rows i else rows)
      (Function.update cells i (withoutBit (cells i) j)) := by
  intro k
  by_cases same : k = i
  · subst same
    rw [Function.update_self]
    split
    · rename_i empty
      simp [withoutBit_getLsbD, empty]
    · rename_i some_left
      rw [summary k]
      refine and_congr_right fun _ => ⟨fun _ => some_left, ?_⟩
      rintro _ zero
      apply some_left
      rw [zero]
      exact BitVec.zero_and
  · rw [Function.update_of_ne same, ← summary k]
    split
    · simp [withoutBit_getLsbD, same]
    · rfl

end Index

section Classes

/-! Sizes in classes: row `i` divides its sizes, from `base i` on, into `count` classes of one
    width. -/

variable {base width : Nat → Nat} {count : Nat}

def lower (base width : Nat → Nat) (i j : Nat) : Nat := base i + j * width i

theorem base_mono (steps : ∀ i, base (i + 1) = base i + count * width i) {i a : Nat} (le : i ≤ a) :
    base i ≤ base a := by
  induction a, le using Nat.le_induction with
  | base => exact le_refl _
  | succ a _ ih =>
    have step := steps a
    omega

private theorem lower_next (steps : ∀ i, base (i + 1) = base i + count * width i) {i j a b : Nat}
    (col : j < count)
    (earlier : ¬Reaches a b i j) : lower base width i j + width i ≤ lower base width a b := by
  rw [lower, lower]
  rcases Nat.lt_trichotomy i a with less | rfl | more
  · have step := steps i
    have rows := base_mono steps (show i + 1 ≤ a from less)
    have cols : (j + 1) * width i ≤ count * width i := Nat.mul_le_mul_right _ col
    rw [Nat.add_one_mul] at cols
    omega
  · have less : j < b := by
      by_contra most
      exact earlier (Or.inr ⟨rfl, by omega⟩)
    have cols : (j + 1) * width i ≤ b * width i := Nat.mul_le_mul_right _ less
    rw [Nat.add_one_mul] at cols
    omega
  · exact absurd (Or.inl more) earlier

theorem lower_mono (steps : ∀ i, base (i + 1) = base i + count * width i) {i j a b : Nat}
    (col : j < count) (later : Reaches i j a b) : lower base width i j ≤ lower base width a b := by
  by_cases same : Reaches a b i j
  · have equal : i = a ∧ j = b := by
      unfold Reaches at later same
      omega
    rw [equal.1, equal.2]
  · have next := lower_next steps col same
    omega

theorem reaches_of_le (steps : ∀ i, base (i + 1) = base i + count * width i) {i j a b s t : Nat}
    (col : b < count) (low : lower base width i j ≤ s) (le : s ≤ t)
    (high : t < lower base width a b + width a) : Reaches i j a b := by
  by_contra earlier
  have next := lower_next steps col earlier
  omega

end Classes

end Algae.Lib.TwoLevelIndex
