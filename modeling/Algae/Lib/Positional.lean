/- Positional numerals over an alphabet of digits: the number that a text spells, and the only
   text without needless zeros that spells a number. -/

import Mathlib.Data.Nat.Digits.Lemmas

set_option autoImplicit false
set_option relaxedAutoImplicit false

namespace Algae.Lib.Positional

structure Alphabet (γ : Type) where
  base : Nat
  char : Nat → γ
  digit : γ → Option Nat
  large : 1 < base
  digit_char : ∀ d < base, digit (char d) = some d
  char_digit : ∀ c d, digit c = some d → d < base ∧ char d = c

variable {γ : Type} (A : Alphabet γ)

/-- The number that a text spells behind the digits of `n`, if all its characters are digits. -/
def numberFrom (n : Nat) (text : List γ) : Option Nat :=
  text.foldlM (fun n c => (A.digit c).map fun d => A.base * n + d) n

def numberOf (text : List γ) : Option Nat := numberFrom A 0 text

/-- A text of at least `least` digits spells `n`, and is longer only if it has to be. -/
structure Numeral (least : Nat) (text : List γ) (n : Nat) : Prop where
  spells : numberOf A text = some n
  long : least ≤ text.length
  no_zero : least < text.length → text.head? ≠ some (A.char 0)

def numeralText (least n : Nat) : List γ :=
  List.replicate (least - (Nat.digits A.base n).length)
    (A.char 0) ++ ((Nat.digits A.base n).map A.char).reverse

variable {A}

theorem numberFrom_cons (n : Nat) (c : γ) (text : List γ) :
    numberFrom A n (c :: text) = (A.digit c).bind fun d => numberFrom A (A.base * n + d) text := by
  rw [numberFrom, List.foldlM_cons]
  cases A.digit c with
  | none => rfl
  | some d => rfl

theorem le_numberFrom {n m : Nat} {text : List γ} (spells : numberFrom A n text = some m) :
    n ≤ m := by
  induction text generalizing n with
  | nil => exact Nat.le_of_eq (Option.some.inj spells)
  | cons c text ih =>
    rw [numberFrom_cons] at spells
    obtain ⟨d, _, rest⟩ := Option.bind_eq_some_iff.mp spells
    have scaled := Nat.le_mul_of_pos_left n (Nat.zero_lt_of_lt A.large)
    exact scaled.trans ((Nat.le_add_right _ d).trans (ih rest))

private theorem numberOf_push (text : List γ) (c : γ) :
    numberOf A (text ++ [c]) = (numberOf A text).bind fun n => (A.digit c).map fun d =>
      A.base * n + d := by
  rw [numberOf, numberFrom, List.foldlM_append]
  simp only [List.foldlM_cons, List.foldlM_nil, bind_pure]
  rfl

private theorem digits_of_spells {text : List γ} {n : Nat} (spells : numberOf A text = some n) :
    ∃ ds : List Nat, (∀ d ∈ ds, d < A.base) ∧ text = (ds.map A.char).reverse ∧
      Nat.ofDigits A.base ds = n := by
  induction text using List.reverseRecOn generalizing n with
  | nil =>
    refine ⟨[], by simp, rfl, ?_⟩
    exact Option.some.inj spells
  | append_singleton text c ih =>
    rw [numberOf_push] at spells
    obtain ⟨m, front, last⟩ := Option.bind_eq_some_iff.mp spells
    obtain ⟨d, digit, rfl⟩ := Option.map_eq_some_iff.mp last
    obtain ⟨ds, small, rfl, rfl⟩ := ih front
    obtain ⟨bound, rfl⟩ := A.char_digit c d digit
    refine ⟨d :: ds, ?_, ?_, ?_⟩
    · exact List.forall_mem_cons.mpr ⟨bound, small⟩
    · rw [List.map_cons, List.reverse_cons]
    · rw [Nat.ofDigits_cons, Nat.add_comm]

private theorem spells_digits {ds : List Nat} (small : ∀ d ∈ ds, d < A.base) :
    numberOf A (ds.map A.char).reverse = some (Nat.ofDigits A.base ds) := by
  induction ds with
  | nil => rfl
  | cons d ds ih =>
    rw [List.forall_mem_cons] at small
    rw [List.map_cons, List.reverse_cons, numberOf_push, ih small.2, Option.bind_some,
      A.digit_char d small.1, Option.map_some, Nat.ofDigits_cons, Nat.add_comm]

private theorem numeralText_eq (least n : Nat) : numeralText A least n =
    ((Nat.digits A.base n ++ List.replicate (least - (Nat.digits A.base n).length) 0).map
    A.char).reverse := by
  rw [numeralText, List.map_append, List.reverse_append, List.map_replicate, List.reverse_replicate]

theorem numeralText_numeral (least n : Nat) : Numeral A least (numeralText A least n) n := by
  refine ⟨?_, ?_, ?_⟩
  · rw [numeralText_eq, spells_digits, Nat.ofDigits_append_replicate_zero, Nat.ofDigits_digits]
    intro d member
    rcases List.mem_append.mp member with digit | zero
    · exact Nat.digits_lt_base A.large digit
    · rw [List.eq_of_mem_replicate zero]
      exact Nat.zero_lt_of_lt A.large
  · rw [numeralText, List.length_append, List.length_replicate, List.length_reverse,
      List.length_map]
    omega
  · intro long
    rw [numeralText, List.length_append, List.length_replicate, List.length_reverse,
      List.length_map] at long
    have none : least - (Nat.digits A.base n).length = 0 := by omega
    have some_digit : Nat.digits A.base n ≠ [] := List.length_pos_iff.mp (by omega)
    have positive : n ≠ 0 := Nat.digits_ne_nil_iff_ne_zero.mp some_digit
    rw [numeralText, none, List.replicate_zero, List.nil_append, List.head?_reverse,
      List.getLast?_map, List.getLast?_eq_some_getLast some_digit]
    intro zero
    have same := congrArg A.digit (Option.some.inj zero)
    rw [A.digit_char _ (Nat.zero_lt_of_lt A.large),
      A.digit_char _ (Nat.digits_lt_base A.large (List.getLast_mem some_digit))] at same
    exact Nat.getLast_digit_ne_zero A.base positive (Option.some.inj same)

private theorem Numeral.length_le {least n : Nat} {s t : List γ} (first : Numeral A least s n)
    (second : Numeral A least t n) : t.length ≤ s.length := by
  by_contra short
  obtain ⟨ds, small_d, rfl, value_d⟩ := digits_of_spells first.spells
  obtain ⟨es, small_e, rfl, value_e⟩ := digits_of_spells second.spells
  have long := first.long
  rw [List.length_reverse, List.length_map] at short long
  rw [List.length_reverse, List.length_map] at short
  have some_digit : es ≠ [] := List.length_pos_iff.mp (by omega)
  have lead : es.getLast some_digit ≠ 0 := by
    intro zero
    apply second.no_zero
    · rw [List.length_reverse, List.length_map]
      omega
    · rw [List.head?_reverse, List.getLast?_map, List.getLast?_eq_some_getLast some_digit, zero]
      rfl
  have digits : Nat.digits A.base n = es := by
    rw [← value_e]
    exact Nat.digits_ofDigits A.base A.large es small_e fun _ => lead
  have bound : n < A.base ^ ds.length := by
    rw [← value_d]
    exact Nat.ofDigits_lt_base_pow_length A.large small_d
  have fits := (Nat.digits_length_le_iff A.large n).mpr bound
  rw [digits] at fits
  omega

theorem Numeral.unique {least n : Nat} {s t : List γ} (first : Numeral A least s n)
    (second : Numeral A least t n) : s = t := by
  have length := Nat.le_antisymm (second.length_le first) (first.length_le second)
  obtain ⟨ds, small_d, rfl, value_d⟩ := digits_of_spells first.spells
  obtain ⟨es, small_e, rfl, value_e⟩ := digits_of_spells second.spells
  rw [List.length_reverse, List.length_map, List.length_reverse, List.length_map] at length
  have same :=
    Nat.ofDigits_inj_of_len_eq A.large length small_d small_e (value_d.trans value_e.symm)
  rw [same]

end Algae.Lib.Positional
