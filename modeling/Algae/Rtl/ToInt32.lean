/- Integers to text and back: the texts that rtlItoa leaves are the numerals of the integer, and
   rtlToInt32 reads the decimal one. -/

import Algae.Lib.Positional
import Algae.Rtl.Printf

set_option autoImplicit false
set_option relaxedAutoImplicit false

namespace Algae.Rtl.ToInt32

open Algae.Lib.ByteMemory Algae.Lib.CellBuffer Algae.Lib.Positional
open Algae.Rtl.String Algae.Rtl.Itoa Algae.Rtl.Printf

section Code

/-- The result of an operation on LONGs; `none` is an overflow, which has no defined result. -/
def longResult (n : Int) : Option Int := if -0x80000000 ≤ n ∧ n < 0x80000000 then some n else none

def skipSpaces : CString → CString
  | [] => []
  | c :: s => if c.val = 0x20 then skipSpaces s else c :: s

def digitLoop (n : Int) : CString → Option Int
  | [] => some n
  | c :: s =>
    if isDigit c.val then do
      let n ← longResult (10 * n)
      let n ← longResult (n + ((c.val.toNat : Int) - 0x30))
      digitLoop n s
    else some n

def rtlToInt32 (s : CString) : Option Int := do
  let s := skipSpaces s
  let first := s.head?.map Subtype.val
  let sign : Int := if first = some 0x2D then -1 else 1
  let s := if first = some 0x2B ∨ first = some 0x2D then s.tail else s
  let n ← digitLoop 0 s
  longResult (sign * n)

end Code

section Alphabets

def decimalValue (c : Byte) : Option Nat :=
  if isDigit c then some (c.toNat - 0x30) else none

private theorem decimalValue_char : ∀ d < 10, decimalValue (decimalChar d) = some d := by decide

private theorem char_decimalValue (c : Byte) (d : Nat) (digit : decimalValue c = some d) :
    d < 10 ∧ decimalChar d = c := by
  rw [decimalValue] at digit
  split at digit
  · rename_i range
    obtain rfl := Option.some.inj digit
    rw [isDigit, decide_eq_true_eq] at range
    refine ⟨by omega, ?_⟩
    apply BitVec.eq_of_toNat_eq
    rw [decimalChar, BitVec.toNat_ofNat]
    omega
  · cases digit

private theorem ten_large : 1 < 10 := by decide

def decimal : Alphabet Byte where
  base := 10
  char := decimalChar
  digit := decimalValue
  large := ten_large
  digit_char := decimalValue_char
  char_digit := char_decimalValue

def hexValue (c : Byte) : Option Nat :=
  if isDigit c then some (c.toNat - 0x30)
  else if 0x41 ≤ c.toNat ∧ c.toNat ≤ 0x46 then some (c.toNat - 0x37)
  else none

private theorem hexValue_char : ∀ d < 16, hexValue (hexChar d) = some d := by decide

private theorem char_hexValue (c : Byte) (d : Nat) (digit : hexValue c = some d) :
    d < 16 ∧ hexChar d = c := by
  have all : ∀ c : Byte, ∀ d ∈ hexValue c, d < 16 ∧ hexChar d = c := by decide +kernel
  exact all c d digit

private theorem sixteen_large : 1 < 16 := by decide

def hexadecimal : Alphabet Byte where
  base := 16
  char := hexChar
  digit := hexValue
  large := sixteen_large
  digit_char := hexValue_char
  char_digit := char_hexValue

private theorem decimalText_eq (n : Nat) : decimalText n = numeralText decimal 1 n := by
  rw [decimalText, numeralText]
  split
  · rename_i zero
    subst zero
    rw [Nat.digits_zero]
    rfl
  · rename_i nonzero
    have some_digit : (Nat.digits decimal.base n).length ≠ 0 :=
      fun none => Nat.digits_ne_nil_iff_ne_zero.mpr nonzero (List.length_eq_zero_iff.mp none)
    rw [show 1 - (Nat.digits decimal.base n).length = 0 by omega]
    rfl

private theorem hexText_eq (n : Nat) : hexText n = numeralText hexadecimal 2 n := rfl

end Alphabets

section RoundTrip

private theorem digitLoop_number {s : CString} {m v : Nat}
    (spells : numberFrom decimal m (CString.bytes s) = some v)
    (small : v < 0x80000000) : digitLoop m s = some (v : Int) := by
  induction s generalizing m with
  | nil => exact congrArg _ (congrArg _ (Option.some.inj spells))
  | cons c s ih =>
    rw [CString.bytes, List.map_cons, numberFrom_cons] at spells
    obtain ⟨d, digit, rest⟩ := Option.bind_eq_some_iff.mp spells
    have bound : 10 * m + d ≤ v := le_numberFrom rest
    change (if isDigit c.val then some (c.val.toNat - 0x30) else none) = some d at digit
    split at digit
    · rename_i range
      have value := Option.some.inj digit
      rw [isDigit, decide_eq_true_eq] at range
      have product : longResult (10 * (m : Int)) = some (10 * (m : Int)) := if_pos (by omega)
      have sum : longResult (10 * (m : Int) + ((c.val.toNat : Int) - 0x30)) =
          some ((10 * m + d : Nat) : Int) := by
        rw [longResult, if_pos (by omega), Option.some.injEq]
        omega
      rw [digitLoop, isDigit, decide_eq_true range, if_pos rfl, product]
      change (longResult (10 * (m : Int) + ((c.val.toNat : Int) - 0x30))).bind (digitLoop · s) = _
      rw [sum]
      exact ih rest
    · cases digit

private theorem rtlToInt32_number {s : CString} {v : Nat}
    (spells : numberOf decimal (CString.bytes s) = some v)
    (small : v < 0x80000000) : rtlToInt32 s = some (v : Int) := by
  have loop := digitLoop_number spells small
  have plain : skipSpaces s = s ∧ s.head?.map Subtype.val ≠ some 0x2D ∧
      s.head?.map Subtype.val ≠ some 0x2B := by
    cases s with
    | nil => exact ⟨rfl, nofun, nofun⟩
    | cons c s =>
      have digit : isDigit c.val = true := by
        rw [numberOf, CString.bytes, List.map_cons, numberFrom_cons] at spells
        obtain ⟨d, digit, _⟩ := Option.bind_eq_some_iff.mp spells
        by_contra other
        exact absurd digit (by simp [decimal, decimalValue, other])
      refine ⟨if_neg ?_, ?_, ?_⟩
      · intro space
        rw [space] at digit
        exact absurd digit (by decide)
      · intro minus
        rw [Option.some.inj minus] at digit
        exact absurd digit (by decide)
      · intro plus
        rw [Option.some.inj plus] at digit
        exact absurd digit (by decide)
  obtain ⟨spaces, minus, plus⟩ := plain
  rw [rtlToInt32]
  simp only [spaces, if_neg minus, if_neg (not_or.mpr ⟨plus, minus⟩)]
  change (digitLoop (0 : Nat) s).bind (fun n => longResult (1 * n)) = _
  rw [loop, Option.bind_some, one_mul]
  exact if_pos (by omega)

/-- The call leaves this text, a NUL and what else was in the buffer. -/
def Leaves (value : BitVec 64) (base : Nat) (text : List Byte) : Prop :=
  ∀ buf : Buffer Byte, text.length < buf.items.length →
    rtlItoa value buf base =
      some ⟨text ++ 0 :: buf.items.drop (text.length + 1), max buf.extent (text.length + 1)⟩

/-- Decimal and hexadecimal texts are the only numerals of the value, of at least one and two
digits, and the decimal one is read back. -/
theorem itoa_round_trip (v : BitVec 64) :
    (∃ text, Leaves v 10 text ∧ Numeral decimal 1 text v.toNat ∧
      (∀ other, Numeral decimal 1 other v.toNat → other = text) ∧ text.length + 1 ≤ 21 ∧
      (v.toNat < 0x80000000 → ∀ rest, rtlToInt32 (cString (text ++ 0 :: rest)) = some
      (v.toNat : Int))) ∧
    ∃ digits, Leaves v 16 (0x30 :: 0x78 :: digits) ∧ Numeral hexadecimal 2 digits v.toNat ∧
      (∀ other, Numeral hexadecimal 2 other v.toNat → other = digits) ∧
      (0x30 :: 0x78 :: digits).length + 1 ≤ 19 := by
  constructor
  · have numeral : Numeral decimal 1 (decimalText v.toNat) v.toNat := by
      rw [decimalText_eq]
      exact numeralText_numeral 1 v.toNat
    have short := length_decimalText_le v.isLt
    refine ⟨decimalText v.toNat, ?_, numeral, fun other spells =>
      spells.unique numeral, by omega, ?_⟩
    · intro buf room
      rw [rtlItoa, if_pos rfl, itoaBase10Convert_eq v buf room]
      congr 1
      ext1
      · rw [Buffer.overlay_items, List.append_assoc, List.length_append, List.length_singleton]
        rfl
      · rw [Buffer.overlay_extent, List.length_append, List.length_singleton]
    · intro small rest
      have bytes :
          CString.bytes (cString (decimalText v.toNat ++ 0 :: rest)) = decimalText v.toNat :=
        bytes_cString decimalText_ne_zero rest
      apply rtlToInt32_number _ small
      rw [bytes]
      exact numeral.spells
  · have numeral : Numeral hexadecimal 2 (hexText v.toNat) v.toNat := by
      rw [hexText_eq]
      exact numeralText_numeral 2 v.toNat
    have short := length_hexText_le v
    refine ⟨hexText v.toNat, ?_, numeral, fun other spells => spells.unique numeral, ?_⟩
    · intro buf room
      rw [List.length_cons, List.length_cons] at room
      rw [rtlItoa, if_neg (by decide), if_pos rfl, itoaConvertBase16_eq v buf (by omega)]
      congr 1
      ext1
      · rw [Buffer.overlay_items, List.append_assoc, List.length_append, List.length_singleton]
        rfl
      · rw [Buffer.overlay_extent, List.length_append, List.length_singleton]
    · rw [List.length_cons, List.length_cons]
      omega

end RoundTrip

end Algae.Rtl.ToInt32
