/- Integers as text: both converters of rtlItoa write the digits from the last to the first
   and then turn the text around in its buffer. -/

import Algae.Lib.ByteMemory
import Algae.Lib.CellBuffer
import Mathlib.Data.Nat.Digits.Lemmas

set_option autoImplicit false
set_option relaxedAutoImplicit false

namespace Algae.Rtl.Itoa

open Algae.Lib.ByteMemory Algae.Lib.CellBuffer

section Code

def base10Loop (value : BitVec 64) (i : Nat) (buf : Buffer Byte) : Nat × Buffer Byte :=
  if 0 < value then
    base10Loop (value / 10) (i + 1) (buf.set i (0x30 + (value % 10).setWidth 8))
  else
    (i, buf)
termination_by value.toNat
decreasing_by
  rename_i positive
  have nonzero : 0 < value.toNat := positive
  rw [BitVec.toNat_udiv]
  exact Nat.div_lt_self nonzero (by decide)

def itoaBase10Convert (value : BitVec 64) (buf : Buffer Byte) : Buffer Byte :=
  if value = 0 then
    (buf.set 0 0x30).set 1 0
  else
    -- `value` is a USIZE, so that the comparison is one of unsigned numbers
    let (value, isNegative) := if value < 0 then (value * -1, true) else (value, false)
    let (i, buf) := base10Loop value 0 buf
    let (i, buf) := if isNegative then (i + 1, buf.set i 0x2D) else (i, buf)
    swapEnds 0 (i - 1) (buf.set i 0)

def asciiNums : List Byte :=
  [0x30, 0x31, 0x32, 0x33, 0x34, 0x35, 0x36, 0x37, 0x38, 0x39, 0x41, 0x42, 0x43, 0x44, 0x45, 0x46]

def base16Loop (n : BitVec 64) (i : Nat) (buffer : Buffer Byte) : Nat × Buffer Byte :=
  if 0 < n then
    base16Loop (n >>> 4) (i + 1) (buffer.set i (asciiNums.getD (n.setWidth 8 &&& 0x0F).toNat 0))
  else
    (i, buffer)
termination_by n.toNat
decreasing_by
  rename_i positive
  have nonzero : 0 < n.toNat := positive
  rw [BitVec.toNat_ushiftRight, Nat.shiftRight_eq_div_pow]
  exact Nat.div_lt_self nonzero (by decide)

def itoaConvertBase16 (n : BitVec 64) (buffer : Buffer Byte) : Buffer Byte :=
  if n = 0 then
    ((((buffer.set 0 0x30).set 1 0x78).set 2 0x30).set 3 0x30).set 4 0
  else
    let pad := decide (n < 0x10)
    let (i, buffer) := base16Loop n 0 buffer
    let (i, buffer) := if pad then (i + 1, buffer.set i 0x30) else (i, buffer)
    let buffer := ((buffer.set i 0x78).set (i + 1) 0x30).set (i + 2) 0
    swapEnds 0 (i + 1) buffer

/-- NULL for a base that it does not know. -/
def rtlItoa (value : BitVec 64) (buf : Buffer Byte) (base : Nat) : Option (Buffer Byte) :=
  if base = 10 then some (itoaBase10Convert value buf)
  else if base = 16 then some (itoaConvertBase16 value buf)
  else none

end Code

section Text

def decimalChar (d : Nat) : Byte := BitVec.ofNat 8 (0x30 + d)

def hexChar (d : Nat) : Byte := asciiNums.getD d 0

def decimalText (n : Nat) : List Byte :=
  if n = 0 then [0x30] else ((Nat.digits 10 n).map decimalChar).reverse

def hexText (n : Nat) : List Byte :=
  List.replicate (2 - (Nat.digits 16 n).length) 0x30 ++ ((Nat.digits 16 n).map hexChar).reverse

private theorem length_digits_le {b k n : Nat} (base : 1 < b) (small : n < b ^ k) :
    (Nat.digits b n).length ≤ k :=
  (Nat.digits_length_le_iff base n).mpr small

theorem length_decimalText_le {n : Nat} (small : n < 2 ^ 64) : (decimalText n).length ≤ 20 := by
  rw [decimalText]
  split
  · decide
  · rw [List.length_reverse, List.length_map]
    exact length_digits_le (by decide) (by omega)

theorem length_decimalText_pos (n : Nat) : 0 < (decimalText n).length := by
  rw [decimalText]
  split
  · decide
  · rename_i nonzero
    rw [List.length_reverse, List.length_map]
    exact List.length_pos_iff.mpr (Nat.digits_ne_nil_iff_ne_zero.mpr nonzero)

theorem length_hexText_le (value : BitVec 64) : (hexText value.toNat).length ≤ 16 := by
  have small := value.isLt
  have digits : (Nat.digits 16 value.toNat).length ≤ 16 := length_digits_le (by decide) (by omega)
  rw [hexText, List.length_append, List.length_replicate, List.length_reverse, List.length_map]
  omega

theorem decimalText_digits {n : Nat} : ∀ c ∈ decimalText n, 0x30 ≤ c.toNat ∧ c.toNat ≤ 0x39 := by
  intro c member
  rw [decimalText] at member
  split at member
  · rw [List.mem_singleton.mp member]
    decide
  · obtain ⟨d, digit, rfl⟩ := List.mem_map.mp (List.mem_reverse.mp member)
    have small := Nat.digits_lt_base (by decide) digit
    rw [decimalChar, BitVec.toNat_ofNat]
    omega

theorem decimalText_ne_zero {n : Nat} : ∀ c ∈ decimalText n, c ≠ 0 := by
  rintro c member rfl
  exact absurd (decimalText_digits 0 member).1 (by decide)

theorem hexText_ne_zero {n : Nat} : ∀ c ∈ hexText n, c ≠ 0 := by
  have all : ∀ d < 16, hexChar d ≠ 0 := by decide
  intro c member
  rcases List.mem_append.mp member with zero | member
  · rw [List.eq_of_mem_replicate zero]
    decide
  · obtain ⟨d, digit, rfl⟩ := List.mem_map.mp (List.mem_reverse.mp member)
    exact all d (Nat.digits_lt_base (by decide) digit)

end Text

section Loops

private theorem emits_digits {base : Nat} (large : 1 < base) (char : Nat → Byte)
    {loop : BitVec 64 → Nat → Buffer Byte → Nat × Buffer Byte}
    (stops : ∀ i buf, loop 0 i buf = (i, buf))
    (turns : ∀ v i buf, v ≠ 0 → ∃ w : BitVec 64, w.toNat = v.toNat / base ∧
      loop v i buf = loop w (i + 1) (buf.set i (char (v.toNat % base))))
    (value : BitVec 64) (buf : Buffer Byte) (front : List Byte)
    (room : front.length + (Nat.digits base value.toNat).length ≤ buf.items.length) :
    loop value front.length (buf.overlay front) =
      (front.length + (Nat.digits base value.toNat).length,
        buf.overlay (front ++ (Nat.digits base value.toNat).map char)) := by
  induction size : value.toNat using Nat.strong_induction_on generalizing value front with
  | _ n ih =>
    by_cases zero : value = 0
    · subst zero
      obtain rfl : 0 = n := size
      rw [Nat.digits_zero, List.map_nil, List.append_nil, List.length_nil, Nat.add_zero]
      exact stops front.length _
    · have positive : 0 < value.toNat := by
        rw [Nat.pos_iff_ne_zero]
        exact fun none => zero (BitVec.eq_of_toNat_eq none)
      obtain ⟨rest, quotient, turn⟩ := turns value front.length (buf.overlay front) zero
      have digits : Nat.digits base value.toNat =
          value.toNat % base :: Nat.digits base rest.toNat := by
        rw [quotient]
        exact Nat.digits_def' large positive
      rw [digits, List.length_cons] at room
      have later :=
        ih rest.toNat (by rw [quotient, ← size]; exact Nat.div_lt_self positive large) rest
        (front ++ [char (value.toNat % base)]) (by
          rw [List.length_append, List.length_singleton]
          omega) rfl
      rw [List.length_append, List.length_singleton] at later
      rw [turn, Buffer.overlay_push _ (by omega), later, ← size, digits, List.length_cons,
        List.map_cons, List.append_assoc, List.singleton_append, Nat.add_assoc, Nat.add_comm 1]

private theorem base10Loop_zero (i : Nat) (buf : Buffer Byte) : base10Loop 0 i buf = (i, buf) := by
  rw [base10Loop, if_neg (by decide)]

private theorem bitVec_pos {v : BitVec 64} (nonzero : v ≠ 0) : 0 < v := by
  have : v.toNat ≠ 0 := fun zero => nonzero (BitVec.eq_of_toNat_eq zero)
  exact BitVec.lt_def.mpr (Nat.pos_iff_ne_zero.mpr this)

private theorem base10Loop_turn (v : BitVec 64) (i : Nat) (buf : Buffer Byte) (nonzero : v ≠ 0) :
    ∃ w : BitVec 64, w.toNat = v.toNat / 10 ∧
      base10Loop v i buf = base10Loop w (i + 1) (buf.set i (decimalChar (v.toNat % 10))) := by
  refine ⟨v / 10, BitVec.toNat_udiv, ?_⟩
  have char : 0x30 + (v % 10).setWidth 8 = decimalChar (v.toNat % 10) := by
    apply BitVec.eq_of_toNat_eq
    rw [decimalChar, BitVec.toNat_add, BitVec.toNat_setWidth, BitVec.toNat_umod, BitVec.toNat_ofNat]
    change (48 + v.toNat % 10 % 2 ^ 8) % 2 ^ 8 = _
    omega
  rw [base10Loop, if_pos (bitVec_pos nonzero), char]

theorem itoaBase10Convert_eq (value : BitVec 64) (buf : Buffer Byte)
    (room : (decimalText value.toNat).length < buf.items.length) :
    itoaBase10Convert value buf = buf.overlay (decimalText value.toNat ++ [0]) := by
  rw [itoaBase10Convert]
  by_cases zero : value = 0
  · subst zero
    change 1 < buf.items.length at room
    have first := @Buffer.overlay_push _ buf [] (show 0 < buf.items.length by omega) 0x30
    have second := @Buffer.overlay_push _ buf [0x30] (show 1 < buf.items.length by omega) 0
    rw [Buffer.overlay_nil] at first
    rw [if_pos rfl, show buf.set 0 0x30 = buf.overlay [0x30] from first]
    exact second
  · have unsigned : ¬value < 0 := BitVec.not_lt_zero
    have nonzero : value.toNat ≠ 0 := fun none => zero (BitVec.eq_of_toNat_eq none)
    rw [decimalText, if_neg nonzero, List.length_reverse, List.length_map] at room
    have loop := emits_digits (by decide) decimalChar base10Loop_zero base10Loop_turn value buf []
      (by rw [List.length_nil]; omega)
    rw [Buffer.overlay_nil, List.length_nil, Nat.zero_add, List.nil_append] at loop
    set digits := (Nat.digits 10 value.toNat).map decimalChar with digits_eq
    have count : (Nat.digits 10 value.toNat).length = digits.length := (List.length_map _).symm
    have some_digit : digits ≠ [] := by
      rw [digits_eq]
      exact fun none => Nat.digits_ne_nil_iff_ne_zero.mpr nonzero (List.map_eq_nil_iff.mp none)
    rw [count] at loop room
    simp only [if_neg zero, if_neg unsigned, loop, Bool.false_eq_true, if_false]
    rw [Buffer.overlay_push _ (by omega), swapEnds_overlay _ some_digit, decimalText,
      if_neg nonzero]

private theorem base16Loop_zero (i : Nat) (buffer : Buffer Byte) :
    base16Loop 0 i buffer = (i, buffer) := by
  rw [base16Loop, if_neg (by decide)]

private theorem base16Loop_turn (v : BitVec 64) (i : Nat) (buffer : Buffer Byte) (nonzero : v ≠ 0) :
    ∃ w : BitVec 64, w.toNat = v.toNat / 16 ∧
      base16Loop v i buffer = base16Loop w (i + 1) (buffer.set i (hexChar (v.toNat % 16))) := by
  refine ⟨v >>> 4, ?_, ?_⟩
  · rw [BitVec.toNat_ushiftRight, Nat.shiftRight_eq_div_pow]
  · have nibble : (v.setWidth 8 &&& 0x0F).toNat = v.toNat % 16 := by
      rw [BitVec.toNat_and, BitVec.toNat_setWidth]
      change v.toNat % 2 ^ 8 &&& 2 ^ 4 - 1 = _
      rw [Nat.and_two_pow_sub_one_eq_mod]
      omega
    rw [base16Loop, if_pos (bitVec_pos nonzero), nibble, hexChar]

private theorem hexText_reverse {n : Nat} (nonzero : n ≠ 0) :
    (hexText n).reverse =
      if n < 16 then (Nat.digits 16 n).map hexChar ++ [0x30] else (Nat.digits 16 n).map
        hexChar := by
  rw [hexText, List.reverse_append, List.reverse_reverse, List.reverse_replicate]
  split
  · rename_i one
    rw [Nat.digits_of_lt 16 n nonzero one]
    rfl
  · rename_i large
    have two : 2 ≤ (Nat.digits 16 n).length := by
      by_contra few
      exact large ((Nat.digits_length_le_iff (by decide) _).mp (Nat.lt_succ_iff.mp (not_le.mp few)))
    rw [Nat.sub_eq_zero_of_le two, List.replicate_zero, List.append_nil]

theorem itoaConvertBase16_eq (value : BitVec 64) (buffer : Buffer Byte)
    (room : 2 + (hexText value.toNat).length < buffer.items.length) :
    itoaConvertBase16 value buffer =
      buffer.overlay (0x30 :: 0x78 :: hexText value.toNat ++ [0]) := by
  have push : ∀ (text : List Byte) (c : Byte), text.length ≤ 2 + (hexText value.toNat).length →
      (buffer.overlay text).set text.length c = buffer.overlay (text ++ [c]) :=
    fun text c short => buffer.overlay_push (by omega) c
  rw [itoaConvertBase16]
  by_cases zero : value = 0
  · subst zero
    have first := push [] 0x30 (by decide)
    rw [Buffer.overlay_nil] at first
    rw [if_pos rfl, show buffer.set 0 0x30 = buffer.overlay [0x30] from first]
    rw [show (buffer.overlay [0x30]).set 1 0x78 = buffer.overlay [0x30, 0x78] from push
      [0x30] 0x78 (by decide)]
    rw [show (buffer.overlay [0x30, 0x78]).set 2 0x30 = buffer.overlay [0x30, 0x78, 0x30] from
      push [0x30, 0x78] 0x30 (by decide)]
    rw [show (buffer.overlay [0x30, 0x78, 0x30]).set 3 0x30 = buffer.overlay
      [0x30, 0x78, 0x30, 0x30] from
      push [0x30, 0x78, 0x30] 0x30 (by decide)]
    exact (push [0x30, 0x78, 0x30, 0x30] 0 (by decide)).trans (by simp [hexText])
  · have nonzero : value.toNat ≠ 0 := fun none => zero (BitVec.eq_of_toNat_eq none)
    have short : (Nat.digits 16 value.toNat).length ≤ (hexText value.toNat).length := by
      rw [hexText, List.length_append, List.length_reverse, List.length_map]
      omega
    have loop := emits_digits (by decide) hexChar base16Loop_zero base16Loop_turn value buffer []
      (by rw [List.length_nil]; omega)
    rw [Buffer.overlay_nil, List.length_nil, Nat.zero_add, List.nil_append] at loop
    set digits := (Nat.digits 16 value.toNat).map hexChar with digits_eq
    have count : (Nat.digits 16 value.toNat).length = digits.length := (List.length_map _).symm
    rw [count] at loop short
    have some_digit : 0 < digits.length := by
      rw [← count]
      exact List.length_pos_iff.mpr (Nat.digits_ne_nil_iff_ne_zero.mpr nonzero)
    have pad :
      (if value < 0x10 then (digits.length + 1, (buffer.overlay digits).set digits.length 0x30)
        else (digits.length, buffer.overlay digits)) =
        ((hexText value.toNat).reverse.length, buffer.overlay (hexText value.toNat).reverse) := by
      rw [hexText_reverse nonzero, ← digits_eq]
      by_cases one : value < 0x10
      · have value_small : value.toNat < 16 := one
        rw [if_pos one, if_pos value_small, push digits 0x30 (by omega), List.length_append,
          List.length_singleton]
      · have value_large : ¬value.toNat < 16 := one
        rw [if_neg one, if_neg value_large]
    have text := List.reverse_reverse (hexText value.toNat)
    have length : (hexText value.toNat).reverse.length = (hexText value.toNat).length :=
      List.length_reverse
    generalize (hexText value.toNat).reverse = mid at pad text length
    have first := push mid 0x78 (by omega)
    have second := push (mid ++ [0x78]) 0x30 (by
      simp only [List.length_append, List.length_singleton]
      omega)
    have third := push (mid ++ [0x78] ++ [0x30]) 0 (by
      simp only [List.length_append, List.length_singleton]
      omega)
    have turned := @swapEnds_overlay _ _ buffer (mid ++ [0x78] ++ [0x30]) [0] (by simp)
    simp only [List.length_append, List.length_singleton, Nat.add_assoc, Nat.reduceAdd]
      at second third turned
    simp only [if_neg zero, loop, decide_eq_true_eq, pad, first, second, third]
    refine turned.trans ?_
    rw [List.reverse_append, List.reverse_append, text]
    rfl

theorem rtlItoa_ten (value : BitVec 64) (buf : Buffer Byte) (room : 21 ≤ buf.items.length) :
    rtlItoa value buf 10 = some (buf.overlay (decimalText value.toNat ++ [0])) := by
  have length := length_decimalText_le value.isLt
  rw [rtlItoa, if_pos rfl, itoaBase10Convert_eq value buf (by omega)]

theorem rtlItoa_sixteen (value : BitVec 64) (buf : Buffer Byte) (room : 21 ≤ buf.items.length) :
    rtlItoa value buf 16 = some (buf.overlay (0x30 :: 0x78 :: hexText value.toNat ++ [0])) := by
  have length := length_hexText_le value
  rw [rtlItoa, if_neg (by decide), if_pos rfl, itoaConvertBase16_eq value buf (by omega)]

end Loops

end Algae.Rtl.Itoa
