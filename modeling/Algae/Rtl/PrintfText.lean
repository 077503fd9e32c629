/- What is in the buffer after rtlBufPrintfV, whether the value returned is its length, and
   which numbers %d prints as they are. -/

import Algae.Rtl.PrintfBounds

set_option autoImplicit false
set_option relaxedAutoImplicit false

namespace Algae.Rtl.PrintfText

open Algae.Lib.ByteMemory Algae.Lib.CellBuffer Algae.Rtl.Itoa
open Algae.Rtl.String Algae.Rtl.Printf Algae.Rtl.PrintfItems Algae.Rtl.PrintfBounds Algae.Sdk.Defs

/-- The buffer holds a string of at most `size - 1` characters, and its length is returned. -/
def ReturnsString (size : BitVec 64) (ret : Int) (s : PrintState) : Prop :=
  ∃ str : CString, str.length ≤ size.toNat - 1 ∧ ret = str.length ∧
    ∃ rest, s.dest.items = CString.bytes str ++ 0 :: rest

section Chars

variable (args : Nat → BitVec 64)

def PlainChars : List Item → Nat → Prop
  | [], _ => True
  | .literal _ _ :: items, ap => PlainChars items ap
  | .directive _ conv _ :: items, ap =>
    (conv.val = 0x63 → (args ap).setWidth 8 ≠ (0 : Byte)) ∧
    PlainChars items (ap + takesArg conv.val)

variable {args} {strings : BitVec 64 → CString}

private theorem convText_ne_zero {c : Byte} {num : BitVec 64}
    (plain : c = 0x63 → num.setWidth 8 ≠ (0 : Byte))
    (pad : Nat) : ∀ b ∈ convText strings c pad num, b ≠ 0 := by
  have zeros : ∀ n, ∀ b ∈ List.replicate n (0x30 : Byte), b ≠ 0 := by
    intro n b member
    rw [List.eq_of_mem_replicate member]
    decide
  intro b member
  unfold convText at member
  split at member
  · rename_i char
    rw [List.mem_singleton.mp member]
    exact plain char
  split at member
  · rw [List.mem_singleton.mp member]
    decide
  split at member
  · exact hexText_ne_zero b member
  split at member
  · rcases List.mem_cons.mp member with rfl | member
    · decide
    rcases List.mem_cons.mp member with rfl | member
    · decide
    rcases List.mem_append.mp member with member | member
    · exact zeros _ b member
    · exact hexText_ne_zero b member
  split at member
  · rcases List.mem_append.mp member with member | member
    · exact zeros _ b member
    · exact decimalText_ne_zero b member
  split at member
  · obtain ⟨c, _, rfl⟩ := List.mem_map.mp member
    exact c.property
  · cases member

private theorem expand_ne_zero {items : List Item} {ap : Nat} (plain : PlainChars args items ap)
    (pad : Nat) :
    ∀ b ∈ expand args strings items pad ap, b ≠ 0 := by
  induction items generalizing pad ap with
  | nil =>
    intro b member
    cases member
  | cons item items ih =>
    cases item with
    | literal c ok =>
      rw [expand, List.forall_mem_cons]
      exact ⟨c.property, ih plain pad⟩
    | directive width conv ends =>
      rw [expand, List.forall_mem_append]
      exact ⟨convText_ne_zero plain.1 _, ih plain.2 _⟩

end Chars

section Strings

private theorem string_unique {str text : List Byte} (plain : ∀ c ∈ str, c ≠ 0)
    (plain' : ∀ c ∈ text, c ≠ 0)
    {rest rest' : List Byte} (same : str ++ 0 :: rest = text ++ 0 :: rest') : str = text := by
  rw [← bytes_cString plain rest, same, bytes_cString plain' rest']

private theorem bytes_ne_zero (str : CString) : ∀ c ∈ CString.bytes str, c ≠ 0 := by
  intro b member
  obtain ⟨c, _, rfl⟩ := List.mem_map.mp member
  exact c.property

private theorem toLong_eq_self {n : Nat} (long : toLong n = n) : n < 0x80000000 := by
  unfold toLong at long
  omega

private theorem ones_hold_none {n : Nat} {str : CString} {rest : List Byte} :
    List.replicate n (1 : Byte) ≠ CString.bytes str ++ 0 :: rest := by
  intro items
  have member : (0 : Byte) ∈ List.replicate n (1 : Byte) := by
    rw [items]
    exact List.mem_append_right _ List.mem_cons_self
  exact absurd (List.eq_of_mem_replicate member) (by decide)

variable (args : Nat → BitVec 64) (strings : BitVec 64 → CString)

/-- A string of the returned length is left in the buffer, whatever was there, exactly if there is
place for a character, an item prints, no directive fills the buffer and the length is an int. -/
theorem printf_string_iff (size : BitVec 64) (nonzero : size ≠ 0) (items : List Item)
    (plain : PlainChars args items 0) :
    (∀ dest : Buffer Byte, dest.items.length = size.toNat → ∃ ret s,
      rtlBufPrintfV args strings dest size (format items) = some (.returned ret s) ∧
        ReturnsString size ret s) ↔
    1 < size.toNat ∧ (∃ item ∈ items, item.Prints) ∧
      ¬FilledByDirective args strings (size - 1).toNat items 0 0 0 ∧
      min (size.toNat - 1) (expand args strings items 0 0).length < 0x80000000 := by
  have last := last_lt_size nonzero
  have text_plain : ∀ c ∈ (expand args strings items 0 0).take (size - 1).toNat, c ≠ 0 :=
    fun c member => expand_ne_zero plain 0 c (List.mem_of_mem_take member)
  have any : (∃ item ∈ items, item.Prints) ↔ (items.any fun item => item.Prints) = true := by
    rw [List.any_eq_true]
    simp only [decide_eq_true_eq]
  have left : ∀ {dest : Buffer Byte} {s}, dest.items.length = size.toNat →
      Printed dest (size - 1).toNat true (expand args strings items 0 0) s →
      ∃ rest, s.dest.items = (expand args strings items 0 0).take
        (size - 1).toNat ++ 0 :: rest := by
    intro dest s owns printed
    rw [printed.dest (by omega), Buffer.overlay_items, List.append_assoc]
    exact ⟨_, rfl⟩
  constructor
  · intro returns
    obtain ⟨ret, s, call, str, short, length, rest, items'⟩ :=
      returns ⟨List.replicate size.toNat 1, 0⟩ List.length_replicate
    by_cases one : (size - 1).toNat = 0
    · rw [printf_one _ one] at call
      obtain ⟨rfl, rfl⟩ := Outcome.returned.inj (Option.some.inj call)
      exact absurd items' ones_hold_none
    obtain ⟨s', printed, filled, unfilled⟩ := printf_format_prints args strings
      ⟨List.replicate size.toNat 1, 0⟩ (Nat.pos_of_ne_zero one) items
    have state : s = s' := by
      by_cases full : FilledByDirective args strings (size - 1).toNat items 0 0 0
      · exact (Outcome.returned.inj (Option.some.inj (call.symm.trans (filled full)))).2
      · exact (Outcome.returned.inj (Option.some.inj (call.symm.trans (unfilled full)))).2
    subst state
    have prints : (items.any fun item => item.Prints) = true := by
      by_contra silent
      rw [Bool.not_eq_true] at silent
      rw [silent] at printed
      rw [printed.dest (by rw [List.length_replicate]; omega), printed.fresh rfl,
        List.take_nil, nul, if_neg (by decide), List.append_nil, Buffer.overlay_nil] at items'
      exact absurd items' ones_hold_none
    rw [prints] at printed
    obtain ⟨rest', text⟩ := left List.length_replicate printed
    have same := string_unique (bytes_ne_zero str) text_plain (items'.symm.trans text)
    have count : str.length = min (size - 1).toNat (expand args strings items 0 0).length := by
      rw [← List.length_take, ← same, CString.bytes, List.length_map]
    have free : ¬FilledByDirective args strings (size - 1).toNat items 0 0 0 := by
      intro full
      have long := full_of_filled items full
      have zero := (Outcome.returned.inj (Option.some.inj (call.symm.trans (filled full)))).1
      omega
    refine ⟨by omega, any.mpr prints, free, ?_⟩
    have off := (Outcome.returned.inj (Option.some.inj (call.symm.trans (unfilled free)))).1
    have bound := toLong_eq_self (n := s.off) (by rw [← off, length, count, printed.off])
    rw [printed.off] at bound
    omega
  · rintro ⟨large, prints, free, fits⟩ dest owns
    obtain ⟨s, printed, _, unfilled⟩ :=
      printf_format_prints args strings dest (show 0 < (size - 1).toNat by omega) items
    rw [any.mp prints] at printed
    obtain ⟨rest, text⟩ := left owns printed
    have bytes : CString.bytes (cString s.dest.items) =
        (expand args strings items 0 0).take (size - 1).toNat := by
      rw [text]
      exact bytes_cString text_plain rest
    have count : (cString s.dest.items).length = s.off := by
      rw [printed.off, ← List.length_take, ← bytes, CString.bytes, List.length_map]
    have off := printed.off
    refine ⟨_, s, unfilled free, cString s.dest.items, by omega, ?_, rest, ?_⟩
    · rw [count, toLong_natCast (by omega)]
    · rw [bytes, text]

theorem printf_string_iff_number : ((16 : BitVec 64) ≠ 0 ∧
    PlainChars (fun _ => 7) [.literal ⟨0x61, by decide⟩ (by decide),
      .directive none ⟨0x64, by decide⟩ (by decide : (0x64 : Byte) ≠ 0x30)] 0) ∧
    ∀ dest : Buffer Byte, dest.items.length = 16 → ∃ ret s,
      rtlBufPrintfV (fun _ => 7) (fun _ => []) dest 16
        (format [.literal ⟨0x61, by decide⟩ (by decide),
        .directive none ⟨0x64, by decide⟩ (by decide : (0x64 : Byte) ≠ 0x30)]) = some
          (.returned ret s) ∧
        ReturnsString 16 ret s := by
  have plain : PlainChars (fun _ => 7) [.literal ⟨0x61, by decide⟩ (by decide),
      .directive none ⟨0x64, by decide⟩ (by decide : (0x64 : Byte) ≠ 0x30)] 0 :=
    ⟨fun char => absurd char (by decide), trivial⟩
  have digits : decimalText 7 = [0x37] := by
    rw [decimalText, if_neg (by decide), Nat.digits_of_lt 10 7 (by decide) (by decide)]
    rfl
  have text : convText (fun _ => []) 0x64 0 7 = [0x37] := digits
  refine ⟨⟨by decide, plain⟩, ?_⟩
  refine (printf_string_iff (fun _ => 7) (fun _ => []) 16 (by decide) _ plain).mpr
    ⟨by decide, ?_, ?_, ?_⟩
  · exact ⟨_, List.mem_cons_self, trivial⟩
  · rintro ⟨_, full | rest⟩
    · rw [show widen 0 none = 0 from rfl, text] at full
      exact absurd full (by decide)
    · exact rest
  · change min _ ((0x61 : Byte) :: (convText (fun _ => []) 0x64 0 7 ++ [])).length < _
    rw [text]
    decide

/-- The empty format leaves what was in the buffer. -/
theorem empty_format_leaves_buffer : ¬∀ dest : Buffer Byte, dest.items.length = 16 → ∃ ret s,
    rtlBufPrintfV (fun _ => 0) (fun _ => []) dest 16 (format []) = some (.returned ret s) ∧
      ReturnsString 16 ret s := by
  intro returns
  obtain ⟨ret, s, call, str, _, _, rest, items⟩ := returns ⟨List.replicate 16 1, 0⟩ rfl
  cases call
  exact ones_hold_none items

end Strings

section Decimal

/-- The decimal digits of a number, behind a minus sign if it is negative. -/
def signedText (n : Int) : List Byte :=
  if n < 0 then 0x2D :: decimalText n.natAbs else decimalText n.natAbs

def decimalFormat : CString := [percent, ⟨0x64, d_ne_nul⟩]

variable (args : Nat → BitVec 64) (strings : BitVec 64 → CString)

private theorem printf_decimal_text {size : BitVec 64} {dest : Buffer Byte}
    (owns : dest.items.length = size.toNat)
    (room : (decimalText (args 0).toNat).length < size.toNat) :
    ∃ ret s rest, rtlBufPrintf args strings dest size decimalFormat = some (.returned ret s) ∧
      s.dest.items = decimalText (args 0).toNat ++ 0 :: rest := by
  have digit := length_decimalText_pos (args 0).toNat
  have nonzero : size ≠ 0 := by
    rintro rfl
    exact absurd room (Nat.not_lt_zero _)
  have last := last_lt_size nonzero
  obtain ⟨s, printed, filled, unfilled⟩ := printf_format_prints args strings dest
    (show 0 < (size - 1).toNat by omega)
      [.directive none ⟨0x64, by decide⟩ (by decide : (0x64 : Byte) ≠ 0x30)]
  have text : expand args strings
      [.directive none ⟨0x64, by decide⟩ (by decide : (0x64 : Byte) ≠ 0x30)] 0 0 =
      decimalText (args 0).toNat := by
    change List.replicate (0 - (decimalText (args 0).toNat).length) 0x30 ++ decimalText
      (args 0).toNat ++ [] = _
    rw [Nat.zero_sub, List.replicate_zero, List.nil_append, List.append_nil]
  have items : ∃ rest, s.dest.items = decimalText (args 0).toNat ++ 0 :: rest := by
    rw [printed.dest (by omega), text, List.take_of_length_le (by omega), Buffer.overlay_items,
      List.append_assoc]
    exact ⟨_, rfl⟩
  obtain ⟨rest, items⟩ := items
  by_cases full : FilledByDirective args strings (size - 1).toNat
      [.directive none ⟨0x64, by decide⟩ (by decide : (0x64 : Byte) ≠ 0x30)] 0 0 0
  · exact ⟨_, s, rest, filled full, items⟩
  · exact ⟨_, s, rest, unfilled full, items⟩

/-- The directive %d prints its argument as a signed number into every buffer that has room
for it. -/
def PrintsSigned : Prop :=
  ∀ (size : BitVec 64) (dest : Buffer Byte), dest.items.length = size.toNat →
    (signedText (args 0).toInt).length < size.toNat →
    ∃ ret s rest, rtlBufPrintf args strings dest size decimalFormat = some (.returned ret s) ∧
      s.dest.items = signedText (args 0).toInt ++ 0 :: rest

variable {args strings}

private theorem negative_not_printed (negative : (args 0).toInt < 0) :
    ¬PrintsSigned args strings := by
  intro prints
  have minus : signedText (args 0).toInt = 0x2D :: decimalText (args 0).toInt.natAbs :=
    if_pos negative
  have short := length_decimalText_le (args 0).isLt
  have length : (signedText (args 0).toInt).length < 64 := by
    have low := BitVec.le_toInt (args 0)
    have abs := length_decimalText_le (n := (args 0).toInt.natAbs) (by omega)
    rw [minus, List.length_cons]
    omega
  obtain ⟨ret, s, rest, call, items⟩ :=
    prints 64 ⟨List.replicate 64 0, 0⟩ List.length_replicate length
  obtain ⟨ret', s', rest', call', items'⟩ :=
    @printf_decimal_text args strings 64 ⟨List.replicate 64 0, 0⟩
    List.length_replicate (show _ < 64 by omega)
  rw [call] at call'
  obtain ⟨_, rfl⟩ := Outcome.returned.inj (Option.some.inj call')
  have first := items.symm.trans items'
  rw [minus] at first
  cases digits : decimalText (args 0).toNat with
  | nil =>
    have some_digit := length_decimalText_pos (args 0).toNat
    rw [digits] at some_digit
    exact absurd some_digit (Nat.lt_irrefl 0)
  | cons d more =>
    have digit := (decimalText_digits d (by rw [digits]; exact List.mem_cons_self)).1
    rw [digits] at first
    rw [← (List.cons.inj first).1] at digit
    exact absurd digit (by decide)

variable (args strings)

/-- The directive %d prints the number that it is given exactly if that is not negative. -/
theorem printf_signed_iff : PrintsSigned args strings ↔ 0 ≤ (args 0).toInt := by
  constructor
  · intro prints
    by_contra negative
    exact negative_not_printed (not_le.mp negative) prints
  · intro natural size dest owns room
    have value : signedText (args 0).toInt = decimalText (args 0).toNat := by
      have cond := BitVec.toInt_eq_toNat_cond (args 0)
      have abs : (args 0).toInt.natAbs = (args 0).toNat := by
        split at cond <;> omega
      rw [signedText, if_neg (by omega), abs]
    rw [value] at room ⊢
    exact printf_decimal_text args strings owns room

/-- Minus five is printed as 18446744073709551611. -/
theorem minus_five_printed_unsigned : ¬PrintsSigned (fun _ => -5) fun _ => [] :=
  negative_not_printed (by decide)

end Decimal

end Algae.Rtl.PrintfText
