/- Where rtlBufPrintfV writes, for formats without an incomplete directive, and how far it
   reads any format. -/

import Algae.Rtl.PrintfItems

set_option autoImplicit false
set_option relaxedAutoImplicit false

namespace Algae.Rtl.PrintfBounds

open Algae.Lib.ByteMemory Algae.Lib.CellBuffer
open Algae.Rtl.String Algae.Rtl.Printf Algae.Rtl.PrintfItems Algae.Sdk.Defs

/-- Every percent sign, with its width, has a conversion character behind it. -/
def WellFormed (fmt : CString) : Prop := ∃ items, fmt = format items

section Writes

variable {args : Nat → BitVec 64} {strings : BitVec 64 → CString}

theorem last_lt_size {size : BitVec 64} (nonzero : size ≠ 0) :
    (size - 1).toNat + 1 = size.toNat := by
  have : size.toNat ≠ 0 := fun zero => nonzero (BitVec.eq_of_toNat_eq zero)
  have small := size.isLt
  rw [BitVec.toNat_sub]
  change (2 ^ 64 - 1 + size.toNat) % 2 ^ 64 + 1 = _
  omega

/-- A call returns and has written to the buffer and to the number buffer within their sizes.
Each value of the offset is an index that is written to, so that the extent bounds them all. -/
theorem printf_stays_inside (size : BitVec 64) (nonzero : size ≠ 0) (dest : Buffer Byte)
    (owns : dest.items.length = size.toNat) (unused : dest.extent = 0) (fmt : CString)
    (wellFormed : WellFormed fmt) :
    ∃ ret s, rtlBufPrintfV args strings dest size fmt = some (.returned ret s) ∧
      s.dest.extent ≤ size.toNat ∧ s.numBuf.items.length = 256 ∧ s.numBuf.extent ≤ 256 ∧
      s.off ≤ size.toNat - 1 := by
  obtain ⟨items, rfl⟩ := wellFormed
  have last := last_lt_size nonzero
  by_cases one : (size - 1).toNat = 0
  · refine ⟨0, startState dest, printf_one dest one _, ?_, List.length_replicate, Nat.zero_le _,
      Nat.zero_le _⟩
    change dest.extent ≤ _
    omega
  · obtain ⟨ret, s, call, printed⟩ :=
      printf_format_returns args strings dest (Nat.pos_of_ne_zero one) items
    have off := printed.off
    refine ⟨ret, s, call, ?_, printed.length, printed.extent, by omega⟩
    rw [printed.dest (by omega), Buffer.overlay_extent, List.length_append, List.length_take]
    have end' := nul_length (items.any fun item => item.Prints)
    omega

end Writes

theorem printf_stays_inside_three :
    ∃ ret s, rtlBufPrintfV (fun _ => 0xDEADBEEF) (fun _ => []) ⟨List.replicate 3 0, 0⟩ 3
        (format [.directive none ⟨0x78, by decide⟩ (by decide : (0x78 : Byte) ≠ 0x30)]) =
          some (.returned ret s) ∧
      s.dest.extent ≤ 3 ∧ s.numBuf.items.length = 256 ∧ s.numBuf.extent ≤ 256 ∧ s.off ≤ 3 - 1 :=
  printf_stays_inside 3 (by decide) _ rfl rfl _ ⟨_, rfl⟩

section Reads

variable {args : Nat → BitVec 64} {strings : BitVec 64 → CString} {last : Nat}

def dangling (width : Option (List (Fin 10))) : CString := percent :: widthText width

private theorem digits_first (fmt : CString) :
    ∃ (digits : List (Fin 10)) (rest : CString),
    fmt = digits.map digitChar ++ rest ∧ ∀ c ∈ rest.head?, isDigit c.val = false := by
  have digit : ∀ c : CChar, isDigit c.val = true → ∃ d : Fin 10, c = digitChar d := by
    intro c digit
    obtain ⟨low, high⟩ := of_decide_eq_true digit
    refine ⟨⟨c.val.toNat - 0x30, by omega⟩, Subtype.ext (BitVec.eq_of_toNat_eq ?_)⟩
    change _ = (0x30 + (c.val.toNat - 0x30)) % 2 ^ 8
    omega
  induction fmt with
  | nil =>
    refine ⟨[], [], rfl, ?_⟩
    intro c member
    cases member
  | cons c fmt ih =>
    by_cases here : isDigit c.val = true
    · obtain ⟨d, rfl⟩ := digit c here
      obtain ⟨digits, rest, rfl, ends⟩ := ih
      exact ⟨d :: digits, rest, rfl, ends⟩
    · refine ⟨[], c :: fmt, rfl, ?_⟩
      intro c' member
      obtain rfl := Option.some.inj member
      exact Bool.eq_false_of_not_eq_true here

private theorem format_or_dangling (fmt : CString) :
    (∃ items, fmt = format items) ∨ ∃ items width, fmt = format items ++ dangling width := by
  induction size : fmt.length using Nat.strong_induction_on generalizing fmt with
  | _ n ih =>
    have cons : ∀ (item : Item) (rest : CString), fmt = item.text ++ rest → rest.length < n →
        (∃ items, fmt = format items) ∨ ∃ items width, fmt = format items ++ dangling width := by
      intro item rest split shorter
      rcases ih _ shorter rest rfl with ⟨items, rfl⟩ | ⟨items, width, rfl⟩
      · exact Or.inl ⟨item :: items, split⟩
      · exact Or.inr
          ⟨item :: items,
            width, by rw [split, format, format, List.flatMap_cons, List.append_assoc]⟩
    cases fmt with
    | nil => exact Or.inl ⟨[], rfl⟩
    | cons c fmt =>
      rw [List.length_cons] at size
      by_cases literal : c = percent
      · subst literal
        cases fmt with
        | nil => exact Or.inr ⟨[], none, rfl⟩
        | cons d fmt =>
          rw [List.length_cons] at size
          by_cases zero : d.val = 0x30
          · obtain rfl : d = digitChar 0 := Subtype.ext zero
            obtain ⟨digits, rest, rfl, ends⟩ := digits_first fmt
            cases rest with
            | nil =>
              rw [List.append_nil]
              exact Or.inr ⟨[], some digits, rfl⟩
            | cons e rest =>
              rw [List.length_append, List.length_cons] at size
              refine cons (.directive (some digits) e (ends e rfl)) rest ?_ (by omega)
              change percent :: digitChar 0 :: (digits.map digitChar ++ e :: rest) =
                percent :: (digitChar 0 :: digits.map digitChar ++ [e]) ++ rest
              rw [List.cons_append, List.cons_append, List.cons_append, List.append_assoc,
                List.singleton_append]
          · exact cons (.directive none d zero) fmt rfl (by omega)
      · exact cons (.literal c literal) fmt rfl (by omega)

/-- What becomes of a turn that comes to an incomplete directive. -/
def danglingEnd (last : Nat) (width : Option (List (Fin 10))) (s : PrintState) : Option Outcome :=
  if s.off = last then some (.returned (toLong s.off) s)
  else if s.off < last then some .pastEnd
  else some (.returned 0 { s with padWidth := widen s.padWidth width })

private theorem afterTurn_dangling (width : Option (List (Fin 10))) {fuel : Nat}
    (some_fuel : 1 ≤ fuel) (s : PrintState) :
    afterTurn args strings last fuel
      (printfTurn args strings last (CString.bytes (dangling width) ++ [0]) s) =
      danglingEnd last width s := by
  have ends : EndsWidth width 0 := by
    cases width with
    | none => exact (by decide : (0 : Byte) ≠ 0x30)
    | some digits => exact (by decide : isDigit 0 = false)
  change afterTurn args strings last fuel
    (printfTurn args strings last (0x25 :: (CString.bytes (widthText width) ++ [0])) s) = _
  rw [printfTurn_percent, danglingEnd]
  by_cases full : s.off = last
  · rw [if_pos full, if_pos full]
    rfl
  · obtain ⟨fuel, rfl⟩ : ∃ n, fuel = n + 1 := ⟨fuel - 1, by omega⟩
    rw [if_neg full, if_neg full, readWidth_text s.padWidth ends]
    exact @printfLoop_turn args strings last fuel [] _

variable (args strings) in
private theorem printf_dangling_prints (dest : Buffer Byte) {size : BitVec 64}
    (positive : 0 < (size - 1).toNat) (items : List Item) (width : Option (List (Fin 10))) :
    ∃ s, s.off = min (size - 1).toNat (expand args strings items 0 0).length ∧
      (FilledByDirective args strings (size - 1).toNat items 0 0 0 →
        rtlBufPrintfV args strings dest size (format items ++ dangling width) = some
          (.returned 0 s)) ∧
      (¬FilledByDirective args strings (size - 1).toNat items 0 0 0 →
        rtlBufPrintfV args strings dest size (format items ++ dangling width) =
          danglingEnd (size - 1).toNat width s) := by
  obtain ⟨s, printed, filled, unfilled⟩ :=
    runItems_prints args strings (danglingEnd (size - 1).toNat width)
    positive (fun _ full => if_pos full) items (startState_printed dest _)
  have bytes : CString.bytes (format items ++ dangling width) ++ [0] =
      CString.bytes (format items) ++ (CString.bytes (dangling width) ++ [0]) := by
    rw [CString.bytes, List.map_append, List.append_assoc]
    rfl
  have enough : items.length + 1 ≤ (format items ++ dangling width).length := by
    have := length_format items
    rw [List.length_append, dangling, List.length_cons]
    omega
  have call : rtlBufPrintfV args strings dest size (format items ++ dangling width) =
      runItems args strings (size - 1).toNat (danglingEnd (size - 1).toNat width) items
        (startState dest) := by
    rw [rtlBufPrintfV, printfLoop_turn, if_pos (show (startState dest).off < _ from positive),
      bytes]
    exact afterTurn_items _ _ (fun fuel s some_fuel => afterTurn_dangling width some_fuel s)
      items enough _
  exact ⟨s, printed.off, fun full => call.trans (filled full),
    fun free => call.trans (unfilled free)⟩

/-- The format is not read past its terminator exactly if it has no incomplete directive at its
end, or if what comes before one fills the buffer. -/
theorem format_read_inside_iff (dest : Buffer Byte) (size : BitVec 64) (fmt : CString) :
    (∃ ret s, rtlBufPrintfV args strings dest size fmt = some (.returned ret s)) ↔
      ∀ items width, fmt = format items ++ dangling width →
        (size - 1).toNat ≤ (expand args strings items 0 0).length := by
  by_cases one : (size - 1).toNat = 0
  · refine iff_of_true ⟨0, _, printf_one dest one fmt⟩ ?_
    intro items width _
    omega
  have positive := Nat.pos_of_ne_zero one
  constructor
  · rintro ⟨ret, s, returned⟩ items width rfl
    obtain ⟨s', off, filled, unfilled⟩ :=
      printf_dangling_prints args strings dest positive items width
    by_contra short
    have free : ¬FilledByDirective args strings (size - 1).toNat items 0 0 0 := by
      intro full
      have := full_of_filled items full
      omega
    have past := unfilled free
    rw [returned, danglingEnd, if_neg (by omega), if_pos (by omega)] at past
    cases past
  · intro fills
    rcases format_or_dangling fmt with ⟨items, rfl⟩ | ⟨items, width, incomplete⟩
    · obtain ⟨ret, s, call, _⟩ := printf_format_returns args strings dest positive items
      exact ⟨ret, s, call⟩
    · have long := fills items width incomplete
      subst incomplete
      obtain ⟨s, off, filled, unfilled⟩ :=
        printf_dangling_prints args strings dest positive items width
      by_cases full : FilledByDirective args strings (size - 1).toNat items 0 0 0
      · exact ⟨_, s, filled full⟩
      · rw [unfilled full, danglingEnd, if_pos (by omega)]
        exact ⟨_, _, rfl⟩

/-- A format that is a percent sign is read on. -/
theorem lone_percent_read_on : rtlBufPrintfV (fun _ => 0) (fun _ => []) ⟨List.replicate 16 0, 0⟩ 16
    [percent] = some .pastEnd := rfl

end Reads

end Algae.Rtl.PrintfBounds
