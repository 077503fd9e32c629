/- Formats given item by item, literal characters and directives, and what rtlBufPrintfV
   prints for them. -/

import Algae.Rtl.Printf

set_option autoImplicit false
set_option relaxedAutoImplicit false

namespace Algae.Rtl.PrintfItems

open Algae.Lib.ByteMemory Algae.Lib.CellBuffer
open Algae.Rtl.String Algae.Rtl.Printf Algae.Sdk.Defs

def percent : CChar := ⟨0x25, by decide⟩

def digitChar (d : Fin 10) : CChar := ⟨BitVec.ofNat 8 (0x30 + d), by
  revert d
  decide⟩

/-- A character that ends the width before it: the zero that starts one does not, and behind
it no digit does. -/
def EndsWidth (width : Option (List (Fin 10))) (c : Byte) : Prop :=
  match width with
  | none => c ≠ 0x30
  | some _ => isDigit c = false

/-- `width` has the digits behind the zero of a width. -/
inductive Item
  | literal (c : CChar) (plain : c ≠ percent)
  | directive (width : Option (List (Fin 10))) (conv : CChar) (ends : EndsWidth width conv.val)

def widthText : Option (List (Fin 10)) → CString
  | none => []
  | some digits => digitChar 0 :: digits.map digitChar

def Item.text : Item → CString
  | .literal c _ => [c]
  | .directive width conv _ => percent :: (widthText width ++ [conv])

def format (items : List Item) : CString := items.flatMap Item.text

/-- The pad width when the digits of a width come on top of what it was. -/
def widen (pad : Nat) : Option (List (Fin 10)) → Nat
  | none => pad
  | some digits => digits.foldl (fun (pad : Nat) (d : Fin 10) => (pad * 10 + d.val) % 0x100) pad

section Expand

variable (args : Nat → BitVec 64) (strings : BitVec 64 → CString)

/-- What the items print, with the pad width and the arguments taken so far. -/
def expand : List Item → Nat → Nat → List Byte
  | [], _, _ => []
  | .literal c _ :: items, pad, ap => c.val :: expand items pad ap
  | .directive width conv _ :: items, pad, ap =>
    let pad := widen pad width
    convText strings conv.val pad (args ap) ++ expand items (padAfter conv.val pad)
      (ap + takesArg conv.val)

/-- A directive brings the text from below `last` characters to so many or more. -/
def FilledByDirective (last : Nat) : List Item → Nat → Nat → Nat → Prop
  | [], _, _, _ => False
  | .literal _ _ :: items, length, pad, ap => FilledByDirective last items (length + 1) pad ap
  | .directive width conv _ :: items, length, pad, ap =>
    let pad := widen pad width
    let length' := length + (convText strings conv.val pad (args ap)).length
    length < last ∧ (last ≤ length' ∨
      FilledByDirective last items length' (padAfter conv.val pad) (ap + takesArg conv.val))

def Item.Prints : Item → Prop
  | .literal _ _ => True
  | .directive _ conv _ => Known conv.val

instance : DecidablePred Item.Prints
  | .literal _ _ => inferInstanceAs (Decidable True)
  | .directive _ conv _ => inferInstanceAs (Decidable (Known conv.val))

/-- The run over the items, from inside a turn on; `finish` is what happens behind them. -/
def runItems (last : Nat) (finish : PrintState → Option Outcome) :
    List Item → PrintState → Option Outcome
  | [], s => finish s
  | .literal c _ :: items, s => runItems last finish items (printC last c.val s)
  | .directive width conv _ :: items, s =>
    if s.off = last then some (.returned (toLong s.off) s)
    else
      let s := printConversion args strings last conv.val
        { s with padWidth := widen s.padWidth width }
      if s.off < last then runItems last finish items s else some (.returned 0 s)

end Expand

section Turns

variable {args : Nat → BitVec 64} {strings : BitVec 64 → CString} {last : Nat}

private theorem digitChar_digit (d : Fin 10) :
    isDigit (digitChar d).val = true ∧ (digitChar d).val.toNat - 0x30 = d := by
  revert d
  decide

private theorem widthLoop_digits (pad : Nat) (digits : List (Fin 10)) {c : Byte}
    (ends : isDigit c = false) (rest : List Byte) :
    widthLoop pad (CString.bytes (digits.map digitChar) ++ c :: rest) =
      some (widen pad (some digits), c :: rest) := by
  induction digits generalizing pad with
  | nil =>
    change widthLoop pad (c :: rest) = _
    rw [widthLoop, if_neg (by rw [ends]; decide)]
    rfl
  | cons d digits ih =>
    obtain ⟨digit, value⟩ := digitChar_digit d
    change widthLoop pad
      ((digitChar d).val :: (CString.bytes (digits.map digitChar) ++ c :: rest)) = _
    rw [widthLoop, if_pos digit, ih, value]
    rfl

theorem readWidth_text (pad : Nat) {width : Option (List (Fin 10))} {c : Byte}
    (ends : EndsWidth width c) (rest : List Byte) :
    readWidth pad (CString.bytes (widthText width) ++ c :: rest) = some
      (widen pad width, c :: rest) := by
  cases width with
  | none => exact if_neg ends
  | some digits =>
    change readWidth pad
      ((digitChar 0).val :: (CString.bytes (digits.map digitChar) ++ c :: rest)) = _
    rw [readWidth, if_pos (by decide), widthLoop_digits pad digits ends rest]

private theorem printfTurn_literal {c : CChar} (plain : c ≠ percent) (fmt : List Byte)
    (s : PrintState) :
    printfTurn args strings last (c.val :: fmt) s = printfTurn args strings last fmt
      (printC last c.val s) := by
  have other : c.val ≠ 0x25 := fun same => plain (Subtype.ext same)
  rw [printfTurn, printfTurn, literalRun, if_pos ⟨c.property, other⟩]

private theorem printfTurn_end (s : PrintState) :
    printfTurn args strings last [0] s = some (.returned (toLong s.off) s) := by
  rw [printfTurn, literalRun, if_neg (by decide)]
  rfl

theorem printfTurn_percent (fmt : List Byte) (s : PrintState) :
    printfTurn args strings last (0x25 :: fmt) s =
      if s.off = last then some (.returned (toLong s.off) s)
      else do
        let (padWidth, fmt) ← readWidth s.padWidth fmt
        let (c, fmt) ← nextChar fmt
        return .next fmt (printConversion args strings last c { s with padWidth := padWidth }) := by
  rw [printfTurn, literalRun, if_neg (by decide)]
  by_cases full : s.off = last
  · rw [if_pos full]
    exact if_pos (Or.inr full)
  · rw [if_neg full]
    exact if_neg (not_or.mpr ⟨by decide, full⟩)

private theorem printfTurn_directive {width : Option (List (Fin 10))} {conv : CChar}
    (ends : EndsWidth width conv.val) (rest : List Byte) (s : PrintState) :
    printfTurn args strings last
      (CString.bytes (percent :: (widthText width ++ [conv])) ++ rest) s =
      if s.off = last then some (.returned (toLong s.off) s)
      else some (.next rest
        (printConversion args strings last conv.val
        { s with padWidth := widen s.padWidth width })) := by
  have split : CString.bytes (percent :: (widthText width ++ [conv])) ++ rest =
      0x25 :: (CString.bytes (widthText width) ++ conv.val :: rest) := by
    rw [CString.bytes, List.map_cons, List.map_append, List.map_singleton, List.cons_append,
      List.append_assoc, List.singleton_append]
    rfl
  rw [split, printfTurn_percent, readWidth_text s.padWidth ends rest]
  rfl

/-- What follows a turn that is under way in a run of `fuel` more turns. -/
def afterTurn (args : Nat → BitVec 64) (strings : BitVec 64 → CString) (last fuel : Nat) :
    Option Turn → Option Outcome
  | none => some .pastEnd
  | some (.returned ret s) => some (.returned ret s)
  | some (.next fmt s) => printfLoop args strings last fuel fmt s

theorem printfLoop_turn (fuel : Nat) (fmt : List Byte) (s : PrintState) :
    printfLoop args strings last (fuel + 1) fmt s =
      if s.off < last then afterTurn args strings last fuel (printfTurn args strings last fmt s)
      else some (.returned 0 s) := by
  rw [printfLoop]
  split
  · cases printfTurn args strings last fmt s with
    | none => rfl
    | some turn => cases turn <;> rfl
  · rfl

theorem afterTurn_items (finish : PrintState → Option Outcome) (tail : List Byte) {least : Nat}
    (ends : ∀ fuel s, least ≤ fuel →
      afterTurn args strings last fuel (printfTurn args strings last tail s) = finish s)
    (items : List Item) {fuel : Nat} (enough : items.length + least ≤ fuel) (s : PrintState) :
    afterTurn args strings last fuel
      (printfTurn args strings last (CString.bytes (format items) ++ tail) s) =
      runItems args strings last finish items s := by
  induction items generalizing fuel s with
  | nil =>
    rw [List.length_nil, Nat.zero_add] at enough
    exact ends fuel s enough
  | cons item items ih =>
    rw [List.length_cons] at enough
    have split : CString.bytes (format (item :: items)) ++ tail =
        CString.bytes item.text ++ (CString.bytes (format items) ++ tail) := by
      rw [format, List.flatMap_cons, CString.bytes, List.map_append, List.append_assoc]
      rfl
    rw [split]
    cases item with
    | literal c plain =>
      rw [runItems]
      refine (congrArg _ (printfTurn_literal plain _ s)).trans ?_
      exact ih (by omega) _
    | directive width conv ends' =>
      rw [Item.text, printfTurn_directive ends', runItems]
      by_cases full : s.off = last
      · rw [if_pos full, if_pos full]
        rfl
      · obtain ⟨fuel, rfl⟩ : ∃ n, fuel = n + 1 := ⟨fuel - 1, by omega⟩
        rw [if_neg full, if_neg full, afterTurn, printfLoop_turn]
        simp only
        rw [ih (by omega)]

end Turns

section Run

variable {args : Nat → BitVec 64} {strings : BitVec 64 → CString} {init : Buffer Byte} {last : Nat}
  {touched : Bool} {text : List Byte} {s : PrintState}

private theorem printed_more (printed : Printed init last touched text s) (positive : 0 < last)
    (full : last ≤ text.length) (later : Bool) (more : List Byte) :
    Printed init last (touched || later) (text ++ more) s := by
  have off := printed.off
  have written : touched = true := by
    by_contra fresh
    rw [printed.fresh (Bool.eq_false_of_not_eq_true fresh), List.length_nil] at full
    omega
  subst written
  refine ⟨?_, fun h => absurd h (by rw [Bool.true_or]; decide), ?_, printed.length, printed.extent⟩
  · rw [List.length_append]
    omega
  · rw [List.take_append_of_le_length full]
    exact printed.dest

private theorem not_filled_of_full (items : List Item) {length : Nat} (full : last ≤ length)
    (pad ap : Nat) :
    ¬FilledByDirective args strings last items length pad ap := by
  induction items generalizing length pad ap with
  | nil => exact id
  | cons item items ih =>
    cases item with
    | literal c plain => exact ih (by omega) pad ap
    | directive width conv ends => exact fun filled => absurd filled.1 (by omega)

theorem full_of_filled (items : List Item) {length pad ap : Nat}
    (filled : FilledByDirective args strings last items length pad ap) :
    last ≤ length + (expand args strings items pad ap).length := by
  induction items generalizing length pad ap with
  | nil => exact filled.elim
  | cons item items ih =>
    cases item with
    | literal c plain =>
      have rest := ih filled
      rw [expand, List.length_cons]
      omega
    | directive width conv ends =>
      rw [expand, List.length_append]
      rcases filled.2 with now | later
      · omega
      · have rest := ih later
        omega

variable (args strings) in
theorem runItems_prints (finish : PrintState → Option Outcome) (positive : 0 < last)
    (returns : ∀ s, s.off = last → finish s = some (.returned (toLong s.off) s)) (items : List Item)
    (printed : Printed init last touched text s) :
    ∃ s', Printed init last (touched || items.any fun item => item.Prints)
        (text ++ expand args strings items s.padWidth s.ap) s' ∧
      (FilledByDirective args strings last items text.length s.padWidth s.ap →
        runItems args strings last finish items s = some (.returned 0 s')) ∧
      (¬FilledByDirective args strings last items text.length s.padWidth s.ap →
        runItems args strings last finish items s = finish s') := by
  induction items generalizing touched text s with
  | nil =>
    refine ⟨s, ?_, fun filled => filled.elim, fun _ => rfl⟩
    rw [expand, List.append_nil, List.any_nil, Bool.or_false]
    exact printed
  | cons item items ih =>
    cases item with
    | literal c plain =>
      obtain ⟨s', done, filled, unfilled⟩ := ih (printC_printed printed c.val)
      rw [printC_padWidth, printC_ap, List.length_append, List.length_singleton] at filled unfilled
      rw [printC_padWidth, printC_ap, List.append_assoc, List.singleton_append] at done
      refine ⟨s', ?_, filled, unfilled⟩
      have writes :
          (touched || (Item.literal c plain :: items).any fun item => item.Prints) = true := by
        rw [List.any_cons]
        change (touched || (true || _)) = true
        rw [Bool.true_or, Bool.or_true]
      rw [Bool.true_or] at done
      rw [writes]
      exact done
    | directive width conv ends =>
      have off := printed.off
      rw [runItems]
      by_cases full : s.off = last
      · have long : last ≤ text.length := by omega
        rw [if_pos full, ← returns s full]
        exact ⟨s, printed_more printed positive long _ _,
          fun filled => absurd filled (not_filled_of_full _ long _ _), fun _ => rfl⟩
      · have padded :
            Printed init last touched text { s with padWidth := widen s.padWidth width } :=
          ⟨printed.off, printed.fresh, printed.dest, printed.length, printed.extent⟩
        have converted := printConversion_converted args strings padded conv.val
        have any :
          (touched || (Item.directive width conv ends :: items).any fun item => item.Prints) =
            ((touched || decide (Known conv.val)) || items.any fun item => item.Prints) := by
          rw [List.any_cons, Bool.or_assoc]
          rfl
        rw [if_neg full, any, expand, ← List.append_assoc]
        set s1 :=
          printConversion args strings last conv.val { s with padWidth := widen s.padWidth width }
        have off1 := converted.printed.off
        simp only at off1
        by_cases room : s1.off < last
        · obtain ⟨s', done, filled, unfilled⟩ := ih converted.printed
          rw [converted.padWidth, converted.ap, List.length_append] at filled unfilled
          rw [converted.padWidth, converted.ap] at done
          rw [List.length_append] at off1
          rw [if_pos room]
          refine ⟨s', done, ?_, ?_⟩
          · rintro ⟨_, now | later⟩
            · omega
            · exact filled later
          · intro none
            exact unfilled fun later => none ⟨by omega, Or.inr later⟩
        · have long :
              last ≤ (text ++ convText strings conv.val (widen s.padWidth width)
                (args s.ap)).length := by
            omega
          rw [if_neg room]
          refine ⟨s1, printed_more converted.printed positive long _ _, fun _ => rfl, ?_⟩
          intro none
          refine absurd ⟨by omega, Or.inl ?_⟩ none
          rw [List.length_append] at long
          exact long

def returnOff (s : PrintState) : Option Outcome := some (.returned (toLong s.off) s)

theorem length_format (items : List Item) : items.length ≤ (format items).length := by
  induction items with
  | nil => exact Nat.zero_le _
  | cons item items ih =>
    have some_char : 1 ≤ item.text.length := by
      cases item with
      | literal c plain => exact Nat.le_refl 1
      | directive width conv ends => exact Nat.succ_le_succ (Nat.zero_le _)
    rw [format, List.flatMap_cons, List.length_append, List.length_cons]
    have := ih
    rw [format] at this
    omega

private theorem rtlBufPrintfV_format (dest : Buffer Byte) {size : BitVec 64}
    (positive : 0 < (size - 1).toNat)
    (items : List Item) : rtlBufPrintfV args strings dest size (format items) =
      runItems args strings (size - 1).toNat returnOff items (startState dest) := by
  rw [rtlBufPrintfV, printfLoop_turn, if_pos (show (startState dest).off < _ from positive)]
  refine afterTurn_items returnOff [0] ?_ items
    (show items.length + 0 ≤ _ from length_format items) _
  intro fuel s _
  rw [printfTurn_end]
  rfl

variable (args strings) in
theorem printf_format_prints (dest : Buffer Byte) {size : BitVec 64}
    (positive : 0 < (size - 1).toNat) (items : List Item) :
    ∃ s, Printed dest (size - 1).toNat (items.any fun item => item.Prints)
      (expand args strings items 0 0) s ∧
      (FilledByDirective args strings (size - 1).toNat items 0 0 0 →
        rtlBufPrintfV args strings dest size (format items) = some (.returned 0 s)) ∧
      (¬FilledByDirective args strings (size - 1).toNat items 0 0 0 →
        rtlBufPrintfV args strings dest size (format items) = some
          (.returned (toLong s.off) s)) := by
  rw [rtlBufPrintfV_format dest positive]
  exact runItems_prints args strings returnOff positive (fun _ _ => rfl) items
    (startState_printed dest _)

variable (args strings) in
theorem printf_format_returns (dest : Buffer Byte) {size : BitVec 64}
    (positive : 0 < (size - 1).toNat) (items : List Item) :
    ∃ ret s, rtlBufPrintfV args strings dest size (format items) = some (.returned ret s) ∧
      Printed dest (size - 1).toNat (items.any fun item => item.Prints)
        (expand args strings items 0 0) s := by
  obtain ⟨s, printed, filled, unfilled⟩ := printf_format_prints args strings dest positive items
  by_cases full : FilledByDirective args strings (size - 1).toNat items 0 0 0
  · exact ⟨_, s, filled full, printed⟩
  · exact ⟨_, s, unfilled full, printed⟩

theorem printf_one (dest : Buffer Byte) {size : BitVec 64} (one : (size - 1).toNat = 0)
    (fmt : CString) :
    rtlBufPrintfV args strings dest size fmt = some (.returned 0 (startState dest)) := by
  rw [rtlBufPrintfV, printfLoop_turn, one]
  rfl

end Run

end Algae.Rtl.PrintfItems
