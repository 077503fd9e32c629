/- Formatted printing: the loop of rtlBufPrintfV over its format, and what it does on a
   format that is given item by item. -/

import Algae.Rtl.Itoa
import Algae.Rtl.String
import Algae.Sdk.Defs

set_option autoImplicit false
set_option relaxedAutoImplicit false

namespace Algae.Rtl.Printf

open Algae.Lib.ByteMemory Algae.Lib.CellBuffer
open Algae.Rtl.String Algae.Rtl.Itoa Algae.Sdk.Defs

/-- The buffer and the locals that a turn of the loop leaves to the next; `ap` is how many
arguments have been taken. -/
structure PrintState where
  dest : Buffer Byte
  off : Nat
  padWidth : Nat
  numBuf : Buffer Byte
  ap : Nat

section Code

-- the arguments as 64-bit words, the strings at the pointers among them, and `size - 1`
variable (args : Nat → BitVec 64) (strings : BitVec 64 → CString) (last : Nat)

def printC (c : Byte) (s : PrintState) : PrintState :=
  let s := if s.off < last then { s with dest := s.dest.set s.off c, off := s.off + 1 } else s
  { s with dest := s.dest.set s.off 0 }

def printStrLoop : CString → PrintState → PrintState
  | [], s => s
  | c :: str, s =>
    if s.off < last then printStrLoop str
      { s with dest := s.dest.set s.off c, off := s.off + 1 } else s

def printStr (str : CString) (s : PrintState) : PrintState :=
  let s := printStrLoop last str s
  { s with dest := s.dest.set s.off 0 }

def printZeros : Nat → PrintState → PrintState
  | 0, s => s
  | n + 1, s => printZeros n (printC last 0x30 s)

def rtlStrlen : List Byte → Nat
  | [] => 0
  | c :: str => if c = 0 then 0 else rtlStrlen str + 1

def printConversion (c : Byte) (s : PrintState) : PrintState :=
  if c = 0x63 then
    let c1 := (args s.ap).setWidth 8
    printC last c1 { s with ap := s.ap + 1 }
  else if c = 0x25 then
    printC last c s
  else if c = 0x78 then
    let num := args s.ap
    let numBuf := (rtlItoa num s.numBuf 16).getD s.numBuf
    printStr last (cString (numBuf.items.drop 2)) { s with numBuf := numBuf, ap := s.ap + 1 }
  else if c = 0x70 then
    let num := args s.ap
    let numBuf := (rtlItoa num s.numBuf 16).getD s.numBuf
    let tmpLen := rtlStrlen numBuf.items
    let s := printC last 0x30 { s with numBuf := numBuf, ap := s.ap + 1 }
    let s := printC last 0x78 s
    let s := printZeros last (toUSize (18 - tmpLen)) s
    printStr last (cString (numBuf.items.drop 2)) s
  else if c = 0x64 ∨ c = 0x75 then
    let num := args s.ap
    let numBuf := (rtlItoa num s.numBuf 10).getD s.numBuf
    let s := { s with numBuf := numBuf, ap := s.ap + 1 }
    let s :=
      if 0 < s.padWidth then
        let numLen := rtlStrlen numBuf.items
        { printZeros last (s.padWidth - numLen) s with padWidth := 0 }
      else s
    printStr last (cString numBuf.items) s
  else if c = 0x73 then
    printStr last (strings (args s.ap)) { s with ap := s.ap + 1 }
  else
    s

/-- `none` is a read past the terminator of the format, here and below. -/
def literalRun : List Byte → PrintState → Option (PrintState × List Byte)
  | [], _ => none
  | c :: fmt, s => if c ≠ 0 ∧ c ≠ 0x25 then literalRun fmt (printC last c s) else some (s, c :: fmt)

def isDigit (c : Byte) : Bool := 0x30 ≤ c.toNat ∧ c.toNat ≤ 0x39

def widthLoop (padWidth : Nat) : List Byte → Option (Nat × List Byte)
  | [] => none
  | c :: fmt =>
    if isDigit c then widthLoop ((padWidth * 10 + (c.toNat - 0x30)) % 0x100) fmt
    else some (padWidth, c :: fmt)

def readWidth (padWidth : Nat) : List Byte → Option (Nat × List Byte)
  | [] => none
  | c :: fmt => if c = 0x30 then widthLoop padWidth fmt else some (padWidth, c :: fmt)

def nextChar : List Byte → Option (Byte × List Byte)
  | [] => none
  | c :: fmt => some (c, fmt)

inductive Turn
  | returned (ret : Int) (s : PrintState)
  | next (fmt : List Byte) (s : PrintState)

def printfTurn (fmt : List Byte) (s : PrintState) : Option Turn := do
  let (s, fmt) ← literalRun last fmt s
  let (c, fmt) ← nextChar fmt
  if c = 0 ∨ s.off = last then
    return .returned (toLong s.off) s
  let (padWidth, fmt) ← readWidth s.padWidth fmt
  let (c, fmt) ← nextChar fmt
  return .next fmt (printConversion args strings last c { s with padWidth := padWidth })

inductive Outcome
  | returned (ret : Int) (s : PrintState)
  | pastEnd

def printfLoop : Nat → List Byte → PrintState → Option Outcome
  | fuel, fmt, s =>
    if s.off < last then
      match fuel with
      | 0 => none
      | fuel + 1 =>
        match printfTurn args strings last fmt s with
        | none => some .pastEnd
        | some (.returned ret s) => some (.returned ret s)
        | some (.next fmt s) => printfLoop fuel fmt s
    else
      some (.returned 0 s)

/-- The locals at the start; `numBuf` is initialised with zeros. -/
def startState (dest : Buffer Byte) : PrintState where
  dest := dest
  off := 0
  padWidth := 0
  numBuf := ⟨List.replicate 256 0, 0⟩
  ap := 0

/-- A turn that does not return takes characters of the format, which bounds the turns. -/
def rtlBufPrintfV (dest : Buffer Byte) (size : BitVec 64) (fmt : CString) : Option Outcome :=
  printfLoop args strings (size - 1).toNat (fmt.length + 1) (CString.bytes fmt ++ [0])
    (startState dest)

def rtlBufPrintf (dest : Buffer Byte) (size : BitVec 64) (fmt : CString) : Option Outcome :=
  rtlBufPrintfV args strings dest size fmt

end Code

section Text

variable (args : Nat → BitVec 64) (strings : BitVec 64 → CString)

/-- What a conversion prints of its argument when the pad width is `pad`. -/
def convText (c : Byte) (pad : Nat) (num : BitVec 64) : List Byte :=
  if c = 0x63 then [num.setWidth 8]
  else if c = 0x25 then [0x25]
  else if c = 0x78 then hexText num.toNat
  else if c = 0x70 then
    0x30 :: 0x78 :: (List.replicate (16 - (hexText num.toNat).length) 0x30 ++ hexText num.toNat)
  else if c = 0x64 ∨ c = 0x75 then
    List.replicate (pad - (decimalText num.toNat).length) 0x30 ++ decimalText num.toNat
  else if c = 0x73 then CString.bytes (strings num)
  else []

def takesArg (c : Byte) : Nat :=
  if c = 0x63 ∨ c = 0x78 ∨ c = 0x70 ∨ c = 0x64 ∨ c = 0x75 ∨ c = 0x73 then 1 else 0

def padAfter (c : Byte) (pad : Nat) : Nat := if c = 0x64 ∨ c = 0x75 then 0 else pad

def Known (c : Byte) : Prop :=
  c = 0x63 ∨ c = 0x25 ∨ c = 0x78 ∨ c = 0x70 ∨ c = 0x64 ∨ c = 0x75 ∨ c = 0x73

instance (c : Byte) : Decidable (Known c) := inferInstanceAs (Decidable (_ ∨ _))

def nul (touched : Bool) : List Byte := if touched then [0] else []

/-- The printed text is in the buffer as far as it fits, and the number buffer is sound. -/
structure Printed (init : Buffer Byte) (last : Nat) (touched : Bool) (text : List Byte)
    (s : PrintState) : Prop where
  off : s.off = min last text.length
  fresh : touched = false → text = []
  dest : last < init.items.length → s.dest = init.overlay (text.take last ++ nul touched)
  length : s.numBuf.items.length = 256
  extent : s.numBuf.extent ≤ 256

/-- The text, the width and the number of arguments after a conversion. -/
structure Converted (init : Buffer Byte) (last : Nat) (touched : Bool) (text : List Byte) (c : Byte)
    (s s' : PrintState) : Prop where
  printed : Printed init last touched (text ++ convText strings c s.padWidth (args s.ap)) s'
  padWidth : s'.padWidth = padAfter c s.padWidth
  ap : s'.ap = s.ap + takesArg c

end Text

section Printing

variable {args : Nat → BitVec 64} {strings : BitVec 64 → CString} {init : Buffer Byte} {last : Nat}
  {touched : Bool} {text : List Byte} {s : PrintState}

theorem startState_printed (init : Buffer Byte) (last : Nat) :
    Printed init last false [] (startState init) := by
  refine ⟨?_, fun _ => rfl, ?_, List.length_replicate, Nat.zero_le _⟩
  · exact (Nat.min_zero last).symm
  · intro _
    rw [List.take_nil, List.nil_append]
    exact init.overlay_nil.symm

theorem nul_length (touched : Bool) : (nul touched).length ≤ 1 := by
  cases touched <;> decide

private theorem overlay_next {b : Buffer Byte} {front : List Byte}
    (room : front.length < b.items.length) (touched : Bool) (c : Byte) :
    (b.overlay (front ++ nul touched)).set front.length c = b.overlay (front ++ [c]) := by
  cases touched with
  | false =>
    rw [nul, if_neg (by decide), List.append_nil]
    exact b.overlay_push room c
  | true => exact b.overlay_set front [] 0 c

private theorem overlay_char {b : Buffer Byte} {front : List Byte}
    (room : front.length + 1 < b.items.length) (touched : Bool) (c : Byte) :
    ((b.overlay (front ++ nul touched)).set front.length c).set (front.length + 1) 0 =
      b.overlay (front ++ [c] ++ [0]) := by
  have wide : (front ++ [c]).length < b.items.length := by
    rw [List.length_append, List.length_singleton]
    exact room
  have push := b.overlay_push wide 0
  rw [List.length_append, List.length_singleton] at push
  rw [overlay_next (by omega), push]

private theorem take_length (last : Nat) (text : List Byte) :
    (text.take last).length = min last text.length := List.length_take

theorem printC_printed (printed : Printed init last touched text s) (c : Byte) :
    Printed init last true (text ++ [c]) (printC last c s) := by
  have off := printed.off
  have length := @List.length_append _ text [c]
  rw [List.length_singleton] at length
  rw [printC]
  by_cases room : s.off < last
  · have short : text.length < last := by omega
    rw [if_pos room]
    refine ⟨?_, fun h => absurd h (by decide), ?_, printed.length, printed.extent⟩
    · rw [length]
      change s.off + 1 = _
      omega
    · intro inside
      change ((s.dest.set s.off c).set (s.off + 1) 0) = _
      have at_end : s.off = text.length := by omega
      have whole := printed.dest inside
      rw [List.take_of_length_le (by omega)] at whole
      rw [whole, at_end, overlay_char (by omega), List.take_of_length_le (by omega)]
      rfl
  · rw [if_neg room]
    refine ⟨?_, fun h => absurd h (by decide), ?_, printed.length, printed.extent⟩
    · rw [length]
      change s.off = _
      omega
    · intro inside
      change s.dest.set s.off 0 = _
      have full : s.off = (text.take last).length := off.trans (take_length last text).symm
      have long : last ≤ text.length := by omega
      rw [printed.dest inside, full, overlay_next (by rw [← full]; omega),
        List.take_append_of_le_length long]
      rfl

private theorem terminate_printed (printed : Printed init last touched text s) :
    Printed init last true text { s with dest := s.dest.set s.off 0 } := by
  have off := printed.off
  refine ⟨off, fun h => absurd h (by decide), ?_, printed.length, printed.extent⟩
  intro inside
  have full : s.off = (text.take last).length := off.trans (take_length last text).symm
  change s.dest.set s.off 0 = _
  rw [printed.dest inside, full, overlay_next (by rw [← full]; omega)]
  rfl

private theorem set_set (b : Buffer Byte) (i : Nat) (c d : Byte) :
    (b.set i c).set i d = b.set i d := by
  ext1
  · exact List.set_set ..
  · simp

private theorem printStr_terminated (last : Nat) (str : CString) (s : PrintState) :
    printStr last str { s with dest := s.dest.set s.off 0 } = printStr last str s := by
  cases str with
  | nil =>
    rw [printStr, printStr, printStrLoop, printStrLoop]
    simp only [set_set]
  | cons c str =>
    rw [printStr, printStr, printStrLoop, printStrLoop]
    by_cases room : s.off < last
    · simp only [if_pos room, set_set]
    · simp only [if_neg room, set_set]

private theorem printStr_cons (last : Nat) (c : CChar) (str : CString) (s : PrintState) :
    printStr last (c :: str) s = printStr last str (printC last c.val s) := by
  by_cases room : s.off < last
  · rw [printC, if_pos room, printStr_terminated, printStr, printStr, printStrLoop, if_pos room]
  · rw [printC, if_neg room, printStr_terminated, printStr, printStr, printStrLoop, if_neg room]
    cases str with
    | nil => rw [printStrLoop]
    | cons d str => rw [printStrLoop, if_neg room]

private theorem printStr_printed (printed : Printed init last touched text s) (str : CString) :
    Printed init last true (text ++ CString.bytes str) (printStr last str s) := by
  induction str generalizing touched text s with
  | nil =>
    rw [CString.bytes, List.map_nil, List.append_nil]
    exact terminate_printed printed
  | cons c str ih =>
    have rest := ih (printC_printed printed c.val)
    rw [List.append_assoc] at rest
    rw [printStr_cons]
    exact rest

private theorem printZeros_printed (printed : Printed init last touched text s) (n : Nat) :
    ∃ touched', Printed init last touched' (text ++ List.replicate n 0x30)
      (printZeros last n s) := by
  induction n generalizing touched text s with
  | zero =>
    rw [List.replicate_zero, List.append_nil]
    exact ⟨touched, printed⟩
  | succ n ih =>
    obtain ⟨touched', rest⟩ := ih (printC_printed printed 0x30)
    rw [List.append_assoc] at rest
    exact ⟨touched', rest⟩

@[simp] theorem printC_padWidth (last : Nat) (c : Byte) (s : PrintState) :
    (printC last c s).padWidth = s.padWidth := by
  rw [printC]
  split <;> rfl

@[simp] theorem printC_ap (last : Nat) (c : Byte) (s : PrintState) :
    (printC last c s).ap = s.ap := by
  rw [printC]
  split <;> rfl

@[simp] theorem printStr_padWidth (last : Nat) (str : CString) (s : PrintState) :
    (printStr last str s).padWidth = s.padWidth := by
  induction str generalizing s with
  | nil => rfl
  | cons c str ih => rw [printStr_cons, ih, printC_padWidth]

@[simp] theorem printStr_ap (last : Nat) (str : CString) (s : PrintState) :
    (printStr last str s).ap = s.ap := by
  induction str generalizing s with
  | nil => rfl
  | cons c str ih => rw [printStr_cons, ih, printC_ap]

@[simp] theorem printZeros_padWidth (last n : Nat) (s : PrintState) :
    (printZeros last n s).padWidth = s.padWidth := by
  induction n generalizing s with
  | zero => rfl
  | succ n ih => rw [printZeros, ih, printC_padWidth]

@[simp] theorem printZeros_ap (last n : Nat) (s : PrintState) :
    (printZeros last n s).ap = s.ap := by
  induction n generalizing s with
  | zero => rfl
  | succ n ih => rw [printZeros, ih, printC_ap]

private theorem rtlStrlen_nul {str : List Byte} (nonzero : ∀ c ∈ str, c ≠ 0) (rest : List Byte) :
    rtlStrlen (str ++ 0 :: rest) = str.length := by
  induction str with
  | nil => rfl
  | cons c str ih =>
    rw [List.forall_mem_cons] at nonzero
    rw [List.cons_append, rtlStrlen, if_neg nonzero.1, ih nonzero.2, List.length_cons]

theorem bytes_cString {str : List Byte} (nonzero : ∀ c ∈ str, c ≠ 0) (rest : List Byte) :
    CString.bytes (cString (str ++ 0 :: rest)) = str := by
  induction str with
  | nil => simp [cString, CString.bytes]
  | cons c str ih =>
    rw [List.forall_mem_cons] at nonzero
    rw [List.cons_append, cString, dif_pos nonzero.1]
    exact congrArg (c :: ·) (ih nonzero.2)

private theorem overlay_number {buf : Buffer Byte} (length : buf.items.length = 256)
    (extent : buf.extent ≤ 256)
    {str : List Byte} (short : str.length ≤ 20) (nonzero : ∀ c ∈ str, c ≠ 0) :
    (buf.overlay (str ++ [0])).items.length = 256 ∧ (buf.overlay (str ++ [0])).extent ≤ 256 ∧
      rtlStrlen (buf.overlay (str ++ [0])).items = str.length ∧
      ∃ rest, (buf.overlay (str ++ [0])).items = str ++ 0 :: rest := by
  have size : (str ++ [0]).length = str.length + 1 := by
    rw [List.length_append, List.length_singleton]
  have items :
      (buf.overlay (str ++ [0])).items = str ++ 0 :: buf.items.drop (str ++ [0]).length := by
    rw [Buffer.overlay_items, List.append_assoc, List.singleton_append]
  refine ⟨?_, ?_, ?_, _, items⟩
  · rw [Buffer.length_overlay _ (by omega), length]
  · rw [Buffer.overlay_extent]
    omega
  · rw [items, rtlStrlen_nul nonzero]

private theorem hex_number {buf : Buffer Byte} (length : buf.items.length = 256)
    (extent : buf.extent ≤ 256)
    (num : BitVec 64) : ∃ numBuf, (rtlItoa num buf 16).getD buf = numBuf ∧
    numBuf.items.length = 256 ∧
      numBuf.extent ≤ 256 ∧ rtlStrlen numBuf.items = 2 + (hexText num.toNat).length ∧
      CString.bytes (cString (numBuf.items.drop 2)) = hexText num.toNat := by
  have short := length_hexText_le num
  have nonzero : ∀ c ∈ 0x30 :: 0x78 :: hexText num.toNat, c ≠ 0 :=
    List.forall_mem_cons.mpr ⟨by decide, List.forall_mem_cons.mpr ⟨by decide, hexText_ne_zero⟩⟩
  have fits : (0x30 :: 0x78 :: hexText num.toNat).length ≤ 20 := by
    rw [List.length_cons, List.length_cons]
    omega
  obtain ⟨size, bound, strlen, rest, items⟩ := overlay_number length extent fits nonzero
  refine ⟨_, rfl, ?_⟩
  rw [rtlItoa_sixteen num buf (by omega), Option.getD_some]
  refine ⟨size, bound, strlen.trans ?_, ?_⟩
  · rw [List.length_cons, List.length_cons]
    omega
  · rw [items]
    exact bytes_cString hexText_ne_zero rest

private theorem decimal_number {buf : Buffer Byte} (length : buf.items.length = 256)
    (extent : buf.extent ≤ 256)
    (num : BitVec 64) : ∃ numBuf, (rtlItoa num buf 10).getD buf = numBuf ∧
    numBuf.items.length = 256 ∧
      numBuf.extent ≤ 256 ∧ rtlStrlen numBuf.items = (decimalText num.toNat).length ∧
      CString.bytes (cString numBuf.items) = decimalText num.toNat := by
  obtain ⟨size, bound, strlen, rest, items⟩ := overlay_number length extent
    (length_decimalText_le num.isLt) decimalText_ne_zero
  refine ⟨_, rfl, ?_⟩
  rw [rtlItoa_ten num buf (by omega), Option.getD_some]
  refine ⟨size, bound, strlen, ?_⟩
  rw [items]
  exact bytes_cString decimalText_ne_zero rest

private theorem Printed.congr (printed : Printed init last touched text s) (s' : PrintState)
    (dest : s'.dest = s.dest) (off : s'.off = s.off) (length : s'.numBuf.items.length = 256)
    (extent : s'.numBuf.extent ≤ 256) : Printed init last touched text s' :=
  ⟨off.trans printed.off, printed.fresh, fun inside => dest.trans (printed.dest inside),
    length, extent⟩

private theorem hex_converted (printed : Printed init last touched text s) :
    Converted args strings init last true text 0x78 s
      (printConversion args strings last 0x78 s) := by
  obtain ⟨numBuf, conv, length, extent, _, bytes⟩ :=
    hex_number printed.length printed.extent (args s.ap)
  have result : printConversion args strings last 0x78 s =
      printStr last (cString (numBuf.items.drop 2))
        { s with numBuf := numBuf, ap := s.ap + 1 } := by
    rw [← conv]
    rfl
  have str := printStr_printed (printed.congr { s with numBuf := numBuf, ap := s.ap + 1 }
    rfl rfl length extent) (cString (numBuf.items.drop 2))
  rw [bytes] at str
  rw [result]
  exact ⟨str, printStr_padWidth .., printStr_ap ..⟩

private theorem pointer_converted (printed : Printed init last touched text s) :
    Converted args strings init last true text 0x70 s
      (printConversion args strings last 0x70 s) := by
  obtain ⟨numBuf, conv, length, extent, strlen, bytes⟩ :=
    hex_number printed.length printed.extent (args s.ap)
  have short := length_hexText_le (args s.ap)
  have result : printConversion args strings last 0x70 s =
      printStr last (cString (numBuf.items.drop 2))
        (printZeros last (toUSize (18 - rtlStrlen numBuf.items))
        (printC last 0x78 (printC last 0x30 { s with numBuf := numBuf, ap := s.ap + 1 }))) := by
    rw [← conv]
    rfl
  have count : toUSize (18 - rtlStrlen numBuf.items) = 16 - (hexText (args s.ap).toNat).length := by
    rw [strlen, show (18 - ((2 + (hexText (args s.ap).toNat).length : Nat) : Int)) =
      ((16 - (hexText (args s.ap).toNat).length : Nat) : Int) by omega, toUSize_natCast (by omega)]
  have zero := printC_printed (printed.congr { s with numBuf := numBuf, ap := s.ap + 1 }
    rfl rfl length extent) 0x30
  obtain ⟨_, zeros⟩ := printZeros_printed (printC_printed zero 0x78)
    (16 - (hexText (args s.ap).toNat).length)
  have str := printStr_printed zeros (cString (numBuf.items.drop 2))
  rw [bytes, List.append_assoc, List.append_assoc, List.append_assoc] at str
  rw [result, count]
  refine ⟨str, ?_, ?_⟩
  · rw [printStr_padWidth, printZeros_padWidth, printC_padWidth, printC_padWidth]
    rfl
  · rw [printStr_ap, printZeros_ap, printC_ap, printC_ap]
    rfl

private theorem decimal_converted (printed : Printed init last touched text s) {c : Byte}
    (decimal : c = 0x64 ∨ c = 0x75) :
    Converted args strings init last true text c s (printConversion args strings last c s) := by
  obtain ⟨numBuf, conv, length, extent, strlen, bytes⟩ :=
    decimal_number printed.length printed.extent (args s.ap)
  have result : printConversion args strings last c s =
      printStr last (cString numBuf.items)
        (if 0 < s.padWidth then
          { printZeros last (s.padWidth - rtlStrlen numBuf.items)
              { s with numBuf := numBuf, ap := s.ap + 1 } with padWidth := 0 }
        else { s with numBuf := numBuf, ap := s.ap + 1 }) := by
    rw [← conv]
    rcases decimal with rfl | rfl <;> rfl
  have value : convText strings c s.padWidth (args s.ap) =
      List.replicate (s.padWidth - (decimalText (args s.ap).toNat).length) 0x30 ++
        decimalText (args s.ap).toNat := by
    rcases decimal with rfl | rfl <;> rfl
  have after : padAfter c s.padWidth = 0 := if_pos decimal
  have takes : takesArg c = 1 := by
    rcases decimal with rfl | rfl <;> rfl
  have start := printed.congr { s with numBuf := numBuf, ap := s.ap + 1 } rfl rfl length extent
  obtain ⟨_, zeros⟩ := printZeros_printed start (s.padWidth - rtlStrlen numBuf.items)
  rw [result, strlen]
  rw [strlen] at zeros
  by_cases wide : 0 < s.padWidth
  · rw [if_pos wide]
    have str := printStr_printed (zeros.congr { printZeros last
      (s.padWidth - (decimalText (args s.ap).toNat).length)
        { s with numBuf := numBuf, ap := s.ap + 1 }
        with padWidth := 0 } rfl rfl zeros.length zeros.extent) (cString numBuf.items)
    rw [bytes, List.append_assoc, ← value] at str
    refine ⟨str, ?_, ?_⟩
    · rw [printStr_padWidth, after]
    · rw [printStr_ap, takes]
      exact printZeros_ap ..
  · rw [if_neg wide]
    have str := printStr_printed start (cString numBuf.items)
    have none : s.padWidth - (decimalText (args s.ap).toNat).length = 0 := by omega
    rw [bytes] at str
    rw [none, List.replicate_zero, List.nil_append] at value
    refine ⟨value ▸ str, ?_, ?_⟩
    · rw [printStr_padWidth, after]
      exact Nat.eq_zero_of_not_pos wide
    · rw [printStr_ap, takes]

variable (args strings) in
theorem printConversion_converted (printed : Printed init last touched text s) (c : Byte) :
    Converted args strings init last (touched || decide (Known c)) text c s
      (printConversion args strings last c s) := by
  by_cases known : Known c
  · rw [decide_eq_true known, Bool.or_true]
    have start := printed.congr { s with ap := s.ap + 1 } rfl rfl printed.length printed.extent
    rcases known with rfl | rfl | rfl | rfl | rfl | rfl | rfl
    · exact ⟨printC_printed start _, printC_padWidth .., printC_ap ..⟩
    · exact ⟨printC_printed printed 0x25, printC_padWidth .., printC_ap ..⟩
    · exact hex_converted printed
    · exact pointer_converted printed
    · exact decimal_converted printed (Or.inl rfl)
    · exact decimal_converted printed (Or.inr rfl)
    · exact ⟨printStr_printed start _, printStr_padWidth .., printStr_ap ..⟩
  · rw [decide_eq_false known, Bool.or_false]
    simp only [Known, not_or] at known
    obtain ⟨c1, c2, c3, c4, c5, c6, c7⟩ := known
    have same : printConversion args strings last c s = s := by
      simp only [printConversion, if_neg c1, if_neg c2, if_neg c3, if_neg c4, if_neg c7,
        if_neg (not_or.mpr ⟨c5, c6⟩)]
    have silent : convText strings c s.padWidth (args s.ap) = [] := by
      simp only [convText, if_neg c1, if_neg c2, if_neg c3, if_neg c4, if_neg c7,
        if_neg (not_or.mpr ⟨c5, c6⟩)]
    rw [same]
    refine ⟨?_, ?_, ?_⟩
    · rw [silent, List.append_nil]
      exact printed
    · exact (if_neg (not_or.mpr ⟨c5, c6⟩)).symm
    · have free : ¬(c = 0x63 ∨ c = 0x78 ∨ c = 0x70 ∨ c = 0x64 ∨ c = 0x75 ∨ c = 0x73) := by
        simp only [not_or]
        exact ⟨c1, c3, c4, c5, c6, c7⟩
      rw [takesArg, if_neg free, Nat.add_zero]

end Printing

end Algae.Rtl.Printf
