/- The pad width outlives the directive that it was given for: when a format prints what its
   directives print one by one. -/

import Algae.Rtl.PrintfBounds

set_option autoImplicit false
set_option relaxedAutoImplicit false

namespace Algae.Rtl.PrintfWidths

open Algae.Lib.ByteMemory Algae.Lib.CellBuffer Algae.Rtl.Itoa
open Algae.Rtl.String Algae.Rtl.Printf Algae.Rtl.PrintfItems Algae.Rtl.PrintfBounds

section Law

variable (args : Nat → BitVec 64) (strings : BitVec 64 → CString)

/-- A call prints `text` into every buffer with room for it and a NUL. -/
def PrintsText (fmt : CString) (text : List Byte) : Prop :=
  ∀ (size : BitVec 64) (dest : Buffer Byte), dest.items.length = size.toNat →
    text.length < size.toNat →
    ∃ ret s, rtlBufPrintfV args strings dest size fmt = some (.returned ret s) ∧
      s.dest.items.take s.off = text

/-- The literal characters, and what each directive prints alone with the argument that is its. -/
def Separately : List Item → Nat → List Byte → Prop
  | [], _, text => text = []
  | .literal c _ :: items, ap, text => ∃ rest, text = c.val :: rest ∧ Separately items ap rest
  | .directive width conv ends :: items, ap, text =>
    ∃ own rest, text = own ++ rest ∧
      PrintsText (fun k => args (ap + k)) strings (format [.directive width conv ends]) own ∧
      Separately items (ap + takesArg conv.val) rest

end Law

/-- With all arguments, a text that the directives print one by one, and that leaves room in the
address space, is printed by the format. -/
def Independent (items : List Item) : Prop :=
  ∀ args strings text, Separately args strings items 0 text → text.length < 0xFFFFFFFFFFFFFFFE →
    PrintsText args strings (format items) text

def spell (digits : List (Fin 10)) :
    Nat := digits.foldl (fun (n : Nat) (d : Fin 10) => n * 10 + d.val) 0

/-- At each decimal conversion the digits of all widths since the last one, read as one number,
pad as those of its own width do; `carried` are the digits so far. -/
def OwnWidths : List Item → List (Fin 10) → Prop
  | [], _ => True
  | .literal _ _ :: items, carried => OwnWidths items carried
  | .directive width conv _ :: items, carried =>
    let own := width.getD []
    if conv.val = 0x64 ∨ conv.val = 0x75 then
      (spell (carried ++ own) % 0x100 = spell own % 0x100 ∨
        spell (carried ++ own) % 0x100 ≤ 1 ∧ spell own % 0x100 ≤ 1) ∧ OwnWidths items []
    else
      OwnWidths items (carried ++ own)

section Alone

variable {args : Nat → BitVec 64} {strings : BitVec 64 → CString}

variable (args strings) in
private theorem printed_text {size : BitVec 64} (nonzero : size ≠ 0) {dest : Buffer Byte}
    (owns : dest.items.length = size.toNat) (items : List Item) :
    ∃ ret s, rtlBufPrintfV args strings dest size (format items) = some (.returned ret s) ∧
      s.dest.items.take s.off = (expand args strings items 0 0).take (size - 1).toNat := by
  have last := last_lt_size nonzero
  by_cases one : (size - 1).toNat = 0
  · refine ⟨0, startState dest, printf_one dest one _, ?_⟩
    rw [one, List.take_zero]
    exact List.take_zero
  · obtain ⟨ret, s, call, printed⟩ :=
      printf_format_returns args strings dest (Nat.pos_of_ne_zero one) items
    refine ⟨ret, s, call, ?_⟩
    rw [printed.dest (by omega), Buffer.overlay_items, List.append_assoc,
      printed.off, ← List.length_take, List.take_left]

private theorem printsText_iff (items : List Item) {text : List Byte}
    (fits : text.length < 0xFFFFFFFFFFFFFFFE) :
    PrintsText args strings (format items) text ↔ expand args strings items 0 0 = text := by
  constructor
  · intro prints
    have call : ∀ extra, text.length + extra < 0xFFFFFFFFFFFFFFFF →
        (expand args strings items 0 0).take (text.length + extra) = text := by
      intro extra small
      have value : (BitVec.ofNat 64 (text.length + extra + 1)).toNat = text.length + extra + 1 := by
        rw [BitVec.toNat_ofNat]
        omega
      have nonzero : BitVec.ofNat 64 (text.length + extra + 1) ≠ 0 := by
        intro zero
        rw [zero] at value
        exact absurd value (by simp)
      have last := last_lt_size nonzero
      obtain ⟨ret, s, run, taken⟩ := prints (BitVec.ofNat 64 (text.length + extra + 1))
        ⟨List.replicate (text.length + extra + 1) 0, 0⟩ (by rw [List.length_replicate, value])
          (by omega)
      obtain ⟨ret', s', run', taken'⟩ := printed_text args strings nonzero
        (show (⟨List.replicate (text.length + extra + 1) 0, 0⟩ : Buffer Byte).items.length = _ by
          rw [List.length_replicate, value]) items
      rw [run] at run'
      obtain ⟨_, rfl⟩ := Outcome.returned.inj (Option.some.inj run')
      rw [taken', show (BitVec.ofNat 64 (text.length + extra + 1) - 1).toNat = text.length +
        extra by omega]
        at taken
      exact taken
    have short : (expand args strings items 0 0).length ≤ text.length := by
      have more := congrArg List.length (call 1 (by omega))
      rw [List.length_take] at more
      omega
    rw [← call 0 (by omega), List.take_of_length_le (by omega)]
  · rintro rfl size dest owns room
    have nonzero : size ≠ 0 := by
      rintro rfl
      exact absurd room (by simp)
    have last := last_lt_size nonzero
    obtain ⟨ret, s, run, taken⟩ := printed_text args strings nonzero owns items
    refine ⟨ret, s, run, ?_⟩
    rw [taken, List.take_of_length_le (by omega)]

variable (args strings)

def alone : List Item → Nat → List Byte
  | [], _ => []
  | .literal c _ :: items, ap => c.val :: alone items ap
  | .directive width conv _ :: items, ap =>
    convText strings conv.val (widen 0 width) (args ap) ++ alone items (ap + takesArg conv.val)

variable {args strings}

private theorem expand_single {width : Option (List (Fin 10))} {conv : CChar}
    (ends : EndsWidth width conv.val) (ap : Nat) :
    expand (fun k => args (ap + k)) strings [.directive width conv ends] 0 0 =
      convText strings conv.val (widen 0 width) (args ap) := by
  change convText strings conv.val (widen 0 width) (args (ap + 0)) ++ [] = _
  rw [List.append_nil, Nat.add_zero]

private theorem separately_iff (items : List Item) {ap : Nat} {text : List Byte}
    (fits : text.length < 0xFFFFFFFFFFFFFFFE) :
    Separately args strings items ap text ↔ text = alone args strings items ap := by
  induction items generalizing ap text with
  | nil => exact Iff.rfl
  | cons item items ih =>
    cases item with
    | literal c plain =>
      constructor
      · rintro ⟨rest, rfl, more⟩
        rw [List.length_cons] at fits
        rw [alone, (ih (by omega)).mp more]
      · rintro rfl
        refine ⟨_, rfl, (ih ?_).mpr rfl⟩
        rw [alone, List.length_cons] at fits
        omega
    | directive width conv ends =>
      constructor
      · rintro ⟨own, rest, rfl, prints, more⟩
        rw [List.length_append] at fits
        have single := (printsText_iff _ (by omega)).mp prints
        rw [expand_single] at single
        rw [alone, (ih (by omega)).mp more, single]
      · rintro rfl
        rw [alone, List.length_append] at fits
        refine ⟨_, _, rfl, ?_, (ih (by omega)).mpr rfl⟩
        exact (printsText_iff _ (by omega)).mpr (expand_single ends ap)

end Alone

section Widths

variable {args : Nat → BitVec 64} {strings : BitVec 64 → CString}

private theorem widen_digits (carried own : List (Fin 10)) :
    own.foldl (fun (pad : Nat) (d : Fin 10) => (pad * 10 + d.val) % 0x100) (spell carried % 0x100) =
      spell (carried ++ own) % 0x100 := by
  induction own generalizing carried with
  | nil => rw [List.append_nil, List.foldl_nil]
  | cons d own ih =>
    have next : (spell carried % 0x100 * 10 + d.val) % 0x100 = spell (carried ++ [d]) % 0x100 := by
      rw [spell, spell, List.foldl_append, List.foldl_cons, List.foldl_nil]
      omega
    rw [List.foldl_cons, next, ih, List.append_assoc, List.singleton_append]

private theorem widen_eq (carried : List (Fin 10)) (width : Option (List (Fin 10))) :
    widen (spell carried % 0x100) width = spell (carried ++ width.getD []) % 0x100 := by
  cases width with
  | none => rw [Option.getD_none, List.append_nil, widen]
  | some own => exact widen_digits carried own

private theorem widen_zero (width : Option (List (Fin 10))) :
    widen 0 width = spell (width.getD []) % 0x100 :=
  widen_eq [] width

private theorem convText_free {c : Byte} (free : ¬(c = 0x64 ∨ c = 0x75)) (pad pad' : Nat)
    (num : BitVec 64) :
    convText strings c pad num = convText strings c pad' num := by
  unfold convText
  rw [if_neg free, if_neg free]

private theorem convText_decimal {c : Byte} (decimal : c = 0x64 ∨ c = 0x75) (pad : Nat)
    (num : BitVec 64) :
    convText strings c pad num =
      List.replicate (pad - (decimalText num.toNat).length) 0x30 ++ decimalText num.toNat := by
  rcases decimal with rfl | rfl <;> rfl

private theorem expand_own (items : List Item) {carried : List (Fin 10)}
    (own : OwnWidths items carried) (ap : Nat) :
    expand args strings items (spell carried % 0x100) ap = alone args strings items ap := by
  induction items generalizing carried ap with
  | nil => rfl
  | cons item items ih =>
    cases item with
    | literal c plain => exact congrArg (c.val :: ·) (ih own ap)
    | directive width conv ends =>
      rw [expand, alone, widen_eq, widen_zero]
      by_cases decimal : conv.val = 0x64 ∨ conv.val = 0x75
      · rw [OwnWidths, if_pos decimal] at own
        obtain ⟨same, rest⟩ := own
        have digit := length_decimalText_pos (args ap).toNat
        have pads :
          spell (carried ++ width.getD []) % 0x100 - (decimalText (args ap).toNat).length =
            spell (width.getD []) % 0x100 - (decimalText (args ap).toNat).length := by
          omega
        rw [convText_decimal decimal, convText_decimal decimal, pads, padAfter, if_pos decimal]
        exact congrArg _ (ih rest _)
      · rw [OwnWidths, if_neg decimal] at own
        rw [padAfter, if_neg decimal, ih own, convText_free decimal]

private theorem zeros_one {n m : Nat} {x y : List Byte}
    (same : List.replicate n (0x30 : Byte) ++ 0x31 :: x = List.replicate m 0x30 ++ 0x31 :: y) :
    n = m ∧ x = y := by
  induction n generalizing m with
  | zero =>
    cases m with
    | zero => exact ⟨rfl, (List.cons.inj same).2⟩
    | succ m => exact absurd (List.cons.inj same).1 (by decide)
  | succ n ih =>
    cases m with
    | zero => exact absurd (List.cons.inj same).1 (by decide)
    | succ m =>
      obtain ⟨count, rest⟩ := ih (List.cons.inj same).2
      exact ⟨congrArg _ count, rest⟩

private theorem decimal_one : decimalText (1 : BitVec 64).toNat = [0x31] := by
  change decimalText 1 = _
  rw [decimalText, if_neg (by decide), Nat.digits_of_lt 10 1 (by decide) (by decide)]
  rfl

private theorem own_of_expand (items : List Item) {carried : List (Fin 10)} {ap : Nat}
    (same : expand (fun _ => 1) (fun _ => []) items (spell carried % 0x100) ap =
      alone (fun _ => 1) (fun _ => []) items ap) : OwnWidths items carried := by
  induction items generalizing carried ap with
  | nil => trivial
  | cons item items ih =>
    cases item with
    | literal c plain => exact ih (List.cons.inj same).2
    | directive width conv ends =>
      rw [expand, alone, widen_eq, widen_zero] at same
      rw [OwnWidths]
      by_cases decimal : conv.val = 0x64 ∨ conv.val = 0x75
      · rw [convText_decimal decimal, convText_decimal decimal, decimal_one, List.append_assoc,
          List.append_assoc, padAfter, if_pos decimal] at same
        obtain ⟨count, rest⟩ := zeros_one same
        rw [List.length_singleton] at count
        rw [if_pos decimal]
        exact ⟨by omega, ih rest⟩
      · rw [padAfter, if_neg decimal, convText_free decimal _ (spell (width.getD []) % 0x100)]
          at same
        rw [if_neg decimal]
        exact ih (List.append_cancel_left same)

private theorem length_convText_one (c : Byte) (width : Option (List (Fin 10))) :
    (convText (fun _ => []) c (widen 0 width) 1).length ≤ 0x100 := by
  have narrow : widen 0 width < 0x100 := by
    rw [widen_zero]
    exact Nat.mod_lt _ (by decide)
  have hex := length_hexText_le 1
  unfold convText
  split
  · decide
  split
  · decide
  split
  · omega
  split
  · rw [List.length_cons, List.length_cons, List.length_append, List.length_replicate]
    omega
  split
  · rw [decimal_one, List.length_append, List.length_replicate, List.length_singleton]
    omega
  split
  · exact Nat.zero_le _
  · exact Nat.zero_le _

private theorem length_alone_one (items : List Item) (ap : Nat) :
    (alone (fun _ => 1) (fun _ => []) items ap).length ≤ 0x100 * items.length := by
  induction items generalizing ap with
  | nil => exact Nat.zero_le _
  | cons item items ih =>
    cases item with
    | literal c plain =>
      have rest := ih ap
      rw [alone, List.length_cons, List.length_cons]
      omega
    | directive width conv ends =>
      have rest := ih (ap + takesArg conv.val)
      have own := length_convText_one conv.val width
      rw [alone, List.length_append, List.length_cons]
      omega

private theorem own_of_independent {items : List Item}
    (short : (format items).length < 0x1000000000000)
    (independent : Independent items) : OwnWidths items [] := by
  have count := length_format items
  have length := length_alone_one items 0
  have fits : (alone (fun _ => 1) (fun _ => []) items 0).length < 0xFFFFFFFFFFFFFFFE := by omega
  refine own_of_expand items ((printsText_iff items fits).mp ?_)
  exact independent _ _ _ ((separately_iff items fits).mpr rfl) fits

/-- The conversions of a format that fits into the address space do not influence each other
exactly if every decimal one is padded as its own width says. -/
theorem conversions_independent_iff (items : List Item)
    (short : (format items).length < 0x1000000000000) :
    Independent items ↔ OwnWidths items [] := by
  constructor
  · exact own_of_independent short
  · intro own args strings text separately fits
    rw [separately_iff items fits] at separately
    rw [printsText_iff items fits, separately]
    exact expand_own items own 0

end Widths

def widthUsed : List Item :=
  [.directive (some [⟨5, by decide⟩]) ⟨0x64, d_ne_nul⟩ (by decide : isDigit 0x64 = false),
    .literal ⟨0x20, blank_ne_nul⟩ (by decide),
    .directive none ⟨0x78, x_ne_nul⟩ (by decide : (0x78 : Byte) ≠ 0x30)]

def widthKept : List Item :=
  [.directive (some [⟨5, by decide⟩]) ⟨0x78, x_ne_nul⟩ (by decide : isDigit 0x78 = false),
    .directive (some [⟨3, by decide⟩]) ⟨0x64, d_ne_nul⟩ (by decide : isDigit 0x64 = false)]

theorem conversions_independent_iff_used : (format widthUsed).length < 0x1000000000000 ∧
    Independent widthUsed :=
  ⟨by decide, (conversions_independent_iff widthUsed (by decide)).mpr ⟨Or.inl rfl, trivial⟩⟩

/-- The number is padded to 53 places. -/
theorem kept_width_pads : ¬Independent widthKept := by
  intro independent
  have own := own_of_independent (by decide) independent
  exact absurd own.1 (by decide)

end Algae.Rtl.PrintfWidths
