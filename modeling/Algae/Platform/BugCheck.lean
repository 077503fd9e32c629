/- Names for the addresses of a stack trace, from the table of kernel symbols. -/

import Algae.Lib.SortedTable
import Algae.Rtl.String

set_option autoImplicit false
set_option relaxedAutoImplicit false

namespace Algae.Platform.BugCheck

open Algae.Lib.ByteMemory (Byte)
open Algae.Lib.SortedTable Algae.Rtl.String

structure KernelSymbol where
  addr : BitVec 64
  name : CString
  deriving DecidableEq

section Code

private theorem mark_ne_nul : (0x3F : Byte) ≠ 0 := by decide

def unknownName : CString := [⟨0x3F, mark_ne_nul⟩, ⟨0x3F, mark_ne_nul⟩, ⟨0x3F, mark_ne_nul⟩]

/-- The entries from the index of the loop on, and what `name` is there; `none` is a read past
the end of the table. -/
def nameLoop (addr : BitVec 64) : CString → List KernelSymbol → Option CString
  | _, [] => none
  | name, sym :: table =>
    if sym.addr > addr then some name
    else if sym.addr = -1 then some unknownName
    else nameLoop addr sym.name table

def stackAddrToName (g_ksymTbl : List KernelSymbol) (addr : BitVec 64) : Option CString :=
  nameLoop addr unknownName g_ksymTbl

end Code

section Lookup

def KernelSymbol.key (sym : KernelSymbol) : Nat := sym.addr.toNat

def sentinel (endName : CString) : KernelSymbol := ⟨-1, endName⟩

variable {addr : BitVec 64}

private theorem nameLoop_stops (below : addr.toNat < 0xFFFFFFFFFFFFFFFF) (endName name : CString)
    (entries : List KernelSymbol) :
    nameLoop addr name (entries ++ [sentinel endName]) =
      some (((entries.takeWhile fun sym => sym.key ≤ addr.toNat).getLast?.map
        KernelSymbol.name).getD name) := by
  induction entries generalizing name with
  | nil => exact if_pos (show addr < -1 from below)
  | cons sym entries ih =>
    rw [List.cons_append, nameLoop]
    by_cases above : sym.addr > addr
    · have out : ¬sym.key ≤ addr.toNat := Nat.not_le.mpr above
      rw [if_pos above, List.takeWhile_cons_of_neg (by simpa using out)]
      rfl
    · have bound : sym.key ≤ addr.toNat := Nat.not_lt.mp above
      have inner : sym.addr ≠ -1 := by
        intro same
        have : sym.addr.toNat = 0xFFFFFFFFFFFFFFFF := congrArg BitVec.toNat same
        unfold KernelSymbol.key at bound
        omega
      rw [if_neg above, if_neg inner, ih, List.takeWhile_cons_of_pos (by simpa using bound),
        List.getLast?_cons, Option.map_some, Option.getD_some]
      cases (entries.takeWhile fun sym => decide (sym.key ≤ addr.toNat)).getLast? with
      | none => rfl
      | some last => rfl

/-- The name of the last entry at or below the address, without a read behind the sentinel. -/
theorem nearest_symbol_found (entries : List KernelSymbol) (endName : CString) (addr : BitVec 64)
    (sorted : (entries ++ [sentinel endName]).Pairwise fun sym next => sym.addr ≤ next.addr)
    (below : addr < -1) :
    (∃ before sym after, entries = before ++ sym :: after ∧ sym.addr ≤ addr ∧
      (∀ next ∈ after, addr < next.addr) ∧
      stackAddrToName (entries ++ [sentinel endName]) addr = some sym.name) ∨
    (∀ sym ∈ entries, addr < sym.addr) ∧
      stackAddrToName (entries ++ [sentinel endName]) addr = some unknownName := by
  have ordered : entries.Pairwise fun sym next => sym.key ≤ next.key :=
    (List.pairwise_append.mp sorted).1
  have run := nameLoop_stops below endName unknownName entries
  rw [← filter_sorted ordered, ← lastAtMost] at run
  cases found : lastAtMost KernelSymbol.key entries addr.toNat with
  | none =>
    right
    rw [found] at run
    exact ⟨lastAtMost_eq_none.mp found, run⟩
  | some sym =>
    left
    rw [found] at run
    obtain ⟨before, after, split, bound, larger⟩ := lastAtMost_split found
    exact ⟨before, sym, after, split, bound, larger, run⟩

def threeSymbols : List KernelSymbol :=
  [⟨0x1000, [⟨0x64, d_ne_nul⟩]⟩, ⟨0x2000, [⟨0x2F, slash_ne_nul⟩]⟩, ⟨0x2000, [⟨0x78, x_ne_nul⟩]⟩]

theorem nearest_symbol_found_three :
    (∃ before sym after, threeSymbols = before ++ sym :: after ∧ sym.addr ≤ (0x2010 : BitVec 64) ∧
      (∀ next ∈ after, (0x2010 : BitVec 64) < next.addr) ∧
      stackAddrToName (threeSymbols ++ [sentinel []]) 0x2010 = some sym.name) ∨
    (∀ sym ∈ threeSymbols, (0x2010 : BitVec 64) < sym.addr) ∧
      stackAddrToName (threeSymbols ++ [sentinel []]) 0x2010 = some unknownName :=
  nearest_symbol_found threeSymbols [] 0x2010 (by decide) (by decide)

example :
    stackAddrToName (threeSymbols ++ [sentinel []]) 0x2010 = some [⟨0x78, x_ne_nul⟩] := by decide

end Lookup

end Algae.Platform.BugCheck
