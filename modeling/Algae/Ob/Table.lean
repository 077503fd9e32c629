/- Object tables: the handles of a process. -/

import Algae.Ob.Store

set_option autoImplicit false
set_option relaxedAutoImplicit false

namespace Algae.Ob.Table

open Algae.Sdk.Defs Algae.Ob.Store

def NT_OBTAB_ENTRIES : Nat := 32

structure NtObTab where
  ob : List (Option ObjPtr)
  openCount : BitVec 16
  entries : ob.length = NT_OBTAB_ENTRIES

def emptyTable : NtObTab where
  ob := List.replicate NT_OBTAB_ENTRIES none
  openCount := 0
  entries := List.length_replicate

def obInitTable (table : Option NtObTab) : NtStatus × Option NtObTab :=
  match table with
  | none => (.invalidHandle, none)
  | some _ => (.success, some emptyTable)

def NtObTab.setSlot (table : NtObTab) (i : Nat) (ob : ObjPtr) : NtObTab where
  ob := table.ob.set i (some ob)
  openCount := table.openCount
  entries := (List.length_set ..).trans table.entries

def firstFree (table : NtObTab) : Option Nat := table.ob.findIdx? (· = none)

/-- The second result is the handle stored through `handRes`, a flag for a pointer
other than NULL. -/
def obTableAdd (s : ObStore) (table : Option NtObTab) (handRes : Bool) (ob : Option ObjPtr) :
    NtStatus × Option Nat × Option NtObTab × ObStore :=
  match table, handRes, ob with
  | some table, true, some ob =>
    match firstFree table with
    | some i => (.success, some i, some (table.setSlot i ob), s.setRef ob ((s.object ob).ref + 1))
    | none => (.noSpace, none, some table, s)
  | _, _, _ => (.invalidHandle, none, table, s)

end Algae.Ob.Table
