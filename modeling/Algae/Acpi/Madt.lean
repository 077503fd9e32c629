/- The walk over the entries of the MADT: which entries the callback sees, in which
   order, and what the walk returns. -/

import Algae.Mm.Page
import Algae.Rtl.String

set_option autoImplicit false
set_option relaxedAutoImplicit false

namespace Algae.Acpi.Madt

open Algae.Lib.ByteMemory
open Algae.Mm.Page (physToVirt)
open Algae.Rtl.String

def ACPI_HEADER_SIZE : Nat := 36

def ACPI_MADT_SIZE : Nat := 44

/-- Memory, the statics of acpi.c, the static of acpiReadMadt and the rest of the kernel. -/
structure AcpiState (κ : Type) where
  mem : Mem
  sdt : Nat
  sdtLen : Nat
  madt : BitVec 64
  rest : κ

/-- A callback gets the header of an entry and the caller's argument. -/
abbrev Callback (κ : Type) := Nat → Nat → AcpiState κ → Int × AcpiState κ

section Code

variable {κ : Type} (kernelBase : BitVec 64)

def headerLength (m : Mem) (hdr : Nat) : Nat := loadLE m (hdr + 4) 4

def signatureOf (m : Mem) (hdr : Nat) : List Byte := [m hdr, m (hdr + 1), m (hdr + 2), m (hdr + 3)]

def queryLoop (signature : List Byte) (s : AcpiState κ) : List Nat → BitVec 64
  | [] => 0
  | i :: rest =>
    let hdr := physToVirt kernelBase
      (BitVec.ofNat 64 (loadLE s.mem (s.sdt + ACPI_HEADER_SIZE + 4 * i) 4))
    if rtlMemcmp (signatureOf s.mem hdr.toNat) signature = some 0 then hdr
    else queryLoop signature s rest

def acpiQueryTable (signature : List Byte) (s : AcpiState κ) : BitVec 64 :=
  queryLoop kernelBase signature s (List.range s.sdtLen)

/-- At most `fuel` turns of the loop; `retval` is the last answer of the callback. -/
def madtLoop (type : Nat) (cb : Callback κ) (arg end' : Nat) :
    Nat → Nat → Int → AcpiState κ → Option (Int × AcpiState κ)
  | fuel, cur, retval, s =>
    if cur < end' then
      match fuel with
      | 0 => none
      | fuel + 1 =>
        let (retval, s) := if (s.mem cur).toNat = type then cb cur arg s else (retval, s)
        if retval ≥ 0 then some (retval, s)
        else madtLoop type cb arg end' fuel (cur + (s.mem (cur + 1)).toNat) retval s
    else
      some (-1, s)

def cacheMadt (s : AcpiState κ) : AcpiState κ :=
  if s.madt = 0 then { s with madt := acpiQueryTable kernelBase [0x41, 0x50, 0x49, 0x43] s } else s

/-- `none` if it does not return: without a MADT, or after `fuel` turns of the loop. -/
def acpiReadMadt (fuel type : Nat) (cb : Option (Callback κ)) (arg : Nat) (s : AcpiState κ) :
    Option (Int × AcpiState κ) :=
  match cb with
  | none => some (-1, s)
  | some cb =>
    let s := cacheMadt kernelBase s
    if s.madt = 0 then none
    else
      let madt := s.madt.toNat
      madtLoop type cb arg (madt + headerLength s.mem madt) fuel (madt + ACPI_MADT_SIZE) (-1) s

end Code

section Walk

variable {κ : Type}

/-- Entries of at least two bytes each lie from `cur` to exactly `end'`. -/
inductive Entries (m : Mem) (end' : Nat) : Nat → List Nat → Prop
  | nil : Entries m end' end' []
  | cons {cur : Nat} {rest : List Nat} (length : 2 ≤ (m (cur + 1)).toNat)
      (more : Entries m end' (cur + (m (cur + 1)).toNat) rest) : Entries m end' cur (cur :: rest)

def SameHeader (m m' : Mem) (p : Nat) : Prop := m' p = m p ∧ m' (p + 1) = m (p + 1)

/-- A call on an entry leaves the headers of all entries as they are. -/
def KeepsHeaders (cb : Callback κ) (arg : Nat) (entries : List Nat) : Prop :=
  ∀ called ∈ entries, ∀ s, ∀ p ∈ entries, SameHeader s.mem (cb called arg s).2.mem p

/-- One call on each entry until an answer is not negative; -1 if all of them are. -/
def firstAnswer (cb : Callback κ) (arg : Nat) : List Nat → AcpiState κ → Int × AcpiState κ
  | [], s => (-1, s)
  | p :: rest, s =>
    let (retval, s) := cb p arg s
    if retval ≥ 0 then (retval, s) else firstAnswer cb arg rest s

variable {cb : Callback κ} {arg end' type : Nat} {m : Mem}

theorem Entries.le {cur : Nat} {ps : List Nat} (entries : Entries m end' cur ps) : cur ≤ end' := by
  induction entries with
  | nil => exact Nat.le_refl _
  | cons _ _ ih => exact Nat.le_trans (Nat.le_add_right _ _) ih

theorem Entries.congr {m' : Mem} {cur : Nat} {ps : List Nat} (entries : Entries m end' cur ps)
    (same : ∀ p ∈ ps, SameHeader m m' p) : Entries m' end' cur ps := by
  induction entries with
  | nil => exact Entries.nil
  | cons length more ih =>
    have here := (same _ List.mem_cons_self).2
    have rest := ih fun p member => same p (List.mem_cons_of_mem _ member)
    rw [← here] at length rest
    exact Entries.cons length rest

private theorem madtLoop_entry {fuel cur : Nat} {retval : Int} {s : AcpiState κ}
    (inside : cur < end') :
    madtLoop type cb arg end' (fuel + 1) cur retval s =
      let (retval, s) := if (s.mem cur).toNat = type then cb cur arg s else (retval, s)
      if retval ≥ 0 then some (retval, s)
      else madtLoop type cb arg end' fuel (cur + (s.mem (cur + 1)).toNat) retval s := by
  rw [madtLoop, if_pos inside]

private theorem madtLoop_end (fuel : Nat) (retval : Int) (s : AcpiState κ) :
    madtLoop type cb arg end' fuel end' retval s = some (-1, s) := by
  cases fuel <;> rw [madtLoop, if_neg (Nat.lt_irrefl _)]

/-- The answer carried into a turn is negative, so a turn without a call never ends the
loop; the entries ahead keep the headers that they had at the start. -/
private theorem madtLoop_eq (known : List Nat) (keeps : KeepsHeaders cb arg known) {cur fuel : Nat}
    {ps : List Nat} {retval : Int} {s : AcpiState κ} (entries : Entries m end' cur ps)
    (part : ps ⊆ known) (same : ∀ p ∈ known, SameHeader m s.mem p) (negative : retval < 0)
    (enough : ps.length ≤ fuel) : madtLoop type cb arg end' fuel cur retval s =
      some (firstAnswer cb arg (ps.filter fun p => (m p).toNat = type) s) := by
  induction entries generalizing fuel retval s with
  | nil =>
    exact madtLoop_end fuel retval s
  | @cons cur rest length more ih =>
    obtain ⟨fuel, rfl⟩ : ∃ n, fuel = n + 1 := ⟨fuel - 1, by
      rw [List.length_cons] at enough
      omega⟩
    have inside : cur < end' := by
      have := more.le
      omega
    have member : cur ∈ known := part List.mem_cons_self
    have later : rest ⊆ known := fun p h => part (List.mem_cons_of_mem _ h)
    have room : rest.length ≤ fuel := Nat.le_of_succ_le_succ enough
    have header := same cur member
    rw [madtLoop_entry inside, header.1]
    by_cases fits : (m cur).toNat = type
    · rw [List.filter_cons_of_pos (by simpa using fits), firstAnswer]
      simp only [if_pos fits]
      split
      · rfl
      · rename_i refused
        have kept : ∀ p ∈ known, SameHeader m (cb cur arg s).2.mem p := by
          intro p h
          have step := keeps cur member s p h
          exact ⟨step.1.trans (same p h).1, step.2.trans (same p h).2⟩
        rw [(kept cur member).2]
        exact ih later kept (by omega) room
    · rw [List.filter_cons_of_neg (by simpa using fits)]
      simp only [if_neg fits, if_neg (show ¬retval ≥ 0 by omega), header.2]
      exact ih later same negative room

theorem cacheMadt_mem (kernelBase : BitVec 64) (s : AcpiState κ) :
    (cacheMadt kernelBase s).mem = s.mem := by
  rw [cacheMadt]
  split <;> rfl

/-- The walk is a filter for the type and then the first answer that is not negative. The
callback gets and returns all of the state, so that the calls are the same as well. -/
theorem madt_walk_answers {kernelBase : BitVec 64} {s : AcpiState κ} {madt : Nat} {ps : List Nat}
    {fuel : Nat} (found : (cacheMadt kernelBase s).madt ≠ 0)
    (here : (cacheMadt kernelBase s).madt.toNat = madt)
    (entries : Entries s.mem (madt + headerLength s.mem madt) (madt + ACPI_MADT_SIZE) ps)
    (keeps : KeepsHeaders cb arg ps) (enough : ps.length ≤ fuel) :
    acpiReadMadt kernelBase fuel type (some cb) arg s = some
      (firstAnswer cb arg (ps.filter fun p => (s.mem p).toNat = type)
      (cacheMadt kernelBase s)) := by
  have memory := cacheMadt_mem kernelBase s
  rw [acpiReadMadt]
  simp only [if_neg found, here, memory]
  apply madtLoop_eq ps keeps entries (List.Subset.refl _) _ (by decide) enough
  intro p _
  rw [memory]
  exact ⟨rfl, rfl⟩

end Walk

/-- A table of 49 bytes with an IO_APIC and a LOCAL_APIC entry, both cut short. -/
def shortMadt : AcpiState Unit where
  mem := fun a => match a with
    | 0x1004 => 49
    | 0x102C => 1
    | 0x102D => 2
    | 0x102E => 0
    | 0x102F => 3
    | _ => 0
  sdt := 0
  sdtLen := 0
  madt := 0x1000
  rest := ()

theorem madt_walk_answers_short : acpiReadMadt 0 2 0 (some fun p _ s => (p, s)) 0 shortMadt =
    some (0x102E, shortMadt) := by
  have second : Entries shortMadt.mem 0x1031 0x102E [0x102E] := Entries.cons (by decide) Entries.nil
  have entries : Entries shortMadt.mem 0x1031 0x102C [0x102C, 0x102E] :=
    Entries.cons (by decide) second
  have keeps : KeepsHeaders (fun p _ s => ((p : Int), s)) 0 [0x102C, 0x102E] :=
    fun _ _ (_ : AcpiState Unit) _ _ => ⟨rfl, rfl⟩
  exact madt_walk_answers (by decide) rfl entries keeps (by decide)

end Algae.Acpi.Madt
