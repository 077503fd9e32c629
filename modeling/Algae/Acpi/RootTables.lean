/- Looking a table up in the root table: the code walks the table in units of 32 bits
   whichever of the two formats the RSDP's revision selects. -/

import Algae.Acpi.Madt
import Mathlib.Data.List.TakeWhile

set_option autoImplicit false
set_option relaxedAutoImplicit false

namespace Algae.Acpi.RootTables

open Algae.Lib.ByteImage Algae.Lib.ByteMemory Algae.Rtl.String
open Algae.Sdk.Defs Algae.Acpi.Madt
open Algae.Mm.Page (DirectMap directMap_base physToVirt)

section Code

variable {κ : Type} (kernelBase : BitVec 64)

def rootTable (m : Mem) (rsdp : Nat) : BitVec 64 :=
  if (m (rsdp + 15)).toNat < 2 then
    physToVirt kernelBase (BitVec.ofNat 64 (loadLE m (rsdp + 16) 4))
  else
    physToVirt kernelBase (BitVec.ofNat 64 (loadLE m (rsdp + 24) 8))

def acpiInit (rsdp : Nat) (s : AcpiState κ) : AcpiState κ :=
  let sdt := (rootTable kernelBase s.mem rsdp).toNat
  { s with
    sdt := sdt
    sdtLen := toUSize (headerLength s.mem sdt - ACPI_HEADER_SIZE) / 4 }

/-- The headers whose signatures the loop of acpiQueryTable reads. -/
def queryHeaders (signature : List Byte) (s : AcpiState κ) : List Nat → List (BitVec 64)
  | [] => []
  | i :: rest =>
    let hdr := physToVirt kernelBase
      (BitVec.ofNat 64 (loadLE s.mem (s.sdt + ACPI_HEADER_SIZE + 4 * i) 4))
    if rtlMemcmp (signatureOf s.mem hdr.toNat) signature = some 0 then [hdr]
    else hdr :: queryHeaders signature s rest

end Code

section Listing

variable (kernelBase : BitVec 64) (m : Mem) (rsdp : Nat)

def entryWidth : Nat := if (m (rsdp + 15)).toNat < 2 then 4 else 8

def listedTables : List (BitVec 64) :=
  let sdt := (rootTable kernelBase m rsdp).toNat
  let width := entryWidth m rsdp
  (List.range ((headerLength m sdt - ACPI_HEADER_SIZE) / width)).map fun i =>
    BitVec.ofNat 64 (loadLE m (sdt + ACPI_HEADER_SIZE + width * i) width)

/-- A root table of whole entries, whose addresses have a place in the direct map. -/
structure RootListing : Prop where
  direct : DirectMap kernelBase
  header : ACPI_HEADER_SIZE ≤ headerLength m (rootTable kernelBase m rsdp).toNat
  whole : entryWidth m rsdp ∣ headerLength m (rootTable kernelBase m rsdp).toNat - ACPI_HEADER_SIZE
  mapped : ∀ pa ∈ listedTables kernelBase m rsdp, kernelBase.toNat + pa.toNat < 0x10000000000000000

def HasSignature (signature : List Byte) (pa : BitVec 64) : Prop :=
  signatureOf m (physToVirt kernelBase pa).toNat = signature

instance (signature : List Byte) (pa : BitVec 64) :
    Decidable (HasSignature kernelBase m signature pa) :=
  inferInstanceAs (Decidable (_ = _))

def firstTable (signature : List Byte) (tables : List (BitVec 64)) : Option (BitVec 64) :=
  tables.find? fun pa => HasSignature kernelBase m signature pa

/-- After acpiInit the lookup returns the first listed table of the signature, NULL exactly
without one, and reads no header that is not listed. -/
structure LookupRight {κ : Type} (signature : List Byte) (s : AcpiState κ) : Prop where
  first : ∀ pa, firstTable kernelBase m signature (listedTables kernelBase m rsdp) = some pa →
    acpiQueryTable kernelBase signature (acpiInit kernelBase rsdp s) = physToVirt kernelBase pa
  null : acpiQueryTable kernelBase signature (acpiInit kernelBase rsdp s) = 0 ↔
    ∀ pa ∈ listedTables kernelBase m rsdp, ¬HasSignature kernelBase m signature pa
  listed : ∀ hdr ∈ queryHeaders kernelBase signature (acpiInit kernelBase rsdp s)
    (List.range (acpiInit kernelBase rsdp s).sdtLen),
    ∃ pa ∈ listedTables kernelBase m rsdp, hdr = physToVirt kernelBase pa

def halves (pa : BitVec 64) : List (BitVec 64) := [(pa.setWidth 32).setWidth 64, pa >>> 32]

/-- Read as 32-bit entries, the halves of the entries lead to the first table of the
signature, or to the end if there is none, over listed tables alone. -/
def HalvesLead (signature : List Byte) (tables : List (BitVec 64)) : Prop :=
  ∃ before after, tables.flatMap halves = before ++ after ∧
    (∀ half ∈ before, half ∈ tables ∧ ¬HasSignature kernelBase m signature half) ∧
    firstTable kernelBase m signature tables = after.head?

end Listing

section Walk

private theorem head_dropWhile {α : Type} (hit : α → Bool) (l : List α) :
    (l.dropWhile (! hit ·)).head? = l.find? hit := by
  induction l with
  | nil => rfl
  | cons x l ih =>
    by_cases here : hit x = true
    · rw [List.dropWhile_cons_of_neg (by simp [here]), List.find?_cons_of_pos here, List.head?_cons]
    · rw [List.dropWhile_cons_of_pos (by simpa using here), List.find?_cons_of_neg here, ih]

/-- A walk that stops at the first hit finds what a list has first, and meets only members of
it, exactly if leading members without a hit are followed by that first one. -/
private theorem walk_iff {α : Type} (hit : α → Bool) (walked tables : List α) :
    (walked.find? hit = tables.find? hit ∧
    ∀ x ∈ walked.takeWhile (! hit ·) ++ (walked.find? hit).toList,
      x ∈ tables) ↔
    ∃ before after, walked = before ++ after ∧ (∀ x ∈ before, x ∈ tables ∧ hit x = false) ∧
      tables.find? hit = after.head? := by
  constructor
  · rintro ⟨found, member⟩
    refine ⟨walked.takeWhile (! hit ·), walked.dropWhile (! hit ·),
      List.takeWhile_append_dropWhile.symm, ?_, ?_⟩
    · intro x inside
      refine ⟨member x (List.mem_append_left _ inside), ?_⟩
      simpa using List.mem_takeWhile_imp inside
    · rw [head_dropWhile, found]
  · rintro ⟨before, after, rfl, listed, first⟩
    have none_before : ∀ x ∈ before, ¬hit x = true := by
      intro x inside
      simp [(listed x inside).2]
    have skipped : (before ++ after).find? hit = after.find? hit := by
      rw [List.find?_append, List.find?_eq_none.mpr none_before, Option.none_or]
    have all_before : ∀ x ∈ before, (! hit x) = true := by
      intro x inside
      rw [(listed x inside).2]
      rfl
    cases after with
    | nil =>
      rw [List.append_nil] at skipped ⊢
      rw [first, List.find?_eq_none.mpr none_before]
      refine ⟨rfl, ?_⟩
      intro x inside
      rw [Option.toList_none, List.append_nil] at inside
      exact (listed x (List.takeWhile_subset _ inside)).1
    | cons pa rest =>
      have here : hit pa = true := List.find?_some first
      rw [skipped, first, List.find?_cons_of_pos here]
      refine ⟨rfl, ?_⟩
      intro x inside
      rw [List.takeWhile_append_of_pos all_before, List.takeWhile_cons_of_neg (by simp [here]),
        List.append_nil, List.mem_append] at inside
      rcases inside with inside | last
      · exact (listed x inside).1
      · obtain rfl := Option.some.inj (Option.mem_toList.mp last)
        exact List.mem_of_find?_eq_some first

end Walk

section Lookup

variable {κ : Type} {kernelBase : BitVec 64} {m : Mem} {rsdp : Nat} {signature : List Byte}

private theorem rtlMemcmp_eq_zero {a b : List Byte} (same : a.length = b.length) :
    rtlMemcmp a b = some 0 ↔ a = b := by
  induction a generalizing b with
  | nil =>
    cases b with
    | nil => simp [rtlMemcmp]
    | cons y b => cases same
  | cons x a ih =>
    cases b with
    | nil => cases same
    | cons y b =>
      by_cases here : x = y
      · rw [rtlMemcmp, if_pos here, ih (Nat.succ.inj same), here, List.cons.injEq]
        exact (and_iff_right rfl).symm
      · rw [rtlMemcmp, if_neg here, Option.some.injEq, List.cons.injEq]
        constructor
        · intro zero
          exact absurd (BitVec.eq_of_toNat_eq (by omega)) here
        · exact fun both => absurd both.1 here

def entry32 (s : AcpiState κ) (i : Nat) : BitVec 64 :=
  BitVec.ofNat 64 (loadLE s.mem (s.sdt + ACPI_HEADER_SIZE + 4 * i) 4)

private theorem compares (four : signature.length = 4) (pa : BitVec 64) :
    rtlMemcmp (signatureOf m (physToVirt kernelBase pa).toNat) signature = some 0 ↔
      HasSignature kernelBase m signature pa :=
  rtlMemcmp_eq_zero (by rw [four]; rfl)

private theorem queryLoop_eq (four : signature.length = 4) (s : AcpiState κ) (is : List Nat) :
    queryLoop kernelBase signature s is =
      ((firstTable kernelBase s.mem signature (is.map (entry32 s))).map
      (physToVirt kernelBase)).getD 0 := by
  induction is with
  | nil => rfl
  | cons i is ih =>
    rw [queryLoop, List.map_cons, firstTable]
    by_cases hit : HasSignature kernelBase s.mem signature (entry32 s i)
    · rw [List.find?_cons_of_pos (by simpa using hit)]
      exact if_pos ((compares four _).mpr hit)
    · rw [List.find?_cons_of_neg (by simpa using hit)]
      exact (if_neg fun equal => hit ((compares four _).mp equal)).trans ih

private theorem queryHeaders_eq (four : signature.length = 4) (s : AcpiState κ) (is : List Nat) :
    queryHeaders kernelBase signature s is =
      ((is.map (entry32 s)).takeWhile
      (fun pa => ! decide (HasSignature kernelBase s.mem signature pa)) ++
        (firstTable kernelBase s.mem signature (is.map (entry32 s))).toList).map
        (physToVirt kernelBase) := by
  induction is with
  | nil => rfl
  | cons i is ih =>
    rw [queryHeaders, List.map_cons, firstTable]
    by_cases hit : HasSignature kernelBase s.mem signature (entry32 s i)
    · rw [List.find?_cons_of_pos (by simpa using hit),
        List.takeWhile_cons_of_neg (by simpa using hit)]
      exact if_pos ((compares four _).mpr hit)
    · rw [List.find?_cons_of_neg (by simpa using hit),
        List.takeWhile_cons_of_pos (by simpa using hit)]
      exact (if_neg fun equal => hit ((compares four _).mp equal)).trans (congrArg (_ :: ·) ih)

private theorem physToVirt_inj {pa pb : BitVec 64} :
    physToVirt kernelBase pa = physToVirt kernelBase pb ↔ pa = pb :=
  BitVec.add_left_inj kernelBase

private theorem address_eq_iff {f g : Option (BitVec 64)}
    (nonzero_f : ∀ pa, f = some pa → physToVirt kernelBase pa ≠ 0)
    (nonzero_g : ∀ pa, g = some pa → physToVirt kernelBase pa ≠ 0) :
    (f.map (physToVirt kernelBase)).getD 0 = (g.map (physToVirt kernelBase)).getD 0 ↔ f = g := by
  cases f with
  | none =>
    cases g with
    | none => exact iff_of_true rfl rfl
    | some pb => exact iff_of_false (fun zero => nonzero_g pb rfl zero.symm) nofun
  | some pa =>
    cases g with
    | none => exact iff_of_false (nonzero_f pa rfl) nofun
    | some pb => exact physToVirt_inj.trans (Option.some_inj).symm

private theorem lookupRight_iff_walk (four : signature.length = 4) (s : AcpiState κ)
    (memory : s.mem = m) (nonzero : ∀ pa ∈ (List.range (acpiInit kernelBase rsdp s).sdtLen).map
        (entry32 (acpiInit kernelBase rsdp s)) ++ listedTables kernelBase m rsdp,
      physToVirt kernelBase pa ≠ 0) :
    LookupRight kernelBase m rsdp signature s ↔
      ∃ before after, (List.range (acpiInit kernelBase rsdp s).sdtLen).map
          (entry32 (acpiInit kernelBase rsdp s)) = before ++ after ∧
        (∀ pa ∈ before, pa ∈ listedTables kernelBase m rsdp ∧
          decide (HasSignature kernelBase m signature pa) = false) ∧
        firstTable kernelBase m signature (listedTables kernelBase m rsdp) = after.head? := by
  set t := acpiInit kernelBase rsdp s with t_eq
  have same : t.mem = m := memory
  set walked := (List.range t.sdtLen).map (entry32 t)
  set tables := listedTables kernelBase m rsdp
  have result : acpiQueryTable kernelBase signature t =
      ((firstTable kernelBase m signature walked).map (physToVirt kernelBase)).getD 0 := by
    rw [acpiQueryTable, queryLoop_eq four, same]
  have headers := @queryHeaders_eq _ kernelBase _ four t (List.range t.sdtLen)
  rw [same] at headers
  refine Iff.trans ?_
    (walk_iff (fun pa => decide (HasSignature kernelBase m signature pa)) walked tables)
  have found_walked : ∀ pa, firstTable kernelBase m signature walked = some pa →
      physToVirt kernelBase pa ≠ 0 :=
    fun pa found => nonzero pa (List.mem_append_left _ (List.mem_of_find?_eq_some found))
  have found_listed : ∀ pa, firstTable kernelBase m signature tables = some pa →
      physToVirt kernelBase pa ≠ 0 :=
    fun pa found => nonzero pa (List.mem_append_right _ (List.mem_of_find?_eq_some found))
  have absent : firstTable kernelBase m signature tables = none ↔
      ∀ pa ∈ tables, ¬HasSignature kernelBase m signature pa := by
    rw [firstTable, List.find?_eq_none]
    simp only [decide_eq_true_eq]
  constructor
  · intro right
    have answer : acpiQueryTable kernelBase signature t =
        ((firstTable kernelBase m signature tables).map (physToVirt kernelBase)).getD 0 := by
      cases listed : firstTable kernelBase m signature tables with
      | none => exact right.null.mpr (absent.mp listed)
      | some pa => exact right.first pa listed
    refine ⟨?_, ?_⟩
    · exact (address_eq_iff found_walked found_listed).mp (result.symm.trans answer)
    · intro pa met
      have member :
          physToVirt kernelBase pa ∈ queryHeaders kernelBase signature t (List.range t.sdtLen) := by
        rw [headers]
        exact List.mem_map_of_mem met
      obtain ⟨pb, listed, equal⟩ := right.listed _ member
      rwa [physToVirt_inj.mp equal]
  · rintro ⟨equal, member⟩
    have agree :
      firstTable kernelBase m signature walked = firstTable kernelBase m signature tables := equal
    refine ⟨?_, ?_, ?_⟩
    · intro pa listed
      rw [result, agree, listed]
      rfl
    · rw [result, agree, ← absent]
      cases listed : firstTable kernelBase m signature tables with
      | none => exact iff_of_true rfl rfl
      | some pa => exact iff_of_false (found_listed pa listed) (by simp)
    · intro hdr met
      obtain ⟨pa, walked_pa, rfl⟩ := List.mem_map.mp (headers ▸ met)
      exact ⟨pa, member pa walked_pa, rfl⟩

private theorem physToVirt_ne_zero (direct : DirectMap kernelBase) {pa : BitVec 64}
    (fits : kernelBase.toNat + pa.toNat < 0x10000000000000000) : physToVirt kernelBase pa ≠ 0 := by
  intro zero
  have upper := direct.upper
  have sum : (physToVirt kernelBase pa).toNat = 0 := by
    rw [zero]
    rfl
  rw [physToVirt, BitVec.toNat_add] at sum
  omega

private theorem entry32_fits (direct : DirectMap kernelBase) (s : AcpiState κ) (i : Nat) :
    kernelBase.toNat + (entry32 s i).toNat < 0x10000000000000000 := by
  have room := direct.fits
  have half := loadLE_lt s.mem (s.sdt + ACPI_HEADER_SIZE + 4 * i) 4
  rw [entry32, BitVec.toNat_ofNat]
  rw [PAGESIZE] at room
  omega

private theorem halves_load (m : Mem) (a : Nat) :
    halves (BitVec.ofNat 64 (loadLE m a 8)) =
      [BitVec.ofNat 64 (loadLE m a 4), BitVec.ofNat 64 (loadLE m (a + 4) 4)] := by
  have split : loadLE m a 8 = loadLE m a 4 + 0x100000000 * loadLE m (a + 4) 4 := by
    simp only [loadLE, Nat.add_assoc, Nat.reduceAdd]
    omega
  have low := loadLE_lt m a 4
  have high := loadLE_lt m (a + 4) 4
  rw [halves, split, List.cons.injEq, List.cons.injEq]
  refine ⟨?_, ?_, rfl⟩
  · apply BitVec.eq_of_toNat_eq
    simp only [BitVec.toNat_setWidth, BitVec.toNat_ofNat]
    omega
  · apply BitVec.eq_of_toNat_eq
    simp only [BitVec.toNat_ushiftRight, BitVec.toNat_ofNat, Nat.shiftRight_eq_div_pow]
    omega

private theorem flatMap_halves (m : Mem) (a n : Nat) :
    ((List.range n).map fun i => BitVec.ofNat 64 (loadLE m (a + 8 * i) 8)).flatMap halves =
      (List.range (2 * n)).map fun i => BitVec.ofNat 64 (loadLE m (a + 4 * i) 4) := by
  induction n with
  | zero => rfl
  | succ n ih =>
    have last : [2 * n, 2 * n + 1].map (fun i => BitVec.ofNat 64 (loadLE m (a + 4 * i) 4)) =
        halves (BitVec.ofNat 64 (loadLE m (a + 8 * n) 8)) := by
      rw [halves_load, List.map_cons, List.map_singleton, show a + 4 * (2 * n) = a + 8 * n by omega,
        show a + 4 * (2 * n + 1) = a + 8 * n + 4 by omega]
    rw [Nat.mul_succ, List.range_succ, List.range_succ (n := 2 * n + 1),
      List.range_succ (n := 2 * n),
      List.append_assoc, List.map_append, List.map_append, List.flatMap_append, ih]
    exact congrArg _ ((List.append_nil _).trans last.symm)

variable (kernelBase m rsdp signature)

/-- acpiInit and acpiQueryTable are right for both formats only as far as the halves of the
XSDT's entries, in their order, happen to be listed addresses that lead to the right table. -/
theorem acpi_lookup_right_iff (s : AcpiState κ) (memory : s.mem = m)
    (listing : RootListing kernelBase m rsdp) (four : signature.length = 4) :
    LookupRight kernelBase m rsdp signature s ↔
      (m (rsdp + 15)).toNat < 2 ∨
        HalvesLead kernelBase m signature (listedTables kernelBase m rsdp) := by
  have header := listing.header
  have whole := listing.whole
  have size := loadLE_lt m ((rootTable kernelBase m rsdp).toNat + 4) 4
  have count : (acpiInit kernelBase rsdp s).sdtLen =
      (headerLength m (rootTable kernelBase m rsdp).toNat - ACPI_HEADER_SIZE) / 4 := by
    have small : headerLength m (rootTable kernelBase m rsdp).toNat < 0x100000000 := size
    rw [acpiInit, memory, ← Nat.cast_sub header, toUSize_natCast (by omega)]
  have walked :
    (List.range (acpiInit kernelBase rsdp s).sdtLen).map (entry32 (acpiInit kernelBase rsdp s)) =
      (List.range ((headerLength m (rootTable kernelBase m rsdp).toNat - ACPI_HEADER_SIZE) / 4)).map
        fun i => BitVec.ofNat 64
          (loadLE m ((rootTable kernelBase m rsdp).toNat + ACPI_HEADER_SIZE + 4 * i) 4) := by
    rw [count]
    apply List.map_congr_left
    intro i _
    rw [entry32, acpiInit, memory]
  have nonzero : ∀ pa ∈ (List.range (acpiInit kernelBase rsdp s).sdtLen).map
      (entry32 (acpiInit kernelBase rsdp s)) ++ listedTables kernelBase m rsdp,
        physToVirt kernelBase pa ≠ 0 := by
    intro pa member
    rcases List.mem_append.mp member with met | listed
    · obtain ⟨i, _, rfl⟩ := List.mem_map.mp met
      exact physToVirt_ne_zero listing.direct (entry32_fits listing.direct _ i)
    · exact physToVirt_ne_zero listing.direct (listing.mapped pa listed)
  rw [lookupRight_iff_walk four s memory nonzero, walked]
  by_cases old : (m (rsdp + 15)).toNat < 2
  · refine iff_of_true ?_ (Or.inl old)
    have same : listedTables kernelBase m rsdp =
        (List.range
          ((headerLength m (rootTable kernelBase m rsdp).toNat - ACPI_HEADER_SIZE) / 4)).map
          fun i => BitVec.ofNat 64
            (loadLE m ((rootTable kernelBase m rsdp).toNat + ACPI_HEADER_SIZE + 4 * i) 4) := by
      rw [listedTables, entryWidth, if_pos old]
    rw [← same]
    refine (walk_iff _ _ _).mp ⟨rfl, ?_⟩
    intro pa met
    rcases List.mem_append.mp met with met | met
    · exact List.takeWhile_subset _ met
    · exact List.mem_of_find?_eq_some (Option.mem_toList.mp met)
  · obtain ⟨n, entries⟩ := whole
    have width : entryWidth m rsdp = 8 := if_neg old
    rw [width] at entries
    have tables : listedTables kernelBase m rsdp = (List.range n).map fun i => BitVec.ofNat 64
        (loadLE m ((rootTable kernelBase m rsdp).toNat + ACPI_HEADER_SIZE + 8 * i) 8) := by
      rw [listedTables, width]
      simp only [entries, Nat.mul_div_cancel_left n (show 0 < 8 by decide)]
    rw [or_iff_right old, HalvesLead, entries,
      show 8 * n / 4 = 2 * n by omega, ← flatMap_halves, ← tables]
    simp only [decide_eq_false_iff_not]

end Lookup

/-- An XSDT whose only entry is a table at `pa` with the signature of a MADT. -/
def xsdtAt (pa : Nat) : AcpiState Unit where
  mem := fun a =>
    if a = 0x100F then 2
    else if a = 0x1019 then 0x20
    else if a = 0xFFFF800000002004 then 44
    else if 0xFFFF800000002024 ≤ a ∧ a < 0xFFFF80000000202C then
      BitVec.ofNat 8 (pa >>> (8 * (a - 0xFFFF800000002024)))
    else if 0xFFFF800000000000 + pa ≤ a then
      [0x41, 0x50, 0x49, 0x43].getD (a - (0xFFFF800000000000 + pa)) 0
    else 0
  sdt := 0
  sdtLen := 0
  madt := 0
  rest := ()

private theorem xsdtAt_listing :
    RootListing 0xFFFF800000000000 (xsdtAt 0x100003000).mem 0x1000 := by
  refine ⟨directMap_base, by decide +kernel, by decide +kernel, ?_⟩
  intro entry member
  rw [show listedTables 0xFFFF800000000000 (xsdtAt 0x100003000).mem 0x1000 = [0x100003000] by
    decide +kernel] at member
  rw [List.mem_singleton.mp member]
  decide

/-- An RSDT of two entries: a table without a signature at 0x4000 and one with that of a MADT at
0x3000. -/
def rsdtOfTwo : AcpiState Unit where
  mem := fun a =>
    if a = 0x1011 then 0x20
    else if a = 0xFFFF800000002004 then 44
    else if a = 0xFFFF800000002025 then 0x40
    else if a = 0xFFFF800000002029 then 0x30
    else if 0xFFFF800000003000 ≤ a then [0x41, 0x50, 0x49, 0x43].getD (a - 0xFFFF800000003000) 0
    else 0
  sdt := 0
  sdtLen := 0
  madt := 0
  rest := ()

theorem acpi_lookup_right_iff_rsdt :
    LookupRight 0xFFFF800000000000 rsdtOfTwo.mem 0x1000 [0x41, 0x50, 0x49, 0x43] rsdtOfTwo ∧
    acpiQueryTable 0xFFFF800000000000 [0x41, 0x50, 0x49, 0x43]
      (acpiInit 0xFFFF800000000000 0x1000 rsdtOfTwo) =
      0xFFFF800000003000 := by
  have listing : RootListing 0xFFFF800000000000 rsdtOfTwo.mem 0x1000 := by
    refine ⟨directMap_base, by decide +kernel, by decide +kernel, ?_⟩
    intro entry member
    rw [show listedTables 0xFFFF800000000000 rsdtOfTwo.mem 0x1000 =
      [0x4000, 0x3000] by decide +kernel] at member
    rcases List.mem_cons.mp member with rfl | member
    · decide
    · rw [List.mem_singleton.mp member]
      decide
  have right :=
    (acpi_lookup_right_iff 0xFFFF800000000000 rsdtOfTwo.mem 0x1000
      [0x41, 0x50, 0x49, 0x43] rsdtOfTwo
    rfl listing rfl).mpr (Or.inl (by decide +kernel))
  exact ⟨right, right.first 0x3000 (by decide +kernel)⟩

/-- Above 4 GiB the only entry of an XSDT is not found. -/
theorem acpi_lookup_misses_high : RootListing 0xFFFF800000000000 (xsdtAt 0x100003000).mem 0x1000 ∧
    ¬LookupRight 0xFFFF800000000000 (xsdtAt 0x100003000).mem 0x1000 [0x41, 0x50, 0x49, 0x43]
      (xsdtAt 0x100003000) := by
  refine ⟨xsdtAt_listing, ?_⟩
  intro right
  have first := right.first 0x100003000 (by decide +kernel)
  exact absurd first (by decide +kernel)

end Algae.Acpi.RootTables
