/- How far the walk over the MADT reads: the bytes that the loop and the two callbacks look
   at, and the tables that keep all of them inside. -/

import Algae.Acpi.Madt

set_option autoImplicit false
set_option relaxedAutoImplicit false

namespace Algae.Acpi.MadtBounds

open Algae.Lib.ByteMemory Algae.Acpi.Madt

def APIC_TYPE_LOCAL_APIC : Nat := 0

def APIC_TYPE_IO_APIC : Nat := 1

section Code

variable {κ : Type}

/-- The loop of acpiReadMadt with the addresses that it and the callback read; `cbReads` are
those of the callback at an entry. -/
def madtReads (type : Nat) (cb : Callback κ) (cbReads : Nat → List Nat) (arg end' : Nat) :
    Nat → Nat → Int → AcpiState κ → Option (Int × AcpiState κ × List Nat)
  | fuel, cur, retval, s =>
    if cur < end' then
      match fuel with
      | 0 => none
      | fuel + 1 =>
        let called := if (s.mem cur).toNat = type then cbReads cur else []
        let (retval, s) := if (s.mem cur).toNat = type then cb cur arg s else (retval, s)
        if retval ≥ 0 then some (retval, s, cur :: called)
        else
          (madtReads type cb cbReads arg end' fuel (cur + (s.mem (cur + 1)).toNat) retval s).map
            fun (r, t, later) => (r, t, cur :: called ++ (cur + 1) :: later)
    else
      some (-1, s, [])

/-- acpiReadMadt with a callback that is not NULL, and the reads of its loop. -/
def acpiReadMadtReads (kernelBase : BitVec 64) (fuel type : Nat) (cb : Callback κ)
    (cbReads : Nat → List Nat) (arg : Nat) (s : AcpiState κ) :
    Option (Int × AcpiState κ × List Nat) :=
  let s := cacheMadt kernelBase s
  if s.madt = 0 then none
  else
    let madt := s.madt.toNat
    madtReads type cb cbReads arg (madt + headerLength s.mem madt) fuel
      (madt + ACPI_MADT_SIZE) (-1) s

/-- `start` is what is done for a processor that is not the caller's: its bootstrap descriptor,
its stack and the interrupts. -/
def localApicLookup (start : Nat → AcpiState κ → AcpiState κ) : Callback κ := fun hdr arg s =>
  let apicId := (s.mem (hdr + 3)).toNat
  if apicId = arg then (-1, s) else (-1, start apicId s)

def localApicLookupReads (hdr : Nat) : List Nat := [hdr + 3]

def ioApicGetAddrCb : Callback Nat :=
  fun hdr _ s => (0, { s with rest := loadLE s.mem (hdr + 4) 4 })

def ioApicGetAddrCbReads (hdr : Nat) : List Nat := [hdr + 4, hdr + 5, hdr + 6, hdr + 7]

private theorem madtReads_forget (type : Nat) (cb : Callback κ) (cbReads : Nat → List Nat)
    (arg end' fuel cur : Nat) (retval : Int) (s : AcpiState κ) :
    (madtReads type cb cbReads arg end' fuel cur retval s).map (fun (r, t, _) => (r, t)) =
      madtLoop type cb arg end' fuel cur retval s := by
  induction fuel generalizing cur retval s with
  | zero =>
    rw [madtReads, madtLoop]
    split <;> rfl
  | succ fuel ih =>
    rw [madtReads, madtLoop]
    split
    · simp only
      generalize (if (s.mem cur).toNat = type then cb cur arg s else (retval, s)) = answer
      split
      · rfl
      · rw [← ih, Option.map_map]
        rfl
    · rfl

private theorem acpiReadMadtReads_forget (kernelBase : BitVec 64) (fuel type : Nat)
    (cb : Callback κ) (cbReads : Nat → List Nat) (arg : Nat) (s : AcpiState κ) :
    (acpiReadMadtReads kernelBase fuel type cb cbReads arg s).map (fun (r, t, _) => (r, t)) =
      acpiReadMadt kernelBase fuel type (some cb) arg s := by
  unfold acpiReadMadtReads acpiReadMadt
  simp only
  split
  · rfl
  · exact madtReads_forget ..

end Code

section Bounds

variable {κ : Type}

/-- The run returns within so many turns, and no read is at or beyond the end. -/
def StaysIn (end' : Nat) (run : Option (Int × AcpiState κ × List Nat)) : Prop :=
  ∃ r, run = some r ∧ ∀ a ∈ r.2.2, a < end'

/-- The callback leaves the bytes from `madt` to the end as they are. -/
def KeepsTable (madt end' : Nat) (cb : Callback κ) : Prop :=
  ∀ p arg s x, madt ≤ x → x < end' → (cb p arg s).2.mem x = s.mem x

def SameTable (madt end' : Nat) (m m' : Mem) : Prop := ∀ x, madt ≤ x → x < end' → m' x = m x

/-- From `cur` on, every entry that starts before the end has its two header bytes there, and
a length other than zero. -/
inductive Chain (m : Mem) (end' : Nat) : Nat → List Nat → Prop
  | done {cur : Nat} (past : end' ≤ cur) : Chain m end' cur []
  | entry {cur : Nat} {rest : List Nat} (header : cur + 1 < end') (length : (m (cur + 1)).toNat ≠ 0)
      (more : Chain m end' (cur + (m (cur + 1)).toNat) rest) : Chain m end' cur (cur :: rest)

variable {type arg madt end' : Nat} {cb : Callback κ} {cbReads : Nat → List Nat} {m : Mem}

private theorem staysIn_end {fuel cur : Nat} {retval : Int} {s : AcpiState κ} (past : end' ≤ cur) :
    StaysIn end' (madtReads type cb cbReads arg end' fuel cur retval s) := by
  refine ⟨(-1, s, []), ?_, ?_⟩
  · cases fuel <;> rw [madtReads, if_neg (Nat.not_lt.mpr past)]
  · intro a member
    cases member

private theorem not_staysIn_zero {cur : Nat} {retval : Int} {s : AcpiState κ}
    (inside : cur < end') :
    ¬StaysIn end' (madtReads type cb cbReads arg end' 0 cur retval s) := by
  rintro ⟨r, run, _⟩
  rw [madtReads, if_pos inside] at run
  cases run

private theorem staysIn_map (later : Option (Int × AcpiState κ × List Nat)) (reads : List Nat) :
    StaysIn end' (later.map fun (r, t, more) => (r, t, reads ++ more)) ↔
      (∀ a ∈ reads, a < end') ∧ StaysIn end' later := by
  constructor
  · rintro ⟨r, run, bound⟩
    obtain ⟨⟨q, t, more⟩, rest, rfl⟩ := Option.map_eq_some_iff.mp run
    refine ⟨?_, (q, t, more), rest, ?_⟩
    · intro a member
      exact bound a (List.mem_append_left _ member)
    · intro a member
      exact bound a (List.mem_append_right _ member)
  · rintro ⟨first, ⟨q, t, more⟩, run, bound⟩
    refine ⟨(q, t, reads ++ more), ?_, ?_⟩
    · rw [run]
      rfl
    · intro a member
      rcases List.mem_append.mp member with here | there
      · exact first a here
      · exact bound a there

private theorem madtReads_mono {fuel more cur : Nat} {retval : Int} {s : AcpiState κ} {r}
    (run : madtReads type cb cbReads arg end' fuel cur retval s = some r) (le : fuel ≤ more) :
    madtReads type cb cbReads arg end' more cur retval s = some r := by
  induction fuel generalizing cur retval s r more with
  | zero =>
    rw [madtReads] at run
    split at run
    · cases run
    · rename_i outside
      cases more <;> rw [madtReads, if_neg outside] <;> exact run
  | succ fuel ih =>
    obtain ⟨more, rfl⟩ : ∃ n, more = n + 1 := ⟨more - 1, by omega⟩
    rw [madtReads] at run ⊢
    by_cases inside : cur < end'
    · rw [if_pos inside] at run ⊢
      simp only at run ⊢
      generalize (if (s.mem cur).toNat = type then cb cur arg s else (retval, s)) = answer at run ⊢
      by_cases accepted : answer.1 ≥ 0
      · rw [if_pos accepted] at run ⊢
        exact run
      · rw [if_neg accepted] at run ⊢
        obtain ⟨later, rest, result⟩ := Option.map_eq_some_iff.mp run
        rw [ih rest (by omega), Option.map_some, result]
    · rw [if_neg inside] at run ⊢
      exact run

theorem StaysIn.mono {fuel more cur : Nat} {retval : Int} {s : AcpiState κ}
    (stays : StaysIn end' (madtReads type cb cbReads arg end' fuel cur retval s))
    (le : fuel ≤ more) :
    StaysIn end' (madtReads type cb cbReads arg end' more cur retval s) := by
  obtain ⟨r, run, bound⟩ := stays
  exact ⟨r, madtReads_mono run le, bound⟩

private theorem staysIn_pass {fuel cur : Nat} {retval : Int} {s : AcpiState κ} (inside : cur < end')
    (other : (s.mem cur).toNat ≠ type) (negative : retval < 0) :
    StaysIn end' (madtReads type cb cbReads arg end' (fuel + 1) cur retval s) ↔ cur + 1 < end' ∧
      StaysIn end'
        (madtReads type cb cbReads arg end' fuel (cur + (s.mem (cur + 1)).toNat) retval s) := by
  rw [madtReads, if_pos inside]
  simp only [if_neg other, if_neg (show ¬retval ≥ 0 by omega)]
  have split := @staysIn_map _ end'
    (madtReads type cb cbReads arg end' fuel (cur + (s.mem (cur + 1)).toNat) retval s)
      [cur, cur + 1]
  refine split.trans (and_congr_left' ?_)
  simp only [List.mem_cons, List.not_mem_nil, or_false, forall_eq_or_imp, forall_eq]
  omega

private theorem staysIn_call {fuel cur : Nat} {retval : Int} {s : AcpiState κ} (inside : cur < end')
    (fits : (s.mem cur).toNat = type) (negative : (cb cur arg s).1 < 0) :
    StaysIn end' (madtReads type cb cbReads arg end' (fuel + 1) cur retval s) ↔
      (cur + 1 < end' ∧ ∀ a ∈ cbReads cur, a < end') ∧
      StaysIn end' (madtReads type cb cbReads arg end' fuel
        (cur + ((cb cur arg s).2.mem (cur + 1)).toNat) (cb cur arg s).1 (cb cur arg s).2) := by
  rw [madtReads, if_pos inside]
  simp only [if_pos fits, if_neg (show ¬(cb cur arg s).1 ≥ 0 by omega)]
  have split := @staysIn_map _ end' (madtReads type cb cbReads arg end' fuel
    (cur + ((cb cur arg s).2.mem (cur + 1)).toNat) (cb cur arg s).1 (cb cur arg s).2)
    (cur :: cbReads cur ++ [cur + 1])
  simp only [List.append_assoc, List.singleton_append] at split
  refine split.trans (and_congr_left' ?_)
  simp only [List.cons_append, List.mem_cons, List.mem_append, List.not_mem_nil, or_false]
  constructor
  · intro bound
    refine ⟨bound _ (Or.inr (Or.inr rfl)), ?_⟩
    intro a member
    exact bound a (Or.inr (Or.inl member))
  · rintro ⟨second, bound⟩ a (rfl | member | rfl)
    · exact inside
    · exact bound a member
    · exact second

private theorem staysIn_last {fuel cur : Nat} {retval : Int} {s : AcpiState κ} (inside : cur < end')
    (fits : (s.mem cur).toNat = type) (answer : 0 ≤ (cb cur arg s).1) :
    StaysIn end' (madtReads type cb cbReads arg end' (fuel + 1) cur retval s) ↔
      ∀ a ∈ cbReads cur, a < end' := by
  rw [madtReads, if_pos inside]
  simp only [if_pos fits, if_pos (show (cb cur arg s).1 ≥ 0 from answer)]
  constructor
  · rintro ⟨r, run, bound⟩ a member
    obtain rfl := Option.some.inj run
    exact bound a (List.mem_cons_of_mem _ member)
  · intro bound
    refine ⟨_, rfl, ?_⟩
    intro a member
    rcases List.mem_cons.mp member with rfl | member
    · exact inside
    · exact bound a member

private theorem chain_of_staysIn (refuses : ∀ p s, (cb p arg s).1 = -1)
    (keeps : KeepsTable madt end' cb)
    {fuel cur : Nat} {retval : Int} {s : AcpiState κ} (same : SameTable madt end' m s.mem)
    (first : madt ≤ cur) (negative : retval < 0)
    (stays : StaysIn end' (madtReads type cb cbReads arg end' fuel cur retval s)) :
    ∃ ps, Chain m end' cur ps := by
  induction fuel generalizing cur retval s with
  | zero =>
    refine ⟨[], Chain.done ?_⟩
    by_contra inside
    exact not_staysIn_zero (Nat.not_le.mp inside) stays
  | succ fuel ih =>
    by_cases inside : cur < end'
    · have onward : cur + 1 < end' ∧ ∃ ps, Chain m end' (cur + (m (cur + 1)).toNat) ps := by
        by_cases fits : (s.mem cur).toNat = type
        · have answer := refuses cur s
          obtain ⟨⟨second, _⟩, rest⟩ := (staysIn_call inside fits (by omega)).mp stays
          have length : (cb cur arg s).2.mem (cur + 1) = m (cur + 1) :=
            (keeps cur arg s _ (by omega) second).trans (same _ (by omega) second)
          rw [length] at rest
          refine ⟨second, ih ?_ (by omega) (by omega) rest⟩
          intro x low high
          exact (keeps cur arg s x low high).trans (same x low high)
        · obtain ⟨second, rest⟩ := (staysIn_pass inside fits negative).mp stays
          rw [same _ (by omega) second] at rest
          exact ⟨second, ih same (by omega) negative rest⟩
      obtain ⟨second, ps, chain⟩ := onward
      by_cases length : (m (cur + 1)).toNat = 0
      · -- an entry of length zero would be its own successor
        rw [length, Nat.add_zero] at chain
        exact ⟨ps, chain⟩
      · exact ⟨cur :: ps, Chain.entry second length chain⟩
    · exact ⟨[], Chain.done (Nat.not_lt.mp inside)⟩

private theorem staysIn_chain (refuses : ∀ p s, (cb p arg s).1 = -1)
    (keeps : KeepsTable madt end' cb)
    {cur fuel : Nat} {ps : List Nat} (chain : Chain m end' cur ps) {retval : Int} {s : AcpiState κ}
    (same : SameTable madt end' m s.mem) (first : madt ≤ cur) (negative : retval < 0)
    (enough : ps.length ≤ fuel) :
    StaysIn end' (madtReads type cb cbReads arg end' fuel cur retval s) ↔
      ∀ p ∈ ps, (m p).toNat = type → ∀ a ∈ cbReads p, a < end' := by
  induction chain generalizing fuel retval s with
  | done past =>
    refine ⟨?_, fun _ => staysIn_end past⟩
    intro _ p member
    cases member
  | @entry cur rest header length more ih =>
    obtain ⟨fuel, rfl⟩ : ∃ n, fuel = n + 1 := ⟨fuel - 1, by
      rw [List.length_cons] at enough
      omega⟩
    have room : rest.length ≤ fuel := Nat.le_of_succ_le_succ enough
    have inside : cur < end' := by omega
    have type_same := same cur first inside
    have length_same := same (cur + 1) (by omega) header
    rw [List.forall_mem_cons]
    by_cases fits : (m cur).toNat = type
    · have answer := refuses cur s
      have kept : SameTable madt end' m (cb cur arg s).2.mem := fun x low high =>
        (keeps cur arg s x low high).trans (same x low high)
      rw [staysIn_call inside (by rw [type_same, fits]) (by omega), kept _ (by omega) header,
        ih kept (by omega) (by omega) room]
      exact and_congr_left' ⟨fun ⟨_, bound⟩ _ => bound, fun bound => ⟨header, bound fits⟩⟩
    · rw [staysIn_pass inside (by rwa [type_same]) negative, length_same,
        ih same (by omega) negative room]
      exact and_congr_left' ⟨fun _ fits' => absurd fits' fits, fun _ => header⟩

private theorem staysIn_first (accepts : ∀ p s, (cb p arg s).1 = 0) {cur fuel : Nat} {ps : List Nat}
    (chain : Chain m end' cur ps) {retval : Int} {s : AcpiState κ}
    (same : SameTable madt end' m s.mem) (first : madt ≤ cur) (negative : retval < 0)
    (enough : ps.length ≤ fuel) :
    StaysIn end' (madtReads type cb cbReads arg end' fuel cur retval s) ↔
      ∀ p, (ps.find? fun p => (m p).toNat = type) = some p → ∀ a ∈ cbReads p, a < end' := by
  induction chain generalizing fuel retval s with
  | done past =>
    refine ⟨?_, fun _ => staysIn_end past⟩
    intro _ p found
    cases found
  | @entry cur rest header length more ih =>
    obtain ⟨fuel, rfl⟩ : ∃ n, fuel = n + 1 := ⟨fuel - 1, by
      rw [List.length_cons] at enough
      omega⟩
    have room : rest.length ≤ fuel := Nat.le_of_succ_le_succ enough
    have inside : cur < end' := by omega
    have type_same := same cur first inside
    have length_same := same (cur + 1) (by omega) header
    by_cases fits : (m cur).toNat = type
    · rw [staysIn_last inside (by rw [type_same, fits]) (accepts cur s).ge,
        List.find?_cons_of_pos (by simpa using fits)]
      exact ⟨fun bound p found => Option.some.inj found ▸ bound, fun bound => bound cur rfl⟩
    · rw [staysIn_pass inside (by rwa [type_same]) negative, length_same,
        ih same (by omega) negative room, List.find?_cons_of_neg (by simpa using fits)]
      exact and_iff_right header

end Bounds

section Robust

/-- The walk for a table at `madt` whose bytes are those of `m`: with a callback that always
returns -1 the loop returns and stays inside the table, and so do the two callbacks. -/
structure MadtRobust (kernelBase : BitVec 64) (m : Mem) (madt : BitVec 64) : Prop where
  loop : ∀ {κ : Type} (s : AcpiState κ), s.mem = m → (cacheMadt kernelBase s).madt = madt →
    ∀ type arg cb, (∀ p s, (cb p arg s).1 = -1) →
    KeepsTable madt.toNat (madt.toNat + headerLength m madt.toNat) cb →
    ∃ fuel, StaysIn (madt.toNat + headerLength m madt.toNat)
      (acpiReadMadtReads kernelBase fuel type cb (fun _ => []) arg s)
  lapics : ∀ {κ : Type} (s : AcpiState κ), s.mem = m → (cacheMadt kernelBase s).madt = madt →
    ∀ arg start,
      KeepsTable madt.toNat (madt.toNat + headerLength m madt.toNat) (localApicLookup start) →
    ∃ fuel, StaysIn (madt.toNat + headerLength m madt.toNat)
      (acpiReadMadtReads kernelBase fuel APIC_TYPE_LOCAL_APIC (localApicLookup start)
        localApicLookupReads arg s)
  ioApic : ∀ s : AcpiState Nat, s.mem = m → (cacheMadt kernelBase s).madt = madt →
    ∃ fuel, StaysIn (madt.toNat + headerLength m madt.toNat)
      (acpiReadMadtReads kernelBase fuel APIC_TYPE_IO_APIC ioApicGetAddrCb ioApicGetAddrCbReads 0 s)

/-- The entries up to the table's end have nonzero lengths and whole headers, local APICs
their id, and the first I/O APIC its address. -/
structure WholeEntries (m : Mem) (madt end' : Nat) (ps : List Nat) : Prop where
  chain : Chain m end' (madt + ACPI_MADT_SIZE) ps
  lapics : ∀ p ∈ ps, (m p).toNat = APIC_TYPE_LOCAL_APIC → p + 3 < end'
  ioApic : ∀ p, (ps.find? fun p => (m p).toNat = APIC_TYPE_IO_APIC) = some p → p + 7 < end'

variable {κ : Type} {kernelBase madt : BitVec 64} {m : Mem}

private theorem reads_eq {s : AcpiState κ} (memory : s.mem = m)
    (here : (cacheMadt kernelBase s).madt = madt) (nonzero : madt ≠ 0) (fuel type : Nat)
    (cb : Callback κ) (cbReads : Nat → List Nat) (arg : Nat) :
    acpiReadMadtReads kernelBase fuel type cb cbReads arg s =
      madtReads type cb cbReads arg (madt.toNat + headerLength m madt.toNat) fuel
        (madt.toNat + ACPI_MADT_SIZE) (-1) (cacheMadt kernelBase s) := by
  unfold acpiReadMadtReads
  simp only [here, if_neg nonzero, cacheMadt_mem, memory]

private theorem localApicLookup_refuses (start : Nat → AcpiState κ → AcpiState κ) (p arg : Nat)
    (s : AcpiState κ) : (localApicLookup start p arg s).1 = -1 := by
  unfold localApicLookup
  simp only
  split <;> rfl

private theorem chain_of_robust (nonzero : madt ≠ 0) (robust : MadtRobust kernelBase m madt) :
    ∃ ps, Chain m (madt.toNat + headerLength m madt.toNat) (madt.toNat + ACPI_MADT_SIZE) ps := by
  let s : AcpiState Unit := { mem := m, sdt := 0, sdtLen := 0, madt := madt, rest := () }
  have here : (cacheMadt kernelBase s).madt = madt := by
    rw [cacheMadt, if_neg nonzero]
  obtain ⟨fuel, stays⟩ := robust.loop s rfl here 256 0 (fun _ _ s => (-1, s)) (fun _ _ => rfl)
    (fun _ _ _ _ _ _ => rfl)
  rw [reads_eq rfl here nonzero] at stays
  refine chain_of_staysIn (fun _ _ => rfl) (fun _ _ _ _ _ _ => rfl) ?_ (Nat.le_add_right _ _)
    (by decide) stays
  intro x _ _
  rw [cacheMadt_mem]

/-- The walk is robust exactly on tables of whole entries. -/
theorem madt_robust_iff (kernelBase madt : BitVec 64) (m : Mem) (nonzero : madt ≠ 0) :
    MadtRobust kernelBase m madt ↔
      ∃ ps, WholeEntries m madt.toNat (madt.toNat + headerLength m madt.toNat) ps := by
  have same : ∀ {κ : Type} (s : AcpiState κ), s.mem = m →
      SameTable madt.toNat (madt.toNat + headerLength m madt.toNat) m
        (cacheMadt kernelBase s).mem := by
    intro κ s memory x _ _
    rw [cacheMadt_mem, memory]
  have start := Nat.le_add_right madt.toNat ACPI_MADT_SIZE
  constructor
  · intro robust
    obtain ⟨ps, chain⟩ := chain_of_robust nonzero robust
    refine ⟨ps, chain, ?_, ?_⟩
    · let s : AcpiState Unit := { mem := m, sdt := 0, sdtLen := 0, madt := madt, rest := () }
      have here : (cacheMadt kernelBase s).madt = madt := by
        rw [cacheMadt, if_neg nonzero]
      have keeps : KeepsTable madt.toNat (madt.toNat + headerLength m madt.toNat)
          (localApicLookup fun _ (s : AcpiState Unit) => s) := by
        intro p arg s x _ _
        rw [localApicLookup]
        simp only [ite_self]
      obtain ⟨fuel, stays⟩ := robust.lapics s rfl here 0 (fun _ s => s) keeps
      rw [reads_eq rfl here nonzero] at stays
      have bound := (staysIn_chain (fun p s => localApicLookup_refuses _ p 0 s) keeps chain
        (same s rfl) start (by decide) (le_max_right fuel _)).mp (stays.mono (le_max_left _ _))
      intro p member fits
      exact bound p member fits (p + 3) (List.mem_singleton.mpr rfl)
    · let s : AcpiState Nat := { mem := m, sdt := 0, sdtLen := 0, madt := madt, rest := 0 }
      have here : (cacheMadt kernelBase s).madt = madt := by
        rw [cacheMadt, if_neg nonzero]
      obtain ⟨fuel, stays⟩ := robust.ioApic s rfl here
      rw [reads_eq rfl here nonzero] at stays
      have bound := (staysIn_first (fun _ _ => rfl) chain (same s rfl) start (by decide)
        (le_max_right fuel _)).mp (stays.mono (le_max_left _ _))
      intro p found
      exact bound p found (p + 7) (by simp [ioApicGetAddrCbReads])
  · rintro ⟨ps, whole⟩
    refine ⟨?_, ?_, ?_⟩
    · intro κ s memory here type arg cb refuses keeps
      refine ⟨ps.length, ?_⟩
      rw [reads_eq memory here nonzero]
      refine (staysIn_chain refuses keeps whole.chain (same s memory) start
        (by decide) le_rfl).mpr ?_
      intro p _ _ a member
      cases member
    · intro κ s memory here arg begin keeps
      refine ⟨ps.length, ?_⟩
      rw [reads_eq memory here nonzero]
      refine (staysIn_chain (fun p s => localApicLookup_refuses begin p arg s) keeps whole.chain
        (same s memory) start (by decide) le_rfl).mpr ?_
      intro p member fits a read
      rw [List.mem_singleton.mp read]
      exact whole.lapics p member fits
    · intro s memory here
      refine ⟨ps.length, ?_⟩
      rw [reads_eq memory here nonzero]
      refine (staysIn_first (fun _ _ => rfl) whole.chain (same s memory) start
        (by decide) le_rfl).mpr ?_
      intro p found a read
      have last := whole.ioApic p found
      simp only [ioApicGetAddrCbReads, List.mem_cons, List.not_mem_nil, or_false] at read
      omega

end Robust

def tableOf (entries : List Byte) : Mem := fun a =>
  if a = 0x1004 then BitVec.ofNat 8 (ACPI_MADT_SIZE + entries.length)
  else if 0x102C ≤ a then entries.getD (a - 0x102C) 0 else 0

theorem madt_robust_iff_firmware : (0x1000 : BitVec 64) ≠ 0 ∧ MadtRobust 0
    (tableOf [0, 8, 0, 0, 1, 0, 0, 0, 1, 12, 1, 0, 0, 0, 0xC0, 0xFE, 0, 0, 0, 0]) 0x1000 := by
  refine ⟨by decide, (madt_robust_iff 0 0x1000 _ (by decide)).mpr ⟨[0x102C, 0x1034], ?_, ?_, ?_⟩⟩
  · refine Chain.entry (by decide) (by decide) (Chain.entry (by decide) (by decide) (Chain.done ?_))
    decide
  · intro p member fits
    rcases List.mem_cons.mp member with rfl | member
    · decide
    · obtain rfl := List.mem_singleton.mp member
      cases fits
  · intro p found
    rw [List.find?_cons_of_neg (by decide), List.find?_cons_of_pos (by decide)] at found
    obtain rfl := Option.some.inj found
    decide

/-- An entry of length zero is walked over and over. -/
theorem madt_empty_entry_endless : ¬MadtRobust 0 (tableOf [0, 0]) 0x1000 := by
  intro robust
  obtain ⟨ps, chain⟩ := chain_of_robust (by decide) robust
  cases chain with
  | done past => exact absurd past (by decide)
  | entry header length more => exact length (by decide)

end Algae.Acpi.MadtBounds
