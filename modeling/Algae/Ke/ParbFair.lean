/- The arbiter over whole runs while processors register: every call returns a
   registered one, and calls in a row go round all of them. -/

import Algae.Lib.RoundRobin
import Algae.Platform.MpEntry

set_option autoImplicit false
set_option relaxedAutoImplicit false

namespace Algae.Ke.ParbFair

open Algae.Lib.RoundRobin Algae.Ke.Parb
open Algae.Platform.MpEntry (AP_MAX)

section Runs

variable {κ : Type}

/-- keParbCycle with the cores it chooses from and those it counts afterwards, which
another processor may have joined. -/
def keParbCycleWhile (c c' : Cores κ) (arbiter : Kparb) : Option κ × Kparb :=
  match arbiter.method with
  | .roundRobin =>
    let retval := halCpuGet c arbiter.semaphore
    let next := (arbiter.semaphore + 1) % 0x10000
    (retval, { arbiter with semaphore := if next ≥ halCpuCount c' then 0 else next })

private theorem keParbCycleWhile_self (c : Cores κ) : keParbCycleWhile c c = keParbCycle c := rfl

/-- Some processors, or none, append themselves to `apList`. -/
structure Registers (c c' : Cores κ) : Prop where
  bsp : c'.bspKpcr = c.bspKpcr
  appended : c.apList <+: c'.apList
  distinct : c'.all.Nodup
  room : c'.apList.length < AP_MAX

/-- A call: the cursor it found, the numbers of processors when it chose one and when it
moved the cursor, and what it returned. -/
structure Call (κ : Type) where
  semaphore : Nat
  count : Nat
  countAfter : Nat
  result : Option κ

/-- Runs after keParbReset, with the calls so far, the last one at the end. -/
inductive ParbRun : Cores κ → Kparb → List (Call κ) → Prop
  | reset {c : Cores κ} (distinct : c.all.Nodup) (room : c.apList.length < AP_MAX) :
      ParbRun c (keParbReset .roundRobin) []
  | register {c c' : Cores κ} {arbiter : Kparb} {calls : List (Call κ)}
      (run : ParbRun c arbiter calls) (more : Registers c c') : ParbRun c' arbiter calls
  | cycle {c c' : Cores κ} {arbiter : Kparb} {calls : List (Call κ)}
      (run : ParbRun c arbiter calls) (more : Registers c c') :
      ParbRun c' (keParbCycleWhile c c' arbiter).2 (calls ++ [⟨arbiter.semaphore, halCpuCount c,
        halCpuCount c', (keParbCycleWhile c c' arbiter).1⟩])

/-- The call returned the processor at its cursor, one of those it could choose from. -/
structure Chosen (c : Cores κ) (call : Call κ) : Prop where
  inside : call.semaphore < call.count
  grown : call.count ≤ call.countAfter
  known : call.countAfter ≤ halCpuCount c
  result : call.result = c.all[call.semaphore]?

/-- The cursor is inside, and moved by one place from call to call. -/
structure ParbInv (c : Cores κ) (arbiter : Kparb) (calls : List (Call κ)) : Prop where
  distinct : c.all.Nodup
  room : c.apList.length < AP_MAX
  method : arbiter.method = .roundRobin
  inside : arbiter.semaphore < halCpuCount c
  chosen : ∀ call ∈ calls, Chosen c call
  chain : calls.IsChain fun a b => b.semaphore = advance a.countAfter a.semaphore
  cursor : ∀ call ∈ calls.getLast?, arbiter.semaphore = advance call.countAfter call.semaphore

variable {c c' : Cores κ} {arbiter : Kparb} {calls : List (Call κ)}

private theorem halCpuGet_eq (c : Cores κ) (cpuIdx : Nat) :
    halCpuGet c cpuIdx = c.all[cpuIdx]? := by
  cases cpuIdx with
  | zero => rfl
  | succ i => rfl

private theorem halCpuCount_eq (c : Cores κ) : halCpuCount c = c.all.length := rfl

theorem Registers.all (more : Registers c c') : c.all <+: c'.all := by
  rw [Cores.all, Cores.all, more.bsp]
  exact (List.prefix_cons_inj _).mpr more.appended

theorem Registers.count (more : Registers c c') : halCpuCount c ≤ halCpuCount c' :=
  more.all.length_le

theorem Registers.get (more : Registers c c') {i : Nat} (inside : i < halCpuCount c) :
    c'.all[i]? = c.all[i]? := by
  obtain ⟨new, eq⟩ := more.all
  rw [← eq, List.getElem?_append_left inside]

private theorem Chosen.register {call : Call κ} (chosen : Chosen c call) (more : Registers c c') :
    Chosen c' call := by
  have known := chosen.known
  have inside := chosen.inside
  have grown := chosen.grown
  refine ⟨inside, grown, known.trans more.count, ?_⟩
  rw [chosen.result, more.get (by omega)]

private theorem ParbInv.register (inv : ParbInv c arbiter calls) (more : Registers c c') :
    ParbInv c' arbiter calls where
  distinct := more.distinct
  room := more.room
  method := inv.method
  inside := Nat.lt_of_lt_of_le inv.inside more.count
  chosen := fun call member => (inv.chosen call member).register more
  chain := inv.chain
  cursor := inv.cursor

private theorem keParbCycleWhile_eq (inv : ParbInv c arbiter calls) (c' : Cores κ) :
    keParbCycleWhile c c' arbiter = (c.all[arbiter.semaphore]?,
      { arbiter with semaphore := advance (halCpuCount c') arbiter.semaphore }) := by
  have small : (arbiter.semaphore + 1) % 0x10000 = arbiter.semaphore + 1 := by
    have inside := inv.inside
    have room := inv.room
    rw [halCpuCount] at inside
    rw [AP_MAX] at room
    exact Nat.mod_eq_of_lt (by omega)
  rw [keParbCycleWhile, inv.method, ← halCpuGet_eq]
  simp only [small, advance]

theorem ParbInv.cycle (inv : ParbInv c arbiter calls) (more : Registers c c') :
    ParbInv c' (keParbCycleWhile c c' arbiter).2 (calls ++ [⟨arbiter.semaphore, halCpuCount c,
      halCpuCount c', (keParbCycleWhile c c' arbiter).1⟩]) := by
  have step := keParbCycleWhile_eq inv c'
  have later := inv.register more
  rw [step]
  refine ⟨later.distinct, later.room, inv.method, advance_lt (Nat.succ_pos _) _, ?_, ?_, ?_⟩
  · intro call member
    rcases List.mem_append.mp member with before | last
    · exact later.chosen call before
    · rw [List.mem_singleton.mp last]
      exact ⟨inv.inside, more.count, Nat.le_refl _, (more.get inv.inside).symm⟩
  · refine List.isChain_append.mpr ⟨inv.chain, List.isChain_singleton _, ?_⟩
    intro call last next first
    obtain rfl := Option.some.inj first
    exact inv.cursor call last
  · intro call last
    rw [List.getLast?_concat] at last
    obtain rfl := Option.some.inj last
    rfl

private theorem parb_inv (run : ParbRun c arbiter calls) : ParbInv c arbiter calls := by
  induction run with
  | reset distinct room =>
    refine ⟨distinct, room, rfl, Nat.succ_pos _, ?_, List.isChain_nil, ?_⟩
    · exact fun _ member => by cases member
    · exact fun _ member => by cases member
  | register _ more ih => exact ih.register more
  | cycle _ more ih => exact ih.cycle more

/-- Every call of a run returns a processor registered at the time, and `n` calls in a
row with `n` processors return each of these once. -/
theorem arbitration_fair (run : ParbRun c arbiter calls) : c.all.Nodup ∧
    (∀ call ∈ calls, ∃ k ∈ c.all.take call.count, call.result = some k) ∧
    ∀ n window, window <:+: calls → window.length = n →
      (∀ call ∈ window, call.count = n ∧ call.countAfter = n) →
      (window.map Call.result).Perm ((c.all.take n).map some) := by
  have inv := parb_inv run
  refine ⟨inv.distinct, fun call member => ?_, fun n window part length constant => ?_⟩
  · obtain ⟨inside, grown, known, result⟩ := inv.chosen call member
    have short : call.semaphore < c.all.length := by
      rw [halCpuCount_eq] at known
      omega
    rw [List.getElem?_eq_getElem short] at result
    exact ⟨_, List.mem_take_iff_getElem.mpr ⟨call.semaphore, by omega, rfl⟩, result⟩
  · have chosen : ∀ call ∈ window, Chosen c call :=
      fun call member => inv.chosen call (part.subset member)
    have round : (window.map Call.semaphore).Perm (List.range n) := by
      refine chain_perm ?_ ?_ (by rw [List.length_map, length])
      · refine (List.isChain_map _).mpr ?_
        refine List.IsChain.imp_of_mem_imp ?_ ( List.IsChain.infix inv.chain part)
        intro a b here _ step
        rw [step, (constant a here).2]
      · intro i member
        obtain ⟨call, here, rfl⟩ := List.mem_map.mp member
        exact (constant call here).1 ▸ (chosen call here).inside
    have results : window.map Call.result = (window.map Call.semaphore).map fun i => c.all[i]? := by
      rw [List.map_map]
      exact List.map_congr_left fun call here => (chosen call here).result
    have known : n ≤ c.all.length := by
      cases window with
      | nil => exact length ▸ Nat.zero_le _
      | cons call _ =>
        obtain ⟨_, same⟩ := constant call List.mem_cons_self
        exact same ▸ (chosen call List.mem_cons_self).known
    have places : ((List.range n).map fun i => c.all[i]?) = (c.all.take n).map some := by
      apply List.ext_getElem
      · simp [known]
      · intro i _ short
        have below : i < n := by
          simp only [List.length_map, List.length_take] at short
          omega
        simp [Nat.lt_of_lt_of_le below known]
    rw [results, ← places]
    exact round.map _

end Runs

def twoCores : Cores Nat := ⟨0, [1]⟩

theorem arbitration_fair_two : ∃ (arbiter : Kparb) (calls : List (Call Nat)),
    ParbRun twoCores arbiter calls ∧ calls.length = 2 ∧
    (calls.map Call.result).Perm [some 0, some 1] := by
  have alone := @ParbRun.reset Nat ⟨0, []⟩ (by decide) (by decide)
  have joins : Registers (⟨0, []⟩ : Cores Nat) twoCores := ⟨rfl, by decide, by decide, by decide⟩
  have stays : Registers twoCores twoCores := ⟨rfl, List.prefix_rfl, by decide, by decide⟩
  have run := ((alone.register joins).cycle stays).cycle stays
  refine ⟨_, _, run, rfl, ?_⟩
  exact (arbitration_fair run).2.2 2 _ List.infix_rfl rfl (by decide)

end Algae.Ke.ParbFair
