/- The core arbiter, which spreads scheduled processes over the cores, and the cores it
   may choose from. -/

import Algae.Ke.Sched

set_option autoImplicit false
set_option relaxedAutoImplicit false

namespace Algae.Ke.Parb

open Algae.Sdk.Defs

inductive KparbMethod
  | roundRobin
  deriving DecidableEq, Repr

structure Kparb where
  method : KparbMethod
  semaphore : Nat
  deriving DecidableEq, Repr

/-- The cores that are registered: `apList` are the entries of the array up to `nAp`. -/
structure Cores (κ : Type) where
  bspKpcr : κ
  apList : List κ

variable {κ : Type}

def Cores.all (c : Cores κ) : List κ := c.bspKpcr :: c.apList

def halCpuCount (c : Cores κ) : Nat := c.apList.length + 1

/-- The array is 0 behind `nAp`; `none` is NULL. -/
def halCpuGet (c : Cores κ) (cpuIdx : Nat) : Option κ :=
  if cpuIdx = 0 then some c.bspKpcr else c.apList[cpuIdx - 1]?

def keParbReset (mode : KparbMethod) : Kparb := ⟨mode, 0⟩

def keParbCycle (c : Cores κ) (arbiter : Kparb) : Option κ × Kparb :=
  match arbiter.method with
  | .roundRobin =>
    let retval := halCpuGet c arbiter.semaphore
    let next := (arbiter.semaphore + 1) % 0x10000
    (retval, { arbiter with semaphore := if next ≥ halCpuCount c then 0 else next })

section Cycle

variable {c : Cores κ} {arbiter : Kparb}

theorem keParbCycle_registered (inside : arbiter.semaphore < halCpuCount c) :
    ∃ k ∈ c.all, (keParbCycle c arbiter).1 = some k ∧
      (keParbCycle c arbiter).2.semaphore < halCpuCount c := by
  have next : (keParbCycle c arbiter).2.semaphore < halCpuCount c := by
    simp only [keParbCycle]
    split_ifs with wrap
    · exact Nat.succ_pos _
    · exact Nat.not_le.mp wrap
  have get : (keParbCycle c arbiter).1 = halCpuGet c arbiter.semaphore := rfl
  rw [get, halCpuGet]
  by_cases first : arbiter.semaphore = 0
  · exact ⟨c.bspKpcr, List.mem_cons_self, if_pos first, next⟩
  · rw [halCpuCount] at inside
    have below : arbiter.semaphore - 1 < c.apList.length := by omega
    rw [if_neg first, List.getElem?_eq_getElem below]
    exact ⟨_, List.mem_cons_of_mem _ (List.getElem_mem below), rfl, next⟩

end Cycle

end Algae.Ke.Parb
