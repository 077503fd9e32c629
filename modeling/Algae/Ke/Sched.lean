/- The process scheduler's run queues. -/

import Algae.Rtl.Queue
import Algae.Sdk.Defs

set_option autoImplicit false
set_option relaxedAutoImplicit false

namespace Algae.Ke.Sched

open Algae.Rtl.Queue Algae.Sdk.Defs

abbrev ProcPtr := {p : BitVec 64 // p ≠ 0}

section Queue

variable {η : Type} [DecidableEq η]

/-- `queue` is NULL for a queue picked by the arbiter, whose answer is `arbiter`.
`none` is the bug check. -/
def keScheduleProc (arbiter queue : Option η) (process : Option ProcPtr) (q : Tailqs η ProcPtr) :
    Option (NtStatus × Tailqs η ProcPtr) :=
  match process with
  | none => some (.invalidHandle, q)
  | some process =>
    match queue <|> arbiter with
    | none => none
    | some queue => some (.success, tailqInsertTail q queue process)

/-- `process` is an uninitialised local: its first value is a parameter. The second
result is what was stored through `result`; `none` is a store through NULL. -/
def keDequeueProc (process : Option ProcPtr) (queue : Option η) (result : Bool)
    (q : Tailqs η ProcPtr) : Option (NtStatus × Option ProcPtr × Tailqs η ProcPtr) :=
  match queue, process with
  | none, _ => some (.invalidHandle, none, q)
  | some _, none => some (.invalidHandle, none, q)
  | some queue, some _ =>
    if q.nelem queue = 0 then
      some (.procNotFound, none, q)
    else
      match q.tqh_first queue with
      | none => some (.procNotFound, none, q)
      | some process =>
        let q := tailqRemove q queue process
        if result then some (.success, some process, q) else none

variable {q : Tailqs η ProcPtr} {queue : η} {xs : List ProcPtr}

theorem keScheduleProc_spec (h : Holds q queue xs) {p : ProcPtr} (new : p ∉ xs)
    (arbiter : Option η) :
    ∃ q', keScheduleProc arbiter (some queue) (some p) q = some (.success, q') ∧
      Holds q' queue (xs ++ [p]) :=
  ⟨tailqInsertTail q queue p, rfl, h.insertTail new⟩

theorem keDequeueProc_empty (h : Holds q queue []) (garbage : ProcPtr) (result : Bool) :
    keDequeueProc (some garbage) (some queue) result q = some (.procNotFound, none, q) := by
  have zero : q.nelem queue = 0 := h.count
  exact if_pos zero

theorem keDequeueProc_first {p : ProcPtr} {rest : List ProcPtr} (h : Holds q queue (p :: rest))
    (garbage : ProcPtr) (result : Bool) : keDequeueProc (some garbage) (some queue) result q =
      if result then some (.success, some p, tailqRemove q queue p) else none := by
  have first : q.tqh_first queue = some p := h.chained.first_eq
  have nonzero : q.nelem queue ≠ 0 := by
    rw [h.count]
    intro zero
    have few := pointers_few h.nodup
    have length := congrArg BitVec.toNat zero
    rw [BitVec.toNat_ofNat, Nat.mod_eq_of_lt few] at length
    exact absurd length (by simp)
  simp only [keDequeueProc, if_neg nonzero, first]

theorem keDequeueProc_oldest {p : ProcPtr} {rest : List ProcPtr} (h : Holds q queue (p :: rest))
    (garbage : ProcPtr) : ∃ q', keDequeueProc (some garbage) (some queue) true q =
      some (.success, some p, q') ∧ Holds q' queue rest := by
  have removed : Holds (tailqRemove q queue p) queue ([] ++ rest) := Holds.remove h
  exact ⟨tailqRemove q queue p, keDequeueProc_first h garbage true, removed⟩

end Queue

end Algae.Ke.Sched
