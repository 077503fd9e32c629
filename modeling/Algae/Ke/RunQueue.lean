/- Run queues over whole runs of the scheduler's calls, and when a dequeue takes the
   process that has waited longest. -/

import Algae.Ke.Sched

set_option autoImplicit false
set_option relaxedAutoImplicit false

namespace Algae.Ke.RunQueue

open Algae.Rtl.Queue Algae.Sdk.Defs Algae.Ke.Sched

section Runs

variable {η : Type} [DecidableEq η]

/-- The processes that were scheduled and not yet taken, those that came first in front. -/
abbrev Waiting (η : Type) := η → List ProcPtr

def noteScheduled (waiting : Waiting η) : Option η → Option ProcPtr → Waiting η
  | some queue, some p => Function.update waiting queue (waiting queue ++ [p])
  | _, _ => waiting

def noteTaken (waiting : Waiting η) : Option η → Option ProcPtr → Waiting η
  | some queue, some p => Function.update waiting queue ((waiting queue).erase p)
  | _, _ => waiting

/-- Runs from initialised queues. A process has one link, so it is not scheduled while
it waits in a queue. -/
inductive QueueRun : Tailqs η ProcPtr → Waiting η → Prop
  | init {q : Tailqs η ProcPtr} (empty : ∀ queue, Holds q queue []) : QueueRun q fun _ => []
  | schedule {q q' : Tailqs η ProcPtr} {waiting : Waiting η} (run : QueueRun q waiting)
      {arbiter queue : Option η} {process : Option ProcPtr}
      (idle : ∀ p, process = some p → ∀ k, p ∉ waiting k) {status : NtStatus}
      (done : keScheduleProc arbiter queue process q = some (status, q')) :
      QueueRun q' (noteScheduled waiting (queue <|> arbiter) process)
  | dequeue {q q' : Tailqs η ProcPtr} {waiting : Waiting η} (run : QueueRun q waiting)
      {garbage : Option ProcPtr} {queue : Option η} {result : Bool} {status : NtStatus}
      {taken : Option ProcPtr}
      (done : keDequeueProc garbage queue result q = some (status, taken, q')) :
      QueueRun q' (noteTaken waiting queue taken)

/-- The call takes the process that has waited longest and nothing else, and says why
it takes none. -/
def TakesOldest (q : Tailqs η ProcPtr) (waiting : Waiting η) (garbage : Option ProcPtr)
    (queue : Option η) (result : Bool) : Prop :=
  match queue, result with
  | some k, true =>
    match waiting k with
    | [] => keDequeueProc garbage queue result q = some (.procNotFound, none, q)
    | p :: rest => ∃ q', keDequeueProc garbage queue result q = some (.success, some p, q') ∧
        ∀ k', Holds q' k' (Function.update waiting k rest k')
  | _, _ => keDequeueProc garbage queue result q = some (.invalidHandle, none, q)

variable {q : Tailqs η ProcPtr} {waiting : Waiting η}

private theorem holds_scheduled (holds : ∀ k, Holds q k (waiting k)) (queue : η) {p : ProcPtr}
    (idle : ∀ k, p ∉ waiting k) (k : η) : Holds (tailqInsertTail q queue p) k
      (Function.update waiting queue (waiting queue ++ [p]) k) := by
  by_cases same : k = queue
  · rw [same, Function.update_self]
    exact (holds queue).insertTail (idle queue)
  · rw [Function.update_of_ne same]
    exact (holds k).insertTail_other (holds queue) same (idle k)

private theorem holds_taken (holds : ∀ k, Holds q k (waiting k)) {queue : η} {p : ProcPtr}
    {rest : List ProcPtr} (first : waiting queue = p :: rest) (k : η) :
    Holds (tailqRemove q queue p) k (Function.update waiting queue rest k) := by
  have here : Holds q queue ([] ++ p :: rest) := first ▸ holds queue
  by_cases same : k = queue
  · rw [same, Function.update_self]
    exact here.remove
  · rw [Function.update_of_ne same]
    exact (holds k).remove_other here same

private theorem keDequeueProc_cases (holds : ∀ k, Holds q k (waiting k)) (garbage : Option ProcPtr)
    (queue : Option η) (result : Bool) :
    ((queue = none ∨ garbage = none) ∧
      keDequeueProc garbage queue result q = some (.invalidHandle, none, q)) ∨
    (∃ k, queue = some k ∧ garbage ≠ none ∧ waiting k = [] ∧
      keDequeueProc garbage queue result q = some (.procNotFound, none, q)) ∨
    ∃ k p rest, queue = some k ∧ garbage ≠ none ∧ waiting k = p :: rest ∧
      keDequeueProc garbage queue result q =
        if result then some (.success, some p, tailqRemove q k p) else none := by
  cases queue with
  | none => exact Or.inl ⟨Or.inl rfl, rfl⟩
  | some k =>
    cases garbage with
    | none => exact Or.inl ⟨Or.inr rfl, rfl⟩
    | some other =>
      right
      cases first : waiting k with
      | nil =>
        have empty := keDequeueProc_empty (first ▸ holds k) other result
        exact Or.inl ⟨k, rfl, Option.some_ne_none _, first, empty⟩
      | cons p rest =>
        have taken := keDequeueProc_first (first ▸ holds k) other result
        exact Or.inr ⟨k, p, rest, rfl, Option.some_ne_none _, first, taken⟩

private theorem run_holds (run : QueueRun q waiting) : ∀ k, Holds q k (waiting k) := by
  induction run with
  | init empty => exact empty
  | @schedule q q' waiting _ arbiter queue process idle status done holds =>
    cases process with
    | none =>
      cases done
      cases queue <|> arbiter <;> exact holds
    | some p =>
      rw [keScheduleProc] at done
      cases target : queue <|> arbiter with
      | none =>
        rw [target] at done
        cases done
      | some k =>
        rw [target] at done
        cases done
        exact holds_scheduled holds k (idle p rfl)
  | @dequeue q q' waiting _ garbage queue result status taken done holds =>
    rcases keDequeueProc_cases holds garbage queue result with
      ⟨_, same⟩ | ⟨k, rfl, _, _, same⟩ | ⟨k, p, rest, rfl, _, first, same⟩
    · rw [same] at done
      cases done
      cases queue <;> exact holds
    · rw [same] at done
      cases done
      exact holds
    · rw [same] at done
      cases result with
      | false => cases done
      | true =>
        cases done
        rw [noteTaken, first, List.erase_cons_head]
        exact holds_taken holds first

end Runs

def idleQueue : Tailqs Unit ProcPtr where
  tqh_first := fun _ => none
  tqh_last := .first
  nelem := fun _ => 0
  tqe_next := fun _ => none
  tqe_prev := fun _ => .first ()

def firstProc : ProcPtr := ⟨0x400000, by decide⟩

private theorem one_waits : QueueRun (tailqInsertTail idleQueue () firstProc)
    (noteScheduled (fun _ => []) (some ()) (some firstProc)) := by
  have empty : ∀ k, Holds idleQueue k [] := fun _ => ⟨rfl, rfl, rfl, List.nodup_nil⟩
  have idle : ∀ p, some firstProc = some p → ∀ k : Unit, p ∉ (fun _ => [] : Waiting Unit) k :=
    fun _ _ _ => List.not_mem_nil
  exact @QueueRun.schedule Unit _ _ _ _ (QueueRun.init empty) none (some ()) (some firstProc) idle
    .success rfl

def secondProc : ProcPtr := ⟨0x401000, by decide⟩

def twoQueued : Tailqs Unit ProcPtr :=
  tailqInsertTail (tailqInsertTail idleQueue () firstProc) () secondProc

private theorem two_wait : QueueRun twoQueued
    (noteScheduled (noteScheduled (fun _ => []) (some ()) (some firstProc)) (some ())
    (some secondProc)) := by
  refine @QueueRun.schedule Unit _ _ _ _ one_waits none (some ()) (some secondProc)
    (fun p same k waits => ?_)
    .success rfl
  cases Option.some.inj same
  change secondProc ∈ [firstProc] at waits
  exact absurd waits (by decide)

end Algae.Ke.RunQueue
