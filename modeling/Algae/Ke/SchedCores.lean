/- A run queue as the processors share it: keScheduleProc and keDequeueProc, the tests before the
   lock of the queue and then store by store under it. -/

import Algae.Ke.RunQueue
import Algae.Lib.LockedCalls

set_option autoImplicit false
set_option relaxedAutoImplicit false

namespace Algae.Ke.SchedCores

open Relation (ReflTransGen)
open Algae.Lib.LockedCalls Algae.Rtl.Queue Algae.Sdk.Defs Algae.Ke.Sched Algae.Ke.RunQueue

/-- The two functions with the queue given; `garbage` is the uninitialised local that is tested in
the place of the argument. -/
inductive QueueCall
  | keScheduleProc (process : Option ProcPtr)
  | keDequeueProc (garbage : Option ProcPtr)

/-- Where a processor is between the two calls of the lock: the stores of TAILQ_INSERT_TAIL, the
test of TAILQ_FIRST, the stores of TAILQ_REMOVE. -/
inductive QueuePc
  | insertNext (process : ProcPtr)
  | insertPrev (process : ProcPtr)
  | insertLink (process : ProcPtr)
  | insertLast (process : ProcPtr)
  | insertCount (process : ProcPtr)
  | first
  | removePrev (process : ProcPtr)
  | removeLink (process : ProcPtr)
  | removeCount (process : ProcPtr)
  | done (result : NtStatus × Option ProcPtr)

section Code

variable {η : Type} [DecidableEq η] (queue : η)

def queueEarly : QueueCall → Tailqs η ProcPtr → Option (NtStatus × Option ProcPtr)
  | .keScheduleProc process, _ => if process = none then some (.invalidHandle, none) else none
  | .keDequeueProc garbage, q =>
    if garbage = none then some (.invalidHandle, none)
    else if q.nelem queue = 0 then some (.procNotFound, none)
    else none

def queueStep :
    QueuePc → Tailqs η ProcPtr → (QueuePc × Tailqs η ProcPtr) ⊕ (NtStatus × Option ProcPtr)
  | .insertNext process, q => .inl (.insertPrev process, q.store (.next process) none)
  | .insertPrev process, q => .inl (.insertLink process, q.setPrev process (q.tqh_last queue))
  | .insertLink process, q => .inl (.insertLast process, q.store (q.tqh_last queue) (some process))
  | .insertLast process, q => .inl (.insertCount process, q.setLast queue (.next process))
  | .insertCount _, q => .inl (.done (.success, none), q.setNelem queue (q.nelem queue + 1))
  | .first, q =>
    match q.tqh_first queue with
    | none => .inr (.procNotFound, none)
    | some process => .inl (.removePrev process, q)
  | .removePrev process, q =>
    .inl (.removeLink process, match q.tqe_next process with
      | some follower => q.setPrev follower (q.tqe_prev process)
      | none => q.setLast queue (q.tqe_prev process))
  | .removeLink process, q =>
    .inl (.removeCount process, q.store (q.tqe_prev process) (q.tqe_next process))
  | .removeCount process, q =>
    .inl (.done (.success, some process), q.setNelem queue (q.nelem queue - 1))
  | .done result, _ => .inr result

def queueBody : Body (Tailqs η ProcPtr) QueueCall QueuePc (NtStatus × Option ProcPtr) where
  early := queueEarly queue
  start
    | .keScheduleProc (some process) => .insertNext process
    | .keScheduleProc none => .done (.invalidHandle, none)
    | .keDequeueProc _ => .first
  step := queueStep queue

end Code

section Alone

variable {η : Type} [DecidableEq η] {queue : η} (q : Tailqs η ProcPtr)

private theorem schedule_completes (p : ProcPtr) :
    (queueBody queue).Completes (.keScheduleProc (some p)) q (.success, none)
    (tailqInsertTail q queue p) := by
  refine ⟨.done (.success, none), ?_, rfl⟩
  exact .head rfl (.head rfl (.head rfl (.head rfl (.single rfl))))

private theorem dequeue_completes_none (empty : q.tqh_first queue = none)
    (garbage : Option ProcPtr) :
    (queueBody queue).Completes (.keDequeueProc garbage) q (.procNotFound, none) q := by
  refine ⟨.first, .refl, ?_⟩
  simp only [queueBody, queueStep, empty]

private theorem dequeue_completes_some {p : ProcPtr} (first : q.tqh_first queue = some p)
    (garbage : Option ProcPtr) :
    (queueBody queue).Completes (.keDequeueProc garbage) q (.success, some p)
    (tailqRemove q queue p) := by
  refine ⟨.done (.success, some p), ?_, rfl⟩
  have test : (queueBody queue).Next (.first, q) (.removePrev p, q) := by
    simp only [Body.Next, queueBody, queueStep, first]
  refine .head test (.head rfl (.head rfl (.single ?_)))
  simp only [Body.Next, queueBody, queueStep, tailqRemove]
  cases q.tqe_next p <;> rfl

end Alone

section Shared

variable {ι η : Type} [DecidableEq ι] [DecidableEq η] {queue : η} {q₀ q : Tailqs η ProcPtr}

/-- The processes that the calls scheduled, the first one first. -/
def scheduled : List (ι × QueueCall × NtStatus × Option ProcPtr) → List ProcPtr
  | [] => []
  | (_, .keScheduleProc (some p), _) :: h => scheduled h ++ [p]
  | _ :: h => scheduled h

def takenBy : List (ι × QueueCall × NtStatus × Option ProcPtr) → List ProcPtr
  | [] => []
  | (_, .keDequeueProc _, _, some p) :: h => takenBy h ++ [p]
  | _ :: h => takenBy h

/-- A process is scheduled only when it was taken as often as it was scheduled. -/
def Proper : List (ι × QueueCall × NtStatus × Option ProcPtr) → Prop
  | [] => True
  | (_, .keScheduleProc (some p), _) :: h => (scheduled h).count p = (takenBy h).count p ∧ Proper h
  | _ :: h => Proper h

omit [DecidableEq ι] in
private theorem serial_fifo (empty : Holds q₀ queue [])
    {h : List (ι × QueueCall × NtStatus × Option ProcPtr)}
    (serial : Serial (queueBody queue) q₀ h q) (proper : Proper h) :
    ∃ waiting, scheduled h = takenBy h ++ waiting ∧ Holds q queue waiting := by
  induction serial with
  | nil => exact ⟨[], rfl, empty⟩
  | @cons h q q' i c r _ call ih =>
    cases c with
    | keScheduleProc process =>
      cases process with
      | none =>
        obtain ⟨rfl, rfl⟩ := call.unique _ ⟨.done (.invalidHandle, none), .refl, rfl⟩
        exact ih proper
      | some p =>
        obtain ⟨idle, proper⟩ := proper
        obtain ⟨waiting, eq, holds⟩ := ih proper
        obtain ⟨rfl, rfl⟩ := call.unique _ (schedule_completes q p)
        have new : p ∉ waiting := by
          rw [eq, List.count_append] at idle
          exact List.count_eq_zero.mp (by omega)
        refine ⟨waiting ++ [p], ?_, holds.insertTail new⟩
        simp only [scheduled, takenBy, eq, List.append_assoc]
    | keDequeueProc garbage =>
      have before : Proper h := by
        obtain ⟨_, _ | _⟩ := r <;> exact proper
      obtain ⟨waiting, eq, holds⟩ := ih before
      cases waiting with
      | nil =>
        obtain ⟨rfl, rfl⟩ := call.unique _ (dequeue_completes_none q holds.chained.first_eq garbage)
        exact ⟨[], eq, holds⟩
      | cons p rest =>
        obtain ⟨rfl, rfl⟩ := call.unique _ (dequeue_completes_some q holds.chained.first_eq garbage)
        have front : Holds q queue ([] ++ p :: rest) := holds
        refine ⟨rest, ?_, front.remove⟩
        simp only [scheduled, takenBy, eq, List.append_assoc, List.singleton_append]

/-- On any number of processors, in any order of their steps, the processes that were taken are the
first of those that were scheduled, in their order, and the others wait in the queue. -/
theorem run_queue_fifo (empty : Holds q₀ queue [])
    {S : System ι (Tailqs η ProcPtr) QueueCall QueuePc (NtStatus × Option ProcPtr)}
    (run : ReflTransGen (Step (queueBody queue)) (System.start q₀) S) (proper : Proper S.history) :
    ∃ waiting, scheduled S.history = takenBy S.history ++ waiting ∧ waiting.Nodup ∧
      (S.lock = false → Holds S.shared queue waiting) := by
  obtain ⟨q, serial, held⟩ := serial_of_run run
  obtain ⟨waiting, eq, holds⟩ := serial_fifo empty serial proper
  refine ⟨waiting, eq, holds.nodup, fun clear => ?_⟩
  cases held with
  | free _ same _ =>
    rw [same]
    exact holds
  | taken set _ _ _ =>
    rw [clear] at set
    cases set

private theorem idleQueue_empty : Holds idleQueue () [] := ⟨rfl, rfl, rfl, List.nodup_nil⟩

theorem small_run : ∃ S :
    System Bool (Tailqs Unit ProcPtr) QueueCall QueuePc (NtStatus × Option ProcPtr),
    ReflTransGen (Step (queueBody ())) (System.start idleQueue) S ∧
      S.history = [(false, .keDequeueProc (some firstProc), .success, some firstProc),
        (true, .keScheduleProc (some firstProc), .success, none)] := by
  have queued : Holds (tailqInsertTail idleQueue () firstProc) () [firstProc] :=
    idleQueue_empty.insertTail List.not_mem_nil
  let start : System Bool (Tailqs Unit ProcPtr) QueueCall QueuePc (NtStatus × Option ProcPtr) :=
    System.start idleQueue
  have refused : Step (queueBody ()) start start :=
    @Step.early _ _ _ _ _ _ _ start false (.keDequeueProc (some firstProc))
      (.procNotFound, none) rfl rfl
  have called : Step (queueBody ()) start _ :=
    @Step.call _ _ _ _ _ _ _ start true (.keScheduleProc (some firstProc)) rfl rfl
  have one := ((ReflTransGen.single refused).tail called).trans
    (return_alone (i := true) rfl rfl (schedule_completes idleQueue firstProc))
  have asked :=
    one.tail (@Step.call _ _ _ _ _ _ _ _ false (.keDequeueProc (some firstProc)) rfl rfl)
  have two := asked.trans
    (return_alone (i := false) rfl rfl
      (dequeue_completes_some _ queued.chained.first_eq (some firstProc)))
  exact ⟨_, two, rfl⟩

theorem run_queue_fifo_small : ∃ S :
    System Bool (Tailqs Unit ProcPtr) QueueCall QueuePc (NtStatus × Option ProcPtr),
    ReflTransGen (Step (queueBody ())) (System.start idleQueue) S ∧
      takenBy S.history = [firstProc] ∧
      ∃ waiting, scheduled S.history = takenBy S.history ++ waiting ∧ waiting.Nodup ∧
        (S.lock = false → Holds S.shared () waiting) := by
  obtain ⟨S, run, history⟩ := small_run
  have proper : Proper S.history := by
    rw [history]
    exact ⟨rfl, trivial⟩
  refine ⟨S, run, ?_, run_queue_fifo idleQueue_empty run proper⟩
  rw [history]
  rfl

end Shared

end Algae.Ke.SchedCores
