/- The process switch of the amd64 port, and the round robin it amounts to. -/

import Algae.Ke.Sched
import Algae.Platform.Mmu

set_option autoImplicit false
set_option relaxedAutoImplicit false

namespace Algae.Platform.Process

open Algae.Rtl.Queue Algae.Sdk.Defs Algae.Ke.Sched
open Algae.Platform.Mmu (MmuVas)

structure TrapFrame where
  trapno : BitVec 64
  rax : BitVec 64
  rcx : BitVec 64
  rdx : BitVec 64
  rbx : BitVec 64
  rsi : BitVec 64
  rdi : BitVec 64
  rbp : BitVec 64
  r8 : BitVec 64
  r9 : BitVec 64
  r10 : BitVec 64
  r11 : BitVec 64
  r12 : BitVec 64
  r13 : BitVec 64
  r14 : BitVec 64
  r15 : BitVec 64
  error_code : BitVec 64
  rip : BitVec 64
  cs : BitVec 64
  rflags : BitVec 64
  rsp : BitVec 64
  ss : BitVec 64
  deriving DecidableEq, Repr

structure Pcb where
  vas : MmuVas
  tf : TrapFrame
  deriving DecidableEq, Repr

/-- The run queues and current processes of the cores, all PCBs, and the CR3 of the
core that executes. -/
structure SchedState (η : Type) where
  queues : Tailqs η ProcPtr
  curProc : η → Option ProcPtr
  pcb : ProcPtr → Pcb
  cr3 : BitVec 64

section Code

variable {η : Type} [DecidableEq η]

/-- The switch once the current process is queued and saved; the new live frame
comes with the state. `garbage` is the uninitialised local of keDequeueProc. -/
def switchNext (garbage : Option ProcPtr) (core : η) (frame : TrapFrame) (s : SchedState η) :
    Option (TrapFrame × SchedState η) :=
  match keDequeueProc garbage (some core) true s.queues with
  | some (.success, some next, queues) =>
    some ((s.pcb next).tf, { s with
      queues := queues
      curProc := Function.update s.curProc core (some next)
      cr3 := (s.pcb next).vas.cr3 })
  | some (_, _, queues) => some (frame, { s with queues := queues })
  | none => none

/-- `core` is what keGetCore returns, `none` for NULL. The end of interrupt and the
timer that every path re-arms are left out. -/
def halSchedSwitch (garbage : Option ProcPtr) (core : Option η) (frame : TrapFrame)
    (s : SchedState η) : Option (TrapFrame × SchedState η) :=
  match core with
  | none => some (frame, s)
  | some core =>
    match s.curProc core with
    | none => switchNext garbage core frame s
    | some self =>
      match keScheduleProc none (some core) (some self) s.queues with
      | some (.success, queues) =>
        switchNext garbage core frame { s with
          queues := queues
          pcb := Function.update s.pcb self { s.pcb self with tf := frame } }
      | some (_, queues) => some (frame, { s with queues := queues })
      | none => none

end Code

/-! The abstract scheduler: who runs, who waits, and with which frame each process
    was last preempted. -/

structure RoundRobin where
  current : Option ProcPtr
  ready : List ProcPtr
  preempted : ProcPtr → Option TrapFrame

namespace RoundRobin

def idle : RoundRobin := ⟨none, [], fun _ => none⟩

def rotation (a : RoundRobin) : List ProcPtr := a.ready ++ a.current.toList

def schedule (a : RoundRobin) (p : ProcPtr) : RoundRobin := { a with ready := a.ready ++ [p] }

def noteFrame (a : RoundRobin) (frame : TrapFrame) : ProcPtr → Option TrapFrame :=
  match a.current with
  | none => a.preempted
  | some self => Function.update a.preempted self (some frame)

def switch (a : RoundRobin) (frame : TrapFrame) : RoundRobin where
  current := a.rotation.head?
  ready := a.rotation.tail
  preempted := a.noteFrame frame

private theorem rotation_switch (a : RoundRobin) (frame : TrapFrame) :
    (a.switch frame).rotation = a.rotation.tail ++ a.rotation.head?.toList := rfl

end RoundRobin

inductive SchedEvent
  | schedule (p : ProcPtr)
  | switch (frame : TrapFrame)
  deriving DecidableEq, Repr

section Rotation

variable {η : Type} [DecidableEq η]

/-- Runs of one core from state `s₀`: the state reached, the abstract scheduler that
saw the same events, and the events, latest first. -/
inductive SchedRun (core : η) (s₀ : SchedState η) :
    SchedState η → RoundRobin → List SchedEvent → Prop
  | start : SchedRun core s₀ s₀ RoundRobin.idle []
  | schedule {s : SchedState η} {a : RoundRobin} {events : List SchedEvent}
      (run : SchedRun core s₀ s a events) {p : ProcPtr} (absent : p ∉ a.rotation)
      {arbiter : Option η} {status : NtStatus} {queues : Tailqs η ProcPtr}
      (done : keScheduleProc arbiter (some core) (some p) s.queues = some (status, queues)) :
      SchedRun core s₀ { s with queues := queues } (a.schedule p) (.schedule p :: events)
  | switch {s s' : SchedState η} {a : RoundRobin} {events : List SchedEvent}
      (run : SchedRun core s₀ s a events) {garbage : ProcPtr} {frame frame' : TrapFrame}
      (done : halSchedSwitch (some garbage) (some core) frame s = some (frame', s')) :
      SchedRun core s₀ s' (a.switch frame) (.switch frame :: events)

/-- The core's state stands for the abstract scheduler: a process that is not running
has in its PCB the frame of its last preemption, or the initial one. -/
structure Refines (core : η) (s₀ s : SchedState η) (a : RoundRobin) : Prop where
  current : s.curProc core = a.current
  queue : Holds s.queues core a.ready
  once : a.rotation.Nodup
  vas : ∀ p, (s.pcb p).vas = (s₀.pcb p).vas
  context : ∀ p, a.current ≠ some p → (s.pcb p).tf = (a.preempted p).getD (s₀.pcb p).tf

private theorem switch_refines {core : η} {s₀ s : SchedState η} {a : RoundRobin}
    (h : Refines core s₀ s a) (garbage : ProcPtr) (frame : TrapFrame) :
    ∃ frame' s', halSchedSwitch (some garbage) (some core) frame s = some (frame', s') ∧
      Refines core s₀ s' (a.switch frame) ∧
      match a.rotation with
      | [] => frame' = frame ∧ s' = s
      | p :: _ =>
        frame' = ((a.noteFrame frame) p).getD (s₀.pcb p).tf ∧ s'.cr3 = (s₀.pcb p).vas.cr3 := by
  obtain ⟨s₁, call, queue, vas, context⟩ : ∃ s₁ : SchedState η,
      halSchedSwitch (some garbage) (some core) frame s = switchNext (some garbage) core frame s₁ ∧
      Holds s₁.queues core a.rotation ∧ (∀ p, (s₁.pcb p).vas = (s₀.pcb p).vas) ∧
      (∀ p, (s₁.pcb p).tf = ((a.noteFrame frame) p).getD (s₀.pcb p).tf) ∧
      (a.current = none → s₁ = s) := by
    cases running : a.current with
    | none =>
      have idle : s.curProc core = none := h.current.trans running
      refine ⟨s, by simp only [halSchedSwitch, idle], ?_, h.vas, ?_, fun _ => rfl⟩
      · rw [RoundRobin.rotation, running, Option.toList_none, List.append_nil]
        exact h.queue
      · intro p
        rw [RoundRobin.noteFrame, running]
        exact h.context p (by rw [running]; exact fun same => by cases same)
    | some self =>
      have busy : s.curProc core = some self := h.current.trans running
      have rotation : a.rotation = a.ready ++ [self] := by
        rw [RoundRobin.rotation, running, Option.toList_some]
      have once := h.once
      rw [rotation] at once
      have new : self ∉ a.ready := by
        intro member
        exact (List.nodup_append.mp once).2.2 self member self (List.mem_singleton_self _) rfl
      obtain ⟨queues, scheduled, queue⟩ := keScheduleProc_spec h.queue new none
      let saved : SchedState η := { s with
        queues := queues
        pcb := Function.update s.pcb self { s.pcb self with tf := frame } }
      refine ⟨saved, by simp only [halSchedSwitch, busy, scheduled, saved], rotation ▸ queue, ?_,
        ?_, ?_⟩
      · intro p
        by_cases same : p = self
        · subst same
          simp only [saved, Function.update_self]
          exact h.vas p
        · simp only [saved, Function.update_of_ne same]
          exact h.vas p
      · intro p
        rw [RoundRobin.noteFrame, running]
        by_cases same : p = self
        · subst same
          simp only [saved, Function.update_self, Option.getD_some]
        · simp only [saved, Function.update_of_ne same]
          refine h.context p ?_
          rw [running]
          exact fun eq => same (Option.some.inj eq).symm
      · exact fun none => by cases none
  obtain ⟨context, unchanged⟩ := context
  rw [call]
  cases turn : a.rotation with
  | nil =>
    rw [turn] at queue
    have dequeued := keDequeueProc_empty queue garbage
    have nobody : a.ready = [] ∧ a.current = none := by
      have parts := List.append_eq_nil_iff.mp turn
      exact ⟨parts.1, Option.toList_eq_nil_iff.mp parts.2⟩
    have same := unchanged nobody.2
    refine ⟨frame, s₁, ?_, ?_, rfl, same⟩
    · simp only [switchNext, dequeued]
    · refine ⟨?_, ?_, ?_, vas, ?_⟩
      · rw [same, h.current, nobody.2, RoundRobin.switch, turn]
        rfl
      · rw [RoundRobin.switch, turn]
        exact queue
      · rw [RoundRobin.rotation_switch, turn]
        exact List.nodup_nil
      · exact fun p _ => context p
  | cons p rest =>
    rw [turn] at queue
    obtain ⟨queues, taken, left⟩ := keDequeueProc_oldest queue garbage
    refine ⟨(s₁.pcb p).tf, _, by simp only [switchNext, taken]; rfl, ?_, context p, ?_⟩
    · have once := h.once
      rw [turn] at once
      refine ⟨?_, ?_, ?_, vas, fun p' _ => context p'⟩
      · simp [RoundRobin.switch, turn]
      · rw [RoundRobin.switch, turn]
        exact left
      · have next : (a.switch frame).rotation = rest ++ [p] := by
          rw [RoundRobin.rotation_switch, turn]
          rfl
        rw [next]
        exact List.nodup_append_comm.mp once
    · change (s₁.pcb p).vas.cr3 = _
      rw [vas p]

private theorem rotation_schedule (a : RoundRobin) {p : ProcPtr} :
    (a.schedule p).rotation = a.ready ++ p :: a.current.toList := by
  rw [RoundRobin.rotation, RoundRobin.schedule, List.append_assoc, List.singleton_append]

private theorem sched_run_refines {core : η} {s₀ : SchedState η} (idle : s₀.curProc core = none)
    (empty : Holds s₀.queues core []) {s : SchedState η} {a : RoundRobin} {events : List SchedEvent}
    (run : SchedRun core s₀ s a events) :
    Refines core s₀ s a ∧ ∀ p, SchedEvent.schedule p ∈ events ↔ p ∈ a.rotation := by
  induction run with
  | start =>
    refine ⟨⟨idle, empty, List.nodup_nil, fun _ => rfl, fun _ _ => rfl⟩, fun p => ?_⟩
    simp [RoundRobin.rotation, RoundRobin.idle]
  | @schedule s a events _ p absent arbiter status queues done ih =>
    obtain ⟨refines, places⟩ := ih
    have new : p ∉ a.ready := fun member => absent (List.mem_append_left _ member)
    obtain ⟨queues', scheduled, queue⟩ := keScheduleProc_spec refines.queue new arbiter
    obtain ⟨rfl, rfl⟩ := Prod.mk.inj (Option.some.inj (scheduled.symm.trans done))
    have moved : List.Perm (a.schedule p).rotation (p :: a.rotation) := by
      rw [rotation_schedule]
      exact List.perm_middle
    refine ⟨⟨refines.current, queue, ?_, refines.vas, refines.context⟩, ?_⟩
    · exact moved.nodup_iff.mpr (List.nodup_cons.mpr ⟨absent, refines.once⟩)
    · intro p'
      rw [moved.mem_iff, List.mem_cons, List.mem_cons, places, SchedEvent.schedule.injEq]
  | @switch s s' a events _ garbage frame frame' done ih =>
    obtain ⟨refines, places⟩ := ih
    obtain ⟨_, _, switched, refines', _⟩ := switch_refines refines garbage frame
    obtain ⟨_, rfl⟩ := Prod.mk.inj (Option.some.inj (switched.symm.trans done))
    refine ⟨refines', fun p => ?_⟩
    have moved : p ∈ (a.switch frame).rotation ↔ p ∈ a.rotation := by
      rw [RoundRobin.rotation_switch]
      cases a.rotation with
      | nil => rfl
      | cons q rest => simp [or_comm]
    rw [moved, List.mem_cons, places]
    simp

/-- In every run each process ever scheduled is current or queued, once; a switch takes
the oldest of the rotation, with the frame of its last preemption and its CR3. -/
theorem sched_round_robin {core : η} {s₀ : SchedState η} (idle : s₀.curProc core = none)
    (empty : Holds s₀.queues core []) {s : SchedState η} {a : RoundRobin} {events : List SchedEvent}
    (run : SchedRun core s₀ s a events) :
    Holds s.queues core a.ready ∧ s.curProc core = a.current ∧
    (∀ p, SchedEvent.schedule p ∈ events ↔ s.curProc core = some p ∨ p ∈ a.ready) ∧
    (a.ready.Nodup ∧ ∀ p, s.curProc core = some p → p ∉ a.ready) ∧
    ∀ garbage frame, ∃ frame' s',
      halSchedSwitch (some garbage) (some core) frame s = some (frame', s') ∧
      match a.rotation with
      | [] => frame' = frame ∧ s' = s
      | p :: rest => s'.curProc core = some p ∧ Holds s'.queues core rest ∧
          frame' = ((a.switch frame).preempted p).getD (s₀.pcb p).tf ∧
          s'.cr3 = (s₀.pcb p).vas.cr3 := by
  obtain ⟨refines, places⟩ := sched_run_refines idle empty run
  have once := List.nodup_append.mp refines.once
  refine ⟨refines.queue, refines.current, ?_, ⟨once.1, ?_⟩, ?_⟩
  · intro p
    rw [places, RoundRobin.rotation, List.mem_append, Option.mem_toList, refines.current, or_comm]
  · intro p current member
    rw [refines.current] at current
    exact once.2.2 p member p (Option.mem_toList.mpr current) rfl
  · intro garbage frame
    obtain ⟨frame', s', done, refines', outcome⟩ := switch_refines refines garbage frame
    refine ⟨frame', s', done, ?_⟩
    cases turn : a.rotation with
    | nil =>
      rw [turn] at outcome
      exact outcome
    | cons p rest =>
      rw [turn] at outcome
      have current := refines'.current
      have queue := refines'.queue
      rw [RoundRobin.switch, turn] at current queue
      exact ⟨current, queue, outcome⟩

end Rotation

/-- One core, nothing scheduled yet; the process with address `p` starts at `p`. -/
def oneCore : SchedState Unit where
  queues :=
    tailqInit ⟨fun _ => none, fun _ => .first (), fun _ => 0, fun _ => none, fun _ => .first ()⟩ ()
  curProc := fun _ => none
  pcb := fun p => {
    vas := ⟨0x1000⟩
    tf := ⟨0, 0, 0, 0, 0, 0, 0, 0, 0, 0, 0, 0, 0, 0, 0, 0, 0, p.val, 0x23, 0x202,
      0xBFFFFFFF, 0x1B⟩ }
  cr3 := 0

theorem sched_round_robin_first :
    Holds (tailqInsertTail oneCore.queues () ⟨0x400000, by decide⟩) () [⟨0x400000, by decide⟩] ∧
    ∀ garbage frame, ∃ frame' s',
      halSchedSwitch (some garbage) (some ()) frame
        { oneCore with queues := tailqInsertTail oneCore.queues () ⟨0x400000, by decide⟩ } =
          some (frame', s') ∧
      s'.curProc () = some ⟨0x400000, by decide⟩ ∧ frame'.rip = 0x400000 ∧ s'.cr3 = 0x1000 := by
  have done : keScheduleProc none (some ()) (some ⟨0x400000, by decide⟩) oneCore.queues =
      some (.success, tailqInsertTail oneCore.queues () ⟨0x400000, by decide⟩) := rfl
  have begun : SchedRun () oneCore oneCore RoundRobin.idle [] := SchedRun.start
  have run := begun.schedule (by decide) done
  refine ⟨(sched_round_robin rfl (holds_init _ _) run).1, fun garbage frame => ?_⟩
  obtain ⟨frame', s', done, current, _, context, cr3⟩ :=
    (sched_round_robin rfl (holds_init _ _) run).2.2.2.2 garbage frame
  refine ⟨frame', s', done, current, ?_, cr3⟩
  rw [context]
  rfl

end Algae.Platform.Process
