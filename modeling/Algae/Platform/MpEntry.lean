/- Scheduling while the application processors come up: a processor is registered with
   the arbiter before its run queue is initialised, and the queue is initialised twice. -/

import Algae.Ke.Parb

set_option autoImplicit false
set_option relaxedAutoImplicit false

namespace Algae.Platform.MpEntry

open Algae.Rtl.Queue Algae.Sdk.Defs Algae.Ke.Sched Algae.Ke.Parb

def AP_MAX : Nat := 256

/-- How far the processor is that holds the lock of mpApEntry: its KPCR is in `apList`, its
queue has been initialised there, or again by halCpuInit. -/
inductive EntryPhase
  | published | queueInit | processorInit
  deriving DecidableEq, Repr

/-- `calls` are the calls of keScheduleProc that have a queue and not yet its lock,
`scheduled` the processes for which it returned success. -/
structure Smp (κ : Type) where
  cores : Cores κ
  entering : Option (κ × EntryPhase)
  arbiter : Kparb
  queues : Tailqs κ ProcPtr
  calls : List (ProcPtr × κ)
  scheduled : List ProcPtr

section Steps

variable {κ : Type} [DecidableEq κ]

def Ready (s : Smp κ) (k : κ) : Prop :=
  ∀ phase, s.entering = some (k, phase) → phase = .processorInit

/-- Runs from the start of the first application processor. The queues are what memory
happens to hold, apart from the bootstrap processor's. If `waits` holds, processes are
only inserted into queues that are not initialised any more. -/
inductive EntryRun (waits : Prop) : Smp κ → Prop
  | start {bspKpcr : κ} {queues : Tailqs κ ProcPtr} (empty : Holds queues bspKpcr []) :
      EntryRun waits ⟨⟨bspKpcr, []⟩, none, keParbReset .roundRobin, queues, [], []⟩
  | publish {s : Smp κ} {kpcr : κ} (run : EntryRun waits s) (locked : s.entering = none)
      (new : kpcr ∉ s.cores.all) (room : s.cores.apList.length + 1 < AP_MAX) :
      EntryRun waits { s with
        cores := { s.cores with apList := s.cores.apList ++ [kpcr] }
        entering := some (kpcr, .published) }
  | queueInit {s : Smp κ} {kpcr : κ} (run : EntryRun waits s)
      (locked : s.entering = some (kpcr, .published)) :
      EntryRun waits { s with
        entering := some (kpcr, .queueInit)
        queues := tailqInit s.queues kpcr }
  | processorInit {s : Smp κ} {kpcr : κ} (run : EntryRun waits s)
      (locked : s.entering = some (kpcr, .queueInit)) :
      EntryRun waits { s with
        entering := some (kpcr, .processorInit)
        queues := tailqInit s.queues kpcr }
  | unlock {s : Smp κ} {kpcr : κ} (run : EntryRun waits s)
      (locked : s.entering = some (kpcr, .processorInit)) :
      EntryRun waits { s with entering := none }
  | cycle {s : Smp κ} {p : ProcPtr} {kpcr : κ} {arbiter : Kparb} (run : EntryRun waits s)
      (new : p ∉ s.scheduled) (idle : p ∉ s.calls.map Prod.fst)
      (chosen : keParbCycle s.cores s.arbiter = (some kpcr, arbiter)) :
      EntryRun waits { s with arbiter := arbiter, calls := (p, kpcr) :: s.calls }
  | insert {s : Smp κ} {p : ProcPtr} {kpcr : κ} {before after : List (ProcPtr × κ)}
      {queues : Tailqs κ ProcPtr} (run : EntryRun waits s)
      (called : s.calls = before ++ (p, kpcr) :: after)
      (done : keScheduleProc (some kpcr) none (some p) s.queues = some (.success, queues))
      (ready : waits → Ready s kpcr) :
      EntryRun waits { s with
        queues := queues
        calls := before ++ after
        scheduled := p :: s.scheduled }

/-- `p` is linked once, in the run queue of one registered core. -/
def LinkedOnce (s : Smp κ) (p : ProcPtr) : Prop :=
  ∃ k ∈ s.cores.all, ∃ xs, Holds s.queues k xs ∧ xs.count p = 1 ∧
    ∀ k' ∈ s.cores.all, ∀ ys, Holds s.queues k' ys → p ∈ ys → k' = k

/-- The queues that are not initialised any more hold what has been scheduled. -/
structure EntryInv (s : Smp κ) : Prop where
  chosen : ∀ c ∈ s.calls, c.2 ∈ s.cores.all
  calls : (s.calls.map Prod.fst).Nodup
  idle : ∀ c ∈ s.calls, c.1 ∉ s.scheduled
  arbiter : s.arbiter.semaphore < halCpuCount s.cores
  queue : ∀ k ∈ s.cores.all, Ready s k → ∃ xs, Holds s.queues k xs ∧ ∀ p ∈ xs, p ∈ s.scheduled
  linked : ∀ p ∈ s.scheduled, ∃ k ∈ s.cores.all, Ready s k ∧ ∃ xs, Holds s.queues k xs ∧ p ∈ xs

variable {s : Smp κ}

omit [DecidableEq κ] in
private theorem EntryInv.publish (inv : EntryInv s) (locked : s.entering = none) {kpcr : κ}
    (new : kpcr ∉ s.cores.all) : EntryInv { s with
      cores := { s.cores with apList := s.cores.apList ++ [kpcr] }
      entering := some (kpcr, .published) } := by
  have old : ∀ k ∈ s.cores.all, k ∈ s.cores.all ++ [kpcr] := fun _ => List.mem_append_left _
  have ready : ∀ k, Ready s k := by
    intro k phase entering
    rw [locked] at entering
    cases entering
  have ready_old : ∀ k ∈ s.cores.all, Ready { s with entering := some (kpcr, .published) } k := by
    intro k member phase entering
    obtain ⟨rfl, _⟩ := Prod.mk.inj (Option.some.inj entering)
    exact absurd member new
  refine ⟨fun c call => old _ (inv.chosen c call), inv.calls, inv.idle, ?_, ?_, ?_⟩
  · have more := inv.arbiter
    simp only [halCpuCount, List.length_append] at more ⊢
    omega
  · intro k member now
    change k ∈ s.cores.all ++ [kpcr] at member
    rcases List.mem_append.mp member with member | member
    · exact inv.queue k member (ready k)
    · obtain rfl := List.mem_singleton.mp member
      cases now _ rfl
  · intro p scheduled
    obtain ⟨k, member, _, held⟩ := inv.linked p scheduled
    exact ⟨k, old k member, ready_old k member, held⟩

theorem EntryInv.init (inv : EntryInv s) {kpcr : κ} {phase phase' : EntryPhase}
    (locked : s.entering = some (kpcr, phase)) (busy : phase ≠ .processorInit) : EntryInv { s with
      entering := some (kpcr, phase')
      queues := tailqInit s.queues kpcr } := by
  have other : ∀ k, Ready s k → k ≠ kpcr := by
    rintro k ready rfl
    exact busy (ready phase locked)
  have ready_other : ∀ k ≠ kpcr, ∀ s' : Smp κ, (∃ phase, s'.entering = some (kpcr, phase)) →
      Ready s' k := by
    rintro k apart s' ⟨_, entering⟩ _ same
    exact absurd (Prod.mk.inj (Option.some.inj (same.symm.trans entering))).1 apart
  refine ⟨inv.chosen, inv.calls, inv.idle, inv.arbiter, ?_, ?_⟩
  · intro k member now
    by_cases same : k = kpcr
    · subst same
      exact ⟨[], holds_init _ _, fun _ none => by cases none⟩
    · obtain ⟨xs, held, inside⟩ := inv.queue k member (ready_other k same s ⟨_, locked⟩)
      exact ⟨xs, held.init_other same, inside⟩
  · intro p scheduled
    obtain ⟨k, member, ready, xs, held, inside⟩ := inv.linked p scheduled
    exact ⟨k, member, ready_other k (other k ready) _ ⟨_, rfl⟩, xs, held.init_other (other k ready),
      inside⟩

omit [DecidableEq κ] in
private theorem EntryInv.unlock (inv : EntryInv s) {kpcr : κ}
    (locked : s.entering = some (kpcr, .processorInit)) :
    EntryInv { s with entering := none } := by
  have ready : ∀ k, Ready s k := by
    intro k phase entering
    exact (Prod.mk.inj (Option.some.inj (entering.symm.trans locked))).2
  refine ⟨inv.chosen, inv.calls, inv.idle, inv.arbiter, fun k member _ =>
    inv.queue k member (ready k), ?_⟩
  intro p scheduled
  obtain ⟨k, member, _, held⟩ := inv.linked p scheduled
  exact ⟨k, member, (fun _ entering => by cases entering), held⟩

omit [DecidableEq κ] in
theorem EntryInv.cycle (inv : EntryInv s) {p : ProcPtr} {kpcr : κ} {arbiter : Kparb}
    (new : p ∉ s.scheduled) (idle : p ∉ s.calls.map Prod.fst)
    (chosen : keParbCycle s.cores s.arbiter = (some kpcr, arbiter)) :
    EntryInv { s with arbiter := arbiter, calls := (p, kpcr) :: s.calls } := by
  obtain ⟨k, member, get, next⟩ := keParbCycle_registered inv.arbiter
  rw [chosen] at get next
  obtain rfl := Option.some.inj get
  refine ⟨?_, List.nodup_cons.mpr ⟨idle, inv.calls⟩, ?_, next, inv.queue, inv.linked⟩
  · intro c call
    rcases List.mem_cons.mp call with rfl | call
    · exact member
    · exact inv.chosen c call
  · intro c call
    rcases List.mem_cons.mp call with rfl | call
    · exact new
    · exact inv.idle c call

theorem EntryInv.insert (inv : EntryInv s) {p : ProcPtr} {kpcr : κ}
    {before after : List (ProcPtr × κ)}
    (called : s.calls = before ++ (p, kpcr) :: after) (ready : Ready s kpcr) : EntryInv { s with
      queues := tailqInsertTail s.queues kpcr p
      calls := before ++ after
      scheduled := p :: s.scheduled } := by
  have call : (p, kpcr) ∈ s.calls := by
    rw [called]
    simp
  have new := inv.idle _ call
  obtain ⟨xs, held, inside⟩ := inv.queue kpcr (inv.chosen _ call) ready
  have calls := inv.calls
  rw [called, List.map_append, List.map_cons, List.nodup_append, List.nodup_cons] at calls
  obtain ⟨nodup_before, ⟨fresh, nodup_after⟩, apart⟩ := calls
  have others : ∀ c ∈ before ++ after, c ∈ s.calls ∧ c.1 ≠ p := by
    intro c member
    rw [called]
    rcases List.mem_append.mp member with member | member
    · exact ⟨List.mem_append_left _ member, fun same =>
        apart _ (List.mem_map_of_mem member) _ List.mem_cons_self same⟩
    · refine ⟨List.mem_append_right _ (List.mem_cons_of_mem _ member), ?_⟩
      rintro rfl
      exact fresh (List.mem_map.mpr ⟨c, member, rfl⟩)
  have kept : ∀ k ≠ kpcr, ∀ ys, Holds s.queues k ys → (∀ x ∈ ys, x ∈ s.scheduled) →
      Holds (tailqInsertTail s.queues kpcr p) k ys := by
    intro k apart ys held' inside'
    exact held'.insertTail_other held apart (fun here => new (inside' p here))
  refine ⟨fun c member => inv.chosen c (others c member).1, ?_, ?_, inv.arbiter, ?_, ?_⟩
  · rw [List.map_append]
    exact List.nodup_append.mpr ⟨nodup_before, nodup_after, fun a here b there =>
      apart a here b (List.mem_cons_of_mem _ there)⟩
  · intro c member scheduled
    rcases List.mem_cons.mp scheduled with same | scheduled
    · exact (others c member).2 same
    · exact inv.idle c (others c member).1 scheduled
  · intro k member ready'
    by_cases same : k = kpcr
    · subst same
      refine ⟨xs ++ [p], held.insertTail fun here => new (inside p here), fun x here => ?_⟩
      rcases List.mem_append.mp here with here | here
      · exact List.mem_cons_of_mem _ (inside x here)
      · exact List.mem_singleton.mp here ▸ List.mem_cons_self
    · obtain ⟨ys, held', inside'⟩ := inv.queue k member ready'
      exact ⟨ys, kept k same ys held' inside', fun x here => List.mem_cons_of_mem _
        (inside' x here)⟩
  · intro x scheduled
    have appended := held.insertTail fun here => new (inside p here)
    rcases List.mem_cons.mp scheduled with rfl | scheduled
    · exact ⟨kpcr, inv.chosen _ call, ready, xs ++ [x], appended, by simp⟩
    · obtain ⟨k, member, ready', ys, held', here⟩ := inv.linked x scheduled
      by_cases same : k = kpcr
      · subst same
        obtain rfl := held.chained.unique held'.chained
        exact ⟨k, member, ready, xs ++ [p], appended, List.mem_append_left _ here⟩
      · obtain ⟨zs, held'', inside'⟩ := inv.queue k member ready'
        obtain rfl := held'.chained.unique held''.chained
        exact ⟨k, member, ready', ys, kept k same ys held' inside', here⟩

end Steps

section Runs

variable {κ : Type} [DecidableEq κ]

private theorem entry_run_inv {s : Smp κ} (run : EntryRun True s) : EntryInv s := by
  induction run with
  | start empty =>
    refine ⟨?_, List.nodup_nil, ?_, Nat.one_pos, ?_, ?_⟩
    · exact fun _ call => by cases call
    · exact fun _ call => by cases call
    · intro k member _
      obtain rfl := List.mem_singleton.mp member
      exact ⟨[], empty, fun _ none => by cases none⟩
    · exact fun _ none => by cases none
  | publish _ locked new _ ih => exact ih.publish locked new
  | queueInit _ locked ih => exact ih.init locked (by decide)
  | processorInit _ locked ih => exact ih.init locked (by decide)
  | unlock _ locked ih => exact ih.unlock locked
  | cycle _ new idle chosen ih => exact ih.cycle new idle chosen
  | insert _ called done ready ih =>
    obtain ⟨_, rfl⟩ := Prod.mk.inj (Option.some.inj done)
    exact ih.insert called (ready trivial)

/-- As long as processes are only inserted into queues that are not initialised any more,
every process that was scheduled stays linked once. -/
theorem scheduled_linked_once {s : Smp κ} (run : EntryRun True s) :
    ∀ p ∈ s.scheduled, LinkedOnce s p := by
  intro p scheduled
  obtain ⟨k, member, _, xs, held, inside⟩ := (entry_run_inv run).linked p scheduled
  refine ⟨k, member, xs, held, List.count_eq_one_of_mem held.nodup inside, ?_⟩
  exact fun k' _ ys held' inside' => held'.chained.same_head held.chained inside' inside

def emptyQueues : Tailqs Bool ProcPtr where
  tqh_first _ := none
  tqh_last head := .first head
  nelem _ := 0
  tqe_next _ := none
  tqe_prev _ := .first false

private theorem emptyQueues_holds (k : Bool) : Holds emptyQueues k [] :=
  ⟨rfl, rfl, rfl, List.nodup_nil⟩

def firstProc : ProcPtr := ⟨0x1000, frame_one_ne_null⟩
def secondProc : ProcPtr := ⟨0x2000, frame_two_ne_null⟩

private theorem published (waits : Prop) : EntryRun waits ⟨⟨false, [true]⟩, some (true, .published),
    keParbReset .roundRobin, emptyQueues, [], []⟩ :=
  (EntryRun.start (emptyQueues_holds false)).publish rfl (by decide) (by decide)

theorem scheduled_linked_once_second : ∃ s : Smp Bool, s.scheduled = [secondProc] ∧
    LinkedOnce s secondProc := by
  have up := (((published True).queueInit rfl).processorInit rfl).unlock rfl
  have chosen := (up.cycle (p := firstProc) (by decide) (by decide) rfl).cycle (p := secondProc)
    (by decide) (by decide) rfl
  have run := chosen.insert
    (show _ = [] ++ (secondProc, true) :: [(firstProc, false)] from rfl) rfl
    (fun _ _ none => by cases none)
  exact ⟨_, rfl, scheduled_linked_once run secondProc List.mem_cons_self⟩

/-- The arbiter gives a process to a core whose queue is still to be initialised. -/
theorem early_process_lost : ∃ s : Smp Bool, EntryRun False s ∧ secondProc ∈ s.scheduled ∧
    ¬LinkedOnce s secondProc := by
  have chosen := ((published False).cycle (p := firstProc) (by decide) (by decide) rfl).cycle
    (p := secondProc) (by decide) (by decide) rfl
  have inserted := chosen.insert
    (show _ = [] ++ (secondProc, true) :: [(firstProc, false)] from rfl) rfl (fun no => no.elim)
  refine ⟨_, inserted.queueInit rfl, List.mem_cons_self, ?_⟩
  rintro ⟨k, _, xs, held, once, _⟩
  have empty : Holds (tailqInit (tailqInsertTail emptyQueues true secondProc) true) k [] := by
    cases k with
    | false =>
      have kept := (emptyQueues_holds false).insertTail_other (emptyQueues_holds true) (by decide)
        (List.not_mem_nil (a := secondProc))
      exact kept.init_other (by decide)
    | true => exact holds_init _ _
  obtain rfl := held.chained.unique empty.chained
  cases once

end Runs

end Algae.Platform.MpEntry
