/- Bringing up the application processors as a protocol: the bootstrap processor writes
   one descriptor after another and sends start-up messages, and the processors that
   they start read the descriptor at any time after that. -/

import Algae.Platform.Mp

set_option autoImplicit false
set_option relaxedAutoImplicit false

namespace Algae.Platform.ApStart

open Algae.Lib.ByteMemory
open Algae.Sdk.Defs Algae.Mm.Phys Algae.Platform.Mp
open Algae.Mm.PhysRuns (eightFrames)

inductive Ipi
  | init | startup
  deriving DecidableEq, Repr

/-- What a processor does. A processor that waits has taken an INIT and has not yet been
started; in the trampoline it has not yet loaded its stack. -/
inductive ApState
  | absent | parked | waiting | trampoline | running
  deriving DecidableEq, Repr

/-- The bootstrap processor has still to call back for `left` and to send `outbox`;
`loads` are the stacks that processors loaded, latest first. -/
structure BringUp where
  phys : PhysState
  left : List Nat
  outbox : List (Nat × Ipi)
  inFlight : List (Nat × Ipi)
  cpu : Nat → ApState
  loads : List (Nat × Nat)

/-- The messages that localApicLookup sends, one after another. -/
def startMessages (apicId : Nat) : List (Nat × Ipi) :=
  [(apicId, .init), (apicId, .startup), (apicId, .startup)]

/-- What a message does to a processor: INIT resets it, a start-up message is taken only
by one that waits. -/
def receive : Ipi → ApState → ApState
  | _, .absent => .absent
  | .init, _ => .waiting
  | .startup, .waiting => .trampoline
  | .startup, state => state

def loadStackBase (s : PhysState) : Nat := loadLE s.mem (BOOTSTRAP_DESC_BASE + 16) 8

def BringUp.pending (s : BringUp) : List (Nat × Ipi) := s.outbox ++ s.inFlight

/-- Processor `p` can come to load the stack from the descriptor with what it has been
sent so far. -/
def CanLoad (s : BringUp) (p : Nat) : Prop :=
  s.cpu p = .trampoline ∨ ((p, .startup) ∈ s.pending ∧
    (s.cpu p = .waiting ∨ (s.cpu p ≠ .absent ∧ (p, .init) ∈ s.pending)))

def Settled (s : BringUp) : Prop := ∀ p, ¬CanLoad s p

/-- Runs of the start-up of the processors in the APIC table `apicIds`, `arg` being the
bootstrap processor. If `handshake` holds, the descriptor is overwritten only when nobody
can come to load it any more; nothing in the code waits for that. -/
inductive StartRun (arg : Nat) (boot : Bootstrap) (handshake : Prop) (apicIds : List Nat) :
    BringUp → Prop
  | start {phys : PhysState} {cpu : Nat → ApState} (hb : phys.highestFrameIdx < 0x10000000000000)
      (idle : ∀ p, cpu p ≠ .trampoline) :
      StartRun arg boot handshake apicIds ⟨phys, apicIds, [], [], cpu, []⟩
  | skip {s : BringUp} {rest : List Nat} (run : StartRun arg boot handshake apicIds s)
      (sent : s.outbox = []) (next : s.left = arg :: rest) :
      StartRun arg boot handshake apicIds { s with left := rest }
  | lookup {s : BringUp} {apicId : Nat} {rest : List Nat} {phys : PhysState}
      (run : StartRun arg boot handshake apicIds s) (sent : s.outbox = [])
      (next : s.left = apicId :: rest) (other : apicId ≠ arg)
      (done : localApicLookup arg boot s.phys apicId = some phys)
        (settled : handshake → Settled s) :
      StartRun arg boot handshake apicIds
        { s with phys := phys, left := rest, outbox := startMessages apicId }
  | send {s : BringUp} {m : Nat × Ipi} {more : List (Nat × Ipi)}
      (run : StartRun arg boot handshake apicIds s) (next : s.outbox = m :: more) :
      StartRun arg boot handshake apicIds { s with outbox := more, inFlight := m :: s.inFlight }
  | deliver {s : BringUp} {p : Nat} {ipi : Ipi} {before after : List (Nat × Ipi)}
      (run : StartRun arg boot handshake apicIds s)
        (sent : s.inFlight = before ++ (p, ipi) :: after) :
      StartRun arg boot handshake apicIds { s with
        inFlight := before ++ after
        cpu := Function.update s.cpu p (receive ipi (s.cpu p)) }
  | load {s : BringUp} {p : Nat} (run : StartRun arg boot handshake apicIds s)
      (started : s.cpu p = .trampoline) :
      StartRun arg boot handshake apicIds { s with
        cpu := Function.update s.cpu p .running
        loads := (p, loadStackBase s.phys) :: s.loads }
  | alloc {s : BringUp} {p : Nat} (run : StartRun arg boot handshake apicIds s)
      (running : s.cpu p = .running) {count : Nat} (small : count + 1 < 0x80000000)
        (kept : handshake →
        testBit s.phys.bitmap (BOOTSTRAP_DESC_BASE / PAGESIZE) = true ∨ Settled s) :
      StartRun arg boot handshake apicIds { s with phys := (mmAllocFrame s.phys count).2 }

def OwnStacks (s : BringUp) : Prop :=
  ∀ p q base, (p, base) ∈ s.loads → (q, base) ∈ s.loads → p = q

/-- The descriptor is for one processor only, the stack in it nobody else's. -/
structure Offer (s : BringUp) (owner : Nat) : Prop where
  only : ∀ p, CanLoad s p → p = owner
  own : ∀ p, (p, loadStackBase s.phys) ∈ s.loads → p = owner
  used : ∃ i, loadStackBase s.phys = i * PAGESIZE ∧ testBit s.phys.bitmap i = true

structure StartInv (s : BringUp) : Prop where
  bound : s.phys.highestFrameIdx < 0x10000000000000
  offer : Settled s ∨ ∃ owner, Offer s owner
  used : ∀ p base, (p, base) ∈ s.loads → ∃ i, base = i * PAGESIZE ∧ testBit s.phys.bitmap i = true
  own : OwnStacks s

section Steps

private theorem localApicLookup_offers {arg : Nat} {boot : Bootstrap} {s t : PhysState}
    {apicId : Nat} (hb : s.highestFrameIdx < 0x10000000000000) (other : apicId ≠ arg)
    (done : localApicLookup arg boot s apicId = some t) :
    ∃ i, loadStackBase t = i * PAGESIZE ∧ testBit s.bitmap i = false ∧
      testBit t.bitmap i = true := by
  rw [localApicLookup, if_neg other] at done
  set s1 := { s with
    mem := storeLE (storeLE s.mem BOOTSTRAP_DESC_BASE 8 boot.pml4Pa) (BOOTSTRAP_DESC_BASE + 8) 8
      boot.entryPa }
  simp only at done
  split at done
  · cases done
  · rename_i nonzero
    obtain rfl := Option.some.inj done
    obtain ⟨i, ret, fits, bits⟩ := mmAllocFrame_takes (s := s1) hb (by norm_num) nonzero
    refine ⟨i, ?_, bits i le_rfl (Nat.lt_succ_self i)⟩
    have word : i * PAGESIZE < 256 ^ 8 := by
      have fits : i + 1 < s.highestFrameIdx := fits
      simp only [PAGESIZE]
      omega
    change loadLE (storeLE _ (BOOTSTRAP_DESC_BASE + 16) 8 _) (BOOTSTRAP_DESC_BASE + 16) 8 = _
    rw [loadLE_storeLE, ret, Nat.mod_eq_of_lt word]

theorem CanLoad.mono {s s' : BringUp} {p : Nat} (h : CanLoad s' p) (cpu : s'.cpu p = s.cpu p)
    (pending : ∀ m ∈ s'.pending, m ∈ s.pending) : CanLoad s p := by
  rcases h with h | ⟨startup, h⟩
  · exact Or.inl (cpu ▸ h)
  · refine Or.inr ⟨pending _ startup, ?_⟩
    rw [cpu] at h
    exact h.imp id (fun h => ⟨h.1, pending _ h.2⟩)

private theorem CanLoad.deliver {s s' : BringUp} {p : Nat} (h : CanLoad s' p) {q : Nat} {ipi : Ipi}
    {before after : List (Nat × Ipi)} (sent : s.inFlight = before ++ (q, ipi) :: after)
    (outbox : s'.outbox = s.outbox) (flight : s'.inFlight = before ++ after)
    (cpu : s'.cpu = Function.update s.cpu q (receive ipi (s.cpu q))) : CanLoad s p := by
  have pending : ∀ m ∈ s'.pending, m ∈ s.pending := by
    intro m member
    rw [BringUp.pending, outbox, flight] at member
    rw [BringUp.pending, sent]
    simp only [List.mem_append, List.mem_cons] at member ⊢
    tauto
  have taken : (q, ipi) ∈ s.pending := by
    rw [BringUp.pending, sent]
    simp
  by_cases same : p = q
  · subst same
    rw [CanLoad, cpu, Function.update_self] at h
    rcases h with trampoline | ⟨startup, h⟩
    · -- only a start-up message leads there, to a processor that waits
      cases ipi with
      | init => cases state : s.cpu p <;> simp [receive, state] at trampoline
      | startup =>
        cases state : s.cpu p with
        | absent => simp [receive, state] at trampoline
        | parked => simp [receive, state] at trampoline
        | waiting => exact Or.inr ⟨taken, Or.inl state⟩
        | trampoline => exact Or.inl state
        | running => simp [receive, state] at trampoline
    · by_cases absent : s.cpu p = .absent
      · cases ipi <;> simp [receive, absent] at h
      · refine Or.inr ⟨pending _ startup, ?_⟩
        cases ipi with
        | init => exact Or.inr ⟨absent, taken⟩
        | startup =>
          rcases h with waiting | ⟨_, init⟩
          · cases state : s.cpu p <;> simp [receive, state] at waiting
          · exact Or.inr ⟨absent, pending _ init⟩
  · exact h.mono (by rw [cpu, Function.update_of_ne same]) pending

theorem Offer.mono {s s' : BringUp} {owner : Nat} (offer : Offer s owner)
    (phys : s'.phys = s.phys) (loads : s'.loads = s.loads) (cpu : ∀ p, CanLoad s' p → CanLoad s p) :
    Offer s' owner := by
  refine ⟨fun p h => offer.only p (cpu p h), ?_, ?_⟩
  · rw [phys, loads]
    exact offer.own
  · rw [phys]
    exact offer.used

theorem StartInv.mono {s s' : BringUp} (inv : StartInv s) (phys : s'.phys = s.phys)
    (loads : s'.loads = s.loads) (cpu : ∀ p, CanLoad s' p → CanLoad s p) : StartInv s' := by
  refine ⟨phys ▸ inv.bound, ?_, ?_, ?_⟩
  · rcases inv.offer with settled | ⟨owner, offer⟩
    · exact Or.inl fun p h => settled p (cpu p h)
    · exact Or.inr ⟨owner, offer.mono phys loads cpu⟩
  · rw [phys, loads]
    exact inv.used
  · rw [OwnStacks, loads]
    exact inv.own

theorem StartInv.lookup {s : BringUp} (inv : StartInv s) (settled : Settled s)
    (sent : s.outbox = [])
    {arg : Nat} {boot : Bootstrap} {apicId : Nat} (other : apicId ≠ arg) {phys : PhysState}
    (done : localApicLookup arg boot s.phys apicId = some phys) (rest : List Nat) :
    StartInv { s with phys := phys, left := rest, outbox := startMessages apicId } := by
  obtain ⟨bound, bits⟩ := localApicLookup_keeps arg boot inv.bound done
  obtain ⟨i, base, clear, set⟩ := localApicLookup_offers inv.bound other done
  refine ⟨bound ▸ inv.bound, Or.inr ⟨apicId, ?_, ?_, ⟨i, base, set⟩⟩, ?_, inv.own⟩
  · intro p h
    by_contra apart
    have addressed : ∀ ipi, (p, ipi) ∈ startMessages apicId ++ s.inFlight →
        (p, ipi) ∈ s.pending := by
      intro ipi member
      rw [BringUp.pending, sent, List.nil_append]
      simpa [startMessages, apart] using member
    refine settled p ?_
    rcases h with trampoline | ⟨startup, h⟩
    · exact Or.inl trampoline
    · exact Or.inr ⟨addressed _ startup, h.imp id (fun h => ⟨h.1, addressed _ h.2⟩)⟩
  · intro p loaded
    obtain ⟨j, same, used⟩ := inv.used p _ loaded
    obtain rfl : i = j := Nat.eq_of_mul_eq_mul_right page_pos (base.symm.trans same)
    rw [clear] at used
    cases used
  · intro p base loaded
    obtain ⟨j, same, used⟩ := inv.used p base loaded
    exact ⟨j, same, bits j used⟩

theorem StartInv.load {s : BringUp} (inv : StartInv s) {p : Nat} (started : s.cpu p = .trampoline) :
    StartInv { s with
      cpu := Function.update s.cpu p .running
      loads := (p, loadStackBase s.phys) :: s.loads } := by
  rcases inv.offer with settled | ⟨owner, offer⟩
  · exact absurd (Or.inl started) (settled p)
  · obtain rfl := offer.only p (Or.inl started)
    have alone : ∀ q, (q, loadStackBase s.phys) ∈ (p, loadStackBase s.phys) :: s.loads → q = p := by
      intro q member
      rcases List.mem_cons.mp member with here | old
      · exact (Prod.mk.inj here).1
      · exact offer.own q old
    refine ⟨inv.bound, Or.inr ⟨p, ?_, alone, offer.used⟩, ?_, ?_⟩
    · intro q h
      by_contra apart
      exact apart (offer.only q (h.mono (Function.update_of_ne apart _ _) fun _ member => member))
    · intro q base member
      rcases List.mem_cons.mp member with here | old
      · rw [(Prod.mk.inj here).2]
        exact offer.used
      · exact inv.used q base old
    · intro q q' base member member'
      rcases List.mem_cons.mp member with here | old
      · obtain ⟨owner, same⟩ := Prod.mk.inj here
        rw [same] at member'
        rw [owner, alone q' member']
      · rcases List.mem_cons.mp member' with here' | old'
        · obtain ⟨owner, same⟩ := Prod.mk.inj here'
          rw [same] at old
          rw [owner, offer.own q old]
        · exact inv.own q q' base old old'

theorem StartInv.alloc {s : BringUp} (inv : StartInv s) {count : Nat}
    (small : count + 1 < 0x80000000)
    (kept : testBit s.phys.bitmap (BOOTSTRAP_DESC_BASE / PAGESIZE) = true ∨ Settled s) :
    StartInv { s with phys := (mmAllocFrame s.phys count).2 } := by
  have taken := mmAllocFrame_onlyTakes s.phys count inv.bound
  have bits : ∀ j, testBit s.phys.bitmap j = true →
      testBit (mmAllocFrame s.phys count).2.bitmap j = true := by
    intro j used
    by_contra clear
    have before := taken.clear j (Bool.eq_false_of_not_eq_true clear)
    rw [Clear, used] at before
    cases before
  refine ⟨taken.bound ▸ inv.bound, ?_, ?_, inv.own⟩
  · rcases inv.offer with settled | ⟨owner, offer⟩
    · exact Or.inl settled
    · rcases kept with used | settled
      · have same : loadStackBase (mmAllocFrame s.phys count).2 = loadStackBase s.phys := by
          refine loadLE_congr fun k inside => ?_
          refine alloc_keeps_used s.phys count inv.bound small ?_
          have frame :
              (BOOTSTRAP_DESC_BASE + 16 + k) / PAGESIZE = BOOTSTRAP_DESC_BASE / PAGESIZE := by
            simp only [BOOTSTRAP_DESC_BASE, PAGESIZE]
            omega
          rw [frame]
          exact used
        obtain ⟨i, base, set⟩ := offer.used
        refine Or.inr ⟨owner, offer.only, ?_, ⟨i, same.trans base, bits i set⟩⟩
        intro p loaded
        exact offer.own p (same ▸ loaded)
      · exact Or.inl settled
  · intro p base loaded
    obtain ⟨i, eq, set⟩ := inv.used p base loaded
    exact ⟨i, eq, bits i set⟩

end Steps

section Runs

variable {arg : Nat} {boot : Bootstrap} {apicIds : List Nat}

private theorem start_run_inv {s : BringUp} (run : StartRun arg boot True apicIds s) :
    StartInv s := by
  induction run with
  | start hb idle =>
    refine ⟨hb, Or.inl fun p h => ?_, ?_, ?_⟩
    · rcases h with trampoline | ⟨startup, _⟩
      · exact idle p trampoline
      · cases startup
    · exact fun _ _ loaded => by cases loaded
    · exact fun _ _ _ loaded => by cases loaded
  | skip _ _ _ ih => exact ih.mono rfl rfl fun _ h => h
  | lookup _ sent _ other done settled ih => exact ih.lookup (settled trivial) sent other done _
  | send _ next ih =>
    refine ih.mono rfl rfl fun p h => h.mono rfl fun m member => ?_
    rw [BringUp.pending, next]
    simp only [BringUp.pending, List.mem_append, List.mem_cons] at member ⊢
    tauto
  | deliver _ sent ih => exact ih.mono rfl rfl fun _ h => h.deliver sent rfl rfl rfl
  | load _ started ih => exact ih.load started
  | alloc _ _ small kept ih => exact ih.alloc small (kept trivial)

/-- As long as the descriptor is overwritten only when no processor can still load from
it, each stack is loaded by one processor. -/
theorem own_stacks_with_handshake {s : BringUp} (run : StartRun arg boot True apicIds s) :
    OwnStacks s :=
  (start_run_inv run).own

def threeCpus (p : Nat) : ApState :=
  if p = 0 then .running else if p < 3 then .parked else .absent

def noBoot : Bootstrap := ⟨0, 0⟩

private theorem two_lookups : ∃ t t', localApicLookup 0 noBoot eightFrames 1 = some t ∧
    localApicLookup 0 noBoot t 2 = some t' := by
  have both : ((localApicLookup 0 noBoot eightFrames 1).bind
      fun t => localApicLookup 0 noBoot t 2).isSome = true := by decide +kernel
  obtain ⟨t', both⟩ := Option.isSome_iff_exists.mp both
  obtain ⟨t, first, second⟩ := Option.bind_eq_some_iff.mp both
  exact ⟨t, t', first, second⟩

private theorem first_started (handshake : Prop) {t : PhysState}
    (first : localApicLookup 0 noBoot eightFrames 1 = some t) :
    StartRun 0 noBoot handshake [1, 2] ⟨t, [2], [], [(1, .startup)],
      Function.update (Function.update threeCpus 1 .waiting) 1 .trampoline, []⟩ := by
  have begun : StartRun 0 noBoot handshake [1, 2] ⟨eightFrames, [1, 2], [], [], threeCpus, []⟩ := by
    refine .start (by decide) fun p => ?_
    rw [threeCpus]
    split_ifs <;> exact fun same => by cases same
  have idle : Settled ⟨eightFrames, [1, 2], [], [], threeCpus, []⟩ := by
    rintro p (trampoline | ⟨startup, _⟩)
    · change threeCpus p = .trampoline at trampoline
      rw [threeCpus] at trampoline
      split_ifs at trampoline
    · cases startup
  have sent := (((begun.lookup rfl rfl (by decide) first fun _ => idle).send rfl).send rfl).send rfl
  have reset := sent.deliver (show _ = [(1, .startup), (1, .startup)] ++ (1, .init) :: [] from rfl)
  exact reset.deliver (show _ = [] ++ (1, .startup) :: [(1, .startup)] from rfl)

theorem own_stacks_with_handshake_two : ∃ s : BringUp, s.loads.map Prod.fst = [2, 1] ∧
    OwnStacks s := by
  obtain ⟨t, t', first, second⟩ := two_lookups
  have loaded := (first_started True first).load (p := 1) rfl
  have settled : ∀ loads, Settled ⟨t, [2], [], [(1, .startup)], Function.update
      (Function.update (Function.update threeCpus 1 .waiting) 1 .trampoline) 1 .running,
        loads⟩ := by
    rintro loads p (trampoline | ⟨startup, reset⟩)
    · by_cases first : p = 1
      · subst first
        cases trampoline
      · simp only [Function.update_of_ne first] at trampoline
        rw [threeCpus] at trampoline
        split_ifs at trampoline
    · obtain rfl := (Prod.mk.inj (List.mem_singleton.mp startup)).1
      rcases reset with waiting | ⟨_, init⟩
      · cases waiting
      · cases (Prod.mk.inj (List.mem_singleton.mp init)).2
  have sent :=
    (((loaded.lookup rfl rfl (by decide) second fun _ => settled _).send rfl).send rfl).send rfl
  have reset := sent.deliver
    (show _ = [(2, .startup), (2, .startup)] ++ (2, .init) :: [(1, .startup)] from rfl)
  have started :=
    reset.deliver (show _ = [] ++ (2, .startup) :: [(2, .startup), (1, .startup)] from rfl)
  have run := started.load (p := 2) rfl
  exact ⟨_, rfl, own_stacks_with_handshake run⟩

/-- Two processors in the APIC table; the first is still in the trampoline when the
descriptor is written for the second. -/
theorem late_processor_shares_stack : ∃ s, StartRun 0 noBoot False [1, 2] s ∧ ¬OwnStacks s := by
  obtain ⟨t, t', first, second⟩ := two_lookups
  have late := first_started False first
  have sent :=
    (((late.lookup rfl rfl (by decide) second fun no => no.elim).send rfl).send rfl).send rfl
  have reset := sent.deliver
    (show _ = [(2, .startup), (2, .startup)] ++ (2, .init) :: [(1, .startup)] from rfl)
  have started :=
    reset.deliver (show _ = [] ++ (2, .startup) :: [(2, .startup), (1, .startup)] from rfl)
  have run := (started.load (p := 1) rfl).load (p := 2) rfl
  refine ⟨_, run, fun own => ?_⟩
  have same : 1 = 2 :=
    own 1 2 (loadStackBase t') (List.mem_cons_of_mem _ List.mem_cons_self) List.mem_cons_self
  cases same

end Runs

end Algae.Platform.ApStart
