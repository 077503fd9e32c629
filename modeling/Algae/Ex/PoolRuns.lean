/- Whole runs of the kernel with its pool: what the pool gives out lies apart in frames of its
   own, and holds what is written to it, whatever else becomes of frames and memory. -/

import Algae.Ex.PoolHeap

set_option autoImplicit false
set_option relaxedAutoImplicit false

namespace Algae.Ex.PoolRuns

open Algae.Lib.Allocation
open Algae.Lib.ByteMemory (Byte Mem)
open Algae.Lib.FirstFit (FreeRun span mem_span)
open Algae.Lib.TwoLevelIndex (Reaches lower_mono)
open Algae.Sdk.Defs Algae.Mm.Phys Algae.Mm.Frames Algae.Mm.Heap Algae.Mm.Page Algae.Mm.Tlsf
open Algae.Mm.TlsfWords Algae.Mm.TlsfBlocks Algae.Mm.TlsfHeap Algae.Mm.TlsfAlloc Algae.Mm.TlsfCreate
open Algae.Mm.TlsfRuns Algae.Mm.TlsfSessions Algae.Ex.PoolHeap

section Runs

variable {σ : Type} {heap : FrameHeap σ} {kernelBase : BitVec 64} {a : Arena}
  {u u' : Kernel σ} {p : Nat}

def Acts (heap : FrameHeap σ) (kernelBase : BitVec 64) : Kernel σ → List Act → Kernel σ → Prop :=
  Trace fun u c u' => Allowed heap u c ∧ ∃ p, act heap kernelBase u c = some (p, u')

private theorem act_value (c : Act) (x : Nat) (v : Byte) :
    (Act.event heap kernelBase u p u' c).value x v = Act.value x v c := by
  cases c with
  | allocate length => exact grantEvent_value x v
  | free pool =>
    unfold Act.event
    dsimp only
    cases (u.session heap kernelBase).region pool <;> rfl
  | write y w => rfl
  | allocFrame count => rfl
  | freeFrame i count => rfl
  | setMem m => rfl

private theorem act_releases {c : Act} {r : Region}
    (released : (Act.event heap kernelBase u p u' c).Releases r) :
    c.Frees r.1 := by
  cases c with
  | allocate length =>
    unfold Act.event grantEvent at released
    dsimp only at released
    split at released
    · exact released.elim
    · exact released.elim
  | free pool =>
    unfold Act.event at released
    dsimp only at released
    cases found : (u.session heap kernelBase).region pool with
    | none =>
      rw [found] at released
      exact released.elim
    | some q =>
      rw [found] at released
      have same : q = r := released
      subst same
      exact (region_start found).symm
  | write y w => exact released.elim
  | allocFrame count => exact released.elim
  | freeFrame i count => exact released.elim
  | setMem m => exact released.elim

private theorem kernel_step (u : Kernel σ) (c : Act) (u' : Kernel σ)
    (ok : ∃ bs, PoolOk heap kernelBase a u bs)
    (call : Allowed heap u c ∧ ∃ p, act heap kernelBase u c = some (p, u')) :
    (∃ bs, PoolOk heap kernelBase a u' bs) ∧
      ∃ e, Step ∅ (a.pool + 16) a.limit (u.session heap kernelBase).state e
        (u'.session heap kernelBase).state ∧
        (∀ x v, e.value x v = Act.value x v c) ∧ ∀ r : Region, e.Releases r → c.Frees r.1 := by
  obtain ⟨bs, ok⟩ := ok
  obtain ⟨allowed, p, call⟩ := call
  obtain ⟨p₁, u₁, bs₁, outcome⟩ := act_step ok allowed
  obtain ⟨rfl, rfl⟩ := Prod.mk.inj (Option.some.inj (call.symm.trans outcome.call))
  exact ⟨⟨bs₁, outcome.ok⟩, _, outcome.step, act_value c, fun r => act_releases⟩

theorem Acts.refines {cs : List Act} (acts : Acts heap kernelBase u cs u')
    (ok : ∃ bs, PoolOk heap kernelBase a u bs) :
    (∃ bs, PoolOk heap kernelBase a u' bs) ∧
      ∃ es, Run ∅ (a.pool + 16) a.limit (u.session heap kernelBase).state es
        (u'.session heap kernelBase).state ∧
        (∀ x v, lastValue x es v = lastWritten x cs v) ∧
        ∀ r : Region, (∀ c ∈ cs, ¬c.Frees r.1) → ∀ e ∈ es, ¬e.Releases r :=
  Trace.run kernel_step acts ok

theorem Acts.spares {cs : List Act} (acts : Acts heap kernelBase u cs u')
    (ok : ∃ bs, PoolOk heap kernelBase a u bs) (only : ∀ c ∈ cs, c.call ≠ none) {pa : Nat}
    (outside : pa < u.machine.poolPhysBase ∨ u.machine.poolPhysBase + POOLSIZE_BYTES ≤ pa) :
    heap.mem u'.machine.frames pa = heap.mem u.machine.frames pa := by
  induction acts with
  | nil u => rfl
  | @cons u₀ u₁ u₂ c cs call rest ih =>
    obtain ⟨bs, ok⟩ := ok
    obtain ⟨allowed, p, call⟩ := call
    obtain ⟨p₁, u₁, bs₁, outcome⟩ := act_step ok allowed
    obtain ⟨rfl, rfl⟩ := Prod.mk.inj (Option.some.inj (call.symm.trans outcome.call))
    have base := outcome.base
    rw [ih ⟨bs₁, outcome.ok⟩ (fun c later => only c (List.mem_cons_of_mem _ later)) (by omega)]
    exact outcome.spares (only c List.mem_cons_self) pa outside

end Runs

section Started

variable {σ : Type} {heap : FrameHeap σ} {kernelBase : BitVec 64} {s s' : PoolMachine σ}

theorem started_ok (direct : DirectMap kernelBase) (first : s.isInit = false)
    (started : kiPoolInit heap kernelBase s = some s') :
    ∃ a, PoolOk heap kernelBase a ⟨s', []⟩ (newBlocks a.control POOLSIZE_BYTES) ∧
      a.pool = a.control + 6528 := by
  obtain ⟨stops, starts⟩ := kiPoolInit_starts heap direct first
  by_cases zero : (heap.mmAllocFrame s.frames POOLSIZE_PAGES).1 = 0
  · rw [stops zero] at started
    cases started
  · obtain ⟨s'', a, call, ok, pool⟩ := starts zero
    rw [started] at call
    obtain rfl := Option.some.inj call
    exact ⟨a, ok, pool⟩

private theorem whole_suits (mem : Nat) {size : Nat} (aligned : 8 ∣ size)
    (small : size < 0x100000000) :
    Suits size (wholeBlock mem (poolSize POOLSIZE_BYTES)) ↔ size ≤ 33030144 := by
  have listed : mappingInsert (poolSize POOLSIZE_BYTES) = (17, 31) := by decide
  constructor
  · rintro ⟨_, reached⟩
    have rounded := roundUp_lt small
    have column := (mappingInsert_listed (show roundUp size < 0x10000000000000000 by omega)).2.2
    rw [← mappingSearch_eq (by omega)] at column
    have later := lower_mono base_steps column reached
    rw [show (wholeBlock mem (poolSize POOLSIZE_BYTES)).size = poolSize POOLSIZE_BYTES from rfl,
      listed] at later
    exact Nat.le_trans (mappingSearch_lower aligned small) later
  · intro below
    have rounded : roundUp size ≤ 33554431 := by
      by_cases large : 2 ^ (16 + 8) ≤ size
      · rw [roundUp_large ⟨large, by omega⟩]
        omega
      · have added := roundUp_le size
        omega
    have reached :=
      mappingSearch_reaches small (show 33554431 < 0x10000000000000000 by omega) rounded
    rw [show mappingInsert 33554431 = mappingInsert (poolSize POOLSIZE_BYTES) by decide] at reached
    exact ⟨rfl, reached⟩

private theorem first_request {a : Arena}
    (ok : PoolOk heap kernelBase a ⟨s', []⟩ (newBlocks a.control POOLSIZE_BYTES))
    {length : Nat} (word : length < 0x10000000000000000) :
    ∃ p s'', exAllocatePool heap kernelBase length s' = some (p, s'') ∧
      (p ≠ 0 ↔ adjusted length ≠ 0 ∧ adjusted length ≤ 33030144) := by
  have enabled : ¬(!s'.isInit) = true := by
    have init : s'.isInit = true := ok.isInit
    rw [init]
    simp
  have control : s'.tlsfCtx = a.control := ok.control
  obtain ⟨aligned, small, sized⟩ := adjusted_sized length
  have found := whole_suits (a.control + 6536) aligned small
  rcases tlsfMalloc_cases ok.use.heap word with ⟨call, none⟩ | ⟨b, s'', bs', size, best, enough,
    call, granted⟩
  · have call' :
        tlsfMalloc s'.tlsfCtx length (s'.control heap kernelBase) = some
          (0, s'.control heap kernelBase) := by
      rw [control]
      exact call
    refine ⟨0, s'.setControl heap kernelBase (s'.control heap kernelBase), ?_, ?_⟩
    · simp only [exAllocatePool, if_neg enabled, call', Option.bind_eq_bind, Option.bind_some]
    · refine iff_of_false (fun gave => gave rfl) fun both => ?_
      exact (none.resolve_left both.1) _ List.mem_cons_self (found.mpr both.2)
  · have call' :
        tlsfMalloc s'.tlsfCtx length (s'.control heap kernelBase) = some (b.addr + 16, s'') := by
      rw [control]
      exact call
    refine ⟨b.addr + 16, s'.setControl heap kernelBase s'', ?_, ?_⟩
    · simp only [exAllocatePool, if_neg enabled, call', Option.bind_eq_bind, Option.bind_some]
    · refine iff_of_true (Nat.succ_ne_zero _) ⟨fun zero => ?_, ?_⟩
      · rw [control, tlsfMalloc_zero word zero] at call'
        cases call'
      · have member := best.1
        simp only [newBlocks, List.mem_cons, List.not_mem_nil, or_false] at member
        rcases member with rfl | rfl
        · exact found.mp best.2.1
        · exact absurd best.2.1.1 Bool.false_ne_true

end Started

section Small

def openFrames : PhysState where
  bitmap i := if i = 0 then 1 else 0
  bitmapBase := none
  bitmapSize := 0x400
  bitmapFreeStart := 0
  highestFrameIdx := 0x2400
  lastIdx := 0
  framesUsed := 0
  framesFree := 0x2400
  mem _ := 0

private theorem openFrames_ready : Ready openFrames := ⟨by decide, by decide⟩

private theorem openFrames_clear {j : Nat} (above : 8 ≤ j) : Clear openFrames.bitmap j := by
  have later : j >>> 3 ≠ 0 := by
    rw [Nat.shiftRight_eq_div_pow]
    omega
  simp [Clear, testBit, openFrames, later]

def beforeInit : PoolMachine {s : PhysState // Ready s} :=
  ⟨false, 0, 0, 0, blank, ⟨openFrames, openFrames_ready⟩⟩

private theorem openFrames_serves : (mmAllocFrame openFrames POOLSIZE_PAGES).1 ≠ 0 := by
  have pages : POOLSIZE_PAGES = 8192 := by
    rw [POOLSIZE_PAGES, PAGESIZE]
    rfl
  rcases mmAllocFrame_spec openFrames POOLSIZE_PAGES openFrames_ready.bound
    (fun _ => openFrames_ready.zero) with
    ⟨i, positive, _, ret, _⟩ | ⟨none, _⟩
  · rw [ret]
    exact Nat.mul_ne_zero positive.ne' page_pos.ne'
  · have frames : openFrames.highestFrameIdx = 0x2400 := rfl
    exact absurd (fun j low _ => openFrames_clear low) (none 8 (by omega))

private theorem openFrames_starts :
    ∃ s', kiPoolInit bitmapHeap 0xFFFF800000000000 beforeInit = some s' := by
  have same : ∀ (s : {s : PhysState // Ready s}) (count : Nat),
      (bitmapHeap.mmAllocFrame s count).1 = (mmAllocFrame s.val count).1 := fun _ _ => rfl
  have taken : (bitmapHeap.mmAllocFrame beforeInit.frames POOLSIZE_PAGES).1 ≠ 0 := by
    rw [same]
    exact openFrames_serves
  obtain ⟨s', _, call, _⟩ := (kiPoolInit_starts bitmapHeap directMap_base rfl).2 taken
  exact ⟨s', call⟩

theorem small_acts : ∃ s' u r, kiPoolInit bitmapHeap 0xFFFF800000000000 beforeInit = some s' ∧
    Acts bitmapHeap 0xFFFF800000000000 ⟨s', []⟩ [.allocate 100] u ∧ u.held = [r] ∧ 24 ≤ r.2 := by
  obtain ⟨s', started⟩ := openFrames_starts
  obtain ⟨a, ok, _⟩ := started_ok directMap_base rfl started
  have word : 100 < 0x10000000000000000 := by omega
  obtain ⟨p, s'', call, gave⟩ := first_request ok word
  have nonnull : p ≠ 0 := gave.mpr (by decide)
  obtain ⟨p', u, bs, outcome⟩ := act_step ok (show Allowed bitmapHeap _ (.allocate 100) from word)
  have act := outcome.call
  simp only [PoolHeap.act, call, Option.bind_eq_bind, Option.bind_some, Option.some.injEq,
    Prod.mk.injEq, if_neg nonnull] at act
  obtain ⟨rfl, rfl⟩ := act
  refine ⟨s', _, _, started, Trace.cons ⟨word, p, outcome.call⟩ (Trace.nil _), rfl, ?_⟩
  have in_use := (outcome.ok.use.held _).mp List.mem_cons_self
  exact live_least outcome.ok.use.heap in_use

end Small

section Pool

variable {σ : Type} {heap : FrameHeap σ} {kernelBase : BitVec 64} {s s' : PoolMachine σ}

/-- Whatever the kernel does, the pool answers the next request, and what it gave out lies apart, in
frames that are held for it. -/
theorem pool_serves (direct : DirectMap kernelBase) (first : s.isInit = false)
    (started : kiPoolInit heap kernelBase s = some s') {cs : List Act} {u : Kernel σ}
    (acts : Acts heap kernelBase ⟨s', []⟩ cs u) :
    (∀ c, Allowed heap u c → (act heap kernelBase u c).isSome) ∧
      (∀ r ∈ u.held, kernelBase.toNat + s'.poolPhysBase + 6544 ≤ r.1 ∧
        r.1 + r.2 ≤ kernelBase.toNat + s'.poolPhysBase + POOLSIZE_BYTES ∧ 8 ∣ r.1 ∧ 24 ≤ r.2 ∧
        ∀ x, Within x r → heap.held u.machine.frames ((x - kernelBase.toNat) / PAGESIZE)) ∧
      u.held.Pairwise Apart := by
  obtain ⟨a, start, pool⟩ := started_ok direct first started
  have place : a.control = kernelBase.toNat + s'.poolPhysBase := start.place
  obtain ⟨⟨bs, ok⟩, _⟩ := acts.refines ⟨_, start⟩
  have place' := ok.place
  have limit := ok.limit
  have sound := live_sound ok.use.heap
  refine ⟨fun c allowed => ?_, fun r member => ?_, ?_⟩
  · obtain ⟨p, u', _, outcome⟩ := act_step ok allowed
    exact Option.isSome_iff_exists.mpr ⟨(p, u'), outcome.call⟩
  · have in_use := (ok.use.held r).mp member
    obtain ⟨low, high, _⟩ := sound.inside r in_use
    refine ⟨by omega, by omega, live_aligned ok.use.heap in_use, live_least ok.use.heap in_use,
      fun x inside => ?_⟩
    obtain ⟨above, below⟩ := inside
    exact ok.owned _ (pool_frame ok.base (by omega) (by omega))
  · refine ok.use.nodup.pairwise_of_forall_ne fun r mr q mq other => ?_
    exact sound.apart r ((ok.use.held r).mp mr) q ((ok.use.held q).mp mq) other

theorem pool_serves_small : ∃ s' u, kiPoolInit bitmapHeap 0xFFFF800000000000 beforeInit = some s' ∧
    Acts bitmapHeap 0xFFFF800000000000 ⟨s', []⟩ [.allocate 100] u ∧
      (∀ c, Allowed bitmapHeap u c → (act bitmapHeap 0xFFFF800000000000 u c).isSome) ∧
      (∀ r ∈ u.held, (0xFFFF800000000000 : BitVec 64).toNat + s'.poolPhysBase + 6544 ≤ r.1 ∧
        r.1 + r.2 ≤ (0xFFFF800000000000 : BitVec 64).toNat + s'.poolPhysBase + POOLSIZE_BYTES ∧
          8 ∣ r.1 ∧ 24 ≤ r.2 ∧
        ∀ x, Within x r →
          bitmapHeap.held u.machine.frames
            ((x - (0xFFFF800000000000 : BitVec 64).toNat) / PAGESIZE)) ∧
      u.held.Pairwise Apart := by
  obtain ⟨s', u, r, started, acts, _⟩ := small_acts
  exact ⟨s', u, started, acts, pool_serves directMap_base rfl started acts⟩

/-- What the kernel holds of the pool stays in physical memory as it was last written, until it is
freed. -/
theorem pool_contents (direct : DirectMap kernelBase) (first : s.isInit = false)
    (started : kiPoolInit heap kernelBase s = some s') {cs cs' : List Act} {u u' : Kernel σ}
    (acts : Acts heap kernelBase ⟨s', []⟩ cs u) (more : Acts heap kernelBase u cs' u') {r : Region}
    (member : r ∈ u.held) (kept : ∀ c ∈ cs', ¬c.Frees r.1) :
    r ∈ u'.held ∧ ∀ x, Within x r → heap.mem u'.machine.frames (x - kernelBase.toNat) =
      lastWritten x cs' (heap.mem u.machine.frames (x - kernelBase.toNat)) := by
  obtain ⟨a, start, pool⟩ := started_ok direct first started
  obtain ⟨⟨bs, ok⟩, _⟩ := acts.refines ⟨_, start⟩
  obtain ⟨_, es, run, values, releases⟩ := more.refines ⟨bs, ok⟩
  have value := fun x => run.value (x := x) member (releases r kept)
  have place := ok.place
  have below := a.below
  obtain ⟨low, _, positive⟩ := (live_sound ok.use.heap).inside r ((ok.use.held r).mp member)
  refine ⟨(value r.1 ⟨le_refl _, by omega⟩).1, fun x inside => ?_⟩
  obtain ⟨_, same⟩ := value x inside
  have mapped : kernelBase.toNat ≤ x := by
    have above := inside.1
    omega
  rw [values] at same
  simp only [Kernel.session, Session.state, PoolMachine.control, directView, if_pos mapped] at same
  exact same

theorem pool_contents_small :
    ∃ s' u u' r, kiPoolInit bitmapHeap 0xFFFF800000000000 beforeInit = some s' ∧
    Acts bitmapHeap 0xFFFF800000000000 ⟨s', []⟩ [.allocate 100] u ∧
      Acts bitmapHeap 0xFFFF800000000000 u [.write r.1 7, .allocFrame 3] u' ∧
        r ∈ u.held ∧ r ∈ u'.held ∧
      ∀ x, Within x r →
        bitmapHeap.mem u'.machine.frames (x - (0xFFFF800000000000 : BitVec 64).toNat) =
        lastWritten x [.write r.1 7, .allocFrame 3]
          (bitmapHeap.mem u.machine.frames (x - (0xFFFF800000000000 : BitVec 64).toNat)) := by
  obtain ⟨s', u, r, started, acts, held, enough⟩ := small_acts
  have member : r ∈ u.held := by
    rw [held]
    exact List.mem_cons_self
  have more : Acts bitmapHeap 0xFFFF800000000000 u [.write r.1 7, .allocFrame 3] _ :=
    Trace.cons ⟨⟨r, member, le_refl _, by omega⟩, 0, rfl⟩
      (Trace.cons ⟨trivial, 0, rfl⟩ (Trace.nil _))
  refine ⟨s', u, _, r, started, acts, more, member,
    pool_contents directMap_base rfl started acts more member ?_⟩
  intro c listed
  simp only [List.mem_cons, List.not_mem_nil, or_false] at listed
  rcases listed with rfl | rfl
  · exact id
  · exact id

/-- Requests to the pool, and writes to what it gave, change no other memory. -/
theorem pool_spares (direct : DirectMap kernelBase) (first : s.isInit = false)
    (started : kiPoolInit heap kernelBase s = some s') {cs cs' : List Act} {u u' : Kernel σ}
    (acts : Acts heap kernelBase ⟨s', []⟩ cs u) (more : Acts heap kernelBase u cs' u')
    (only : ∀ c ∈ cs', c.call ≠ none) {pa : Nat}
    (outside : pa < s'.poolPhysBase ∨ s'.poolPhysBase + POOLSIZE_BYTES ≤ pa) :
    heap.mem u'.machine.frames pa = heap.mem u.machine.frames pa := by
  obtain ⟨a, start, pool⟩ := started_ok direct first started
  obtain ⟨⟨bs, ok⟩, _⟩ := acts.refines ⟨_, start⟩
  have place : a.control = kernelBase.toNat + s'.poolPhysBase := start.place
  have place' := ok.place
  exact more.spares ⟨bs, ok⟩ only (by omega)

theorem pool_spares_small : ∃ s' u, kiPoolInit bitmapHeap 0xFFFF800000000000 beforeInit = some s' ∧
    Acts bitmapHeap 0xFFFF800000000000 ⟨s', []⟩ [.allocate 100] u ∧
      bitmapHeap.mem u.machine.frames (s'.poolPhysBase + POOLSIZE_BYTES) =
        bitmapHeap.mem s'.frames (s'.poolPhysBase + POOLSIZE_BYTES) := by
  obtain ⟨s', u, r, started, acts, _⟩ := small_acts
  refine ⟨s', u, started, acts, pool_spares directMap_base rfl started (Trace.nil _) acts ?_
    (Or.inr le_rfl)⟩
  intro c listed
  rw [List.mem_singleton.mp listed]
  exact Option.some_ne_none _

/-- A new pool has room for 33030144 bytes and no more, though its block is larger; the few requests
that wrap are served too. -/
theorem pool_first (direct : DirectMap kernelBase) (first : s.isInit = false)
    (started : kiPoolInit heap kernelBase s = some s') {length : Nat}
    (word : length < 0x10000000000000000) :
    ∃ p s'', exAllocatePool heap kernelBase length s' = some (p, s'') ∧
      (p ≠ 0 ↔ 0 < length ∧ length ≤ 33030144 ∨ 0xFFFFFFFFFFFFFFF9 ≤ length) := by
  obtain ⟨a, ok, _⟩ := started_ok direct first started
  obtain ⟨p, s'', call, gave⟩ := first_request ok word
  refine ⟨p, s'', call, gave.trans ?_⟩
  unfold adjusted
  split
  · omega
  · split <;> omega

theorem pool_first_small : ∃ s', kiPoolInit bitmapHeap 0xFFFF800000000000 beforeInit = some s' ∧
    ∃ p s'', exAllocatePool bitmapHeap 0xFFFF800000000000 33030145 s' = some (p, s'') ∧
      (p ≠ 0 ↔ 0 < 33030145 ∧ 33030145 ≤ 33030144 ∨ 0xFFFFFFFFFFFFFFF9 ≤ 33030145) := by
  obtain ⟨s', started⟩ := openFrames_starts
  exact ⟨s', started, pool_first directMap_base rfl started (by omega)⟩

end Pool

end Algae.Ex.PoolRuns
