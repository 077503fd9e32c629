/- The kernel's pool on the frames that it takes: TLSF works through the direct map, while the
   rest of the kernel allocates frames and writes to memory of its own. -/

import Algae.Mm.Page
import Algae.Mm.TlsfSessions

set_option autoImplicit false
set_option relaxedAutoImplicit false

namespace Algae.Ex.PoolHeap

open Algae.Lib.Allocation
open Algae.Lib.ByteMemory (Byte Mem)
open Algae.Lib.FirstFit (span mem_span)
open Algae.Sdk.Defs Algae.Mm.Frames Algae.Mm.Heap Algae.Mm.Page Algae.Mm.Tlsf
open Algae.Mm.TlsfBlocks Algae.Mm.TlsfHeap Algae.Mm.TlsfHeld Algae.Mm.TlsfAlloc Algae.Mm.TlsfCreate
open Algae.Mm.TlsfRuns Algae.Mm.TlsfSessions

def POOLSIZE_BYTES : Nat := 0x2000000

def POOLSIZE_PAGES : Nat := POOLSIZE_BYTES / PAGESIZE

/-- The variables of the pool, with the arrays of the structure behind `tlsfCtx`, and the frames.
What `tlsf` says of memory is not used: memory is that of the frames. -/
structure PoolMachine (σ : Type) where
  isInit : Bool
  poolPhysBase : Nat
  poolVirtBase : Nat
  tlsfCtx : Nat
  tlsf : Control
  frames : σ

section Code

variable {σ : Type} (heap : FrameHeap σ) (kernelBase : BitVec 64)

def directView (m : Mem) :
    Mem := fun x => if kernelBase.toNat ≤ x then m (x - kernelBase.toNat) else 0

def physView (m : Mem) : Mem := fun pa => m (pa + kernelBase.toNat)

def PoolMachine.control (s : PoolMachine σ) : Control :=
  { s.tlsf with mem := directView kernelBase (heap.mem s.frames) }

def PoolMachine.setControl (s : PoolMachine σ) (tlsf : Control) : PoolMachine σ :=
  { s with tlsf := tlsf, frames := heap.setMem s.frames (physView kernelBase tlsf.mem) }

def kiPoolInit (s : PoolMachine σ) : Option (PoolMachine σ) :=
  if s.isInit then
    some s
  else
    let (poolPhysBase, frames) := heap.mmAllocFrame s.frames POOLSIZE_PAGES
    let s := { s with poolPhysBase := poolPhysBase, frames := frames }
    if poolPhysBase = 0 then
      none
    else do
      let poolVirtBase := (physToVirt kernelBase (BitVec.ofNat 64 poolPhysBase)).toNat
      let (tlsfCtx, tlsf) ← tlsfCreateWithPool poolVirtBase POOLSIZE_BYTES
        (s.control heap kernelBase)
      some { s.setControl heap kernelBase tlsf with
        poolVirtBase := poolVirtBase, tlsfCtx := tlsfCtx, isInit := true }

/-- The type of the pool is not used. Both calls hold the lock from beginning to end. -/
def exAllocatePool (length : Nat) (s : PoolMachine σ) : Option (Nat × PoolMachine σ) :=
  if !s.isInit then
    some (0, s)
  else do
    let (tmp, tlsf) ← tlsfMalloc s.tlsfCtx length (s.control heap kernelBase)
    some (tmp, s.setControl heap kernelBase tlsf)

def exFreePool (pool : Nat) (s : PoolMachine σ) : Option (PoolMachine σ) := do
  let tlsf ← tlsfFree s.tlsfCtx pool (s.control heap kernelBase)
  some (s.setControl heap kernelBase tlsf)

structure Kernel (σ : Type) where
  machine : PoolMachine σ
  held : List Region

/-- What the kernel does: with the pool, with what it holds of it, and with the frames and the
memory that are not the pool's. -/
inductive Act
  | allocate (length : Nat)
  | free (pool : Nat)
  | write (x : Nat) (v : Byte)
  | allocFrame (count : Nat)
  | freeFrame (i count : Nat)
  | setMem (m : Mem)

def Allowed (u : Kernel σ) : Act → Prop
  | .allocate length => length < 0x10000000000000000
  | .free pool => pool = 0 ∨ ∃ r ∈ u.held, r.1 = pool
  | .write x _ => ∃ r ∈ u.held, Within x r
  | .allocFrame _ => True
  | .freeFrame i count => 0 < i ∧ (i + count + 1) * PAGESIZE ≤ 0x10000000000000000 ∧
      ∀ f ∈ span (u.machine.poolPhysBase / PAGESIZE) POOLSIZE_PAGES, f ∉ span i count
  | .setMem m => ∀ pa, u.machine.poolPhysBase ≤ pa → pa < u.machine.poolPhysBase + POOLSIZE_BYTES →
      m pa = heap.mem u.machine.frames pa

def act (u : Kernel σ) : Act → Option (Nat × Kernel σ)
  | .allocate length => do
    let (p, s) ← exAllocatePool heap kernelBase length u.machine
    some (p, ⟨s,
      if p = 0 then u.held else (p, tlsfBlockSize (s.control heap kernelBase).mem p) :: u.held⟩)
  | .free pool => do
    let s ← exFreePool heap kernelBase pool u.machine
    some (0, ⟨s, without pool u.held⟩)
  | .write x v =>
    let tlsf := u.machine.control heap kernelBase
    some (0, { u with machine :=
      u.machine.setControl heap kernelBase { tlsf with mem := Function.update tlsf.mem x v } })
  | .allocFrame count =>
    some (0, { u with machine :=
      { u.machine with frames := (heap.mmAllocFrame u.machine.frames count).2 } })
  | .freeFrame i count =>
    some (0, { u with machine :=
      { u.machine with frames := heap.mmFreeFrame u.machine.frames (i * PAGESIZE) count } })
  | .setMem m =>
    some (0, { u with machine := { u.machine with frames := heap.setMem u.machine.frames m } })

end Code

def Act.value (x : Nat) (v : Byte) : Act → Byte
  | .write y w => if y = x then w else v
  | _ => v

def lastWritten (x : Nat) (cs : List Act) (v : Byte) : Byte := cs.foldl (Act.value x) v

def Act.Frees (pool : Nat) : Act → Prop
  | .free q => q = pool
  | _ => False

section View

variable {σ : Type} {heap : FrameHeap σ} {kernelBase : BitVec 64}

private theorem directView_physView {m : Mem} (low : ∀ x, x < kernelBase.toNat → m x = 0) :
    directView kernelBase (physView kernelBase m) = m := by
  funext x
  unfold directView physView
  by_cases mapped : kernelBase.toNat ≤ x
  · rw [if_pos mapped, Nat.sub_add_cancel mapped]
  · rw [if_neg mapped, low x (Nat.not_le.mp mapped)]

private theorem directView_low (m : Mem) {x : Nat} (low : x < kernelBase.toNat) :
    directView kernelBase m x = 0 :=
  if_neg (Nat.not_le.mpr low)

private theorem control_setControl (s : PoolMachine σ) {tlsf : Control}
    (low : ∀ x, x < kernelBase.toNat → tlsf.mem x = 0) :
    (s.setControl heap kernelBase tlsf).control heap kernelBase = tlsf := by
  rw [PoolMachine.control, PoolMachine.setControl, heap.mem_setMem, directView_physView low]

end View

theorem pool_frame {base pa : Nat} (aligned : PAGESIZE ∣ base) (low : base ≤ pa)
    (high : pa < base + POOLSIZE_BYTES) :
    pa / PAGESIZE ∈ span (base / PAGESIZE) POOLSIZE_PAGES := by
  rw [mem_span, POOLSIZE_PAGES]
  unfold POOLSIZE_BYTES at *
  rw [PAGESIZE] at *
  omega

section Steps

variable {σ : Type} {heap : FrameHeap σ} {kernelBase : BitVec 64} {a : Arena} {u : Kernel σ}
  {bs : List Block}

def Kernel.session (heap : FrameHeap σ) (kernelBase : BitVec 64) (u : Kernel σ) : Session :=
  ⟨u.machine.control heap kernelBase, u.held⟩

def Act.event (heap : FrameHeap σ) (kernelBase : BitVec 64) (u : Kernel σ) (p : Nat)
    (u' : Kernel σ) :
    Act → Event Byte
  | .allocate _ => grantEvent p (u'.session heap kernelBase)
  | .free pool => ((u.session heap kernelBase).region pool).elim .refuse .release
  | .write x v => .write x v
  | .allocFrame _ => .refuse
  | .freeFrame _ _ => .refuse
  | .setMem _ => .refuse

structure PoolOk (heap : FrameHeap σ) (kernelBase : BitVec 64) (a : Arena) (u : Kernel σ)
    (bs : List Block) :
    Prop where
  isInit : u.machine.isInit = true
  control : u.machine.tlsfCtx = a.control
  place : a.control = kernelBase.toNat + u.machine.poolPhysBase
  limit : a.limit ≤ a.control + POOLSIZE_BYTES
  base : PAGESIZE ∣ u.machine.poolPhysBase
  owned : ∀ f ∈ span (u.machine.poolPhysBase / PAGESIZE) POOLSIZE_PAGES,
    heap.held u.machine.frames f
  use : InUse a (u.session heap kernelBase) bs

private theorem pool_call (ok : PoolOk heap kernelBase a u bs) {c : Call}
    (legal : Legal (u.session heap kernelBase) c) :
    ∃ p t' bs', perform a.control (u.session heap kernelBase) c = some (p, t') ∧
      PoolOk heap kernelBase a ⟨u.machine.setControl heap kernelBase t'.heap, t'.held⟩ bs' ∧
      Kernel.session heap kernelBase ⟨u.machine.setControl heap kernelBase t'.heap, t'.held⟩ = t' ∧
      Step ∅ (a.pool + 16) a.limit (u.session heap kernelBase).state
        (c.event (u.session heap kernelBase) p t') t'.state ∧
      ∀ pa, pa < u.machine.poolPhysBase ∨ u.machine.poolPhysBase + POOLSIZE_BYTES ≤ pa →
        physView kernelBase t'.heap.mem pa = heap.mem u.machine.frames pa := by
  have place := ok.place
  have limit := ok.limit
  have below := a.below
  have nonempty := ok.use.heap.holds.limit
  obtain ⟨p, t', bs', call, use', step⟩ := perform_step ok.use legal
  have sound : Sound (a.pool + 16) a.limit (u.session heap kernelBase).state.live := by
    rw [state_eq ok.use.held]
    exact live_sound ok.use.heap
  have spared := step.keeps_around sound fun r around => by
    rcases around with before | behind
    · omega
    · exact Or.inr behind
  have same : ∀ x, x < a.control ∨ a.limit ≤ x →
      t'.heap.mem x = directView kernelBase (heap.mem u.machine.frames) x := by
    intro x outside
    have around : (x, 1) ∈ a.outside := by
      rcases outside with before | behind
      · exact Or.inl (by dsimp only; omega)
      · exact Or.inr behind
    exact spared _ around x ⟨le_refl x, Nat.lt_succ_self x⟩
  have back :
      Kernel.session heap kernelBase ⟨u.machine.setControl heap kernelBase t'.heap, t'.held⟩ =
        t' := by
    rw [Kernel.session, control_setControl _ fun x low => ?_]
    rw [same x (by omega), directView_low _ low]
  refine ⟨p, t', bs', call,
    ⟨ok.isInit, ok.control, place, limit, ok.base, fun f inside => ?_, ?_⟩, back,
    step.mono (Set.empty_subset _), fun pa outside => ?_⟩
  · exact (heap.held_setMem _ _ _).mpr (ok.owned f inside)
  · rw [back]
    exact use'
  · rw [physView, same _ (by omega), directView, if_pos (Nat.le_add_left _ _), Nat.add_sub_cancel]

private theorem other_call (ok : PoolOk heap kernelBase a u bs) (frames : σ)
    (held : ∀ f ∈ span (u.machine.poolPhysBase / PAGESIZE) POOLSIZE_PAGES,
      heap.held u.machine.frames f → heap.held frames f)
    (same : ∀ pa, u.machine.poolPhysBase ≤ pa → pa < u.machine.poolPhysBase + POOLSIZE_BYTES →
      heap.mem frames pa = heap.mem u.machine.frames pa) :
    PoolOk heap kernelBase a { u with machine := { u.machine with frames := frames } } bs ∧
      Step ∅ (a.pool + 16) a.limit (u.session heap kernelBase).state .refuse
        (Kernel.session heap kernelBase
          { u with machine := { u.machine with frames := frames } }).state := by
  have place := ok.place
  have limit := ok.limit
  have below := a.below
  have view : ∀ x, a.control ≤ x → x < a.limit →
      directView kernelBase (heap.mem frames) x = directView kernelBase
        (heap.mem u.machine.frames) x := by
    intro x low high
    rw [directView, directView, if_pos (by omega), if_pos (by omega)]
    exact same _ (by omega) (by omega)
  refine ⟨⟨ok.isInit, ok.control, place, limit, ok.base, fun f inside =>
    held f inside (ok.owned f inside), ?_⟩, ?_⟩
  · exact ⟨heap_elsewhere ok.use.heap view, ok.use.held, ok.use.nodup⟩
  · refine Step.refuse fun r member x inside => ?_
    obtain none | member := member
    · exact none.elim
    · have bounds := (live_sound ok.use.heap).inside r ((ok.use.held r).mp member)
      obtain ⟨low, high⟩ := inside
      exact view x (by omega) (by omega)

def Act.call : Act → Option Call
  | .allocate length => some (.malloc length)
  | .free pool => some (.free pool)
  | .write x v => some (.write x v)
  | _ => none

structure Outcome (heap : FrameHeap σ) (kernelBase : BitVec 64) (a : Arena) (u : Kernel σ)
    (c : Act) (p : Nat) (u' : Kernel σ) (bs' : List Block) : Prop where
  call : act heap kernelBase u c = some (p, u')
  ok : PoolOk heap kernelBase a u' bs'
  base : u'.machine.poolPhysBase = u.machine.poolPhysBase
  step : Step ∅ (a.pool + 16) a.limit (u.session heap kernelBase).state
    (c.event heap kernelBase u p u')
    (u'.session heap kernelBase).state
  calls : ∀ d, c.call = some d →
    perform a.control (u.session heap kernelBase) d = some (p, u'.session heap kernelBase)
  spares : c.call ≠ none → ∀ pa, pa < u.machine.poolPhysBase ∨
    u.machine.poolPhysBase + POOLSIZE_BYTES ≤ pa →
    heap.mem u'.machine.frames pa = heap.mem u.machine.frames pa

theorem act_step (ok : PoolOk heap kernelBase a u bs) {c : Act} (allowed : Allowed heap u c) :
    ∃ p u' bs', Outcome heap kernelBase a u c p u' bs' := by
  cases c with
  | allocate length =>
    obtain ⟨p, t', bs', call, ok', back, step, spared⟩ :=
      pool_call ok (show Legal (u.session heap kernelBase) (.malloc length) from allowed)
    obtain ⟨s', malloc, rfl⟩ := perform_malloc.mp call
    rw [Session.take_heap] at ok' back spared
    have stored : (u.machine.setControl heap kernelBase s').control heap kernelBase = s' :=
      (congrArg Session.heap back).trans (Session.take_heap _ _ _)
    refine ⟨p, _, bs', ?_, ok', rfl, ?_, fun d same => ?_, fun _ pa outside => ?_⟩
    · have malloc' :
          tlsfMalloc u.machine.tlsfCtx length (u.machine.control heap kernelBase) =
            some (p, s') := by
        rw [ok.control]
        exact malloc
      have enabled : ¬(!u.machine.isInit) = true := by rw [ok.isInit]; simp
      simp only [act, exAllocatePool, if_neg enabled, malloc', stored, Option.bind_eq_bind,
        Option.bind_some]
      rw [Session.take]
      split
      · rfl
      · rfl
    · rw [back]
      unfold Act.event
      dsimp only
      rw [back]
      exact step
    · obtain rfl := Option.some.inj same
      rw [back]
      exact call
    · rw [← spared pa outside]
      exact congrFun (heap.mem_setMem _ _) pa
  | free pool =>
    obtain ⟨p, t', bs', call, ok', back, step, spared⟩ :=
      pool_call ok (show Legal (u.session heap kernelBase) (.free pool) from allowed)
    obtain ⟨s', free, rfl, rfl⟩ := perform_free.mp call
    refine ⟨0, _, bs', ?_, ok', rfl, ?_, fun d same => ?_, fun _ pa outside => ?_⟩
    · have free' :
          tlsfFree u.machine.tlsfCtx pool (u.machine.control heap kernelBase) = some s' := by
        rw [ok.control]
        exact free
      simp only [act, exFreePool, free', Option.bind_eq_bind, Option.bind_some]
      rfl
    · rw [back]
      exact step
    · obtain rfl := Option.some.inj same
      rw [back]
      exact call
    · rw [← spared pa outside]
      exact congrFun (heap.mem_setMem _ _) pa
  | write x v =>
    obtain ⟨p, t', bs', call, ok', back, step, spared⟩ :=
      pool_call ok (show Legal (u.session heap kernelBase) (.write x v) from allowed)
    obtain ⟨rfl, rfl⟩ := Prod.mk.inj (Option.some.inj call)
    refine ⟨0, _, bs', rfl, ok', rfl, ?_, fun d same => ?_, fun _ pa outside => ?_⟩
    · rw [← back] at step
      exact step
    · obtain rfl := Option.some.inj same
      exact call.trans (congrArg (fun t => some (0, t)) back.symm)
    · rw [← spared pa outside]
      exact congrFun (heap.mem_setMem _ _) pa
  | allocFrame count =>
    obtain ⟨ok', step⟩ := other_call ok (heap.mmAllocFrame u.machine.frames count).2
      (fun f _ => heap.stays_held _ count f)
      fun pa low high => heap.keeps_mem _ count pa (ok.owned _ (pool_frame ok.base low high))
    exact ⟨0, _, bs, rfl, ok', rfl, step, fun _ none => absurd none.symm (Option.some_ne_none _),
      fun none => absurd rfl none⟩
  | freeFrame i count =>
    obtain ⟨positive, bound, other⟩ := allowed
    obtain ⟨ok', step⟩ := other_call ok (heap.mmFreeFrame u.machine.frames (i * PAGESIZE) count)
      (fun f inside held => (heap.freed _ i count f positive bound).mpr
        ⟨held, fun given => other f inside given.2⟩)
      fun pa _ _ => congrFun (heap.mem_free _ _ _) pa
    exact ⟨0, _, bs, rfl, ok', rfl, step, fun _ none => absurd none.symm (Option.some_ne_none _),
      fun none => absurd rfl none⟩
  | setMem m =>
    obtain ⟨ok', step⟩ := other_call ok (heap.setMem u.machine.frames m)
      (fun f _ held => (heap.held_setMem _ _ _).mpr held) fun pa low high => by
        rw [heap.mem_setMem]
        exact allowed pa low high
    exact ⟨0, _, bs, rfl, ok', rfl, step, fun _ none => absurd none.symm (Option.some_ne_none _),
      fun none => absurd rfl none⟩

end Steps

section Start

variable {σ : Type} {heap : FrameHeap σ} {kernelBase : BitVec 64} {s : PoolMachine σ}

private theorem pool_frames (direct : DirectMap kernelBase) (frames : σ)
    (taken : (heap.mmAllocFrame frames POOLSIZE_PAGES).1 ≠ 0) :
    ∃ i, (heap.mmAllocFrame frames POOLSIZE_PAGES).1 = i * PAGESIZE ∧ 0 < i ∧
      (physToVirt kernelBase (BitVec.ofNat 64 (i * PAGESIZE))).toNat = kernelBase.toNat +
      i * PAGESIZE ∧
      HeapFits (kernelBase.toNat + i * PAGESIZE) POOLSIZE_BYTES ∧
      ∀ f ∈ span i POOLSIZE_PAGES, heap.held (heap.mmAllocFrame frames POOLSIZE_PAGES).2 f := by
  obtain ⟨i, ret, _, fresh⟩ := heap.fresh frames POOLSIZE_PAGES taken
  have positive := index_pos taken ret
  have pages : POOLSIZE_PAGES = 8192 := by
    rw [POOLSIZE_PAGES, PAGESIZE]
    rfl
  have last : i + 8191 < 0x80000000 :=
    heap.managed_few _ _ (heap.unheld_managed _ _ (fresh (i + 8191) (mem_span.mpr (by omega))).1)
  have aligned := direct.aligned
  have room := direct.fits
  rw [PAGESIZE] at aligned room
  have bytes : PAGESIZE = 4096 := PAGESIZE.eq_def
  refine ⟨i, ret, positive, ?_, ⟨?_, ?_, ?_, ?_, ?_⟩, fun f inside => (fresh f inside).2⟩
  · rw [physToVirt, BitVec.toNat_add, BitVec.toNat_ofNat, bytes, Nat.mod_eq_of_lt (by omega),
      Nat.mod_eq_of_lt (by omega)]
    exact Nat.add_comm _ _
  · rw [bytes]
    omega
  · rw [bytes]
    omega
  · unfold POOLSIZE_BYTES
    omega
  · unfold POOLSIZE_BYTES
    omega
  · rw [bytes]
    unfold POOLSIZE_BYTES
    omega

theorem kiPoolInit_starts (heap : FrameHeap σ) (direct : DirectMap kernelBase)
    (first : s.isInit = false) :
    ((heap.mmAllocFrame s.frames POOLSIZE_PAGES).1 = 0 → kiPoolInit heap kernelBase s = none) ∧
      ((heap.mmAllocFrame s.frames POOLSIZE_PAGES).1 ≠ 0 →
        ∃ s' a, kiPoolInit heap kernelBase s = some s' ∧
          PoolOk heap kernelBase a ⟨s', []⟩ (newBlocks a.control POOLSIZE_BYTES) ∧
            a.pool = a.control + 6528) := by
  have enabled : ¬s.isInit = true := by simp [first]
  refine ⟨fun zero => ?_, fun taken => ?_⟩
  · simp only [kiPoolInit, if_neg enabled, zero, if_true]
  · obtain ⟨i, ret, positive, virt, fits, held⟩ := pool_frames direct s.frames taken
    obtain ⟨c, created, _, same⟩ := tlsfCreateWithPool_heap fits
      (PoolMachine.control heap kernelBase
        { s with
          poolPhysBase := i * PAGESIZE
          frames := (heap.mmAllocFrame s.frames POOLSIZE_PAGES).2 })
    have use := start_inUse fits created
    obtain ⟨control, pool, limit⟩ := fits.arena_bounds
    have low : ∀ x, x < kernelBase.toNat → c.mem x = 0 := fun x below => by
      rw [same x (by omega)]
      exact directView_low _ below
    let taking : PoolMachine σ := { s with
      poolPhysBase := i * PAGESIZE
      frames := (heap.mmAllocFrame s.frames POOLSIZE_PAGES).2 }
    have stored : (taking.setControl heap kernelBase c).control heap kernelBase = c :=
      control_setControl taking low
    refine ⟨{ taking.setControl heap kernelBase c with
        poolVirtBase := kernelBase.toNat + i * PAGESIZE, tlsfCtx :=
          kernelBase.toNat + i * PAGESIZE, isInit := true },
      fits.arena, ?_, ⟨rfl, control.symm, control, ?_, ?_, ?_, ?_⟩, pool⟩
    · have some_base : ¬i * PAGESIZE = 0 := ret ▸ taken
      simp only [kiPoolInit, if_neg enabled, ret, if_neg some_base, virt, created,
        Option.bind_eq_bind, Option.bind_some]
      rfl
    · rw [control]
      exact limit
    · exact Nat.dvd_mul_left _ _
    · intro f inside
      have own : f ∈ span (i * PAGESIZE / PAGESIZE) POOLSIZE_PAGES := inside
      rw [Nat.mul_div_cancel _ page_pos] at own
      exact (heap.held_setMem _ _ _).mpr (held f own)
    · exact (congrArg (fun tlsf => InUse fits.arena ⟨tlsf, []⟩ _) stored).mpr use

end Start

end Algae.Ex.PoolHeap
