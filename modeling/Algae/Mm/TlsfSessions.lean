/- A heap from tlsf_create_with_pool on: what holds in every session with it, and which sizes
   make a heap at all. -/

import Algae.Mm.TlsfRuns

set_option autoImplicit false
set_option relaxedAutoImplicit false

namespace Algae.Mm.TlsfSessions

open Algae.Lib.Allocation
open Algae.Lib.ByteMemory (Mem)
open Algae.Lib.Tiling Algae.Lib.TwoLevelIndex Algae.Sdk.Defs Algae.Mm.Tlsf
open Algae.Mm.TlsfWords Algae.Mm.TlsfBlocks Algae.Mm.TlsfLists Algae.Mm.TlsfHeap Algae.Mm.TlsfHeld
open Algae.Mm.TlsfAlloc Algae.Mm.TlsfAlign Algae.Mm.TlsfCreate Algae.Mm.TlsfRealloc
  Algae.Mm.TlsfRuns

section Start

theorem start_inUse {mem bytes : Nat} (fits : HeapFits mem bytes) {s₀ s : Control}
    (created : tlsfCreateWithPool mem bytes s₀ = some (mem, s)) :
    InUse fits.arena ⟨s, []⟩ (newBlocks mem bytes) := by
  obtain ⟨s', call, heap, _⟩ := tlsfCreateWithPool_heap fits s₀
  rw [created] at call
  obtain ⟨_, rfl⟩ := Prod.mk.inj (Option.some.inj call)
  refine ⟨heap, fun r => ?_, List.nodup_nil⟩
  constructor
  · exact fun none => by cases none
  · rintro ⟨b, member, used, sized, _⟩
    simp only [newBlocks, List.mem_cons, List.not_mem_nil, or_false] at member
    rcases member with rfl | rfl
    · cases used
    · exact absurd rfl sized

private theorem first_malloc {mem bytes : Nat} (fits : HeapFits mem bytes) {s₀ s : Control}
    (created : tlsfCreateWithPool mem bytes s₀ = some (mem, s)) {request : Nat}
    (word : request < 0x10000000000000000) (served : adjusted request ≠ 0)
    (room : roundUp (adjusted request) ≤ poolSize bytes) :
    ∃ length s', tlsfMalloc mem request s = some (mem + 6544, s') ∧
      tlsfBlockSize s'.mem (mem + 6544) = length ∧ adjusted request ≤ length := by
  obtain ⟨s'', call, heap, _⟩ := tlsfCreateWithPool_heap fits s₀
  rw [created] at call
  obtain ⟨_, rfl⟩ := Prod.mk.inj (Option.some.inj call)
  obtain ⟨_, small, _⟩ := adjusted_sized request
  have whole_small := (heap.holds.fits _ List.mem_cons_self).small
  have suits : Suits (adjusted request) (wholeBlock (mem + 6536) (poolSize bytes)) :=
    ⟨rfl, mappingSearch_reaches small (Nat.lt_trans whole_small (by omega)) room⟩
  rcases tlsfMalloc_cases heap word with ⟨_, none⟩ | ⟨b, s', bs', length, best, _, call, granted⟩
  · exact absurd suits (none.resolve_left served _ List.mem_cons_self)
  · have place : b.addr + 16 = mem + 6544 := by
      have member := best.1
      simp only [newBlocks, List.mem_cons, List.not_mem_nil, or_false] at member
      rcases member with rfl | rfl
      · rfl
      · exact absurd best.2.1.1 Bool.false_ne_true
    rw [place] at call granted
    have size := tlsfBlockSize_live granted.heap (show (mem + 6544, length) ∈ live bs' by
      rw [granted.live_eq]
      exact Set.mem_insert _ _)
    exact ⟨length, s', call, size, granted.length_ge⟩

def blank : Control := ⟨fun _ => 0, 0, fun _ => 0, fun _ _ => 0⟩

theorem small_session : HeapFits 4096 20000 ∧ ∃ s s' length,
    tlsfCreateWithPool 4096 20000 blank = some (4096, s) ∧
      perform 4096 ⟨s, []⟩ (.malloc 100) = some (10640, ⟨s', [(10640, length)]⟩) ∧
      Calls 4096 ⟨s, []⟩ [.malloc 100] ⟨s', [(10640, length)]⟩ ∧ 104 ≤ length := by
  have fits : HeapFits 4096 20000 := ⟨by omega, by omega, by omega, by omega, by omega⟩
  obtain ⟨s, created, _⟩ := tlsfCreateWithPool_heap fits blank
  obtain ⟨length, s', served, size, enough⟩ :=
    first_malloc fits created (show 100 < 0x10000000000000000 by omega) (by decide) (by decide)
  have call : perform 4096 ⟨s, []⟩ (.malloc 100) = some (10640, ⟨s', [(10640, length)]⟩) := by
    have served' : tlsfMalloc 4096 100 s = some (10640, s') := served
    have size' : tlsfBlockSize s'.mem 10640 = length := size
    simp only [perform, served', Session.take, size', if_neg (show ¬10640 = 0 by omega),
      Option.bind_eq_bind, Option.bind_some]
  have legal : Legal ⟨s, []⟩ (.malloc 100) := show 100 < 0x10000000000000000 by omega
  exact ⟨fits, s, s', length, created, call, Calls.cons legal call (Calls.nil _), enough⟩

private theorem longer_session :
    HeapFits 4096 20000 ∧ ∃ s t, tlsfCreateWithPool 4096 20000 blank = some (4096, s) ∧
    Calls 4096 ⟨s, []⟩ [.malloc 100, .write 10650 7, .memalign 64 300] t := by
  obtain ⟨fits, s, s', length, created, malloc, _, enough⟩ := small_session
  have first : Legal ⟨s, []⟩ (.malloc 100) := show 100 < 0x10000000000000000 by omega
  have inside : Legal ⟨s', [(10640, length)]⟩ (.write 10650 7) := by
    refine ⟨_, List.mem_cons_self, ?_⟩
    unfold Within
    omega
  have written : perform 4096 ⟨s', [(10640, length)]⟩ (.write 10650 7) = some (0, _) := rfl
  obtain ⟨_, _, use, _⟩ := Calls.refines (start_inUse fits created)
    (Calls.cons first malloc (Calls.cons inside written (Calls.nil _)))
  have last : ∀ t, Legal t (.memalign 64 300) := fun _ => ⟨⟨6, by omega, rfl⟩, by omega⟩
  obtain ⟨p, t, _, aligned, _⟩ := perform_step use (last _)
  exact ⟨fits, s, t, created,
    Calls.cons first malloc (Calls.cons inside written (Calls.cons (last _) aligned (Calls.nil t)))⟩

/-- Which sizes make a heap. Four gigabytes of pool pass the check of the limits, and their block
is put in a list that is not there. -/
theorem createWithPool_sizes {mem bytes : Nat} (nonnull : 0 < mem) (aligned : 8 ∣ mem)
    (word : mem + bytes < 0x10000000000000000) (s₀ : Control) :
    (tlsfCreateWithPool mem bytes s₀ = none ↔ 0x100000000 + 6552 ≤ bytes ∧
    bytes < 0x100000000 + 6560) ∧
      ∀ p s, tlsfCreateWithPool mem bytes s₀ = some (p, s) → p = mem ∧
        ((∃ request q s', request < 0x10000000000000000 ∧ tlsfMalloc mem request s = some (q, s') ∧
        q ≠ 0) ↔
          6576 ≤ bytes ∧ bytes < 0x100000000 + 6552) := by
  have placed : ¬mem % ALIGN_SIZE ≠ 0 := by
    unfold ALIGN_SIZE
    omega
  have start : tlsfCreateWithPool mem bytes s₀ =
      (tlsfAddPool mem (mem + 6536) (toUSize (bytes - tlsfSize)) (controlConstruct mem s₀)).bind
        fun q => some (mem, q.2) := by
    simp only [tlsfCreateWithPool, tlsfCreate, if_neg placed, Option.bind_eq_bind]
    rfl
  have rest : 6536 ≤ bytes → toUSize ((bytes : Int) - tlsfSize) = bytes - 6536 := by
    intro enough
    rw [show (bytes : Int) - (tlsfSize : Nat) =
      ((bytes - 6536 : Nat) : Int) by unfold tlsfSize; omega]
    exact toUSize_natCast (by omega)
  by_cases heap : 6576 ≤ bytes ∧ bytes < 0x100000000 + 6552
  · have fits : HeapFits mem bytes := ⟨nonnull, aligned, heap.1, by omega, word⟩
    obtain ⟨s, created, _⟩ := tlsfCreateWithPool_heap fits s₀
    refine ⟨⟨fun none => ?_, fun both => by omega⟩, fun p s' call => ?_⟩
    · rw [created] at none
      cases none
    · rw [created] at call
      obtain ⟨rfl, rfl⟩ := Prod.mk.inj (Option.some.inj call)
      refine ⟨rfl, fun _ => heap, fun _ => ?_⟩
      have room : roundUp (adjusted 1) ≤ poolSize bytes := by
        have least : roundUp (adjusted 1) = 24 := by decide
        unfold poolSize
        omega
      have word_one : 1 < 0x10000000000000000 := by omega
      obtain ⟨_, s', served, _⟩ := first_malloc fits created word_one (by decide) room
      exact ⟨1, _, s', word_one, served, Nat.succ_ne_zero _⟩
  · by_cases largest : 0x100000000 + 6552 ≤ bytes ∧ bytes < 0x100000000 + 6560
    · have refused : tlsfCreateWithPool mem bytes s₀ = none := by
        rw [start, rest (by omega), tlsfAddPool_largest (by omega) (by omega) (by omega) (by omega)
          (by omega) (by omega)]
        rfl
      rw [refused]
      exact ⟨⟨fun _ => largest, fun _ => rfl⟩, fun p s call => by cases call⟩
    · have added : tlsfCreateWithPool mem bytes s₀ = some (mem, controlConstruct mem s₀) := by
        rw [start, tlsfAddPool_refused (by omega) (by unfold toUSize; omega) ?_]
        · rfl
        · by_cases enough : 6536 ≤ bytes
          · rw [rest enough]
            omega
          · unfold toUSize tlsfSize
            omega
      refine ⟨⟨fun none => ?_, fun both => absurd both largest⟩, fun p s call => ?_⟩
      · rw [added] at none
        cases none
      · rw [added] at call
        obtain ⟨rfl, rfl⟩ := Prod.mk.inj (Option.some.inj call)
        refine ⟨rfl, fun served => ?_, fun both => absurd both heap⟩
        obtain ⟨request, p, s', word, call, gave⟩ := served
        rw [tlsfMalloc_empty word] at call
        cases call
        exact absurd rfl gave

theorem createWithPool_sizes_small :
    (tlsfCreateWithPool 4096 20000 blank = none ↔ 0x100000000 + 6552 ≤ 20000 ∧
    20000 < 0x100000000 + 6560) ∧
      ∀ p s, tlsfCreateWithPool 4096 20000 blank = some (p, s) → p = 4096 ∧
        ((∃ request q s', request < 0x10000000000000000 ∧ tlsfMalloc 4096 request s = some (q, s') ∧
        q ≠ 0) ↔
          6576 ≤ 20000 ∧ 20000 < 0x100000000 + 6552) :=
  createWithPool_sizes (by omega) (by omega) (by omega) blank

end Start

section Sessions

/-- In every session the next call comes back, and what is held lies apart in the pool. -/
theorem session_safe {mem bytes : Nat} (fits : HeapFits mem bytes) {s₀ s : Control}
    {cs : List Call} {t : Session}
    (created : tlsfCreateWithPool mem bytes s₀ = some (mem, s)) (calls : Calls mem ⟨s, []⟩ cs t) :
    (∀ c, Legal t c → (perform mem t c).isSome) ∧
      (∀ r ∈ t.held, mem + 6544 ≤ r.1 ∧ r.1 + r.2 ≤ mem + bytes ∧ 8 ∣ r.1 ∧ 24 ≤ r.2) ∧
      t.held.Pairwise Apart := by
  have start := start_inUse fits created
  obtain ⟨bs, _, use, _⟩ := calls.refines start
  obtain ⟨_, pool, limit⟩ := fits.arena_bounds
  have sound := live_sound use.heap
  rw [pool] at sound
  refine ⟨fun c legal => ?_, fun r member => ?_, ?_⟩
  · obtain ⟨p, t', _, call, _⟩ := perform_step use legal
    exact Option.isSome_iff_exists.mpr ⟨(p, t'), call⟩
  · have in_use := (use.held r).mp member
    obtain ⟨low, high, _⟩ := sound.inside r in_use
    exact ⟨low, Nat.le_trans high limit, live_aligned use.heap in_use, live_least use.heap in_use⟩
  · refine use.nodup.pairwise_of_forall_ne fun r mr q mq other => ?_
    exact sound.apart r ((use.held r).mp mr) q ((use.held q).mp mq) other

theorem session_safe_small : ∃ s t, tlsfCreateWithPool 4096 20000 blank = some (4096, s) ∧
    Calls 4096 ⟨s, []⟩ [.malloc 100, .write 10650 7, .memalign 64 300] t ∧
      (∀ c, Legal t c → (perform 4096 t c).isSome) ∧
      (∀ r ∈ t.held, 10640 ≤ r.1 ∧ r.1 + r.2 ≤ 24096 ∧ 8 ∣ r.1 ∧ 24 ≤ r.2) ∧
      t.held.Pairwise Apart := by
  obtain ⟨fits, s, t, created, calls⟩ := longer_session
  exact ⟨s, t, created, calls, session_safe fits created calls⟩

/-- What is held stays as it was last written until it is given up, whatever else is called. -/
theorem session_contents {mem bytes : Nat} (fits : HeapFits mem bytes) {s₀ s : Control}
    {cs cs' : List Call}
    {t t' : Session} (created : tlsfCreateWithPool mem bytes s₀ = some (mem, s))
    (calls : Calls mem ⟨s, []⟩ cs t) (more : Calls mem t cs' t') {r : Region} (member : r ∈ t.held)
    (kept : ∀ c ∈ cs', ¬c.GivesUp r.1) :
    r ∈ t'.held ∧ ∀ x, Within x r → t'.heap.mem x = lastByte x cs' (t.heap.mem x) := by
  have start := start_inUse fits created
  obtain ⟨bs, _, use, _⟩ := calls.refines start
  obtain ⟨bs', es, _, run, values, releases⟩ := more.refines use
  have value := fun x => run.value (x := x) member (releases r kept)
  obtain ⟨_, _, positive⟩ := (live_sound use.heap).inside r ((use.held r).mp member)
  refine ⟨(value r.1 ⟨le_refl _, by omega⟩).1, fun x inside => ?_⟩
  rw [← values]
  exact (value x inside).2

theorem session_contents_small : ∃ s t t', tlsfCreateWithPool 4096 20000 blank = some (4096, s) ∧
    Calls 4096 ⟨s, []⟩ [.malloc 100] t ∧ Calls 4096 t [.write 10650 7] t' ∧
      ∃ r ∈ t.held, r ∈ t'.held ∧ ∀ x, Within x r →
        t'.heap.mem x = lastByte x [.write 10650 7] (t.heap.mem x) := by
  obtain ⟨fits, s, s', length, created, _, calls, enough⟩ := small_session
  have held : (10640, length) ∈ [(10640, length)] := List.mem_cons_self
  have legal : Legal ⟨s', [(10640, length)]⟩ (.write 10650 7) := by
    refine ⟨_, held, ?_⟩
    unfold Within
    omega
  have more := Calls.cons legal (show perform 4096 _ _ = some (0, _) from rfl) (Calls.nil _)
  refine ⟨s, _, _, created, calls, more, _, held, session_contents fits created calls more held
    fun c member => ?_⟩
  rw [List.mem_singleton.mp member]
  exact id

/-- No call touches memory around the heap. -/
theorem session_outside {mem bytes : Nat} (fits : HeapFits mem bytes) {s₀ s : Control}
    {cs : List Call} {t : Session} (created : tlsfCreateWithPool mem bytes s₀ = some (mem, s))
    (calls : Calls mem ⟨s, []⟩ cs t)
    {x : Nat} (outside : x < mem ∨ mem + bytes ≤ x) : t.heap.mem x = s₀.mem x := by
  have start := start_inUse fits created
  obtain ⟨bs, es, use, run, _⟩ := calls.refines start
  obtain ⟨s', call, _, same⟩ := tlsfCreateWithPool_heap fits s₀
  rw [created] at call
  obtain ⟨_, rfl⟩ := Prod.mk.inj (Option.some.inj call)
  obtain ⟨control, pool, limit⟩ := fits.arena_bounds
  have sound : Sound (fits.arena.pool + 16) fits.arena.limit (Session.state ⟨s, []⟩).live := by
    rw [state_eq start.held]
    exact live_sound start.heap
  have spared := run.keeps_around sound fun r around => by
    rcases around with before | behind
    · omega
    · exact Or.inr behind
  have around : (x, 1) ∈ fits.arena.outside := by
    rcases outside with before | behind
    · exact Or.inl (by dsimp only; omega)
    · exact Or.inr (Nat.le_trans limit behind)
  have kept : t.heap.mem x = s.mem x := spared _ around x ⟨le_refl x, Nat.lt_succ_self x⟩
  rw [kept]
  exact same x (by omega)

theorem session_outside_small : ∃ s t, tlsfCreateWithPool 4096 20000 blank = some (4096, s) ∧
    Calls 4096 ⟨s, []⟩ [.malloc 100] t ∧ 24096 ≤ 30000 ∧ t.heap.mem 30000 = blank.mem 30000 := by
  obtain ⟨fits, s, s', length, created, _, calls, _⟩ := small_session
  exact ⟨s, _, created, calls, by omega, session_outside fits created calls (Or.inr (by omega))⟩

/-- Resizing what is held gives memory with the old contents, as much as was asked for, and
otherwise changes nothing. What need not grow stays where it is. -/
theorem session_realloc {mem bytes : Nat} (fits : HeapFits mem bytes) {s₀ s : Control}
    {cs : List Call} {t : Session} (created : tlsfCreateWithPool mem bytes s₀ = some (mem, s))
    (calls : Calls mem ⟨s, []⟩ cs t)
    {r : Region} (member : r ∈ t.held) {request : Nat} (positive : request ≠ 0)
    (small : request < 0x100000000 - 7) :
    ∃ p t', perform mem t (.realloc r.1 request) = some (p, t') ∧
      (p = 0 → t' = t ∧ r.2 < adjusted request) ∧ (adjusted request ≤ r.2 → p = r.1) ∧
      (p ≠ 0 → request ≤ tlsfBlockSize t'.heap.mem p ∧ (p, tlsfBlockSize t'.heap.mem p) ∈ t'.held ∧
        (∀ i, i < r.2 → i < request → t'.heap.mem (p + i) = t.heap.mem (r.1 + i)) ∧
        ∀ q ∈ t.held, q ≠ r → q ∈ t'.held ∧ ∀ x, Within x q → t'.heap.mem x = t.heap.mem x) := by
  have start := start_inUse fits created
  obtain ⟨bs, _, use, _⟩ := calls.refines start
  rcases realloc_held use member positive small with
    ⟨call, short⟩ | ⟨q, s', bs', call, nonnull, size, moved, stays⟩
  · exact ⟨0, t, call, fun _ => ⟨rfl, short⟩, fun room => by omega, fun gave => absurd rfl gave⟩
  · refine ⟨q.1, _, call, fun none => absurd none nonnull, stays,
      fun _ => ⟨?_, ?_, moved.copied, fun p old other => ?_⟩⟩
    · dsimp only
      rw [size]
      exact (adjusted_served positive small).2.trans moved.length_ge
    · dsimp only
      rw [size]
      exact List.mem_cons_self
    · have rest : p ∈ live bs \ {r} := ⟨(use.held p).mp old, other⟩
      exact ⟨List.mem_cons_of_mem _ ((without_live use member p).mpr rest),
        moved.keeps.right p rest⟩

theorem session_realloc_small : ∃ s t r, tlsfCreateWithPool 4096 20000 blank = some (4096, s) ∧
    Calls 4096 ⟨s, []⟩ [.malloc 100] t ∧ r ∈ t.held ∧
      ∃ p t', perform 4096 t (.realloc r.1 200) = some (p, t') ∧
        (p = 0 → t' = t ∧ r.2 < adjusted 200) ∧ (adjusted 200 ≤ r.2 → p = r.1) ∧
        (p ≠ 0 → 200 ≤ tlsfBlockSize t'.heap.mem p ∧ (p, tlsfBlockSize t'.heap.mem p) ∈ t'.held ∧
          (∀ i, i < r.2 → i < 200 → t'.heap.mem (p + i) = t.heap.mem (r.1 + i)) ∧
          ∀ q ∈ t.held, q ≠ r → q ∈ t'.held ∧ ∀ x, Within x q → t'.heap.mem x = t.heap.mem x) := by
  obtain ⟨fits, s, s', length, created, _, calls, _⟩ := small_session
  exact ⟨s, _, _, created, calls, List.mem_cons_self,
    session_realloc fits created calls List.mem_cons_self (show 200 ≠ 0 by omega) (by omega)⟩

/-- An alignment that is a power of two is kept to, or the request changes nothing. -/
theorem session_memalign {mem bytes : Nat} (fits : HeapFits mem bytes) {s₀ s : Control}
    {cs : List Call} {t : Session} (created : tlsfCreateWithPool mem bytes s₀ = some (mem, s))
    (calls : Calls mem ⟨s, []⟩ cs t)
    {k request : Nat} (below : k < 63) (word : request < 0x10000000000000000) :
    ∃ p t', perform mem t (.memalign (2 ^ k) request) = some (p, t') ∧ (p = 0 → t' = t) ∧
      (p ≠ 0 → 2 ^ k ∣ p ∧ t'.held = (p, tlsfBlockSize t'.heap.mem p) :: t.held ∧
        adjusted request ≤ tlsfBlockSize t'.heap.mem p ∧
          tlsfBlockSize t'.heap.mem p < adjusted request + 32 ∧
        ∀ q ∈ t.held, ∀ x, Within x q → t'.heap.mem x = t.heap.mem x) := by
  have start := start_inUse fits created
  obtain ⟨bs, _, use, _⟩ := calls.refines start
  rcases tlsfMemalign_cases use.heap below word with call | ⟨p, s', bs', length, call, nonnull,
    multiple, granted⟩
  · have call' : tlsfMemalign mem (2 ^ k) request t.heap = some (0, t.heap) := call
    refine ⟨0, t, ?_, fun _ => rfl, fun gave => absurd rfl gave⟩
    simp only [perform, call', Session.take, if_true, Option.bind_eq_bind, Option.bind_some]
  · have call' : tlsfMemalign mem (2 ^ k) request t.heap = some (p, s') := call
    have size := tlsfBlockSize_live granted.heap (show (p, length) ∈ live bs' by
      rw [granted.live_eq]
      exact Set.mem_insert _ _)
    dsimp only at size
    refine ⟨p, ⟨s', (p, length) :: t.held⟩, ?_, fun none => by omega, fun _ => ⟨multiple, ?_⟩⟩
    · simp only [perform, call', Session.take, size, if_neg (show ¬p = 0 by omega),
        Option.bind_eq_bind, Option.bind_some]
    · dsimp only
      rw [size]
      exact ⟨rfl, granted.length_ge, granted.length_lt, fun q old => granted.keeps.right q
        ((use.held q).mp old)⟩

theorem session_memalign_small : ∃ s t, tlsfCreateWithPool 4096 20000 blank = some (4096, s) ∧
    Calls 4096 ⟨s, []⟩ [.malloc 100] t ∧
      ∃ p t', perform 4096 t (.memalign (2 ^ 8) 100) = some (p, t') ∧ (p = 0 → t' = t) ∧
        (p ≠ 0 → 2 ^ 8 ∣ p ∧ t'.held = (p, tlsfBlockSize t'.heap.mem p) :: t.held ∧
          adjusted 100 ≤ tlsfBlockSize t'.heap.mem p ∧
            tlsfBlockSize t'.heap.mem p < adjusted 100 + 32 ∧
          ∀ q ∈ t.held, ∀ x, Within x q → t'.heap.mem x = t.heap.mem x) := by
  obtain ⟨fits, s, s', length, created, _, calls, _⟩ := small_session
  exact ⟨s, _, created, calls, session_memalign fits created calls
    (show 8 < 63 by omega) (by omega)⟩

/-- A block has room for what was asked for, unless rounding the request up wraps. -/
theorem session_room {mem bytes : Nat} (fits : HeapFits mem bytes) {s₀ s : Control} {cs : List Call}
    {t t' : Session} (created : tlsfCreateWithPool mem bytes s₀ = some (mem, s))
    (calls : Calls mem ⟨s, []⟩ cs t) {request p : Nat} (word : request < 0x10000000000000000)
    (call : perform mem t (.malloc request) = some (p, t')) (gave : p ≠ 0) :
    request ≤ tlsfBlockSize t'.heap.mem p ↔ request + 7 < 0x10000000000000000 := by
  have start := start_inUse fits created
  obtain ⟨bs, _, use, _⟩ := calls.refines start
  rcases tlsfMalloc_cases use.heap word with ⟨none, _⟩ | ⟨b, s', bs', length, _, _,
    some_block, granted⟩
  · have none' : tlsfMalloc mem request t.heap = some (0, t.heap) := none
    simp only [perform, none', Option.bind_eq_bind, Option.bind_some, Option.some.injEq,
      Prod.mk.injEq] at call
    exact absurd call.1.symm gave
  · have some_block' : tlsfMalloc mem request t.heap = some (b.addr + 16, s') := some_block
    have size := tlsfBlockSize_live granted.heap (show (b.addr + 16, length) ∈ live bs' by
      rw [granted.live_eq]
      exact Set.mem_insert _ _)
    dsimp only at size
    simp only [perform, some_block', Session.take, size, if_neg (show ¬b.addr + 16 = 0 by omega),
      Option.bind_eq_bind, Option.bind_some, Option.some.injEq, Prod.mk.injEq] at call
    obtain ⟨rfl, rfl⟩ := call
    dsimp only
    rw [size]
    have large := granted.length_ge
    have tight := granted.length_lt
    by_cases wraps : 0x10000000000000000 ≤ request + 7
    · have least := adjusted_wrapped word wraps
      omega
    · have served : adjusted request ≠ 0 := by
        intro zero
        rw [tlsfMalloc_zero word zero] at some_block
        cases some_block
      have enough := le_adjusted (Nat.not_le.mp wraps) served
      omega

theorem session_room_small : ∃ s p t', tlsfCreateWithPool 4096 20000 blank = some (4096, s) ∧
    perform 4096 ⟨s, []⟩ (.malloc 100) = some (p, t') ∧ p ≠ 0 ∧
      (100 ≤ tlsfBlockSize t'.heap.mem p ↔ 100 + 7 < 0x10000000000000000) := by
  obtain ⟨fits, s, s', length, created, call, _, _⟩ := small_session
  have gave : 10640 ≠ 0 := by omega
  exact ⟨s, _, _, created, call, gave, session_room fits created (Calls.nil _) (by omega) call gave⟩

end Sessions

end Algae.Mm.TlsfSessions
