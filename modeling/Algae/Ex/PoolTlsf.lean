/- TLSF is what the users of the pool take it for: its sessions are an instance of the interface
   that they are verified over, and the pool over it gives the pointers of the real one. -/

import Algae.Ex.Pool
import Algae.Ex.PoolRuns

set_option autoImplicit false
set_option relaxedAutoImplicit false

namespace Algae.Ex.PoolTlsf

open Algae.Lib.Allocation
open Algae.Sdk.Defs Algae.Mm.Heap Algae.Mm.Page Algae.Mm.Tlsf
open Algae.Mm.TlsfBlocks Algae.Mm.TlsfHeap Algae.Mm.TlsfAlloc Algae.Mm.TlsfCreate
open Algae.Mm.TlsfRuns Algae.Mm.TlsfSessions Algae.Ex.Pool Algae.Ex.PoolHeap Algae.Ex.PoolRuns

def InUseHeap (a : Arena) : Type := {t : Session // ∃ bs, InUse a t bs}

def pointer (p : Nat) : Option Pointer :=
  if some_place : BitVec.ofNat 64 p ≠ 0 then some ⟨BitVec.ofNat 64 p, some_place⟩ else none

private theorem pointer_eq_some {p : Nat} (word : p < 0x10000000000000000) {q : Pointer} :
    pointer p = some q ↔ q.val.toNat = p := by
  have bound : p < 2 ^ 64 := word
  unfold pointer
  split
  · rw [Option.some_inj, Subtype.ext_iff, BitVec.toNat_eq, BitVec.toNat_ofNat,
      Nat.mod_eq_of_lt bound]
    exact eq_comm
  · rename_i null
    have zero : p = 0 := by
      have same := congrArg BitVec.toNat (not_not.mp null)
      rw [BitVec.toNat_ofNat, Nat.mod_eq_of_lt bound] at same
      exact same
    refine iff_of_false (fun none => by cases none) fun same => q.property ?_
    apply BitVec.eq_of_toNat_eq
    rw [same, zero]
    rfl

private theorem pointer_ne_none {p : Nat} (word : p < 0x10000000000000000) (nonnull : p ≠ 0) :
    pointer p ≠ none := by
  have bound : p < 2 ^ 64 := word
  have place : BitVec.ofNat 64 p ≠ 0 := by
    intro null
    have same := congrArg BitVec.toNat null
    rw [BitVec.toNat_ofNat, Nat.mod_eq_of_lt bound] at same
    exact nonnull same
  rw [pointer, dif_pos place]
  exact Option.some_ne_none _

section Sessions

variable {a : Arena} {t t' : Session} {p : Nat}

private theorem perform_keeps (use : ∃ bs, InUse a t bs) {c : Call} (legal : Legal t c)
    (call : perform a.control t c = some (p, t')) : ∃ bs, InUse a t' bs :=
  (call_step t c t' use ⟨legal, p, call⟩).1

private theorem request_legal (t : Session) (length : Nat) :
    Legal t (.malloc (length % 0x10000000000000000)) :=
  Nat.mod_lt _ (by omega)

private theorem free_legal {q : Pointer} (held : ∃ r ∈ t.held, r.1 = q.val.toNat) :
    Legal t (.free q.val.toNat) :=
  Or.inr held

def freeSession (a : Arena) (t : InUseHeap a) (q : Pointer) : InUseHeap a :=
  if held : ∃ r ∈ t.val.held, r.1 = q.val.toNat then
    match call : perform a.control t.val (.free q.val.toNat) with
    | none => t
    | some (_, t') => ⟨t', perform_keeps t.property (free_legal held) call⟩
  else
    t

def mallocSession (a : Arena) (t : InUseHeap a) (length : Nat) : Option Pointer × InUseHeap a :=
  match call : perform a.control t.val (.malloc (length % 0x10000000000000000)) with
  | none => (none, t)
  | some (p, t') => (pointer p, ⟨t', perform_keeps t.property (request_legal t.val length) call⟩)

def starts (t : Session) : Set Pointer := {q | ∃ r ∈ t.held, r.1 = q.val.toNat}

private theorem mallocSession_eq (t : InUseHeap a) (length : Nat) :
    ∃ p t', perform a.control t.val (.malloc (length % 0x10000000000000000)) = some (p, t'.val) ∧
      mallocSession a t length = (pointer p, t') := by
  obtain ⟨bs, use⟩ := t.property
  obtain ⟨p, t', bs', call, use', _⟩ := perform_step use (request_legal t.val length)
  refine ⟨p, ⟨t', bs', use'⟩, call, ?_⟩
  unfold mallocSession
  split
  · rename_i none
    rw [call] at none
    cases none
  · rename_i q t'' again
    rw [call] at again
    obtain ⟨rfl, rfl⟩ := Prod.mk.inj (Option.some.inj again)
    rfl

private theorem freeSession_eq (t : InUseHeap a) {q : Pointer}
    (held : ∃ r ∈ t.val.held, r.1 = q.val.toNat) :
    ∃ t' : InUseHeap a, perform a.control t.val (.free q.val.toNat) = some (0, t'.val) ∧
      freeSession a t q = t' := by
  obtain ⟨bs, use⟩ := t.property
  obtain ⟨p, t', bs', call, use', _⟩ :=
    perform_step use (show Legal t.val (.free q.val.toNat) from Or.inr held)
  obtain ⟨_, _, rfl, _⟩ := perform_free.mp call
  refine ⟨⟨t', bs', use'⟩, call, ?_⟩
  unfold freeSession
  rw [dif_pos held]
  split
  · rename_i none
    rw [call] at none
    cases none
  · rename_i _ t'' again
    rw [call] at again
    obtain ⟨_, rfl⟩ := Prod.mk.inj (Option.some.inj again)
    rfl

private theorem malloc_starts (use : ∃ bs, InUse a t bs) {length : Nat}
    (word : length < 0x10000000000000000)
    (call : perform a.control t (.malloc length) = some (p, t')) :
    (p = 0 ∧ t'.held = t.held) ∨
      p ≠ 0 ∧ p < 0x10000000000000000 ∧ (∀ r ∈ t.held, r.1 ≠ p) ∧ ∃ n,
        t'.held = (p, n) :: t.held := by
  obtain ⟨bs, use⟩ := use
  obtain ⟨p', s, bs', malloc, use', _⟩ := malloc_step use word
  obtain ⟨s', again, rfl⟩ := perform_malloc.mp call
  obtain ⟨rfl, rfl⟩ := Prod.mk.inj (Option.some.inj (malloc.symm.trans again))
  unfold Session.take at use' ⊢
  split at use'
  · rename_i null
    rw [if_pos null]
    exact Or.inl ⟨null, rfl⟩
  · rename_i nonnull
    rw [if_neg nonnull]
    have sound := live_sound use'.heap
    have taken := (use'.held _).mp List.mem_cons_self
    obtain ⟨_, high, positive⟩ := sound.inside _ taken
    have limit := a.word
    refine Or.inr ⟨nonnull, by dsimp only at high; omega, fun r member same => ?_, _, rfl⟩
    have old := (use'.held r).mp (List.mem_cons_of_mem _ member)
    have other : r ≠ (p', tlsfBlockSize s.mem p') := by
      rintro rfl
      exact (List.nodup_cons.mp use'.nodup).1 member
    have apart := sound.apart r old _ taken other
    obtain ⟨_, _, positive'⟩ := sound.inside r old
    unfold Apart at apart
    dsimp only at apart positive
    omega

/-- The sessions with a heap, as the users of the pool see them. -/
def tlsfOf (a : Arena) : Tlsf (InUseHeap a) where
  tlsf_malloc := mallocSession a
  tlsf_free := freeSession a
  used t := starts t.val
  taken t length q gave := by
    obtain ⟨p, t', call, same⟩ := mallocSession_eq t length
    rw [same] at gave ⊢
    rcases malloc_starts t.property (request_legal t.val length)
      call with ⟨rfl, _⟩ | ⟨nonnull, word, fresh, n, held⟩
    · cases gave
    · have start := (pointer_eq_some word).mp gave
      refine ⟨fun old => ?_, ?_⟩
      · obtain ⟨r, member, first⟩ := old
        exact fresh r member (first.trans start)
      · ext q'
        simp only [starts, held, Set.mem_insert_iff, List.exists_mem_cons_iff, Set.mem_ofPred_eq]
        refine or_congr_left ?_
        rw [Subtype.ext_iff, BitVec.toNat_eq, start]
        exact eq_comm
  refused t length none := by
    obtain ⟨p, t', call, same⟩ := mallocSession_eq t length
    rw [same] at none ⊢
    rcases malloc_starts t.property (request_legal t.val length)
      call with ⟨_, held⟩ | ⟨nonnull, word, fresh, n, held⟩
    · unfold starts
      rw [held]
    · exact absurd none (pointer_ne_none word nonnull)
  freed t q := by
    by_cases held : ∃ r ∈ t.val.held, r.1 = q.val.toNat
    · obtain ⟨t', call, same⟩ := freeSession_eq t held
      obtain ⟨s, _, _, after⟩ := perform_free.mp call
      rw [same]
      ext q'
      simp only [starts, after, mem_without, Set.mem_sdiff, Set.mem_singleton_iff,
        Set.mem_ofPred_eq]
      rw [Subtype.ext_iff, BitVec.toNat_eq]
      constructor
      · rintro ⟨r, ⟨member, other⟩, start⟩
        exact ⟨⟨r, member, start⟩, fun equal => other (start.trans equal)⟩
      · rintro ⟨⟨r, member, start⟩, other⟩
        exact ⟨r, ⟨member, fun equal => other (start.symm.trans equal)⟩, start⟩
    · rw [freeSession, dif_neg held]
      refine (Set.sdiff_singleton_eq_self ?_).symm
      exact held

end Sessions

inductive Request
  | allocate (length : Nat)
  | free (pool : Pointer)

section Answers

variable {τ : Type} (tlsf : Tlsf τ)

def answer (s : PoolState τ) : Request → Option Pointer × PoolState τ
  | .allocate length => Pool.exAllocatePool tlsf length s
  | .free pool => (none, Pool.exFreePool tlsf pool s)

def answers : PoolState τ → List Request → List (Option Pointer) × PoolState τ
  | s, [] => ([], s)
  | s, r :: rs =>
    let (p, s) := answer tlsf s r
    let (ps, s) := answers s rs
    (p :: ps, s)

end Answers

def Request.act : Request → Act
  | .allocate length => .allocate length
  | .free pool => .free pool.val.toNat

section Served

variable {σ : Type} {heap : FrameHeap σ} {kernelBase : BitVec 64} {a : Arena} {u u' : Kernel σ}
  {bs : List Block}

/-- Requests that the kernel makes of its pool one after the other, with what it gets. -/
inductive Served (heap : FrameHeap σ) (kernelBase : BitVec 64) :
    Kernel σ → List Request → List (Option Pointer) → Kernel σ → Prop
  | nil (u : Kernel σ) : Served heap kernelBase u [] [] u
  | cons {u u' u'' : Kernel σ} {r : Request} {rs : List Request} {p : Nat}
    {ps : List (Option Pointer)}
      (allowed : Allowed heap u r.act) (call : act heap kernelBase u r.act = some (p, u'))
      (rest : Served heap kernelBase u' rs ps u'') :
      Served heap kernelBase u (r :: rs) (pointer p :: ps) u''

private theorem request_refines (ok : PoolOk heap kernelBase a u bs) {t : InUseHeap a}
    (same : t.val = u.session heap kernelBase)
    {r : Request} {p : Nat} (allowed : Allowed heap u r.act)
    (call : act heap kernelBase u r.act = some (p, u')) :
    (∃ bs', PoolOk heap kernelBase a u' bs') ∧
      ∃ t', answer (tlsfOf a) ⟨true, t⟩ r = (pointer p, ⟨true, t'⟩) ∧
        t'.val = u'.session heap kernelBase := by
  obtain ⟨p₁, u₁, bs₁, outcome⟩ := act_step ok allowed
  obtain ⟨rfl, rfl⟩ := Prod.mk.inj (Option.some.inj (call.symm.trans outcome.call))
  refine ⟨⟨bs₁, outcome.ok⟩, ?_⟩
  cases r with
  | allocate length =>
    have word : length < 0x10000000000000000 := allowed
    have performed := outcome.calls (.malloc length) rfl
    obtain ⟨q, t', again, malloc⟩ := mallocSession_eq t length
    rw [Nat.mod_eq_of_lt word, same, performed] at again
    obtain ⟨rfl, after⟩ := Prod.mk.inj (Option.some.inj again)
    refine ⟨t', ?_, after.symm⟩
    have served : (tlsfOf a).tlsf_malloc t length = (pointer p, t') := malloc
    simp only [answer, Pool.exAllocatePool, served, Bool.not_true, Bool.false_eq_true, if_false]
  | free pool =>
    have performed := outcome.calls (.free pool.val.toNat) rfl
    have held : ∃ r ∈ t.val.held, r.1 = pool.val.toNat := by
      rw [same]
      refine allowed.resolve_left fun null => pool.property ?_
      exact BitVec.eq_of_toNat_eq null
    obtain ⟨t', again, freed⟩ := freeSession_eq t held
    rw [same, performed] at again
    obtain ⟨rfl, after⟩ := Prod.mk.inj (Option.some.inj again)
    refine ⟨t', ?_, after.symm⟩
    have gone : (tlsfOf a).tlsf_free t pool = t' := freed
    simp only [answer, Pool.exFreePool, gone]
    rfl

theorem Served.refines {rs : List Request} {ps : List (Option Pointer)}
    (served : Served heap kernelBase u rs ps u')
    (ok : ∃ bs, PoolOk heap kernelBase a u bs) (t : InUseHeap a)
    (same : t.val = u.session heap kernelBase) :
    ∃ t', answers (tlsfOf a) ⟨true, t⟩ rs = (ps, ⟨true, t'⟩) ∧
      t'.val = u'.session heap kernelBase := by
  induction served generalizing t with
  | nil u => exact ⟨t, rfl, same⟩
  | cons allowed call _ ih =>
    obtain ⟨bs, ok⟩ := ok
    obtain ⟨ok', t', gave, same'⟩ := request_refines ok same allowed call
    obtain ⟨t'', rest, same''⟩ := ih ok' t' same'
    refine ⟨t'', ?_, same''⟩
    simp only [answers, gave, rest]

variable {s s' : PoolMachine σ}

/-- After any acts of the kernel, the pool over the interface answers every list of requests as the
kernel's pool does, and says that what is in use is what is held. -/
theorem pool_refines (direct : DirectMap kernelBase) (first : s.isInit = false)
    (started : kiPoolInit heap kernelBase s = some s') {cs : List Act}
    (acts : Acts heap kernelBase ⟨s', []⟩ cs u) :
    ∃ (a : Arena) (t : InUseHeap a),
      poolUsed (tlsfOf a) ⟨true, t⟩ = {q | ∃ r ∈ u.held, r.1 = q.val.toNat} ∧
      ∀ rs ps u', Served heap kernelBase u rs ps u' →
        ∃ t', answers (tlsfOf a) ⟨true, t⟩ rs = (ps, ⟨true, t'⟩) ∧
          poolUsed (tlsfOf a) ⟨true, t'⟩ = {q | ∃ r ∈ u'.held, r.1 = q.val.toNat} := by
  obtain ⟨a, start, _⟩ := started_ok direct first started
  obtain ⟨⟨bs, ok⟩, _⟩ := acts.refines ⟨_, start⟩
  refine ⟨a, ⟨u.session heap kernelBase, bs, ok.use⟩, rfl, fun rs ps u' served => ?_⟩
  obtain ⟨t', gave, same⟩ := served.refines ⟨bs, ok⟩ ⟨u.session heap kernelBase, bs, ok.use⟩ rfl
  refine ⟨t', gave, ?_⟩
  change starts t'.val = _
  rw [same]
  rfl

theorem pool_refines_small : ∃ s' u, kiPoolInit bitmapHeap 0xFFFF800000000000 beforeInit = some s' ∧
    Acts bitmapHeap 0xFFFF800000000000 ⟨s', []⟩ [.allocate 100] u ∧
      ∃ (a : Arena) (t : InUseHeap a),
        poolUsed (tlsfOf a) ⟨true, t⟩ = {q | ∃ r ∈ u.held, r.1 = q.val.toNat} ∧
        ∀ rs ps u', Served bitmapHeap 0xFFFF800000000000 u rs ps u' →
          ∃ t', answers (tlsfOf a) ⟨true, t⟩ rs = (ps, ⟨true, t'⟩) ∧
            poolUsed (tlsfOf a) ⟨true, t'⟩ = {q | ∃ r ∈ u'.held, r.1 = q.val.toNat} := by
  obtain ⟨s', u, _, started, acts, _⟩ := small_acts
  exact ⟨s', u, started, acts, pool_refines directMap_base rfl started acts⟩

end Served

end Algae.Ex.PoolTlsf
