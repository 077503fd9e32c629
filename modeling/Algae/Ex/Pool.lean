/- The kernel's memory pool, over the TLSF allocator that it wraps. -/

import Algae.Sdk.Defs

set_option autoImplicit false
set_option relaxedAutoImplicit false

namespace Algae.Ex.Pool

open Algae.Sdk.Defs

/-- The two functions of the TLSF library that the pool calls, and what their callers
rely on. `used` are the blocks handed out and not freed since. -/
structure Tlsf (τ : Type) where
  tlsf_malloc : τ → Nat → Option Pointer × τ
  tlsf_free : τ → Pointer → τ
  used : τ → Set Pointer
  taken : ∀ t length p, (tlsf_malloc t length).1 = some p →
    p ∉ used t ∧ used (tlsf_malloc t length).2 = insert p (used t)
  refused : ∀ t length, (tlsf_malloc t length).1 = none → used (tlsf_malloc t length).2 = used t
  freed : ∀ t p, used (tlsf_free t p) = used t \ {p}

structure PoolState (τ : Type) where
  isInit : Bool
  tlsfCtx : τ

section Code

variable {τ : Type} (tlsf : Tlsf τ)

def exAllocatePool (length : Nat) (s : PoolState τ) : Option Pointer × PoolState τ :=
  if !s.isInit then
    (none, s)
  else
    let (tmp, tlsfCtx) := tlsf.tlsf_malloc s.tlsfCtx length
    (tmp, { s with tlsfCtx := tlsfCtx })

def exFreePool (pool : Pointer) (s : PoolState τ) : PoolState τ :=
  { s with tlsfCtx := tlsf.tlsf_free s.tlsfCtx pool }

def poolUsed (s : PoolState τ) : Set Pointer := tlsf.used s.tlsfCtx

@[simp] theorem poolUsed_exFreePool (pool : Pointer) (s : PoolState τ) :
    poolUsed tlsf (exFreePool tlsf pool s) = poolUsed tlsf s \ {pool} :=
  tlsf.freed s.tlsfCtx pool

theorem exAllocatePool_taken {length : Nat} {s : PoolState τ} {p : Pointer}
    (done : (exAllocatePool tlsf length s).1 = some p) :
    p ∉ poolUsed tlsf s ∧
      poolUsed tlsf (exAllocatePool tlsf length s).2 = insert p (poolUsed tlsf s) := by
  cases init : s.isInit with
  | false =>
    simp only [exAllocatePool, init, Bool.not_false, if_true] at done
    cases done
  | true =>
    simp only [exAllocatePool, init, Bool.not_true, Bool.false_eq_true, if_false] at done ⊢
    exact tlsf.taken s.tlsfCtx length p done

theorem exAllocatePool_refused {length : Nat} {s : PoolState τ}
    (failed : (exAllocatePool tlsf length s).1 = none) :
    poolUsed tlsf (exAllocatePool tlsf length s).2 = poolUsed tlsf s := by
  cases init : s.isInit with
  | false => simp only [exAllocatePool, init, Bool.not_false, if_true]
  | true =>
    simp only [exAllocatePool, init, Bool.not_true, Bool.false_eq_true, if_false] at failed ⊢
    exact tlsf.refused s.tlsfCtx length failed

theorem poolUsed_taken {length : Nat} {s pool : PoolState τ} {p : Pointer}
    (call : exAllocatePool tlsf length s = (some p, pool)) :
    p ∉ poolUsed tlsf s ∧ poolUsed tlsf pool = insert p (poolUsed tlsf s) := by
  have taken := exAllocatePool_taken tlsf (congrArg Prod.fst call)
  rwa [call] at taken

theorem poolUsed_refused {length : Nat} {s pool : PoolState τ}
    (call : exAllocatePool tlsf length s = (none, pool)) :
    poolUsed tlsf pool = poolUsed tlsf s := by
  have refused := exAllocatePool_refused tlsf (congrArg Prod.fst call)
  rwa [call] at refused

end Code

theorem used_filter (t : List Pointer) (p : Pointer) :
    {q | q ∈ t.filter fun q => decide (q ≠ p)} = {q | q ∈ t} \ {p} := by
  ext x
  simp [List.mem_filter]

/-- A pool of fixed blocks, each handed out while it is not in use. -/
def blockTlsf (blocks : List Pointer) : Tlsf (List Pointer) where
  tlsf_malloc t _ :=
    match blocks.find? fun p => decide (p ∉ t) with
    | none => (none, t)
    | some p => (some p, p :: t)
  tlsf_free t p := t.filter fun q => decide (q ≠ p)
  used t := {p | p ∈ t}
  taken := by
    intro t length p done
    cases found : blocks.find? fun p => decide (p ∉ t) with
    | none =>
      simp only [found] at done
      cases done
    | some q =>
      simp only [found] at done ⊢
      obtain rfl := Option.some.inj done
      refine ⟨of_decide_eq_true (List.find?_some (p := fun p => decide (p ∉ t)) found), ?_⟩
      ext x
      exact List.mem_cons
  refused := by
    intro t length failed
    cases found : blocks.find? fun p => decide (p ∉ t) with
    | none => rfl
    | some q =>
      simp only [found] at failed
      cases failed
  freed := used_filter

end Algae.Ex.Pool
