/- Calls of several processors under one lock that is taken by an atomic test-and-set. Whatever the
   order of their steps, the calls take effect one after the other, as the lock is released. -/

import Mathlib.Logic.Function.Basic
import Mathlib.Logic.Relation

set_option autoImplicit false
set_option relaxedAutoImplicit false

namespace Algae.Lib.LockedCalls

open Relation (ReflTransGen)

/-- What a call that does not take the lock returns at once, on the arguments and the shared state
that it reads. What runs under the lock: where a call starts, and one step of it on the shared
state. The last step gives the result. -/
structure Body (σ κ μ ρ : Type) where
  early : κ → σ → Option ρ
  start : κ → μ
  step : μ → σ → (μ × σ) ⊕ ρ

inductive Phase (κ μ : Type)
  | idle
  | waiting (c : κ)
  | inside (c : κ) (m : μ)

/-- The lock, what it protects, where each processor is, and the calls that have returned after they
had the lock, the last one first. -/
structure System (ι σ κ μ ρ : Type) where
  lock : Bool
  shared : σ
  phase : ι → Phase κ μ
  history : List (ι × κ × ρ)

def testAndSet (lock : Bool) : Bool × Bool := (lock, true)

section Calls

variable {σ κ μ ρ : Type} (body : Body σ κ μ ρ)

def Body.Next (x y : μ × σ) : Prop := body.step x.1 x.2 = .inl y

def Body.Completes (c : κ) (s : σ) (r : ρ) (s' : σ) : Prop :=
  ∃ m, ReflTransGen body.Next (body.start c, s) (m, s') ∧ body.step m s' = .inr r

private theorem Body.next_unique : Relator.RightUnique body.Next := fun _ _ _ first second =>
  Sum.inl.inj (first.symm.trans second)

private theorem Body.next_of_last {x y : μ × σ} {r : ρ} (last : body.step x.1 x.2 = .inr r)
    (more : ReflTransGen body.Next x y) : x = y := by
  rcases more.cases_head with same | ⟨z, next, _⟩
  · exact same
  · rw [Body.Next, last] at next
    cases next

theorem Body.Completes.unique {c : κ} {s s₁ s₂ : σ} {r₁ r₂ : ρ} (first : body.Completes c s r₁ s₁)
    (second : body.Completes c s r₂ s₂) : r₁ = r₂ ∧ s₁ = s₂ := by
  obtain ⟨m₁, path₁, last₁⟩ := first
  obtain ⟨m₂, path₂, last₂⟩ := second
  have same : (m₁, s₁) = (m₂, s₂) := by
    rcases ReflTransGen.total_of_right_unique body.next_unique path₁ path₂ with more | more
    · exact body.next_of_last last₁ more
    · exact (body.next_of_last last₂ more).symm
  obtain ⟨rfl, rfl⟩ := Prod.mk.inj same
  exact ⟨Sum.inr.inj (last₁.symm.trans last₂), rfl⟩

variable {ι : Type} [DecidableEq ι]

def System.attempt (S : System ι σ κ μ ρ) (i : ι) (c : κ) : System ι σ κ μ ρ :=
  let (held, lock) := testAndSet S.lock
  { S with
    lock := lock
    phase := Function.update S.phase i (if held then .waiting c else .inside c (body.start c)) }

/-- A step of one processor. Whether a call returns early it sees before it waits for the lock, so
that others may have changed what it read once it has the lock. -/
inductive Step : System ι σ κ μ ρ → System ι σ κ μ ρ → Prop
  | early {S : System ι σ κ μ ρ} {i : ι} (c : κ) {r : ρ} (idle : S.phase i = .idle)
      (returns : body.early c S.shared = some r) : Step S S
  | call {S : System ι σ κ μ ρ} {i : ι} (c : κ) (idle : S.phase i = .idle)
      (goes_on : body.early c S.shared = none) :
      Step S { S with phase := Function.update S.phase i (.waiting c) }
  | attempt {S : System ι σ κ μ ρ} {i : ι} {c : κ} (waits : S.phase i = .waiting c) :
      Step S (S.attempt body i c)
  | body {S : System ι σ κ μ ρ} {i : ι} {c : κ} {m m' : μ} {s' : σ}
      (inside : S.phase i = .inside c m) (next : body.step m S.shared = .inl (m', s')) :
      Step S { S with shared := s', phase := Function.update S.phase i (.inside c m') }
  | release {S : System ι σ κ μ ρ} {i : ι} {c : κ} {m : μ} {r : ρ}
      (inside : S.phase i = .inside c m) (last : body.step m S.shared = .inr r) :
      Step S { S with
        lock := false, phase := Function.update S.phase i .idle, history := (i, c, r) :: S.history }

def System.start (s : σ) : System ι σ κ μ ρ := ⟨false, s, fun _ => .idle, []⟩

inductive Serial (s₀ : σ) : List (ι × κ × ρ) → σ → Prop
  | nil : Serial s₀ [] s₀
  | cons {h : List (ι × κ × ρ)} {s s' : σ} {i : ι} {c : κ} {r : ρ} (before : Serial s₀ h s)
      (call : body.Completes c s r s') : Serial s₀ ((i, c, r) :: h) s'

/-- Nobody is inside and the lock is free, or it is set and one processor is inside, so far into its
call as it would be alone. -/
inductive Held (S : System ι σ κ μ ρ) (s : σ) : Prop
  | free (clear : S.lock = false) (same : S.shared = s) (out : ∀ i c m, S.phase i ≠ .inside c m)
  | taken {i : ι} {c : κ} {m : μ} (set : S.lock = true) (inside : S.phase i = .inside c m)
      (only : ∀ j c' m', S.phase j = .inside c' m' → j = i)
      (path : ReflTransGen body.Next (body.start c, s) (m, S.shared))

variable {body} {s₀ : σ} {S S' : System ι σ κ μ ρ}

theorem Held.outside {s : σ} (held : Held body S s) {i : ι} {p : Phase κ μ}
    (before : ∀ c m, S.phase i ≠ .inside c m) (after : ∀ c m, p ≠ .inside c m) :
    Held body { S with phase := Function.update S.phase i p } s := by
  have stays : ∀ j c m, Function.update S.phase i p j = .inside c m → S.phase j = .inside c m := by
    intro j c m inside
    by_cases same : j = i
    · rw [same, Function.update_self] at inside
      exact absurd inside (after c m)
    · rwa [Function.update_of_ne same] at inside
  cases held with
  | free clear same out =>
    exact Held.free clear same fun j c m inside => out j c m (stays j c m inside)
  | @taken k c m set inside only path =>
    have other : k ≠ i := by
      rintro rfl
      exact before c m inside
    refine Held.taken set ?_ (fun j c' m' there => only j c' m' (stays j c' m' there)) path
    rw [← inside]
    exact Function.update_of_ne other _ _

theorem Step.keeps (step : Step body S S') (ok : ∃ s, Serial body s₀ S.history s ∧ Held body S s) :
    ∃ s, Serial body s₀ S'.history s ∧ Held body S' s := by
  obtain ⟨s, serial, held⟩ := ok
  cases step with
  | early => exact ⟨s, serial, held⟩
  | @call i c idle _ =>
    refine ⟨s, serial, held.outside (fun c m inside => ?_) fun c m waits => by cases waits⟩
    rw [idle] at inside
    cases inside
  | @attempt i c waits =>
    have outside : ∀ c' m, S.phase i ≠ .inside c' m := by
      intro c' m inside
      rw [waits] at inside
      cases inside
    cases held with
    | free clear same out =>
      refine ⟨s, serial, Held.taken (i := i) (c := c) (m := body.start c) rfl ?_
        (fun j c' m' inside => ?_) ?_⟩
      · simp [System.attempt, testAndSet, clear]
      · by_contra other
        simp only [System.attempt, Function.update_of_ne other] at inside
        exact out j c' m' inside
      · rw [show (S.attempt body i c).shared = s from same]
    | @taken k c' m set inside only path =>
      have same :
          S.attempt body i c = { S with phase := Function.update S.phase i (.waiting c) } := by
        simp [System.attempt, testAndSet, set]
      rw [same]
      exact ⟨s, serial, (Held.taken set inside only path).outside outside
        fun c m waits => by cases waits⟩
  | @body i c m m' s' inside next =>
    cases held with
    | free clear same out => exact absurd inside (out i c m)
    | @taken k c' m₀ set there only path =>
      obtain rfl := only i c m inside
      rw [inside] at there
      obtain ⟨rfl, rfl⟩ := Phase.inside.inj there
      refine ⟨s, serial, Held.taken (i := i) (c := c) (m := m') set (Function.update_self _ _ _)
        (fun j c' m'' inside' => ?_)
        (path.tail next)⟩
      by_contra other
      simp only [Function.update_of_ne other] at inside'
      exact other (only j c' m'' inside')
  | @release i c m r inside last =>
    cases held with
    | free clear same out => exact absurd inside (out i c m)
    | @taken k c' m₀ set there only path =>
      obtain rfl := only i c m inside
      rw [inside] at there
      obtain ⟨rfl, rfl⟩ := Phase.inside.inj there
      refine ⟨S.shared, Serial.cons serial ⟨m, path, last⟩,
        Held.free rfl rfl fun j c' m' inside' => ?_⟩
      by_cases same : j = i
      · simp [same] at inside'
      · simp only [Function.update_of_ne same] at inside'
        exact same (only j c' m' inside')

theorem serial_of_run (run : ReflTransGen (Step body) (System.start s₀) S) :
    ∃ s, Serial body s₀ S.history s ∧ Held body S s := by
  induction run with
  | refl => exact ⟨s₀, Serial.nil, Held.free rfl rfl fun _ _ _ inside => by cases inside⟩
  | tail _ step ih => exact step.keeps ih

theorem exclusive_of_run (run : ReflTransGen (Step body) (System.start s₀) S) {i j : ι}
    {c d : κ} {m n : μ}
    (here : S.phase i = .inside c m) (there : S.phase j = .inside d n) : i = j := by
  obtain ⟨s, _, held⟩ := serial_of_run run
  cases held with
  | free _ _ out => exact absurd here (out i c m)
  | taken _ _ only _ => exact (only i c m here).trans (only j d n there).symm

private theorem inside_path {i : ι} {c : κ} {x y : μ × σ} (path : ReflTransGen body.Next x y) :
    ∀ S : System ι σ κ μ ρ, S.phase i = .inside c x.1 → S.shared = x.2 →
      ReflTransGen
        (Step body) S
        { S with shared := y.2, phase := Function.update S.phase i (.inside c y.1) } := by
  induction path with
  | refl =>
    intro S inside same
    rw [← inside, Function.update_eq_self, ← same]
  | @tail y z _ next ih =>
    intro S inside same
    refine (ih S inside same).tail ?_
    have step :
        Step body { S with shared := y.2, phase := Function.update S.phase i (.inside c y.1) } _ :=
      Step.body (Function.update_self _ _ _) next
    rwa [Function.update_idem] at step

theorem return_alone {i : ι} {c : κ} {r : ρ} {s' : σ} (clear : S.lock = false)
    (waits : S.phase i = .waiting c)
    (call : body.Completes c S.shared r s') : ReflTransGen (Step body) S
      ⟨false, s', Function.update S.phase i .idle, (i, c, r) :: S.history⟩ := by
  obtain ⟨n, path, last⟩ := call
  have entered : S.attempt body i c = { S with
      lock := true, phase := Function.update S.phase i (.inside c (body.start c)) } := by
    simp [System.attempt, testAndSet, clear]
  have taken : Step body S _ := Step.attempt waits
  rw [entered] at taken
  have inside :=
    (ReflTransGen.single taken).trans (inside_path path _ (Function.update_self _ _ _) rfl)
  have returned := inside.tail (Step.release (Function.update_self _ _ _) last)
  simp only [Function.update_idem] at returned
  exact returned

private theorem Held.can_release (total : ∀ c s, ∃ r s', body.Completes c s r s') {s : σ}
    (held : Held body S s) :
    ∃ S', ReflTransGen (Step body) S S' ∧ S'.lock = false ∧ ∀ j c, S.phase j = .waiting c →
      S'.phase j = .waiting c := by
  cases held with
  | free clear _ _ => exact ⟨S, .refl, clear, fun _ _ waits => waits⟩
  | @taken i c m set inside only path =>
    obtain ⟨r, s', n, whole, last⟩ := total c s
    have rest : ReflTransGen body.Next (m, S.shared) (n, s') := by
      rcases ReflTransGen.total_of_right_unique body.next_unique path whole with more | more
      · exact more
      · rw [body.next_of_last last more]
    refine ⟨_, (inside_path rest S inside rfl).tail
      (Step.release (Function.update_self _ _ _) last), rfl, ?_⟩
    intro j d waits
    have other : j ≠ i := by
      rintro rfl
      rw [inside] at waits
      cases waits
    dsimp only
    rw [Function.update_idem, Function.update_of_ne other]
    exact waits

theorem waiting_can_return (total : ∀ c s, ∃ r s', body.Completes c s r s')
    (run : ReflTransGen (Step body) (System.start s₀) S) {i : ι} {c : κ}
    (waits : S.phase i = .waiting c) :
    ∃ S' r, ReflTransGen (Step body) S S' ∧ S'.phase i = .idle ∧ (i, c, r) ∈ S'.history := by
  obtain ⟨s, _, held⟩ := serial_of_run run
  obtain ⟨S₁, path₁, clear, still⟩ := held.can_release total
  obtain ⟨r, s', call⟩ := total c S₁.shared
  exact ⟨_, r, path₁.trans (return_alone clear (still i c waits) call), Function.update_self _ _ _,
    List.mem_cons_self⟩

end Calls

end Algae.Lib.LockedCalls
