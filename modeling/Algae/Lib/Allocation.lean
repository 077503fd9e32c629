/- What an allocator promises: regions that are handed out lie in the arena and do not overlap,
   and a region holds what was written to it until it is given back. -/

import Mathlib.Data.Set.Insert
import Mathlib.Logic.Function.Basic

set_option autoImplicit false
set_option relaxedAutoImplicit false

namespace Algae.Lib.Allocation

abbrev Region := Nat × Nat

def Within (x : Nat) (r : Region) : Prop := r.1 ≤ x ∧ x < r.1 + r.2

def Apart (r q : Region) : Prop := r.1 + r.2 ≤ q.1 ∨ q.1 + q.2 ≤ r.1

section Contract

variable {β : Type}

def Keeps (P : Set Region) (m m' : Nat → β) : Prop := ∀ r ∈ P, ∀ x, Within x r → m' x = m x

theorem Keeps.refl (P : Set Region) (m : Nat → β) : Keeps P m m := fun _ _ _ _ => rfl

theorem Keeps.mono {P Q : Set Region} {m m' : Nat → β} (keeps : Keeps Q m m') (part : P ⊆ Q) :
    Keeps P m m' :=
  fun r member => keeps r (part member)

theorem Keeps.trans {P : Set Region} {m m' m'' : Nat → β} (first : Keeps P m m')
    (second : Keeps P m' m'') :
    Keeps P m m'' :=
      fun r member x inside => (second r member x inside).trans (first r member x inside)

theorem Keeps.add {P Q : Set Region} {m m' : Nat → β} {r : Region} (keeps : Keeps (P ∪ Q) m m')
    (same : ∀ x, Within x r → m' x = m x) : Keeps (P ∪ insert r Q) m m' := by
  rintro q (around | rfl | old) x inside
  · exact keeps q (Or.inl around) x inside
  · exact same x inside
  · exact keeps q (Or.inr old) x inside

theorem Keeps.fewer {P Q : Set Region} {m m' : Nat → β} {r : Region}
    (keeps : Keeps (P ∪ insert r Q) m m') :
    Keeps (P ∪ Q) m m' :=
  keeps.mono (Set.union_subset_union_right P (Set.subset_insert r Q))

theorem Keeps.left {P Q : Set Region} {m m' : Nat → β} (keeps : Keeps (P ∪ Q) m m') :
    Keeps P m m' :=
  keeps.mono Set.subset_union_left

theorem Keeps.right {P Q : Set Region} {m m' : Nat → β} (keeps : Keeps (P ∪ Q) m m') :
    Keeps Q m m' :=
  keeps.mono Set.subset_union_right

structure State (β : Type) where
  live : Set Region
  mem : Nat → β

/-- A region that moves takes so much of its contents along. -/
inductive Event (β : Type)
  | grant (r : Region)
  | refuse
  | release (r : Region)
  | move (r q : Region) (n : Nat)
  | write (x : Nat) (v : β)

/-- An allocator over the addresses from `lo` up to `hi`, which leaves what is `around` alone. -/
inductive Step (around : Set Region) (lo hi : Nat) : State β → Event β → State β → Prop
  | grant {live : Set Region} {m m' : Nat → β} {r : Region} (low : lo ≤ r.1) (high : r.1 + r.2 ≤ hi)
      (positive : 0 < r.2) (apart : ∀ q ∈ live, Apart r q) (keeps : Keeps (around ∪ live) m m') :
      Step around lo hi ⟨live, m⟩ (.grant r) ⟨insert r live, m'⟩
  | refuse {live : Set Region} {m m' : Nat → β} (keeps : Keeps (around ∪ live) m m') :
      Step around lo hi ⟨live, m⟩ .refuse ⟨live, m'⟩
  | release {live : Set Region} {m m' : Nat → β} {r : Region} (member : r ∈ live)
      (keeps : Keeps (around ∪ live \ {r}) m m') :
      Step around lo hi ⟨live, m⟩ (.release r) ⟨live \ {r}, m'⟩
  | move {live : Set Region} {m m' : Nat → β} {r q : Region} {n : Nat} (member : r ∈ live)
    (low : lo ≤ q.1)
      (high : q.1 + q.2 ≤ hi) (positive : 0 < q.2) (room : n ≤ q.2)
      (apart : ∀ p ∈ live \ {r}, Apart q p) (keeps : Keeps (around ∪ live \ {r}) m m')
      (copied : ∀ i, i < r.2 → i < n → m' (q.1 + i) = m (r.1 + i)) :
      Step around lo hi ⟨live, m⟩ (.move r q n) ⟨insert q (live \ {r}), m'⟩
  | write {live : Set Region} {m : Nat → β} {r : Region} {x : Nat} {v : β} (member : r ∈ live)
      (inside : Within x r) : Step around lo hi ⟨live, m⟩ (.write x v) ⟨live, Function.update m x v⟩

inductive Run (around : Set Region) (lo hi : Nat) : State β → List (Event β) → State β → Prop
  | nil (A : State β) : Run around lo hi A [] A
  | cons {A B C : State β} {e : Event β} {es : List (Event β)} (step : Step around lo hi A e B)
      (rest : Run around lo hi B es C) : Run around lo hi A (e :: es) C

structure Sound (lo hi : Nat) (live : Set Region) : Prop where
  inside : ∀ r ∈ live, lo ≤ r.1 ∧ r.1 + r.2 ≤ hi ∧ 0 < r.2
  apart : ∀ r ∈ live, ∀ q ∈ live, r ≠ q → Apart r q

variable {around : Set Region} {lo hi : Nat}

theorem Sound.subset {live live' : Set Region} (sound : Sound lo hi live) (part : live' ⊆ live) :
    Sound lo hi live' where
  inside r member := sound.inside r (part member)
  apart r member q member' := sound.apart r (part member) q (part member')

theorem Sound.grant {live : Set Region} (sound : Sound lo hi live) {r : Region} (low : lo ≤ r.1)
    (high : r.1 + r.2 ≤ hi) (positive : 0 < r.2) (apart : ∀ q ∈ live, Apart r q) :
    Sound lo hi (insert r live) := by
  constructor
  · rintro q (rfl | old)
    · exact ⟨low, high, positive⟩
    · exact sound.inside q old
  · rintro p (rfl | old) q (rfl | old') other
    · exact absurd rfl other
    · exact apart q old'
    · exact (apart p old).symm
    · exact sound.apart p old q old' other

theorem Step.sound {A B : State β} {e : Event β} (step : Step around lo hi A e B)
    (sound : Sound lo hi A.live) :
    Sound lo hi B.live := by
  cases step with
  | grant low high positive apart _ => exact sound.grant low high positive apart
  | refuse _ => exact sound
  | release _ _ => exact sound.subset fun _ old => old.1
  | move _ low high positive _ apart _ _ =>
    exact (sound.subset fun _ old => old.1).grant low high positive apart
  | write _ _ => exact sound

theorem Step.mono {around' : Set Region} {A B : State β} {e : Event β}
    (step : Step around lo hi A e B) (part : around' ⊆ around) : Step around' lo hi A e B := by
  have fewer : ∀ P : Set Region, around' ∪ P ⊆ around ∪ P :=
    fun P => Set.union_subset_union_left P part
  cases step with
  | grant low high positive apart keeps =>
    exact Step.grant low high positive apart (keeps.mono (fewer _))
  | refuse keeps => exact Step.refuse (keeps.mono (fewer _))
  | release member keeps => exact Step.release member (keeps.mono (fewer _))
  | move member low high positive room apart keeps copied =>
    exact Step.move member low high positive room apart (keeps.mono (fewer _)) copied
  | write member inside => exact Step.write member inside

theorem Step.keeps_around {A B : State β} {e : Event β} (step : Step around lo hi A e B)
    (sound : Sound lo hi A.live)
    (apart : ∀ r ∈ around, r.1 + r.2 ≤ lo ∨ hi ≤ r.1) : Keeps around A.mem B.mem := by
  cases step with
  | grant _ _ _ _ keeps => exact keeps.left
  | refuse keeps => exact keeps.left
  | release _ keeps => exact keeps.left
  | move _ _ _ _ _ _ keeps _ => exact keeps.left
  | @write _ _ _ y _ member inside =>
    intro q outer x here
    refine Function.update_of_ne ?_ _ _
    rintro rfl
    have bounds := sound.inside _ member
    have order := apart q outer
    unfold Within at inside here
    omega

theorem Run.keeps_around {A B : State β} {es : List (Event β)} (run : Run around lo hi A es B)
    (sound : Sound lo hi A.live)
    (apart : ∀ r ∈ around, r.1 + r.2 ≤ lo ∨ hi ≤ r.1) : Keeps around A.mem B.mem := by
  induction run with
  | nil _ => exact Keeps.refl _ _
  | cons step _ ih => exact (step.keeps_around sound apart).trans (ih (step.sound sound))

def Event.value (x : Nat) (v : β) : Event β → β
  | .write y w => if y = x then w else v
  | _ => v

def lastValue (x : Nat) (es : List (Event β)) (v : β) : β := es.foldl (Event.value x) v

def Event.Releases (r : Region) : Event β → Prop
  | .release q => q = r
  | .move q _ _ => q = r
  | _ => False

theorem Step.value {A B : State β} {e : Event β} (step : Step around lo hi A e B) {r : Region}
    (member : r ∈ A.live) (held : ¬e.Releases r) {x : Nat} (inside : Within x r) :
    r ∈ B.live ∧ B.mem x = e.value x (A.mem x) := by
  cases step with
  | grant _ _ _ _ keeps => exact ⟨Set.mem_insert_of_mem _ member, keeps.right r member x inside⟩
  | refuse keeps => exact ⟨member, keeps.right r member x inside⟩
  | @release live _ _ q _ keeps =>
    have kept : r ∈ live \ {q} := ⟨member, fun same => held same.symm⟩
    exact ⟨kept, keeps.right r kept x inside⟩
  | @move live _ _ q p n _ _ _ _ _ _ keeps _ =>
    have kept : r ∈ live \ {q} := ⟨member, fun same => held same.symm⟩
    exact ⟨Set.mem_insert_of_mem _ kept, keeps.right r kept x inside⟩
  | @write _ _ _ y _ _ _ =>
    refine ⟨member, ?_⟩
    dsimp only
    rw [Event.value, Function.update_apply]
    exact if_congr eq_comm rfl rfl

theorem Run.value {A B : State β} {es : List (Event β)} (run : Run around lo hi A es B) {r : Region}
    (member : r ∈ A.live) (held : ∀ e ∈ es, ¬e.Releases r) {x : Nat} (inside : Within x r) :
    r ∈ B.live ∧ B.mem x = lastValue x es (A.mem x) := by
  induction run with
  | nil _ => exact ⟨member, rfl⟩
  | cons step _ ih =>
    obtain ⟨stays, value⟩ := step.value member (held _ List.mem_cons_self) inside
    obtain ⟨stays, value'⟩ := ih stays fun e later => held e (List.mem_cons_of_mem _ later)
    refine ⟨stays, ?_⟩
    rw [value', value]
    rfl

end Contract

section Clients

variable {σ κ β : Type} {R : σ → κ → σ → Prop}

inductive Trace (R : σ → κ → σ → Prop) : σ → List κ → σ → Prop
  | nil (s : σ) : Trace R s [] s
  | cons {s s' s'' : σ} {c : κ} {cs : List κ} (step : R s c s') (rest : Trace R s' cs s'') :
    Trace R s (c :: cs) s''

/-- Where each call of the client is an event, a run of the client is a run of the allocator. What
the calls write and give up is what the events do. -/
theorem Trace.run {around : Set Region} {lo hi : Nat} {inv : σ → Prop} {view : σ → State β}
    {value : Nat → β → κ → β} {gives : κ → Region → Prop}
    (step : ∀ s c s', inv s → R s c s' → inv s' ∧ ∃ e, Step around lo hi (view s) e (view s') ∧
      (∀ x v, e.value x v = value x v c) ∧ ∀ r, e.Releases r → gives c r)
    {s s' : σ} {cs : List κ} (trace : Trace R s cs s') (ok : inv s) :
    inv s' ∧ ∃ es, Run around lo hi (view s) es (view s') ∧
      (∀ x v, lastValue x es v = cs.foldl (value x) v) ∧
      ∀ r, (∀ c ∈ cs, ¬gives c r) → ∀ e ∈ es, ¬e.Releases r := by
  induction trace with
  | nil s => exact ⟨ok, [], Run.nil _, fun _ _ => rfl, fun _ _ _ none => by cases none⟩
  | @cons s₀ s₁ s₂ c cs call rest ih =>
    obtain ⟨ok₁, e, event, writes, gives_up⟩ := step _ _ _ ok call
    obtain ⟨ok₂, es, run, values, releases⟩ := ih ok₁
    refine ⟨ok₂, e :: es, Run.cons event run, fun x v => ?_, fun r kept e' member => ?_⟩
    · rw [lastValue, List.foldl_cons, List.foldl_cons, writes]
      exact values x _
    · rcases List.mem_cons.mp member with rfl | later
      · exact fun released => kept c List.mem_cons_self (gives_up r released)
      · exact releases r (fun c later => kept c (List.mem_cons_of_mem _ later)) e' later

end Clients

end Algae.Lib.Allocation
