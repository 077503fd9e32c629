/- Radix trees in a heap of nodes: the nodes that paths of slots reach, forests in
   which every node is reached once, and what linking a fresh node changes. -/

import Mathlib.Data.List.Induction
import Mathlib.Data.Set.Insert

set_option autoImplicit false
set_option relaxedAutoImplicit false

namespace Algae.Lib.RadixForest

variable {ν δ : Type}

def follow (slot : ν → δ → Option ν) (n : ν) : List δ → Option ν
  | [] => some n
  | d :: ds => (slot n d).bind fun m => follow slot m ds

theorem follow_append (slot : ν → δ → Option ν) (n : ν) (ds es : List δ) :
    follow slot n (ds ++ es) = (follow slot n ds).bind fun m => follow slot m es := by
  induction ds generalizing n with
  | nil => simp [follow]
  | cons d ds ih =>
    cases h : slot n d with
    | none => simp [follow, h]
    | some m => simp [follow, h, ih]

theorem follow_snoc (slot : ν → δ → Option ν) (n : ν) (ds : List δ) (d : δ) :
    follow slot n (ds ++ [d]) = (follow slot n ds).bind fun m => slot m d := by
  rw [follow_append]
  congr 1
  funext m
  cases h : slot m d with
  | none => simp [follow, h]
  | some k => simp [follow, h]

/-- The paths that are walked: with a path, also the path without its last slot. -/
structure PathSet (paths : List δ → Prop) : Prop where
  nil : paths []
  init : ∀ {ds d}, paths (ds ++ [d]) → paths ds

theorem PathSet.of_append {paths : List δ → Prop} (ps : PathSet paths) {ds es : List δ}
    (path : paths (ds ++ es)) : paths ds := by
  induction es using List.reverseRecOn with
  | nil => rwa [List.append_nil] at path
  | append_singleton es e ih =>
    rw [← List.append_assoc] at path
    exact ih (ps.init path)

/-- Node `n` of the forest has a slot `d` that a walk may look at. -/
def Inner (slot : ν → δ → Option ν) (paths : List δ → Prop) (roots : Set ν) (n : ν) (d : δ) :
    Prop :=
  ∃ r ∈ roots, ∃ ds, paths (ds ++ [d]) ∧ follow slot r ds = some n

def Node (slot : ν → δ → Option ν) (paths : List δ → Prop) (roots : Set ν) (n : ν) : Prop :=
  ∃ r ∈ roots, ∃ ds, paths ds ∧ follow slot r ds = some n

/-- Every node is reached from one root only, by one path only. -/
structure Forest (slot : ν → δ → Option ν) (paths : List δ → Prop) (roots : Set ν) : Prop where
  unique : ∀ {r r' ds ds' n}, r ∈ roots → r' ∈ roots → paths ds → paths ds' →
    follow slot r ds = some n → follow slot r' ds' = some n → r = r' ∧ ds = ds'

section Changes

theorem Inner.node {slot : ν → δ → Option ν} {paths : List δ → Prop} {roots : Set ν} {n : ν} {d : δ}
    (ps : PathSet paths) (inner : Inner slot paths roots n d) : Node slot paths roots n := by
  obtain ⟨r, hr, ds, path, here⟩ := inner
  exact ⟨r, hr, ds, ps.init path, here⟩

variable {slot slot' : ν → δ → Option ν} {paths : List δ → Prop} {roots : Set ν}

theorem follow_frame (ps : PathSet paths)
    (agree : ∀ n d, Inner slot paths roots n d → slot' n d = slot n d) {r : ν} (hr : r ∈ roots)
    {ds : List δ} (path : paths ds) : follow slot' r ds = follow slot r ds := by
  induction ds using List.reverseRecOn with
  | nil => rfl
  | append_singleton ds d ih =>
    rw [follow_snoc, follow_snoc, ih (ps.init path)]
    cases here : follow slot r ds with
    | none => rfl
    | some n => exact agree n d ⟨r, hr, ds, path, here⟩

theorem Forest.frame (ps : PathSet paths) (forest : Forest slot paths roots)
    (agree : ∀ n d, Inner slot paths roots n d → slot' n d = slot n d) :
    Forest slot' paths roots where
  unique := by
    intro r r' ds ds' n hr hr' path path' there there'
    rw [follow_frame ps agree hr path] at there
    rw [follow_frame ps agree hr' path'] at there'
    exact forest.unique hr hr' path path' there there'

theorem follow_link (ps : PathSet paths) (forest : Forest slot paths roots)
    {r n m : ν} {ds : List δ}
    {d : δ} (hr : r ∈ roots) (path : paths (ds ++ [d])) (here : follow slot r ds = some n)
    (unused : slot n d = none) (linked : slot' n d = some m)
    (empty : ∀ e, paths (ds ++ [d] ++ [e]) → slot' m e = none)
    (agree : ∀ x e, Inner slot paths roots x e → x ≠ n ∨ e ≠ d → slot' x e = slot x e)
    {r' : ν} (hr' : r' ∈ roots) {ds' : List δ} (path' : paths ds') :
    (r' = r ∧ ds' = ds ++ [d] ∧ follow slot' r' ds' = some m) ∨
      (¬(r' = r ∧ ds' = ds ++ [d]) ∧ follow slot' r' ds' = follow slot r' ds') := by
  induction ds' using List.reverseRecOn with
  | nil =>
    right
    refine ⟨?_, rfl⟩
    rintro ⟨_, short⟩
    simp at short
  | append_singleton ds' e ih =>
    rw [follow_snoc, follow_snoc]
    rcases ih (ps.init path') with ⟨rfl, rfl, reached⟩ | ⟨other, same⟩
    · -- below the new node there is nothing yet
      right
      refine ⟨?_, ?_⟩
      · rintro ⟨_, long⟩
        have := congrArg List.length long
        simp at this
      · rw [reached, follow_snoc, here]
        simp [empty e path', unused]
    · rw [same]
      cases there : follow slot r' ds' with
      | none =>
        right
        refine ⟨?_, rfl⟩
        rintro ⟨rfl, whole⟩
        obtain ⟨rfl, _⟩ := List.append_inj' whole rfl
        rw [here] at there
        cases there
      | some x =>
        have inner : Inner slot paths roots x e := ⟨r', hr', ds', path', there⟩
        by_cases target : x = n ∧ e = d
        · obtain ⟨rfl, rfl⟩ := target
          obtain ⟨rfl, rfl⟩ := forest.unique hr' hr (ps.init path') (ps.init path) there here
          exact Or.inl ⟨rfl, rfl, linked⟩
        · right
          refine ⟨?_, agree x e inner (not_and_or.mp target)⟩
          rintro ⟨rfl, whole⟩
          obtain ⟨rfl, last⟩ := List.append_inj' whole rfl
          rw [here] at there
          exact target ⟨(Option.some.inj there).symm, List.singleton_inj.mp last⟩

theorem Forest.link (ps : PathSet paths) (forest : Forest slot paths roots)
    {r n m : ν} {ds : List δ}
    {d : δ} (hr : r ∈ roots) (path : paths (ds ++ [d])) (here : follow slot r ds = some n)
    (unused : slot n d = none) (fresh : ¬Node slot paths roots m) (linked : slot' n d = some m)
    (empty : ∀ e, paths (ds ++ [d] ++ [e]) → slot' m e = none)
    (agree : ∀ x e, Inner slot paths roots x e → x ≠ n ∨ e ≠ d → slot' x e = slot x e) :
    Forest slot' paths roots where
  unique := by
    intro r₁ r₂ ds₁ ds₂ x hr₁ hr₂ path₁ path₂ there₁ there₂
    have link := @follow_link _ _ _ _ _ _ ps forest _ _ _ _ _ hr path here unused linked empty agree
    rcases link hr₁ path₁ with ⟨rfl, rfl, new₁⟩ | ⟨_, old₁⟩
    · rcases link hr₂ path₂ with ⟨rfl, rfl, _⟩ | ⟨_, old₂⟩
      · exact ⟨rfl, rfl⟩
      · rw [new₁] at there₁
        rw [old₂, ← there₁] at there₂
        exact absurd ⟨r₂, hr₂, ds₂, path₂, there₂⟩ fresh
    · rcases link hr₂ path₂ with ⟨rfl, rfl, new₂⟩ | ⟨_, old₂⟩
      · rw [new₂] at there₂
        rw [old₁, ← there₂] at there₁
        exact absurd ⟨r₁, hr₁, ds₁, path₁, there₁⟩ fresh
      · rw [old₁] at there₁
        rw [old₂] at there₂
        exact forest.unique hr₁ hr₂ path₁ path₂ there₁ there₂

theorem follow_empty_root (ps : PathSet paths) {m : ν} (empty : ∀ e, paths [e] → slot m e = none)
    {ds : List δ} (path : paths ds) {n : ν} (there : follow slot m ds = some n) :
    ds = [] ∧ n = m := by
  cases ds with
  | nil => exact ⟨rfl, (Option.some.inj there).symm⟩
  | cons e ds =>
    have first : paths [e] := @PathSet.of_append _ _ ps [e] ds path
    rw [follow, empty e first] at there
    cases there

theorem Forest.add_root (ps : PathSet paths) (forest : Forest slot paths roots) {m : ν}
    (fresh : ¬Node slot paths roots m)
    (agree : ∀ x e, Inner slot paths roots x e → slot' x e = slot x e)
    (empty : ∀ e, paths [e] → slot' m e = none) :
    Forest slot' paths (insert m roots) where
  unique := by
    have out : ∀ {r ds}, r ∈ roots → paths ds → follow slot' r ds ≠ some m := by
      intro r ds hr path there
      rw [follow_frame ps agree hr path] at there
      exact fresh ⟨r, hr, ds, path, there⟩
    intro r r' ds ds' n hr hr' path path' there there'
    rcases Set.mem_insert_iff.mp hr with rfl | old
    · obtain ⟨rfl, rfl⟩ := follow_empty_root ps empty path there
      rcases Set.mem_insert_iff.mp hr' with rfl | old'
      · exact ⟨rfl, (follow_empty_root ps empty path' there').1.symm⟩
      · exact absurd there' (out old' path')
    · rcases Set.mem_insert_iff.mp hr' with rfl | old'
      · obtain ⟨rfl, rfl⟩ := follow_empty_root ps empty path' there'
        exact absurd there (out old path)
      · exact (forest.frame ps agree).unique old old' path path' there there'

end Changes

end Algae.Lib.RadixForest
