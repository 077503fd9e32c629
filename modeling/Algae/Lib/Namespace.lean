/- Hierarchical name spaces: paths and their components, resolution of a list of names
   from a node, and what appending entries to directories does to it. -/

import Mathlib.Data.List.Basic
import Mathlib.Data.List.Infix

set_option autoImplicit false
set_option relaxedAutoImplicit false

namespace Algae.Lib.Namespace

section Paths

variable {χ : Type} [DecidableEq χ]

def components (sep : χ) (path : List χ) : List (List χ) :=
  (path.splitOn sep).filter (fun name => name ≠ [])

theorem components_nil (sep : χ) : components sep [] = [] := by
  simp [components]

theorem components_append_sep {sep : χ} {name : List χ} (pure : sep ∉ name) (rest : List χ) :
    components sep (name ++ sep :: rest) =
      if name = [] then components sep rest else name :: components sep rest := by
  rw [components, List.splitOn_append_cons_self_of_not_mem pure, List.filter_cons]
  by_cases empty : name = []
  · simp [empty, components]
  · simp [empty, components]

theorem components_single {sep : χ} {name : List χ} (pure : sep ∉ name) (nonempty : name ≠ []) :
    components sep name = [name] := by
  rw [components, List.splitOn_eq_singleton pure, List.filter_cons, List.filter_nil]
  simp [nonempty]

theorem components_dropWhile (sep : χ) (path : List χ) :
    components sep (path.dropWhile (· = sep)) = components sep path := by
  induction path with
  | nil => rfl
  | cons c path ih =>
    by_cases same : c = sep
    · subst same
      rw [List.dropWhile_cons_of_pos (by simp), ih]
      have skip := components_append_sep (List.not_mem_nil (a := c)) path
      rw [List.nil_append, if_pos rfl] at skip
      exact skip.symm
    · rw [List.dropWhile_cons_of_neg (by simpa using same)]

theorem components_below {sep : χ} {name : List χ} (pure : sep ∉ name) (nonempty : name ≠ [])
    (path : List χ) : components sep (path ++ sep :: name) = components sep path ++ [name] := by
  rw [components, List.splitOn_append_cons_self, List.filter_append]
  congr 1
  exact components_single pure nonempty

end Paths

section Resolution

variable {ν α : Type} [DecidableEq ν]

def child (entries : List (ν × α)) (name : ν) : Option α :=
  (entries.find? fun e => e.1 = name).map Prod.snd

def resolve (entries : α → List (ν × α)) (node : α) : List ν → Option α
  | [] => some node
  | name :: names => (child (entries node) name).bind fun next => resolve entries next names

theorem child_append_left {old new : List (ν × α)} {name : ν} {x : α}
    (found : child old name = some x) : child (old ++ new) name = some x := by
  obtain ⟨e, here, rfl⟩ := Option.map_eq_some_iff.mp found
  rw [child, List.find?_append, here]
  rfl

theorem child_append_right {old new : List (ν × α)} {name : ν} (absent : child old name = none) :
    child (old ++ new) name = child new name := by
  have none := Option.map_eq_none_iff.mp absent
  rw [child, List.find?_append, none, Option.none_or, child]

theorem child_append_new {old : List (ν × α)} {name : ν} (new : ∀ e ∈ old, e.1 ≠ name) (x : α) :
    child (old ++ [(name, x)]) name = some x := by
  have absent : child old name = none := by
    refine Option.map_eq_none_iff.mpr (List.find?_eq_none.mpr fun e member => ?_)
    simpa using new e member
  rw [child_append_right absent]
  simp [child]

theorem mem_of_child {entries : List (ν × α)} {name : ν} {x : α}
    (found : child entries name = some x) :
    (name, x) ∈ entries := by
  obtain ⟨⟨other, x⟩, here, rfl⟩ := Option.map_eq_some_iff.mp found
  have same : other = name := by simpa using List.find?_some here
  exact same ▸ List.mem_of_find?_eq_some here

variable {entries entries' : α → List (ν × α)}

private theorem resolve_append (node : α) (names more : List ν) :
    resolve entries node (names ++ more) =
    (resolve entries node names).bind fun mid => resolve entries mid more := by
  induction names generalizing node with
  | nil => rfl
  | cons name names ih =>
    cases here : child (entries node) name with
    | none => simp [resolve, here]
    | some next => simp [resolve, here, ih]

theorem resolve_snoc (node : α) (names : List ν) (name : ν) :
    resolve entries node (names ++ [name]) =
    (resolve entries node names).bind fun mid => child (entries mid) name := by
  rw [resolve_append]
  congr 1
  funext mid
  simp [resolve]

theorem resolve_invariant {good : α → Prop}
    (inherit : ∀ n, good n → ∀ e ∈ entries n, good e.2) {node : α} (start : good node)
    {names : List ν} {x : α} (found : resolve entries node names = some x) : good x := by
  induction names generalizing node with
  | nil =>
    cases found
    exact start
  | cons name names ih =>
    obtain ⟨next, here, rest⟩ := Option.bind_eq_some_iff.mp found
    exact ih (inherit node start _ (mem_of_child here)) rest

theorem resolve_grows {good : α → Prop} (inherit : ∀ n, good n → ∀ e ∈ entries n, good e.2)
    (grows : ∀ n, good n → entries n <+: entries' n) {node : α} (start : good node)
    {names : List ν} {x : α} (found : resolve entries node names = some x) :
    resolve entries' node names = some x := by
  induction names generalizing node with
  | nil => exact found
  | cons name names ih =>
    obtain ⟨next, here, rest⟩ := Option.bind_eq_some_iff.mp found
    obtain ⟨new, grown⟩ := grows node start
    have still : child (entries' node) name = some next := grown ▸ child_append_left here
    rw [resolve, still, Option.bind_some]
    exact ih (inherit node start _ (mem_of_child here)) rest

end Resolution

section Walks

variable {ε ν α : Type} {step step' : α → ν → Except ε α} {good : α → Prop} {o : α}

/-- `step'` answers as `step` does, and otherwise leads to `o` where `step` fails. -/
def Extends (good : α → Prop) (o : α) (step step' : α → ν → Except ε α) : Prop :=
  ∀ p, good p → ∀ name, step' p name = step p name ∨
    ((∃ status, step p name = .error status) ∧ step' p name = .ok o)

theorem Extends.walk (extends_ : Extends good o step step')
    (inherit : ∀ p, good p → ∀ name x, step p name = .ok x → good x) {p : α} (start : good p)
    (names : List ν) : names.foldlM step' p = names.foldlM step p ∨
      ((∃ status, names.foldlM step p = .error status) ∧
        ∃ front more, names = front ++ more ∧ front.foldlM step' p = .ok o) := by
  induction names generalizing p with
  | nil => exact Or.inl rfl
  | cons name names ih =>
    rw [List.foldlM_cons, List.foldlM_cons]
    rcases extends_ p start name with same | ⟨⟨status, failed⟩, reached⟩
    · rw [same]
      cases answer : step p name with
      | error status => exact Or.inl rfl
      | ok x =>
        rcases ih (inherit p start name x answer) with rest | ⟨failed, front, more, rfl, reached⟩
        · exact Or.inl rest
        · refine Or.inr ⟨failed, name :: front, more, rfl, ?_⟩
          rw [List.foldlM_cons, same, answer]
          exact reached
    · refine Or.inr ⟨⟨status, by rw [failed]; rfl⟩, [name], names, rfl, ?_⟩
      rw [List.foldlM_cons, reached]
      rfl

theorem Extends.reached (extends_ : Extends good o step step')
    (inherit : ∀ p, good p → ∀ name x, step p name = .ok x → good x) {p : α} (start : good p)
    {names : List ν} {x : α} (found : names.foldlM step p = .ok x) :
    names.foldlM step' p = .ok x := by
  rcases extends_.walk inherit start names with same | ⟨⟨status, failed⟩, _⟩
  · exact same.trans found
  · rw [failed] at found
    cases found

end Walks

end Algae.Lib.Namespace
