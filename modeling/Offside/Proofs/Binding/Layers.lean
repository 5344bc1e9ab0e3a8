import Mathlib.Data.List.Basic
import Offside.Proofs.Binding.Frames

/-!
# Layers as shadowing maps

However scopes are extended and written, a name means what was written last in the nearest layer
outwards that has it, and otherwise what the base table says.
-/

namespace Offside.Scopes

open List

variable {α : Type}

abbrev Writes (α : Type) := List (ScopeId × String × α)

/--
Scopes that have grown by operations on scopes that are there, with the scope that each of them
extends, and with all successful writes, the last one first.
-/
inductive Grown (base : Table α) :
    List (Option ScopeId) → Writes α → Scopes α → Prop
  | start : Grown base [none] [] (start base)
  | extend {parents : List (Option ScopeId)} {writes : Writes α}
      {scopes : Scopes α} {scope : ScopeId} (grown : Grown base parents writes scopes)
      (known : scope < scopes.size) :
      Grown base (parents ++ [some scope]) writes (scopes.extend scope).2
  | insert {parents : List (Option ScopeId)} {writes : Writes α}
      {scopes : Scopes α} {scope : ScopeId} (grown : Grown base parents writes scopes)
      (known : scope < scopes.size) (name : String) (value : α) :
      Grown base parents ((scope, name, value) :: writes) (scopes.insert scope name value)
  | define {parents : List (Option ScopeId)} {writes : Writes α}
      {scopes after : Scopes α} {scope : ScopeId} (grown : Grown base parents writes scopes)
      (known : scope < scopes.size) {name : String} {value : α}
      (defined : scopes.define scope name value = .ok after) :
      Grown base parents ((scope, name, value) :: writes) after

/-- What was written last under a name in one layer. -/
def lastWrite (writes : Writes α) (layer : ScopeId) (name : String) : Option α :=
  (writes.find? fun write => write.1 = layer ∧ write.2.1 = name).map (·.2.2)

/-- The layers from a scope outwards to one that extends no other. -/
inductive Outwards (scopes : Scopes α) : ScopeId → List ScopeId → Prop
  | last {scope : ScopeId} (noParent : scopes.parent scope = none) : Outwards scopes scope [scope]
  | next {scope outer : ScopeId} {layers : List ScopeId} (parent : scopes.parent scope = some outer)
      (onward : Outwards scopes outer layers) : Outwards scopes scope (scope :: layers)

variable {base : Table α} {scopes after : Scopes α} {scope layer : ScopeId}
  {parents : List (Option ScopeId)} {writes : Writes α} {name other : String}
  {value : α}

theorem define_eq_ok (defined : scopes.define scope name value = .ok after) :
    after = scopes.insert scope name value := by
  unfold define at defined
  split at defined
  · cases defined
  · cases defined
    rfl

theorem define_eq_error_iff {existing : α} : scopes.define scope name value = .error existing ↔
    scopes.getLocal? scope name = some existing := by
  unfold define
  split <;> simp_all

/--
The scopes hold what was written, and each extends the earlier one that it was said to extend.
-/
structure Mirrors (base : Table α) (parents : List (Option ScopeId))
    (writes : Writes α) (scopes : Scopes α) : Prop where
  base : scopes.base = base
  size : scopes.size = parents.length
  parent : ∀ scope, scopes.parent scope = parents[scope]?.join
  earlier : ∀ scope outer, scopes.parent scope = some outer → outer < scope
  entries : ∀ layer name, scopes.getLocal? layer name = lastWrite writes layer name

theorem Mirrors.insert (mirrors : Mirrors base parents writes scopes)
    (known : scope < scopes.size) :
    Mirrors base parents ((scope, name, value) :: writes) (scopes.insert scope name value) := by
  refine ⟨mirrors.base, ?_, fun layer => ?_, fun layer => ?_, fun layer other => ?_⟩
  · rw [← mirrors.size, Scopes.size, Scopes.size, Scopes.insert, Array.size_modify]
  · rw [parent_insert, mirrors.parent]
  · rw [parent_insert]
    exact mirrors.earlier layer
  · rw [getLocal?_insert known, mirrors.entries]
    by_cases here : layer = scope ∧ name = other
    · simp [lastWrite, here]
    · have apart : ¬ (scope = layer ∧ name = other) := fun same => here ⟨same.1.symm, same.2⟩
      simp [lastWrite, here, apart]

theorem Mirrors.extend (mirrors : Mirrors base parents writes scopes)
    (known : scope < scopes.size) :
    Mirrors base (parents ++ [some scope]) writes (scopes.extend scope).2 := by
  have kept (layer : ScopeId) (apart : layer ≠ scopes.size) :
      (scopes.extend scope).2.parent layer = scopes.parent layer := by
    rw [Scopes.parent, Scopes.extend, Array.getElem?_push]
    exact congrArg (Option.bind · Layer.parent) (if_neg apart)
  refine ⟨mirrors.base, ?_, fun layer => ?_, fun layer outer => ?_, fun layer name => ?_⟩
  · rw [size_extend, mirrors.size, length_append, length_singleton]
  · by_cases new : layer = scopes.size
    · rw [new, parent_extend, mirrors.size, getElem?_concat_length]
      rfl
    · rw [kept layer new, mirrors.parent]
      rw [mirrors.size] at new
      rcases Nat.lt_or_gt_of_ne new with inside | behind
      · rw [getElem?_append_left inside]
      · have none : parents[layer]? = .none := getElem?_eq_none (Nat.le_of_lt behind)
        rw [none, getElem?_eq_none]
        exact length_append ▸ behind
  · by_cases new : layer = scopes.size
    · rw [new, parent_extend]
      rintro ⟨⟩
      exact known
    · rw [kept layer new]
      exact mirrors.earlier layer outer
  · rw [getLocal?_extend, mirrors.entries]

theorem Grown.mirrors (grown : Grown base parents writes scopes) :
    Mirrors base parents writes scopes := by
  induction grown with
  | start =>
    refine ⟨rfl, rfl, ?_, ?_, getLocal?_start base⟩
    · rintro (_ | _) <;> rfl
    · rintro (_ | _) outer ⟨⟩
  | extend _ known ih => exact ih.extend known
  | insert _ known _ _ ih => exact ih.insert known
  | define _ known defined ih => exact define_eq_ok defined ▸ ih.insert known

/-- Where every scope extends an earlier one, all layers outwards are found. -/
theorem outwards_chainWithin
    (earlier : ∀ scope outer, scopes.parent scope = some outer → outer < scope)
    (count : Nat) (scope : ScopeId) (enough : scope < count) :
    Outwards scopes scope (scopes.chainWithin count scope) := by
  induction count generalizing scope with
  | zero => cases enough
  | succ count ih =>
    unfold chainWithin
    split
    case h_1 outer parent =>
      exact .next parent
        (ih outer (Nat.lt_of_lt_of_le (earlier _ _ parent) (Nat.le_of_lt_succ enough)))
    case h_2 noParent => exact .last noParent

theorem chainWithin_insert (count : Nat) (scope : ScopeId) :
    (scopes.insert layer name value).chainWithin count scope = scopes.chainWithin count scope := by
  induction count generalizing scope with
  | zero => rfl
  | succ count ih =>
    rw [chainWithin, chainWithin, parent_insert]
    simp only [ih]

/-- A write is seen only from its layer and from those around which it lies. -/
theorem get?_insert_of_notMem (known : layer < scopes.size) (apart : layer ∉ scopes.chain scope) :
    (scopes.insert layer name value).get? scope other = scopes.get? scope other := by
  have same : (scopes.insert layer name value).getLayered? scope other =
      scopes.getLayered? scope other := by
    rw [getLayered?, getLayered?, chain, chainWithin_insert, ← chain]
    rw [← head?_filterMap, ← head?_filterMap]
    refine congrArg head? (filterMap_congr fun inner member => ?_)
    rw [getLocal?_insert known, if_neg]
    rintro ⟨rfl, -⟩
    exact apart member
  rw [get?, get?, same]
  rfl

/--
Every scope extends an earlier one; a name means what was written last in the nearest layer
outwards that has it, or what the base table says; it is that of the base table if no layer
outwards has it; a definition fails if its own layer has the name, with what is stored there; and
a write changes the meaning of a name only for its own scope and for those inside of it.
-/
theorem Grown.shadows (grown : Grown base parents writes scopes) :
    (∀ scope, scopes.parent scope = parents[scope]?.join) ∧
    (∀ scope outer, scopes.parent scope = some outer → outer < scope) ∧
    (∀ scope, Outwards scopes scope (scopes.chain scope)) ∧
    (∀ scope name, scopes.get? scope name =
      ((scopes.chain scope).findSome? (lastWrite writes · name)).or (base.get? name)) ∧
    (∀ scope name, scopes.isFromBase scope name = true ↔
      (∀ layer ∈ scopes.chain scope, lastWrite writes layer name = none) ∧
        base.contains name = true) ∧
    (∀ scope name value existing, scopes.define scope name value = .error existing ↔
      lastWrite writes scope name = some existing) ∧
    ∀ layer < scopes.size, ∀ name value after,
      after = scopes.insert layer name value ∨ scopes.define layer name value = .ok after →
      ∀ scope other, after.get? scope other ≠ scopes.get? scope other →
        layer ∈ scopes.chain scope := by
  have mirrors := grown.mirrors
  have layered (scope : ScopeId) (name : String) : scopes.getLayered? scope name =
      (scopes.chain scope).findSome? (lastWrite writes · name) := by
    simp only [getLayered?, mirrors.entries]
  refine ⟨mirrors.parent, mirrors.earlier, fun scope => ?_, fun scope name => ?_,
    fun scope name => ?_, fun scope name value existing => ?_,
    fun layer known name value after written scope other differs => ?_⟩
  · exact outwards_chainWithin mirrors.earlier _ scope (Nat.lt_succ_self scope)
  · rw [get?, layered, mirrors.base]
  · rw [isFromBase, layered, mirrors.base, Bool.and_eq_true, Option.isNone_iff_eq_none,
      findSome?_eq_none_iff]
  · rw [define_eq_error_iff, mirrors.entries]
  · obtain rfl : after = scopes.insert layer name value := written.elim id define_eq_ok
    by_contra apart
    exact differs (get?_insert_of_notMem known apart)

/--
Two scopes inside of the first one: what is written in one of them is not seen from the other.
-/
theorem Grown.shadows_siblings :
    ∃ scopes : Scopes Nat,
      Grown ⟨[("a", 0)]⟩ [none, some 0, some 0] [(1, "b", 3), (1, "a", 2), (0, "a", 1)] scopes ∧
      scopes.get? 1 "a" = some 2 ∧ scopes.get? 2 "a" = some 1 ∧
      scopes.define 1 "b" 4 = .error 3 := by
  have first : Grown ⟨[("a", 0)]⟩ _ [(0, "a", 1)] _ := .insert .start (by decide) "a" 1
  have second := @Grown.extend Nat _ _ _ _ 0 first (by decide)
  have third := @Grown.extend Nat _ _ _ _ 0 second (by decide)
  have fourth := @Grown.define Nat _ _ _ _ _ 1 third (by decide) "a" 2 rfl
  have fifth := @Grown.insert Nat _ _ _ _ 1 fourth (by decide) "b" 3
  obtain ⟨-, -, -, meanings, -, failures, -⟩ := fifth.shadows
  refine ⟨_, fifth, (meanings 1 "a").trans ?_, (meanings 2 "a").trans ?_,
    (failures 1 "b" 4 3).mpr ?_⟩
  all_goals decide

end Offside.Scopes
