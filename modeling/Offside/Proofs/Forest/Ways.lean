import Offside.Proofs.Forest.Links
import Mathlib.Data.Fintype.Card

/-!
# Ways up in a forest

From a node the parents lead up to the root of its tree. In a forest no way up is longer than the
number of nodes, so the bounded search for a node above another one finds it whenever there is
one. Two changes of the links keep a forest: some links are cut, or a root is put below a node
that is not below it.
-/

namespace Offside.Forest

open List

variable {f g : Forest} {upper child id : NodeId}

def Above (f : Forest) (upper id : NodeId) : Prop :=
  ∃ steps, f.ancestor? (steps + 1) id = some upper

def Covers (f : Forest) (upper id : NodeId) : Prop :=
  ∃ steps, f.ancestor? steps id = some upper

theorem covers_iff : f.Covers upper id ↔ upper = id ∨ f.Above upper id := by
  constructor
  · rintro ⟨steps, reached⟩
    cases steps with
    | zero => exact .inl (Option.some.inj reached).symm
    | succ steps => exact .inr ⟨steps, reached⟩
  · rintro (rfl | ⟨steps, reached⟩)
    · exact ⟨0, rfl⟩
    · exact ⟨steps + 1, reached⟩

theorem covers_self (f : Forest) (id : NodeId) : f.Covers id id :=
  ⟨0, rfl⟩

/-- What covers a parent is above its child. -/
theorem Covers.above {parent : NodeId} (covers : f.Covers upper parent)
    (isParent : f.parent id = some parent) : f.Above upper id := by
  obtain ⟨steps, reached⟩ := covers
  refine ⟨steps, ?_⟩
  rw [ancestor?, isParent]
  exact reached

/-- The last step of a way up leads from a child of the node that it reaches. -/
theorem Above.exists_child (above : f.Above upper id) :
    ∃ steps child, f.ancestor? steps id = some child ∧ f.parent child = some upper := by
  obtain ⟨steps, reached⟩ := above
  rw [ancestor?_add] at reached
  obtain ⟨child, before, last⟩ := Option.bind_eq_some_iff.mp reached
  refine ⟨steps, child, before, ?_⟩
  rw [ancestor?] at last
  obtain ⟨parent, isParent, same⟩ := Option.bind_eq_some_iff.mp last
  cases same
  exact isParent

/-- A way that meets the same parents leads to the same nodes. -/
theorem ancestor?_congr {steps : Nat}
    (same : ∀ step < steps, ∀ node, f.ancestor? step id = some node → g.parent node =
      f.parent node) :
    g.ancestor? steps id = f.ancestor? steps id := by
  induction steps generalizing id with
  | zero => rfl
  | succ steps ih =>
    rw [ancestor?, ancestor?, same 0 (Nat.succ_pos steps) id rfl]
    cases isParent : f.parent id with
    | none => rfl
    | some parent =>
      apply ih
      intro step few node reached
      apply same (step + 1) (Nat.succ_lt_succ few)
      rw [ancestor?, isParent]
      exact reached

/-! ## The length of a way -/

/-- There is nothing at a number that has not been given out. -/
theorem node_of_size_le (outside : f.size ≤ id) : f.node id = default := by
  have absent : f.nodes.size ≤ id := outside
  rw [node, Array.getD_eq_getD_getElem?, Array.getElem?_eq_none absent]
  rfl

theorem lt_size_of_parent (isParent : f.parent id = some upper) : id < f.size := by
  by_contra outside
  rw [parent, node_of_size_le (Nat.le_of_not_lt outside)] at isParent
  cases isParent

namespace IsForest

variable (isForest : f.IsForest)
include isForest

theorem parent_lt_size (isParent : f.parent id = some upper) : upper < f.size := by
  by_contra outside
  have listed := (isForest.agree upper id).mpr isParent
  rw [children, node_of_size_le (Nat.le_of_not_lt outside)] at listed
  exact absurd listed (Array.not_mem_empty id)

theorem ancestor?_lt_size (inside : id < f.size) {steps : Nat}
    (reached : f.ancestor? steps id = some upper) : upper < f.size := by
  induction steps generalizing id with
  | zero =>
    cases reached
    exact inside
  | succ steps ih =>
    obtain ⟨parent, isParent, rest⟩ := Option.bind_eq_some_iff.mp reached
    exact ih (isForest.parent_lt_size isParent) rest

/-- The nodes of a way are different from each other. -/
theorem steps_inj {first second : Nat} {node : NodeId} (reached : f.ancestor? first id = some node)
    (again : f.ancestor? second id = some node) : first = second := by
  wlog before : first ≤ second generalizing first second
  · exact (this again reached (Nat.le_of_not_le before)).symm
  obtain ⟨more, rfl⟩ := Nat.exists_eq_add_of_le before
  rw [ancestor?_add, reached, Option.bind_some] at again
  have none : ¬0 < more := fun positive => isForest.acyclic node more positive again
  omega

/-- A way up has fewer steps than there are nodes. -/
theorem steps_lt_size (inside : id < f.size) {steps : Nat}
    (reached : f.ancestor? steps id = some upper) : steps < f.size := by
  have visited : ∀ step : Fin (steps + 1), ∃ node : Fin f.size,
      f.ancestor? step id = some node.val := by
    intro step
    have split : step.val + (steps - step.val) = steps := by omega
    rw [← split, ancestor?_add] at reached
    obtain ⟨node, here, _⟩ := Option.bind_eq_some_iff.mp reached
    exact ⟨⟨node, isForest.ancestor?_lt_size inside here⟩, here⟩
  choose node known using visited
  have different : Function.Injective node := by
    intro first second same
    have again := known second
    rw [← same] at again
    exact Fin.ext (isForest.steps_inj (known first) again)
  have bound := Fintype.card_le_of_injective node different
  rw [Fintype.card_fin, Fintype.card_fin] at bound
  exact bound

/-- Every way up comes to an end. -/
theorem exists_ancestor?_eq_none (id : NodeId) : ∃ last, f.ancestor? last id = none := by
  by_cases inside : id < f.size
  · refine ⟨f.size, Option.eq_none_iff_forall_ne_some.mpr fun upper reached => ?_⟩
    exact absurd (isForest.steps_lt_size inside reached) (Nat.lt_irrefl _)
  · refine ⟨1, ?_⟩
    rw [ancestor?, parent, node_of_size_le (Nat.le_of_not_lt inside)]
    rfl

end IsForest

theorem isAboveWithin_iff {count : Nat} :
    f.isAboveWithin upper count id = true ↔ ∃ steps < count, f.ancestor? steps id = some upper := by
  induction count generalizing id with
  | zero => simp [isAboveWithin]
  | succ count ih =>
    rw [isAboveWithin, Bool.or_eq_true, decide_eq_true_eq]
    constructor
    · rintro (rfl | later)
      · exact ⟨0, Nat.succ_pos count, rfl⟩
      · cases isParent : f.parent id with
        | none =>
          rw [isParent] at later
          cases later
        | some parent =>
          rw [isParent] at later
          obtain ⟨steps, few, reached⟩ := ih.mp later
          refine ⟨steps + 1, Nat.succ_lt_succ few, ?_⟩
          rw [ancestor?, isParent]
          exact reached
    · rintro ⟨steps, few, reached⟩
      cases steps with
      | zero => exact .inl (Option.some.inj reached)
      | succ steps =>
        obtain ⟨parent, isParent, rest⟩ := Option.bind_eq_some_iff.mp reached
        rw [isParent]
        exact .inr (ih.mpr ⟨steps, Nat.lt_of_succ_lt_succ few, rest⟩)

/-- The search up finds a node exactly if it covers the one where the search starts. -/
theorem IsForest.isAbove_iff (isForest : f.IsForest) (inside : id < f.size) :
    f.isAbove upper id = true ↔ f.Covers upper id := by
  rw [isAbove, isAboveWithin_iff]
  constructor
  · rintro ⟨steps, _, reached⟩
    exact ⟨steps, reached⟩
  · rintro ⟨steps, reached⟩
    exact ⟨steps, isForest.steps_lt_size inside reached, reached⟩

/-! ## Cut links -/

/-- Some links of a forest are cut, and all others stay as they are. -/
structure Cut (f g : Forest) : Prop where
  refused : g.refused = f.refused
  parent : ∀ id upper, g.parent id = some upper → f.parent id = some upper
  children : ∀ id, (g.children id).toList =
    (f.children id).toList.filter fun child => g.parent child = some id

/-- Links that stay as they are. -/
theorem IsForest.cut_of_same (isForest : f.IsForest) (refused : g.refused = f.refused)
    (parent : ∀ id, g.parent id = f.parent id) (children : ∀ id, g.children id = f.children id) :
    Cut f g := by
  constructor
  · exact refused
  · intro id upper linked
    rw [← parent, linked]
  · intro id
    rw [children, eq_comm, filter_eq_self]
    intro child listed
    rw [parent]
    exact decide_eq_true ((isForest.agree id child).mp (Array.mem_toList_iff.mp listed))

namespace Cut

theorem trans {h : Forest} (first : Cut f g) (second : Cut g h) : Cut f h := by
  constructor
  · rw [second.refused, first.refused]
  · exact fun id upper linked => first.parent id upper (second.parent id upper linked)
  · intro id
    rw [second.children, first.children, filter_filter]
    apply filter_congr
    intro child _
    have both := second.parent child id
    by_cases linked : h.parent child = some id
    · simp [linked, both linked]
    · simp [linked]

variable (cut : Cut f g)
include cut

theorem ancestor? {steps : Nat} (reached : g.ancestor? steps id = some upper) :
    f.ancestor? steps id = some upper := by
  induction steps generalizing id with
  | zero => exact reached
  | succ steps ih =>
    obtain ⟨parent, isParent, rest⟩ := Option.bind_eq_some_iff.mp reached
    rw [Forest.ancestor?, cut.parent id parent isParent]
    exact ih rest

theorem covers (covers : g.Covers upper id) : f.Covers upper id := by
  obtain ⟨steps, reached⟩ := covers
  exact ⟨steps, cut.ancestor? reached⟩

theorem mem_children (isForest : f.IsForest) :
    child ∈ g.children id ↔ g.parent child = some id := by
  rw [← Array.mem_toList_iff, cut.children, mem_filter, decide_eq_true_eq,
    Array.mem_toList_iff, isForest.agree]
  exact and_iff_right_of_imp (cut.parent child id)

theorem isForest (isForest : f.IsForest) : g.IsForest := by
  constructor
  · rw [cut.refused, isForest.unrefused]
  · exact fun id child => cut.mem_children isForest
  · intro id child listed
    have linked := (cut.mem_children isForest).mp listed
    have before := isForest.once id child
      ((isForest.agree id child).mpr (cut.parent child id linked))
    rw [← Array.count_toList] at before ⊢
    rw [cut.children, count_filter, before]
    exact decide_eq_true linked
  · exact fun id steps positive back => isForest.acyclic id steps positive (cut.ancestor? back)

end Cut

/-! ## Grafted roots -/

/-- A root is put below a node, somewhere among its children. -/
structure Grafted (f g : Forest) (upper child : NodeId) : Prop where
  root : f.parent child = none
  clear : ¬f.Covers child upper
  refused : g.refused = f.refused
  parent : ∀ id, g.parent id = if id = child then some upper else f.parent id
  elsewhere : ∀ id, id ≠ upper → g.children id = f.children id
  children : ∃ before after, (f.children upper).toList = before ++ after ∧
    (g.children upper).toList = before ++ child :: after

namespace Grafted

variable (grafted : Grafted f g upper child)
include grafted

/-- The ways from nodes that are not below the new child stay as they are. -/
theorem ancestor?_eq (away : ¬f.Covers child id) (steps : Nat) :
    g.ancestor? steps id = f.ancestor? steps id := by
  apply ancestor?_congr
  intro step _ node reached
  rw [grafted.parent, if_neg]
  rintro rfl
  exact away ⟨step, reached⟩

theorem covers_iff_of_clear {node : NodeId} : g.Covers node upper ↔ f.Covers node upper := by
  unfold Covers
  simp only [grafted.ancestor?_eq grafted.clear]

/-- The ways from below the new child go on above the node below which it has been put. -/
theorem exists_ancestor?_eq_none (isForest : f.IsForest) (id : NodeId) :
    ∃ last, g.ancestor? last id = none := by
  have fromUpper : ∃ last, g.ancestor? last upper = none := by
    obtain ⟨last, ends⟩ := isForest.exists_ancestor?_eq_none upper
    rw [← grafted.ancestor?_eq grafted.clear] at ends
    exact ⟨last, ends⟩
  have oneUp {node parent : NodeId} (isParent : g.parent node = some parent)
      (ends : ∃ last, g.ancestor? last parent = none) : ∃ last, g.ancestor? last node = none := by
    obtain ⟨last, ends⟩ := ends
    refine ⟨last + 1, ?_⟩
    rw [ancestor?, isParent]
    exact ends
  by_cases below : f.Covers child id
  · obtain ⟨steps, reached⟩ := below
    induction steps generalizing id with
    | zero =>
      cases reached
      apply oneUp _ fromUpper
      rw [grafted.parent, if_pos rfl]
    | succ steps ih =>
      obtain ⟨parent, isParent, rest⟩ := Option.bind_eq_some_iff.mp reached
      have other : id ≠ child := by
        rintro rfl
        rw [grafted.root] at isParent
        cases isParent
      apply oneUp _ (ih parent rest)
      rw [grafted.parent, if_neg other, isParent]
  · obtain ⟨last, ends⟩ := isForest.exists_ancestor?_eq_none id
    rw [← grafted.ancestor?_eq below] at ends
    exact ⟨last, ends⟩

theorem mem_children {node : NodeId} :
    node ∈ g.children id ↔ node ∈ f.children id ∨ id = upper ∧ node = child := by
  by_cases here : id = upper
  · subst here
    obtain ⟨before, after, old, new⟩ := grafted.children
    rw [← Array.mem_toList_iff, ← Array.mem_toList_iff, old, new]
    simp only [mem_append, mem_cons]
    tauto
  · rw [grafted.elsewhere id here]
    simp [here]

theorem isForest (isForest : f.IsForest) : g.IsForest := by
  have free (id : NodeId) : child ∉ f.children id := by
    rw [isForest.agree, grafted.root]
    exact (Option.some_ne_none id).symm
  constructor
  · rw [grafted.refused, isForest.unrefused]
  · intro id node
    rw [grafted.mem_children, grafted.parent, isForest.agree]
    by_cases isChild : node = child
    · subst isChild
      simp [grafted.root, eq_comm]
    · simp [isChild]
  · intro id node listed
    by_cases here : id = upper
    · subst here
      obtain ⟨before, after, old, new⟩ := grafted.children
      rw [← Array.count_toList, new, count_append, count_cons]
      by_cases isChild : node = child
      · subst isChild
        have absent := free id
        rw [← Array.mem_toList_iff, old, mem_append, not_or] at absent
        rw [count_eq_zero.mpr absent.1, count_eq_zero.mpr absent.2]
        simp
      · have known := (grafted.mem_children.mp listed).resolve_right fun both => isChild both.2
        have before := isForest.once id node known
        rw [← Array.count_toList, old, count_append] at before
        simp [Ne.symm isChild, before]
    · rw [grafted.elsewhere id here] at listed ⊢
      exact isForest.once id node listed
  · intro id steps positive
    obtain ⟨last, ends⟩ := grafted.exists_ancestor?_eq_none isForest id
    exact ancestor?_ne_self ends positive

end Grafted

end Offside.Forest
