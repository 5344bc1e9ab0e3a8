import Offside.Proofs.Forest.Edits
import Offside.Proofs.Forest.Subtrees

/-!
# Subtrees that move

A node that is turned into another one stays where it is and takes over the contents and the
children of the other one, which is left without links. The links of the two are cut one after the
other, so a node may lose its parent in one step and a child in the next.
-/

namespace Offside.Forest

open List

variable {f g : Forest} {upper target source id other : NodeId}

/-- Nodes without parents become the last children of a node, in order. -/
theorem node_appendChildren (isForest : f.IsForest) (inside : upper < f.size) {ids : List NodeId}
    (insideAll : ∀ id ∈ ids, id < f.size) (free : ∀ id ∈ ids, f.parent id = none)
    (clear : ∀ id ∈ ids, ¬f.Covers id upper) (distinct : ids.Nodup) (id : NodeId) :
    (f.appendChildren upper ids).node id =
      ⟨f.info id, if id = upper then f.children id ++ ids.toArray else f.children id,
        if id ∈ ids then some upper else f.parent id⟩ := by
  induction ids generalizing f with
  | nil => simp [appendChildren, info, children, parent]
  | cons first ids ih =>
    have clearFirst := clear first mem_cons_self
    have insideFirst := insideAll first mem_cons_self
    have apart := ne_of_not_covers clearFirst
    have link :=
      linked_appendChild isForest inside insideFirst clearFirst (free first mem_cons_self)
    obtain ⟨notLater, distinct⟩ := nodup_cons.mp distinct
    have rest := ih link.isForest (inside.trans_eq link.size.symm)
      (fun id later => (insideAll id (mem_cons_of_mem _ later)).trans_eq link.size.symm)
      (fun id later => ?_) (fun id later => ?_) distinct
    · rw [appendChildren_cons]
      refine rest.trans ?_
      rw [info, children, parent, link.node]
      by_cases isUpper : id = upper
      · simp [isUpper, apart]
      · by_cases isFirst : id = first
        · simp [isFirst, apart.symm]
        · simp [isUpper, isFirst]
    · have other : id ≠ first := by
        rintro rfl
        exact notLater later
      rw [parent, link.node, if_neg other, free id (mem_cons_of_mem _ later)]
    · rw [appendChild, covers_insertChild isForest inside insideFirst clearFirst]
      exact clear id (mem_cons_of_mem _ later)

/-- What a node is after `target` has been turned into `source`. -/
def moved (f : Forest) (target source id : NodeId) : Node where
  info := if id = target then f.info source else f.info id
  children :=
    if id = target then f.children source
    else if id = source then #[]
    else (f.children id).filter (· ≠ source)
  parent :=
    if id = source then none
    else if f.parent id = some source then some target
    else if f.parent id = some target then none
    else f.parent id

theorem node_transformInto (isForest : f.IsForest) (inside : target < f.size)
    (apart : target ≠ source) (clear : ¬f.Above source target) (id : NodeId) :
    (f.transformInto target source).node id = f.moved target source id := by
  have loosened := loosened_loosen isForest inside source
  have linked {id : NodeId} (listed : id ∈ (f.children source).toList) :
    f.parent id = some source :=
    isForest.parent_of_mem listed
  rw [transformInto_eq isForest apart, node_appendChildren (loosened.cut.isForest isForest)
    (inside.trans_eq loosened.size.symm) (fun id listed => ?_) (fun id listed => ?_)
    (fun id listed covers => ?_) (isForest.nodup_children source), moved, loosened.info,
    loosened.children, loosened.parent]
  · simp only [Array.mem_toList_iff, isForest.agree]
    have notSelf := isForest.parent_ne_self source
    congr 1
    · by_cases isTarget : id = target
      · simp [isTarget]
      · simp [isTarget]
    · by_cases isSource : id = source
      · simp [isSource, notSelf]
      · by_cases below : f.parent id = some source
        · simp [isSource, below]
        · simp [isSource, below]
  · exact (lt_size_of_parent (linked listed)).trans_eq loosened.size.symm
  · rw [loosened.parent, if_pos (.inr (.inr (linked listed)))]
  · obtain ⟨steps, reached⟩ := loosened.cut.covers covers
    exact clear ⟨steps, (isForest.ancestor?_succ listed reached).1⟩

/-- `target` has become `source`, and what was linked to the two has been cared for. -/
structure Moved (f g : Forest) (target source : NodeId) : Prop where
  isForest : g.IsForest
  info : g.info target = f.info source
  children : g.children target = f.children source
  /-- All that stood below `source` stands below `target` now. -/
  tree : g.tree target = .node target (f.info source) (f.tree source).children
  parent : g.parent target = f.parent target
  siblings : ∀ upper, f.parent target = some upper →
    g.children upper = (f.children upper).filter (· ≠ source)
  emptied : g.Free source
  adopted : ∀ child, f.parent child = some source → g.parent child = some target
  released : ∀ child, f.parent child = some target → child ≠ source → g.parent child = none
  elsewhere : ∀ id, id ≠ target → id ≠ source → f.parent id ≠ some target →
    f.parent id ≠ some source → f.parent source ≠ some id → g.node id = f.node id

/-- Turning a node into one that is not above it moves the subtree of that node to its place. -/
theorem moved_transformInto (isForest : f.IsForest) (inside : target < f.size)
    (apart : target ≠ source) (clear : ¬f.Above source target) :
    Moved f (f.transformInto target source) target source := by
  have nodes := node_transformInto isForest inside apart clear
  have info (id : NodeId) : (f.transformInto target source).info id =
      if id = target then f.info source else f.info id := congrArg Node.info (nodes id)
  have children (id : NodeId) : (f.transformInto target source).children id =
      if id = target then f.children source
      else if id = source then #[] else (f.children id).filter (· ≠ source) :=
    congrArg Node.children (nodes id)
  have parent (id : NodeId) : (f.transformInto target source).parent id =
      if id = source then none
      else if f.parent id = some source then some target
      else if f.parent id = some target then none else f.parent id :=
        congrArg Node.parent (nodes id)
  have isForestAfter := isForest_transformInto isForest inside clear
  have notSource : f.parent target ≠ some source := fun linked =>
    clear ((covers_self f source).above linked)
  -- No node below the source is the target, the source itself or its parent.
  have below : ∀ id, f.Above source id → (f.transformInto target source).tree id = f.tree id := by
    intro id above
    induction id using isForest.induct with
    | node id ih =>
      have notTarget : id ≠ target := by
        rintro rfl
        exact clear above
      have notSource : id ≠ source := by
        rintro rfl
        obtain ⟨steps, back⟩ := above
        exact isForest.acyclic id _ (Nat.succ_pos steps) back
      have notParent : f.parent source ≠ some id := by
        intro linked
        obtain ⟨steps, back⟩ := (covers_iff.mpr (.inr above)).above linked
        exact isForest.acyclic source _ (Nat.succ_pos steps) back
      rw [isForestAfter.tree_eq, isForest.tree_eq, info, children, if_neg notTarget,
        if_neg notTarget, if_neg notSource, isForest.filter_children notParent, Tree.node.injEq]
      refine ⟨rfl, rfl, map_congr_left fun child listed => ih child listed ?_⟩
      exact (covers_iff.mpr (.inr above)).above (isForest.parent_of_mem listed)
  constructor
  · exact isForestAfter
  · rw [info, if_pos rfl]
  · rw [children, if_pos rfl]
  · rw [isForestAfter.tree_eq, isForest.tree_eq source, info, children, if_pos rfl, if_pos rfl,
      Tree.node.injEq]
    refine ⟨rfl, rfl, map_congr_left fun child listed => below child ?_⟩
    exact (covers_self f source).above (isForest.parent_of_mem listed)
  · rw [parent, if_neg apart, if_neg notSource, if_neg (isForest.parent_ne_self target)]
  · intro upper linked
    rw [children, if_neg, if_neg]
    · rintro rfl
      exact notSource linked
    · rintro rfl
      exact isForest.parent_ne_self upper linked
  · exact ⟨by rw [children, if_neg apart.symm, if_pos rfl], by rw [parent, if_pos rfl]⟩
  · intro child linked
    rw [parent, if_neg, if_pos linked]
    rintro rfl
    exact isForest.parent_ne_self child linked
  · intro child linked notSource
    rw [parent, if_neg notSource, linked, if_neg
      fun same => apart (Option.some.inj same), if_pos rfl]
  · intro id notTarget notSource notBelow notBelowSource notParent
    rw [nodes, moved, if_neg notTarget, if_neg notTarget, if_neg notSource, if_neg notSource,
      if_neg notBelowSource, if_neg notBelow, isForest.filter_children notParent]
    rfl

/-- A node becomes its own child, which has a child itself. -/
theorem moved_transformInto_chain :
    chain.IsForest ∧ 0 < chain.size ∧ chain.Above 0 1 ∧ ¬chain.Above 1 0 ∧
      Moved chain (chain.transformInto 0 1) 0 1 ∧ (chain.transformInto 0 1).children 0 = #[2] := by
  have inside : 0 < chain.size := by decide +kernel
  have clear : ¬chain.Above 1 0 := by
    rintro ⟨steps, reached⟩
    have root : chain.parent 0 = none := by decide +kernel
    rw [ancestor?, root] at reached
    cases reached
  have moved := moved_transformInto isForest_chain inside (by decide) clear
  exact ⟨isForest_chain, inside, ⟨0, by decide +kernel⟩, clear, moved, by decide +kernel⟩

end Offside.Forest
