import Offside.Proofs.Forest.Ways
import Offside.Proofs.Tree.Height
import Offside.Proofs.Tree.Preorder

/-!
# Subtrees of a forest

What stands below a node of a forest is a tree of the trees below its children. Its numbers in
order are what a walk with a stack of waiting nodes meets: every node that the first one covers,
once, parents before children and siblings in order.
-/

namespace Offside.Forest

open List

variable {f : Forest} {child id other : NodeId}

/--
A walk over the nodes that wait on a stack: the children of the node that is met next go on the
stack in its place.
-/
inductive Walk (f : Forest) : List NodeId → List NodeId → Prop
  | done : Walk f [] []
  | visit {id : NodeId} {stack met : List NodeId}
      (rest : Walk f ((f.children id).toList ++ stack) met) : Walk f (id :: stack) (id :: met)

namespace IsForest

variable (isForest : f.IsForest)
include isForest

theorem parent_of_mem (listed : child ∈ (f.children id).toList) : f.parent child = some id :=
  (isForest.agree id child).mp (Array.mem_toList_iff.mp listed)

/--
A way up to a child goes on to its parent, and even so it has fewer steps than there are nodes.
-/
theorem ancestor?_succ (listed : child ∈ (f.children id).toList) {steps : Nat}
    (reached : f.ancestor? steps other = some child) :
    f.ancestor? (steps + 1) other = some id ∧ steps + 1 < f.size := by
  have isParent := isForest.parent_of_mem listed
  have longer : f.ancestor? (steps + 1) other = some id := by
    rw [ancestor?_add, reached, Option.bind_some, ancestor?, isParent]
    rfl
  obtain ⟨parent, hasParent, _⟩ := Option.bind_eq_some_iff.mp longer
  exact ⟨longer, isForest.steps_lt_size (lt_size_of_parent hasParent) longer⟩

/-- Below a node to which no way up has more than `depth` steps nothing is cut off there. -/
theorem treeWithin_succ {depth : Nat}
    (enough : ∀ low steps, f.ancestor? steps low = some id → steps < depth) :
    f.treeWithin (depth + 1) id = f.treeWithin depth id := by
  induction depth generalizing id with
  | zero => exact absurd (enough id 0 rfl) (Nat.lt_irrefl 0)
  | succ depth ih =>
    rw [treeWithin, treeWithin, Tree.node.injEq]
    refine ⟨rfl, rfl, map_congr_left fun child listed => ih fun low steps reached => ?_⟩
    exact Nat.lt_of_succ_lt_succ (enough low _ (isForest.ancestor?_succ listed reached).1)

/-- A tree of a forest consists of its root and the trees of the children. -/
theorem tree_eq (id : NodeId) :
    f.tree id = .node id (f.info id) ((f.children id).toList.map f.tree) := by
  rw [tree]
  cases count : f.size with
  | zero =>
    rw [treeWithin, children, node_of_size_le (count.trans_le (Nat.zero_le id))]
    rfl
  | succ depth =>
    rw [treeWithin, Tree.node.injEq]
    refine ⟨rfl, rfl, map_congr_left fun child listed => ?_⟩
    rw [tree, count, isForest.treeWithin_succ fun low steps reached => ?_]
    have few := (isForest.ancestor?_succ listed reached).2
    omega

/-- What holds of a node if it holds of its children holds of all nodes. -/
@[elab_as_elim]
theorem induct {P : NodeId → Prop}
    (node : ∀ id, (∀ child ∈ (f.children id).toList, P child) → P id) (id : NodeId) : P id := by
  refine (InvImage.wf (fun id => (f.tree id).height) Nat.lt_wfRel.wf).induction id fun id ih => ?_
  refine node id fun child listed => ih child (Tree.height_lt_of_mem ?_)
  rw [isForest.tree_eq id]
  exact mem_map_of_mem listed

theorem descendants_eq (id : NodeId) :
    f.descendants id = id :: (f.children id).toList.flatMap f.descendants := by
  have below (ids : List NodeId) :
      (Tree.nodesAll (ids.map f.tree)).map Prod.fst = ids.flatMap f.descendants := by
    induction ids with
    | nil => rfl
    | cons id ids ih => rw [map_cons, Tree.nodesAll_cons, map_append, ih]; rfl
  rw [descendants, isForest.tree_eq, Tree.ids, Tree.nodes_node, map_cons, below]

theorem mem_descendants : other ∈ f.descendants id ↔ f.Covers id other := by
  induction id using isForest.induct with
  | node id ih =>
    rw [isForest.descendants_eq, mem_cons, mem_flatMap, covers_iff, eq_comm]
    refine or_congr_right ⟨?_, fun above => ?_⟩
    · rintro ⟨child, listed, found⟩
      obtain ⟨steps, reached⟩ := (ih child listed).mp found
      exact ⟨steps, (isForest.ancestor?_succ listed reached).1⟩
    · obtain ⟨steps, child, reached, isParent⟩ := above.exists_child
      have listed := Array.mem_toList_iff.mpr ((isForest.agree id child).mpr isParent)
      exact ⟨child, listed, (ih child listed).mpr ⟨steps, reached⟩⟩

theorem nodup_children (id : NodeId) : (f.children id).toList.Nodup := by
  rw [nodup_iff_count_le_one]
  intro child
  by_cases listed : child ∈ f.children id
  · rw [Array.count_toList, isForest.once id child listed]
  · rw [count_eq_zero.mpr fun found => listed (Array.mem_toList_iff.mp found)]
    exact Nat.zero_le 1

/-- Two ways up from one node to siblings have as many steps and lead to the same one. -/
theorem nodup_descendants (id : NodeId) : (f.descendants id).Nodup := by
  induction id using isForest.induct with
  | node id ih =>
    rw [isForest.descendants_eq, nodup_cons, nodup_flatMap]
    refine ⟨fun found => ?_, ih, (isForest.nodup_children id).imp_of_mem ?_⟩
    · obtain ⟨child, listed, below⟩ := mem_flatMap.mp found
      obtain ⟨steps, reached⟩ := isForest.mem_descendants.mp below
      exact isForest.acyclic id _ (Nat.succ_pos steps) (isForest.ancestor?_succ listed reached).1
    · intro first second inFirst inSecond apart other belowFirst belowSecond
      obtain ⟨steps, reached⟩ := isForest.mem_descendants.mp belowFirst
      obtain ⟨more, again⟩ := isForest.mem_descendants.mp belowSecond
      have same : steps + 1 = more + 1 := isForest.steps_inj
        (isForest.ancestor?_succ inFirst reached).1 (isForest.ancestor?_succ inSecond again).1
      rw [Nat.succ.inj same, again] at reached
      exact apart (Option.some.inj reached).symm

/-- Parents come before their children, and siblings in order. -/
theorem sublist_descendants (found : other ∈ f.descendants id) :
    other :: (f.children other).toList <+ f.descendants id := by
  have roots (ids : List NodeId) : ids <+ ids.flatMap f.descendants := by
    induction ids with
    | nil => exact .slnil
    | cons id ids ih =>
      rw [flatMap_cons, isForest.descendants_eq, cons_append]
      exact (ih.trans (sublist_append_right _ _)).cons_cons id
  induction id using isForest.induct with
  | node id ih =>
    rw [isForest.descendants_eq, mem_cons, mem_flatMap] at found
    rw [isForest.descendants_eq]
    rcases found with rfl | ⟨child, listed, below⟩
    · exact (roots _).cons_cons other
    · refine .cons id ((ih child listed below).trans ?_)
      rw [flatMap_def]
      exact sublist_flatten_of_mem (mem_map_of_mem listed)

theorem walk_append (id : NodeId) {stack met : List NodeId} (walk : f.Walk stack met) :
    f.Walk (id :: stack) (f.descendants id ++ met) := by
  induction id using isForest.induct generalizing stack met with
  | node id ih =>
    rw [isForest.descendants_eq, cons_append]
    refine .visit ?_
    generalize (f.children id).toList = ids at ih
    induction ids with
    | nil => exact walk
    | cons child ids rest =>
      rw [flatMap_cons, append_assoc]
      exact ih child mem_cons_self
        (rest fun later listed => ih later (mem_cons_of_mem child listed))

end IsForest

/-- The nodes from a node down, each once and in order. -/
structure Preorder (f : Forest) (id : NodeId) (ids : List NodeId) : Prop where
  walk : f.Walk [id] ids
  mem : ∀ other, other ∈ ids ↔ f.Covers id other
  nodup : ids.Nodup
  ordered : ∀ upper ∈ ids, upper :: (f.children upper).toList <+ ids

theorem IsForest.preorder_descendants (isForest : f.IsForest) (id : NodeId) :
    f.Preorder id (f.descendants id) := by
  refine ⟨?_, fun _ => isForest.mem_descendants, isForest.nodup_descendants id,
    fun _ => isForest.sublist_descendants⟩
  have walk := isForest.walk_append id .done
  rwa [append_nil] at walk

end Offside.Forest
