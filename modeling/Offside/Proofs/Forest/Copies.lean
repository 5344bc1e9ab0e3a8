import Offside.Proofs.Forest.Edits
import Offside.Proofs.Forest.Subtrees

/-!
# Copies of subtrees

A copy is made node by node: a node is added, and the children that it has in the forest that has
grown meanwhile are copied and linked below it. The copies get the next numbers in the order in
which a walk meets the nodes. Except for the numbers, their contents and links are those of the
nodes they come from, and no node that was there before changes.
-/

namespace Offside.Forest

open List

variable {f g h : Forest} {upper child id : NodeId} {number : NodeId → NodeId}

/-! ## Runs -/

mutual

/-- Copying a node as a new one, with all that stands below it. -/
inductive Clones : Forest → NodeId → NodeId → Forest → Prop
  | node {f g : Forest} {id : NodeId}
      (below : ClonesBelow (f.add (f.info id)).2 (f.add (f.info id)).1
        ((f.add (f.info id)).2.children id).toList g) :
      Clones f id (f.add (f.info id)).1 g

/-- Copying nodes as the last children of another one. -/
inductive ClonesBelow : Forest → NodeId → List NodeId → Forest → Prop
  | nil {f : Forest} {upper : NodeId} : ClonesBelow f upper [] f
  | cons {f g h : Forest} {upper id new : NodeId} {ids : List NodeId} (first : Clones f id new g)
      (rest : ClonesBelow (g.appendChild upper new) upper ids h) :
      ClonesBelow f upper (id :: ids) h

end

/-! ## One induction for runs, numbers and links -/

/-- A node with other numbers, below a parent. -/
def renumbered (f : Forest) (number : NodeId → NodeId) (parent : Option NodeId) (id : NodeId) :
    Node :=
  ⟨f.info id, (f.children id).map number, parent⟩

/-- A forest that still has all nodes of another one. -/
structure Retains (f g : Forest) : Prop where
  isForest : g.IsForest
  size : f.size ≤ g.size
  node : ∀ id < f.size, g.node id = f.node id

/-- What a copy of a subtree of `f` makes of a forest `g`. -/
structure Copied (f : Forest) (number : NodeId → NodeId) (g h : Forest) (id : NodeId) : Prop where
  run : Clones g id g.size h
  isForest : h.IsForest
  size : h.size = g.size + (f.descendants id).length
  old : ∀ other < g.size, h.node other = g.node other
  root : h.node g.size = f.renumbered number none id
  below : ∀ other ∈ (f.children id).toList.flatMap f.descendants,
    h.node (number other) = f.renumbered number ((f.parent other).map number) other

/-- What copies of subtrees of `f` below a node make of a forest `g`. -/
structure CopiedBelow (f : Forest) (number : NodeId → NodeId) (g h : Forest) (upper : NodeId)
    (ids : List NodeId) : Prop where
  run : ClonesBelow g upper ids h
  isForest : h.IsForest
  size : h.size = g.size + (ids.flatMap f.descendants).length
  old : ∀ other < g.size, other ≠ upper → h.node other = g.node other
  upper : h.node upper =
    ⟨g.info upper, g.children upper ++ (ids.map number).toArray, g.parent upper⟩
  below : ∀ other ∈ ids.flatMap f.descendants,
    h.node (number other) = f.renumbered number ((f.parent other).map number) other

theorem plantBelow_cons (t : Tree) (ts : List Tree) (upper : NodeId) (f : Forest) :
    Tree.plantBelow (t :: ts) upper f =
      Tree.plantBelow ts upper ((t.plant f).2.appendChild upper f.size) := by
  cases t
  rfl

/-- The numbers of nodes that get the numbers from `first` on. -/
theorem mem_range_of_numbered {ids : List NodeId} {first : Nat}
    (numbered : ids.map number = range' first ids.length) (found : id ∈ ids) :
    first ≤ number id ∧ number id < first + ids.length := by
  have listed := mem_map_of_mem (f := number) found
  rwa [numbered, mem_range'_1] at listed

/-- A copy that is linked, with more copies behind it. -/
theorem Copied.cons {k m : Forest} {ids : List NodeId} (isForest : f.IsForest)
    (inside : upper < g.size) (isParent : (f.parent id).map number = some upper)
    (numbered : (f.descendants id).map number = range' g.size (f.descendants id).length)
    (first : Copied f number g h id) (link : k = h.appendChild upper g.size)
    (linked : Linked h k upper g.size) (rest : CopiedBelow f number k m upper ids) :
    CopiedBelow f number g m upper (id :: ids) := by
  have sizes : k.size = g.size + (f.descendants id).length := linked.size.trans first.size
  have larger : g.size < k.size := by
    rw [sizes, isForest.descendants_eq, length_cons]
    omega
  rw [isForest.descendants_eq, map_cons, length_cons, range'_succ] at numbered
  obtain ⟨isRoot, numbered⟩ := cons.inj numbered
  refine ⟨.cons first.run (link ▸ rest.run), rest.isForest, ?_, fun other old apart => ?_, ?_, ?_⟩
  · rw [rest.size, sizes, flatMap_cons, length_append, Nat.add_assoc]
  · rw [rest.old other (old.trans larger) apart, linked.node, if_neg apart, if_neg old.ne,
      ← first.old other old]
    rfl
  · have stays : h.node upper = g.node upper := first.old upper inside
    rw [rest.upper, info, children, parent, linked.node, if_pos rfl, if_neg inside.ne, map_cons,
      isRoot]
    simp [info, children, parent, stays]
  · intro other found
    rw [flatMap_cons, isForest.descendants_eq, cons_append, mem_cons, mem_append] at found
    rcases found with rfl | below | later
    · rw [isRoot, rest.old _ larger inside.ne', linked.node, if_neg inside.ne', if_pos rfl,
        info, children, first.root, isParent, renumbered, renumbered]
    · obtain ⟨after, before⟩ := mem_range_of_numbered numbered below
      have notRoot : number other ≠ g.size := (Nat.lt_of_succ_le after).ne'
      have notUpper : number other ≠ upper := (inside.trans (Nat.lt_of_succ_le after)).ne'
      have inCopy : number other < k.size := by
        rw [sizes, isForest.descendants_eq, length_cons]
        exact before.trans_eq (Nat.succ_add_eq_add_succ _ _)
      rw [rest.old _ inCopy notUpper, linked.node, if_neg notUpper, if_neg notRoot,
        ← first.below other below]
      rfl
    · exact rest.below other later

/-- Copies of nodes, each of which can be copied, below another one. -/
theorem copiedBelow (isForest : f.IsForest) {ids : List NodeId}
    (each : ∀ id ∈ ids, ∀ g, Retains f g →
      (f.descendants id).map number = range' g.size (f.descendants id).length →
      Copied f number g ((f.tree id).plant g).2 id)
    (retains : Retains f g) (new : f.size ≤ upper) (inside : upper < g.size)
    (root : g.parent upper = none) (linked : ∀ id ∈ ids, (f.parent id).map number = some upper)
    (numbered : (ids.flatMap f.descendants).map number =
      range' g.size (ids.flatMap f.descendants).length) :
    CopiedBelow f number g (Tree.plantBelow (ids.map f.tree) upper g) upper ids := by
  induction ids generalizing g with
  | nil =>
    refine ⟨.nil, retains.isForest, rfl, fun _ _ _ => rfl, ?_, List.forall_mem_nil _⟩
    simp [Tree.plantBelow, info, children, parent]
  | cons id ids ih =>
    rw [flatMap_cons, map_append, length_append, ← range'_append_1] at numbered
    obtain ⟨here, there⟩ := append_inj numbered (by simp)
    have first := each id mem_cons_self g retains here
    have larger : g.size < ((f.tree id).plant g).2.size := by
      rw [first.size, isForest.descendants_eq, length_cons]
      omega
    have rootStays : ((f.tree id).plant g).2.parent upper = none := by
      rw [parent, first.old upper inside]
      exact root
    have link := linked_appendChild first.isForest (inside.trans larger) larger
      (not_covers_of_root rootStays inside.ne) (by rw [parent, first.root, renumbered])
    have later : Retains f (((f.tree id).plant g).2.appendChild upper g.size) := by
      refine ⟨link.isForest, retains.size.trans (larger.le.trans_eq link.size.symm),
        fun other old => ?_⟩
      rw [link.node, if_neg (old.trans_le new).ne, if_neg (old.trans_le retains.size).ne,
        ← retains.node other old, ← first.old other (old.trans_le retains.size)]
      rfl
    rw [map_cons, plantBelow_cons]
    refine first.cons isForest inside (linked id mem_cons_self) here rfl link
      (ih ?_ later ?_ ?_ ?_ ?_)
    · exact fun id listed => each id (mem_cons_of_mem _ listed)
    · exact (inside.trans larger).trans_eq link.size.symm
    · rw [parent, link.node, if_neg inside.ne, rootStays]
    · exact fun id listed => linked id (mem_cons_of_mem _ listed)
    · rw [link.size, first.size, there]

/-- Every subtree of a forest can be copied, also while the forest grows. -/
theorem IsForest.copied (isForest : f.IsForest) (inside : id < f.size) (retains : Retains f g)
    (numbered : (f.descendants id).map number = range' g.size (f.descendants id).length) :
    Copied f number g ((f.tree id).plant g).2 id := by
  induction id using isForest.induct generalizing g with
  | node id ih =>
    have planted : (f.tree id).plant g = ((g.add (f.info id)).1,
        Tree.plantBelow ((f.children id).toList.map f.tree) g.size (g.add (f.info id)).2) := by
      rw [isForest.tree_eq, Tree.plant]
      rfl
    have isCopy := retains.node id inside
    have isInfo : g.info id = f.info id := congrArg Node.info isCopy
    have isChildren : g.children id = f.children id := congrArg Node.children isCopy
    have larger : g.size < (g.add (f.info id)).2.size := by
      rw [size_add]
      exact Nat.lt_succ_self _
    rw [isForest.descendants_eq, map_cons, length_cons, range'_succ] at numbered
    obtain ⟨isRoot, numbered⟩ := cons.inj numbered
    have added : Retains f (g.add (f.info id)).2 := by
      refine ⟨isForest_add retains.isForest _, retains.size.trans larger.le, fun other old => ?_⟩
      rw [node_add, if_neg (old.trans_le retains.size).ne, retains.node other old]
    have below : CopiedBelow f number _ _ g.size _ := copiedBelow isForest
      (fun child listed _ => ih child listed (lt_size_of_parent (isForest.parent_of_mem listed)))
      added retains.size larger (by rw [parent_add, parent_eq_none_of_size_le le_rfl])
      (fun child listed => by rw [isForest.parent_of_mem listed, Option.map_some, isRoot])
      (by rw [size_add, numbered])
    rw [planted]
    refine ⟨?_, below.isForest, ?_, fun other old => ?_, ?_, below.below⟩
    · refine .node ?_
      rw [children_add, isInfo, isChildren]
      exact below.run
    · rw [below.size, size_add, isForest.descendants_eq, length_cons]
      omega
    · rw [below.old other (old.trans larger) old.ne, node_add, if_neg old.ne]
    · rw [below.upper, info, children, parent, node_add, if_pos rfl, renumbered, ← map_toArray]
      simp

/-! ## The whole copy -/

/-- The nodes of a list without repetitions can be numbered in order. -/
theorem exists_numbered {ids : List NodeId} (distinct : ids.Nodup) (first : Nat) :
    ∃ number : NodeId → NodeId, ids.map number = range' first ids.length := by
  refine ⟨fun id => first + ids.idxOf id, ext_getElem (by simp) fun index here _ => ?_⟩
  rw [getElem_map, getElem_range', distinct.idxOf_getElem]
  simp

theorem IsForest.copied_deepClone (isForest : f.IsForest) (inside : id < f.size) :
    ∃ number : NodeId → NodeId,
      (f.descendants id).map number = range' f.size (f.descendants id).length ∧
        Copied f number f (f.deepClone id).2 id := by
  obtain ⟨number, numbered⟩ := exists_numbered (isForest.nodup_descendants id) f.size
  exact ⟨number, numbered, isForest.copied inside ⟨isForest, le_rfl, fun _ _ => rfl⟩ numbered⟩

/--
The subtree of `g` at `new` is a copy of that of `f` at `id`, made of new nodes. Its nodes are
those of the original in the same order, with other numbers.
-/
structure IsCopy (f g : Forest) (id new : NodeId) : Prop where
  run : Clones f id new g
  isForest : g.IsForest
  root : g.parent new = none
  size : g.size = f.size + (f.descendants id).length
  old : ∀ other < f.size, g.node other = f.node other
  fresh : g.descendants new = range' f.size (f.descendants id).length
  same : ∃ number : NodeId → NodeId, g.descendants new = (f.descendants id).map number ∧
    ∀ other ∈ f.descendants id, g.node (number other) =
      f.renumbered number (if other = id then none else (f.parent other).map number) other
  text : (g.tree new).text = (f.tree id).text

/-- Subtrees whose nodes are the same under other numbers. -/
structure Mirrors (f g : Forest) (number : NodeId → NodeId) (id : NodeId) : Prop where
  descendants : g.descendants (number id) = (f.descendants id).map number
  write : ∀ out, (g.tree (number id)).write out = (f.tree id).write out

theorem writeAll_map {t u : NodeId → Tree} {ids : List NodeId}
    (same : ∀ id ∈ ids, ∀ out, (t id).write out = (u id).write out) (out : String) :
    Tree.writeAll (ids.map t) out = Tree.writeAll (ids.map u) out := by
  induction ids generalizing out with
  | nil => rfl
  | cons id ids ih =>
    rw [map_cons, map_cons, Tree.writeAll, Tree.writeAll, same id mem_cons_self]
    exact ih (fun id listed => same id (mem_cons_of_mem _ listed)) _

theorem IsForest.mirrors (isForest : f.IsForest) (isForestCopy : g.IsForest)
    (info : ∀ other ∈ f.descendants id, g.info (number other) = f.info other)
    (children :
      ∀ other ∈ f.descendants id, g.children (number other) = (f.children other).map number) :
    Mirrors f g number id := by
  induction id using isForest.induct with
  | node id ih =>
    rw [isForest.descendants_eq] at info children
    have here := children id mem_cons_self
    have each (child : NodeId) (listed : child ∈ (f.children id).toList) :
        Mirrors f g number child := by
      have later {other : NodeId} (found : other ∈ f.descendants child) :
          other ∈ id :: (f.children id).toList.flatMap f.descendants :=
        .tail _ (mem_flatMap.mpr ⟨child, listed, found⟩)
      exact ih child listed (fun other found => info other (later found))
        fun other found => children other (later found)
    constructor
    · rw [isForestCopy.descendants_eq, isForest.descendants_eq, here, map_cons, map_flatMap,
        Array.toList_map, flatMap_map]
      exact congrArg _ (flatMap_congr fun child listed => (each child listed).descendants)
    · intro out
      have below := writeAll_map fun child listed => (each child listed).write
      rw [isForestCopy.tree_eq, isForest.tree_eq, here, info id mem_cons_self, Array.toList_map,
        map_map]
      cases ids : (f.children id).toList with
      | nil => rfl
      | cons child rest =>
        rw [ids] at below
        rw [map_cons, map_cons, Tree.write, Tree.write]
        exact congrArg (String.push · ')') (below _)

/--
Copying a subtree of a forest comes to an end and makes an independent copy of it, whose nodes are
in the order in which a walk meets those of the original.
-/
theorem isCopy_deepClone (isForest : f.IsForest) (inside : id < f.size) :
    IsCopy f (f.deepClone id).2 id (f.deepClone id).1 ∧ f.Preorder id (f.descendants id) := by
  obtain ⟨number, numbered, copied⟩ := isForest.copied_deepClone inside
  have isRoot := numbered
  rw [isForest.descendants_eq, map_cons, length_cons, range'_succ] at isRoot
  have nodes : ∀ other ∈ f.descendants id, (f.deepClone id).2.node (number other) =
      f.renumbered number (if other = id then none else (f.parent other).map number) other := by
    have distinct := isForest.nodup_descendants id
    rw [isForest.descendants_eq, nodup_cons] at distinct
    intro other found
    rw [isForest.descendants_eq, mem_cons] at found
    rcases found with rfl | below
    · rw [if_pos rfl, (cons.inj isRoot).1, copied.root]
    · have notRoot : other ≠ id := by
        rintro rfl
        exact distinct.1 below
      rw [if_neg notRoot, copied.below other below]
  have mirrors : Mirrors f (f.deepClone id).2 number id := isForest.mirrors copied.isForest
    (fun other found => by rw [info, nodes other found, renumbered])
    fun other found => by rw [children, nodes other found, renumbered]
  have isNew : (f.deepClone id).1 = f.size := by
    rw [deepClone, isForest.tree_eq]
    rfl
  have isCopied : (f.deepClone id).1 = number id := isNew.trans (cons.inj isRoot).1.symm
  refine ⟨⟨?_, copied.isForest, ?_, copied.size, copied.old, ?_, ⟨number, ?_, nodes⟩, ?_⟩,
    isForest.preorder_descendants id⟩
  · rw [isNew]
    exact copied.run
  · rw [isCopied, parent, nodes id (isForest.mem_descendants.mpr (covers_self f id)), if_pos rfl,
      renumbered]
  · rw [isCopied, mirrors.descendants, numbered]
  · rw [isCopied, mirrors.descendants]
  · rw [isCopied]
    exact mirrors.write ""

/-- The last two nodes of a chain are copied. -/
theorem isCopy_deepClone_chain :
    chain.IsForest ∧ 1 < chain.size ∧ IsCopy chain (chain.deepClone 1).2 1 3 ∧
      chain.descendants 1 = [1, 2] ∧ chain.Preorder 1 [1, 2] := by
  have inside : 1 < chain.size := by decide +kernel
  have two : chain.descendants 1 = [1, 2] := by decide +kernel
  obtain ⟨isCopy, preorder⟩ := isCopy_deepClone isForest_chain inside
  exact ⟨isForest_chain, inside, isCopy, two, two ▸ preorder⟩

end Offside.Forest
