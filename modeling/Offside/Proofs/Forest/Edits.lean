import Offside.Proofs.Forest.Ways

/-!
# Edits of a forest

What becomes of the links of a forest when a node leaves its parent, gets a parent, becomes another
node or is replaced by one. A link is refused exactly if it would put a node below itself.
-/

namespace Offside.Forest

open List

variable {f g : Forest} {upper child id other target source old new : NodeId} {index : Nat}

/-! ## Single nodes -/

theorem parent_modify_parent (value : Option NodeId) :
    (f.modify id fun n => { n with parent := value }).parent other =
      if id = other ∧ other < f.size then value else f.parent other := by
  rw [parent, node_modify]
  split <;> rfl

theorem children_modify_parent (value : Option NodeId) :
    (f.modify id fun n => { n with parent := value }).children other = f.children other := by
  rw [children, node_modify]
  split <;> rfl

theorem parent_modify_children (change : Array NodeId → Array NodeId) :
    (f.modify id fun n => { n with children := change n.children }).parent other =
      f.parent other := by
  rw [parent, node_modify]
  split <;> rfl

theorem children_modify_children (change : Array NodeId → Array NodeId) :
    (f.modify id fun n => { n with children := change n.children }).children other =
      if id = other ∧ other < f.size then change (f.children other) else f.children other := by
  rw [children, node_modify]
  split <;> rfl

theorem children_eq_empty_of_size_le (outside : f.size ≤ id) : f.children id = #[] :=
  congrArg Node.children (node_of_size_le outside)

theorem parent_eq_none_of_size_le (outside : f.size ≤ id) : f.parent id = none :=
  congrArg Node.parent (node_of_size_le outside)

theorem IsForest.cut_modifyInfo (isForest : f.IsForest) {change : Info → Info} :
    Cut f (f.modifyInfo id change) :=
  isForest.cut_of_same rfl (fun other => parent_modifyInfo f id other change) fun other =>
    children_modifyInfo f id other change

/-! ## Nodes that leave their parents -/

theorem parent_detach :
    (f.detach id).parent other = if other = id then none else f.parent other := by
  rw [detach]
  cases isParent : f.parent id with
  | none =>
    by_cases same : other = id
    · rw [if_pos same, same]
      exact isParent
    · rw [if_neg same]
  | some upper =>
    have inside := lt_size_of_parent isParent
    change (Forest.modify _ upper _).parent other = _
    rw [parent_modify_children fun children => children.filter (· ≠ id), parent_modify_parent]
    by_cases same : other = id
    · simp [same, inside]
    · simp [same, Ne.symm same]

theorem IsForest.parent_ne_self (isForest : f.IsForest) (id : NodeId) : f.parent id ≠ some id := by
  intro linked
  apply isForest.acyclic id 1 Nat.one_pos
  rw [ancestor?, linked]
  rfl

/-- A list of children without one that does not belong there stays as it is. -/
theorem IsForest.filter_children (isForest : f.IsForest) (away : f.parent child ≠ some id) :
    (f.children id).filter (· ≠ child) = f.children id := by
  rw [Array.filter_eq_self]
  intro other listed
  refine decide_eq_true ?_
  rintro rfl
  exact away ((isForest.agree id other).mp listed)

theorem children_detach (isForest : f.IsForest) :
    (f.detach id).children other = (f.children other).filter (· ≠ id) := by
  rw [detach]
  cases isParent : f.parent id with
  | none => rw [isForest.filter_children (by rw [isParent]; exact (Option.some_ne_none other).symm)]
  | some upper =>
    have inside := isForest.parent_lt_size isParent
    change (Forest.modify _ upper _).children other = _
    rw [children_modify_children fun children => children.filter (· ≠ id), children_modify_parent,
      size_modify]
    by_cases same : upper = other
    · rw [if_pos ⟨same, same ▸ inside⟩]
    · rw [if_neg fun both => same both.1, isForest.filter_children]
      rw [isParent]
      exact fun both => same (Option.some.inj both)

@[simp] theorem size_detach : (f.detach id).size = f.size := by
  rw [detach]
  cases f.parent id <;> simp

@[simp] theorem refused_detach : (f.detach id).refused = f.refused := by
  rw [detach]
  cases f.parent id <;> rfl

theorem info_detach : (f.detach id).info other = f.info other := by
  rw [detach]
  split
  · rw [info, node_modify, node_modify]
    split <;> split <;> rfl
  · rfl

theorem cut_detach (isForest : f.IsForest) (id : NodeId) : Cut f (f.detach id) := by
  constructor
  · exact refused_detach
  · intro other upper linked
    rw [parent_detach] at linked
    split at linked
    · cases linked
    · exact linked
  · intro other
    rw [children_detach isForest, Array.toList_filter]
    refine filter_congr fun child listed => decide_eq_decide.mpr ?_
    have linked := (isForest.agree other child).mp (Array.mem_toList_iff.mp listed)
    rw [parent_detach, linked]
    by_cases same : child = id <;> simp [same]

def release (f : Forest) (ids : List NodeId) : Forest :=
  ids.foldl (fun f child => f.modify child fun n => { n with parent := none }) f

theorem parent_release (ids : List NodeId) :
    (f.release ids).parent other = if other ∈ ids then none else f.parent other := by
  induction ids generalizing f with
  | nil => simp [release]
  | cons id ids ih =>
    rw [release, foldl_cons, ← release, ih, parent_modify_parent]
    by_cases later : other ∈ ids
    · simp [later]
    · by_cases same : id = other
      · subst same
        by_cases inside : id < f.size
        · simp [inside]
        · simp [inside, parent_eq_none_of_size_le (Nat.le_of_not_lt inside)]
      · simp [later, same, Ne.symm same]

theorem children_release (ids : List NodeId) :
    (f.release ids).children other = f.children other := by
  induction ids generalizing f with
  | nil => rfl
  | cons id ids ih => rw [release, foldl_cons, ← release, ih, children_modify_parent]

theorem size_release (ids : List NodeId) : (f.release ids).size = f.size := by
  induction ids generalizing f with
  | nil => rfl
  | cons id ids ih => rw [release, foldl_cons, ← release, ih, size_modify]

theorem refused_release (ids : List NodeId) : (f.release ids).refused = f.refused := by
  induction ids generalizing f with
  | nil => rfl
  | cons id ids ih => exact ih

theorem takeChildren_eq (f : Forest) (id : NodeId) :
    f.takeChildren id = ((f.children id).toList,
      (f.modify id fun n => { n with children := #[] }).release (f.children id).toList) :=
  rfl

theorem parent_takeChildren (isForest : f.IsForest) :
    (f.takeChildren id).2.parent other = if f.parent other = some id then none
      else f.parent other := by
  rw [takeChildren_eq, parent_release, parent_modify_children fun _ => #[]]
  simp only [Array.mem_toList_iff, isForest.agree]

@[simp] theorem size_takeChildren : (f.takeChildren id).2.size = f.size := by
  rw [takeChildren_eq, size_release, size_modify]

theorem info_takeChildren : (f.takeChildren id).2.info other = f.info other := by
  have released (g : Forest) (ids : List NodeId) : (g.release ids).info other = g.info other := by
    induction ids generalizing g with
    | nil => rfl
    | cons id ids ih =>
      rw [release, foldl_cons, ← release, ih, info, node_modify]
      split <;> rfl
  rw [takeChildren_eq, released, info, node_modify]
  split <;> rfl

theorem children_takeChildren :
    (f.takeChildren id).2.children other = if other = id then #[] else f.children other := by
  rw [takeChildren_eq, children_release, children_modify_children fun _ => #[]]
  by_cases same : other = id
  · subst same
    by_cases inside : other < f.size
    · simp [inside]
    · simp [inside, children_eq_empty_of_size_le (Nat.le_of_not_lt inside)]
  · rw [if_neg fun both => same both.1.symm, if_neg same]

theorem cut_takeChildren (isForest : f.IsForest) (id : NodeId) : Cut f (f.takeChildren id).2 := by
  constructor
  · exact refused_release _
  · intro other upper linked
    rw [parent_takeChildren isForest] at linked
    split at linked
    · cases linked
    · exact linked
  · intro other
    have linked : ∀ child ∈ (f.children other).toList, f.parent child = some other :=
      fun child listed => (isForest.agree other child).mp (Array.mem_toList_iff.mp listed)
    rw [children_takeChildren, eq_comm]
    by_cases same : other = id
    · rw [if_pos same, filter_eq_nil_iff]
      intro child listed
      rw [parent_takeChildren isForest, if_pos (same ▸ linked child listed)]
      simp
    · rw [if_neg same, filter_eq_self]
      intro child listed
      have apart : f.parent child ≠ some id := by
        rw [linked child listed]
        exact fun both => same (Option.some.inj both)
      rw [parent_takeChildren isForest, if_neg apart]
      exact decide_eq_true (linked child listed)

/-! ## Nodes that get a parent -/

/-- An entry is inserted somewhere. -/
theorem exists_insertAt (ids : Array NodeId) (index : Nat) (id : NodeId) :
    ∃ before after, ids.toList = before ++ after ∧
      (insertAt ids index id).toList = before ++ id :: after := by
  unfold insertAt
  split
  case isTrue inside =>
    obtain ⟨before, after, whole, _, inserted⟩ :=
      exists_of_modifyTailIdx (List.cons id) (Nat.le_of_lt inside)
    refine ⟨before, after, whole, ?_⟩
    rw [Array.toList_insertIdx]
    exact inserted
  case isFalse => exact ⟨ids.toList, [], (append_nil _).symm, Array.toList_push⟩

theorem ne_of_not_covers (clear : ¬f.Covers child upper) : upper ≠ child := by
  rintro rfl
  exact clear (covers_self f upper)

section

variable (isForest : f.IsForest) (inside : upper < f.size) (clear : ¬f.Covers child upper)
include isForest inside clear

/-- A link that would not put a node below itself is made. -/
theorem insertChild_eq :
    f.insertChild upper index child =
      ((f.detach child).modify upper fun n =>
        { n with children := insertAt n.children index child }).modify child fun n =>
        { n with parent := some upper } := by
  rw [insertChild, if_neg]
  exact fun found => clear ((isForest.isAbove_iff inside).mp found)

/-- A node that is not above another one is put below it. -/
theorem grafted_insertChild (insideChild : child < f.size) :
    Grafted (f.detach child) (f.insertChild upper index child) upper child := by
  rw [insertChild_eq isForest inside clear]
  constructor
  · rw [parent_detach, if_pos rfl]
  · exact fun covers => clear ((cut_detach isForest child).covers covers)
  · rfl
  · intro id
    rw [parent_modify_parent, parent_modify_children fun ids => insertAt ids index child,
      size_modify, size_detach]
    by_cases same : id = child
    · simp [same, insideChild]
    · simp [same, Ne.symm same]
  · intro id other
    rw [children_modify_parent, children_modify_children fun ids => insertAt ids index child,
      if_neg fun both => other both.1.symm]
  · rw [children_modify_parent, children_modify_children fun ids => insertAt ids index child,
      if_pos ⟨rfl, inside.trans_eq size_detach.symm⟩]
    exact exists_insertAt _ index child

theorem isForest_insertChild_of_clear (insideChild : child < f.size) :
    (f.insertChild upper index child).IsForest :=
  (grafted_insertChild isForest inside clear insideChild).isForest
    ((cut_detach isForest child).isForest isForest)

end

theorem size_insertChild : (f.insertChild upper index child).size = f.size := by
  rw [insertChild]
  split
  · rfl
  · rw [size_modify, size_modify, size_detach]

/-- A link is refused exactly if it would put a node below itself. -/
theorem refused_insertChild (isForest : f.IsForest) (inside : upper < f.size) :
    (f.insertChild upper index child).refused ≠ none ↔ f.Covers child upper := by
  rw [← isForest.isAbove_iff inside, insertChild]
  split
  case isTrue covers => simp [isForest.unrefused, covers]
  case isFalse clear =>
    have same : ((f.detach child).modify upper fun n =>
        { n with children := insertAt n.children index child }).refused = f.refused :=
      refused_detach
    rw [Bool.eq_false_of_not_eq_true clear]
    simp only [Bool.false_eq_true, iff_false, not_not]
    exact same.trans isForest.unrefused

theorem isForest_insertChild (isForest : f.IsForest) (inside : upper < f.size)
    (insideChild : child < f.size) (unrefused : (f.insertChild upper index child).refused = none) :
    (f.insertChild upper index child).IsForest := by
  have clear : ¬f.Covers child upper := fun covers =>
    (refused_insertChild isForest inside).mpr covers unrefused
  exact isForest_insertChild_of_clear isForest inside clear insideChild

/-- What a link of one node below another one changes. -/
structure Linked (f g : Forest) (upper child : NodeId) : Prop where
  isForest : g.IsForest
  size : g.size = f.size
  node : ∀ id, g.node id =
    ⟨f.info id, if id = upper then (f.children id).push child else f.children id,
      if id = child then some upper else f.parent id⟩

/-- A node takes another one that has no parent and is not above it as its last child. -/
theorem linked_appendChild (isForest : f.IsForest) (inside : upper < f.size)
    (insideChild : child < f.size) (clear : ¬f.Covers child upper) (free : f.parent child = none) :
    Linked f (f.appendChild upper child) upper child := by
  refine ⟨isForest_insertChild_of_clear isForest inside clear insideChild, size_insertChild,
    fun id => ?_⟩
  have apart := ne_of_not_covers clear
  rw [appendChild, insertChild_eq isForest inside clear, detach, free, node_modify, node_modify,
    size_modify]
  by_cases isUpper : id = upper
  · subst isUpper
    simp [inside, apart, apart.symm, insertAt, info, children, parent]
  · by_cases isChild : id = child
    · subst isChild
      simp [insideChild, isUpper, apart, info, children]
    · simp [isUpper, isChild, Ne.symm isUpper, Ne.symm isChild, info, children, parent]

/-- A node without parent is above no node but itself. -/
theorem not_covers_of_root (root : f.parent upper = none) (apart : upper ≠ child) :
    ¬f.Covers child upper := by
  rw [covers_iff]
  rintro (same | ⟨steps, reached⟩)
  · exact apart same.symm
  · rw [ancestor?, root] at reached
    cases reached

/-! ## Several children -/

/-- A refusal is not forgotten. -/
theorem refused_insertChild_of_refused (refused : f.refused ≠ none) :
    (f.insertChild upper index child).refused ≠ none := by
  rw [insertChild]
  split
  · obtain ⟨link, found⟩ := Option.ne_none_iff_exists'.mp refused
    simp [found]
  · have same : ((f.detach child).modify upper fun n =>
        { n with children := insertAt n.children index child }).refused = f.refused :=
      refused_detach
    exact fun none => refused (same.symm.trans none)

theorem appendChildren_cons (id : NodeId) (ids : List NodeId) :
    f.appendChildren upper (id :: ids) =
      (f.insertChild upper (f.children upper).size id).appendChildren upper ids :=
  rfl

theorem refused_appendChildren_of_refused (refused : f.refused ≠ none) (ids : List NodeId) :
    (f.appendChildren upper ids).refused ≠ none := by
  induction ids generalizing f with
  | nil => exact refused
  | cons id ids ih => exact ih (refused_insertChild_of_refused refused)

/-- A link that is made leaves the way up from the parent as it was. -/
theorem covers_insertChild (isForest : f.IsForest) (inside : upper < f.size)
    (insideChild : child < f.size) (clear : ¬f.Covers child upper) :
    (f.insertChild upper index child).Covers id upper ↔ f.Covers id upper := by
  rw [(grafted_insertChild isForest inside clear insideChild).covers_iff_of_clear]
  have same (steps : Nat) : (f.detach child).ancestor? steps upper = f.ancestor? steps upper := by
    apply ancestor?_congr
    intro step _ node reached
    rw [parent_detach, if_neg]
    rintro rfl
    exact clear ⟨step, reached⟩
  unfold Covers
  simp only [same]

/-- Nodes are put below another one unless one of them covers it. -/
theorem isForest_appendChildren (isForest : f.IsForest) (inside : upper < f.size)
    {ids : List NodeId} (insideAll : ∀ id ∈ ids, id < f.size)
    (clear : ∀ id ∈ ids, ¬f.Covers id upper) : (f.appendChildren upper ids).IsForest := by
  induction ids generalizing f with
  | nil => exact isForest
  | cons id ids ih =>
    have insideId := insideAll id mem_cons_self
    have clearId := clear id mem_cons_self
    rw [appendChildren_cons]
    apply ih
    · exact isForest_insertChild_of_clear isForest inside clearId insideId
    · rw [size_insertChild]
      exact inside
    · intro other listed
      rw [size_insertChild]
      exact insideAll other (mem_cons_of_mem id listed)
    · intro other listed
      rw [covers_insertChild isForest inside insideId clearId]
      exact clear other (mem_cons_of_mem id listed)

theorem refused_appendChildren (isForest : f.IsForest) (inside : upper < f.size)
    {ids : List NodeId} (insideAll : ∀ id ∈ ids, id < f.size) (listed : id ∈ ids)
    (covers : f.Covers id upper) : (f.appendChildren upper ids).refused ≠ none := by
  induction ids generalizing f with
  | nil => cases listed
  | cons first ids ih =>
    have insideFirst := insideAll first mem_cons_self
    rw [appendChildren_cons]
    by_cases clear : f.Covers first upper
    · apply refused_appendChildren_of_refused
      exact (refused_insertChild isForest inside).mpr clear
    · apply ih
      · exact isForest_insertChild_of_clear isForest inside clear insideFirst
      · rw [size_insertChild]
        exact inside
      · intro other later
        rw [size_insertChild]
        exact insideAll other (mem_cons_of_mem first later)
      · rcases mem_cons.mp listed with rfl | later
        · exact absurd covers clear
        · exact later
      · rw [covers_insertChild isForest inside insideFirst clear]
        exact covers

/-! ## Transformations -/

/-- The forest in which `target` has the contents of `source` and the links of both are cut. -/
def loosen (f : Forest) (target source : NodeId) : Forest :=
  (((f.detach source).takeChildren target).2.takeChildren source).2.modifyInfo target fun _ =>
    f.info source

structure Loosened (f g : Forest) (target source : NodeId) : Prop where
  cut : Cut f g
  size : g.size = f.size
  info : ∀ id, g.info id = if id = target then f.info source else f.info id
  children : ∀ id, g.children id =
    if id = target ∨ id = source then #[] else (f.children id).filter (· ≠ source)
  parent : ∀ id, g.parent id =
    if id = source ∨ f.parent id = some target ∨ f.parent id = some source then none
      else f.parent id

theorem loosened_loosen (isForest : f.IsForest) (inside : target < f.size) (source : NodeId) :
    Loosened f (f.loosen target source) target source := by
  have cut := cut_detach isForest source
  have freed := cut.isForest isForest
  have cutTarget := cut_takeChildren freed target
  have freedTarget := cutTarget.isForest freed
  have cutSource := cut_takeChildren freedTarget source
  have freedSource := cutSource.isForest freedTarget
  refine ⟨?_, ?_, fun id => ?_, fun id => ?_, fun id => ?_⟩
  · exact ((cut.trans cutTarget).trans cutSource).trans freedSource.cut_modifyInfo
  · rw [loosen, modifyInfo, size_modify, size_takeChildren, size_takeChildren, size_detach]
  · rw [loosen, modifyInfo, info, node_modify, size_takeChildren, size_takeChildren, size_detach]
    by_cases same : id = target
    · simp [same, inside]
    · rw [if_neg fun both => same both.1.symm, if_neg same, ← info, info_takeChildren,
        info_takeChildren, info_detach]
  · rw [loosen, children_modifyInfo, children_takeChildren, children_takeChildren,
      children_detach isForest]
    by_cases isSource : id = source
    · simp [isSource]
    · simp [isSource]
  · rw [loosen, parent_modifyInfo, parent_takeChildren freedTarget, parent_takeChildren freed,
      parent_detach]
    by_cases isSource : id = source
    · simp [isSource]
    · by_cases below : f.parent id = some target
      · simp [isSource, below]
      · simp [isSource, below]

/-- A node becomes another one once the links of the two are cut. -/
theorem transformInto_eq (isForest : f.IsForest) (apart : target ≠ source) :
    f.transformInto target source =
      (f.loosen target source).appendChildren target (f.children source).toList := by
  have children : (((f.detach source).takeChildren target).2.takeChildren source).1 =
      (f.children source).toList := by
    rw [takeChildren_eq, children_takeChildren, if_neg apart.symm, children_detach isForest,
      isForest.filter_children (isForest.parent_ne_self source)]
  have info : (((f.detach source).takeChildren target).2.takeChildren source).2.info source =
      f.info source := by
    rw [info_takeChildren, info_takeChildren, info_detach]
  rw [transformInto, if_neg apart, loosen, ← children, ← info]

theorem isForest_transformInto (isForest : f.IsForest) (inside : target < f.size)
    (clear : ¬f.Above source target) : (f.transformInto target source).IsForest := by
  by_cases apart : target = source
  · rw [transformInto, if_pos apart]
    exact isForest
  · have loosened := loosened_loosen isForest inside source
    have linked {id : NodeId} (listed : id ∈ (f.children source).toList) :
      f.parent id = some source :=
      (isForest.agree source id).mp (Array.mem_toList_iff.mp listed)
    rw [transformInto_eq isForest apart]
    apply isForest_appendChildren (loosened.cut.isForest isForest)
    · rw [loosened.size]
      exact inside
    · intro id listed
      rw [loosened.size]
      exact lt_size_of_parent (linked listed)
    · intro id listed covers
      obtain ⟨steps, reached⟩ := loosened.cut.covers covers
      apply clear
      refine ⟨steps, ?_⟩
      rw [ancestor?_add, reached, Option.bind_some, ancestor?, linked listed]
      rfl

/-- The way from the target to the child of the source that leads to it is not cut. -/
theorem refused_transformInto (isForest : f.IsForest) (inside : target < f.size)
    (above : f.Above source target) : (f.transformInto target source).refused ≠ none := by
  have apart : target ≠ source := by
    rintro rfl
    obtain ⟨steps, back⟩ := above
    exact isForest.acyclic target (steps + 1) (Nat.succ_pos steps) back
  have loosened := loosened_loosen isForest inside source
  obtain ⟨steps, child, reached, isParent⟩ := above.exists_child
  have last : f.ancestor? (steps + 1) target = some source := by
    rw [ancestor?_add, reached, Option.bind_some, ancestor?, isParent]
    rfl
  have way : (f.loosen target source).ancestor? steps target = some child := by
    rw [← reached]
    apply ancestor?_congr
    intro step few node here
    have next {parent : NodeId} (linked : f.parent node = some parent) :
        f.ancestor? (step + 1) target = some parent := by
      rw [ancestor?_add, here, Option.bind_some, ancestor?, linked]
      rfl
    rw [loosened.parent, if_neg]
    rintro (rfl | linked | linked)
    · have : step = steps + 1 := isForest.steps_inj here last
      omega
    · exact isForest.acyclic target (step + 1) (Nat.succ_pos step) (next linked)
    · have : step + 1 = steps + 1 := isForest.steps_inj (next linked) last
      omega
  rw [transformInto_eq isForest apart]
  apply refused_appendChildren (loosened.cut.isForest isForest)
  · rw [loosened.size]
    exact inside
  · intro id listed
    rw [loosened.size]
    exact lt_size_of_parent ((isForest.agree source id).mp (Array.mem_toList_iff.mp listed))
  · exact Array.mem_toList_iff.mpr ((isForest.agree source child).mpr isParent)
  · exact ⟨steps, way⟩

/-! ## Replacements -/

/-- The entry that is looked for is replaced where it stands. -/
theorem exists_setIfInBounds {ids : Array NodeId} (new : NodeId)
    (found : ids.findIdx? (· = old) = some index) :
    ∃ before after, ids.toList = before ++ old :: after ∧
      (ids.setIfInBounds index new).toList = before ++ new :: after := by
  obtain ⟨inside, here, _⟩ := Array.findIdx?_eq_some_iff_getElem.mp found
  have bound : index < ids.toList.length := inside
  refine ⟨ids.toList.take index, ids.toList.drop (index + 1), ?_, ?_⟩
  · have same : ids.toList[index] = old := of_decide_eq_true here
    rw [← same, getElem_cons_drop, take_append_drop]
  · rw [Array.toList_setIfInBounds, set_eq_take_append_cons_drop, if_pos bound]

/-- A root takes the place of a child. -/
theorem grafted_setIfInBounds (isForest : f.IsForest) (root : f.parent new = none)
    (insideNew : new < f.size) (isParent : f.parent old = some upper) (clear : ¬f.Covers new upper)
    (found : (f.children upper).findIdx? (· = old) = some index) :
    Grafted (f.detach old)
      (((f.modify upper fun n =>
        { n with children := n.children.setIfInBounds index new }).modify
        new fun n => { n with parent := some upper }).modify
        old fun n => { n with parent := none }) upper new := by
  have inside := lt_size_of_parent isParent
  have insideUpper := isForest.parent_lt_size isParent
  have apart : old ≠ new := by
    rintro rfl
    rw [root] at isParent
    cases isParent
  constructor
  · rw [parent_detach, if_neg apart.symm, root]
  · exact fun covers => clear ((cut_detach isForest old).covers covers)
  · rw [refused_detach]
    rfl
  · intro id
    rw [parent_modify_parent, parent_modify_parent,
      parent_modify_children fun ids => ids.setIfInBounds index new, parent_detach, size_modify,
      size_modify]
    by_cases isNew : id = new
    · subst isNew
      simp [apart, insideNew]
    · by_cases isOld : id = old
      · subst isOld
        simp [isNew, inside]
      · simp [isNew, isOld, Ne.symm isNew, Ne.symm isOld]
  · intro id away
    rw [children_modify_parent, children_modify_parent,
      children_modify_children fun ids => ids.setIfInBounds index new,
      if_neg fun both => away both.1.symm, children_detach isForest, isForest.filter_children]
    rw [isParent]
    exact fun both => away (Option.some.inj both).symm
  · rw [children_modify_parent, children_modify_parent,
      children_modify_children fun ids => ids.setIfInBounds index new,
      if_pos ⟨rfl, insideUpper⟩, children_detach isForest, Array.toList_filter]
    obtain ⟨before, after, whole, changed⟩ := exists_setIfInBounds new found
    -- The child that goes is listed once, so it is neither before nor after its place.
    have once := isForest.once upper old ((isForest.agree upper old).mpr isParent)
    rw [← Array.count_toList, whole, count_append, count_cons_self] at once
    have notBefore : old ∉ before := count_eq_zero.mp (by omega)
    have notAfter : old ∉ after := count_eq_zero.mp (by omega)
    refine ⟨before, after, ?_, changed⟩
    rw [whole, filter_append, filter_cons_of_neg (by simp),
      filter_eq_self.mpr, filter_eq_self.mpr]
    · intro child listed
      exact decide_eq_true fun same => notAfter (same ▸ listed)
    · intro child listed
      exact decide_eq_true fun same => notBefore (same ▸ listed)

theorem isForest_replace (isForest : f.IsForest) (insideNew : new < f.size)
    (allowed : ¬f.Above new old) : (f.replace old new).IsForest := by
  have cut := cut_detach isForest new
  have freed := cut.isForest isForest
  rw [replace]
  split
  case isTrue => exact isForest
  case isFalse =>
    dsimp only
    cases isParent : (f.detach new).parent old with
    | none => exact freed
    | some upper =>
      dsimp only
      cases found : ((f.detach new).children upper).findIdx? (· = old) with
      | none => exact freed
      | some index =>
        refine Grafted.isForest (grafted_setIfInBounds freed ?_ ?_ isParent ?_ found)
          ((cut_detach freed old).isForest freed)
        · rw [parent_detach, if_pos rfl]
        · rw [size_detach]
          exact insideNew
        · exact fun covers =>
            allowed ((cut.covers covers).above (cut.parent old upper isParent))

/-! ## New nodes -/

theorem node_add (info : Info) :
    (f.add info).2.node id = if id = f.size then ⟨info, #[], none⟩ else f.node id := by
  have pushed : (f.add info).2.node id = (f.nodes.push ⟨info, #[], none⟩).getD id default := rfl
  rw [pushed, Array.getD_eq_getD_getElem?, Array.getElem?_push, node, Array.getD_eq_getD_getElem?,
    size]
  by_cases fresh : id = f.nodes.size
  · rw [if_pos fresh, if_pos fresh, Option.getD_some]
  · rw [if_neg fresh, if_neg fresh]

theorem size_add (info : Info) : (f.add info).2.size = f.size + 1 :=
  Array.size_push _

theorem parent_add (info : Info) : (f.add info).2.parent id = f.parent id := by
  rw [parent, node_add]
  split
  case isTrue fresh => rw [parent, node_of_size_le fresh.ge]; rfl
  case isFalse => rfl

theorem children_add (info : Info) : (f.add info).2.children id = f.children id := by
  rw [children, node_add]
  split
  case isTrue fresh => rw [children, node_of_size_le fresh.ge]; rfl
  case isFalse => rfl

theorem isForest_add (isForest : f.IsForest) (info : Info) : (f.add info).2.IsForest := by
  have cut : Cut f (f.add info).2 :=
    isForest.cut_of_same rfl (fun _ => parent_add info) fun _ => children_add info
  exact cut.isForest isForest

theorem isForest_empty : IsForest .empty := by
  have node (id : NodeId) : node .empty id = default := node_of_size_le (Nat.zero_le id)
  exact isForest_of_free rfl fun id =>
    ⟨congrArg Node.children (node id), congrArg Node.parent (node id)⟩

/-- Three nodes without links. -/
def three : Forest :=
  (((Forest.empty.add default).2.add default).2.add default).2

/-- A chain of three nodes. -/
def chain : Forest :=
  (three.appendChild 0 1).appendChild 1 2

theorem isForest_chain : chain.IsForest := by
  have isForest : three.IsForest :=
    isForest_add (isForest_add (isForest_add isForest_empty default) default) default
  have linked : (three.appendChild 0 1).IsForest :=
    isForest_insertChild isForest (by decide) (by decide) rfl
  rw [chain]
  exact isForest_insertChild linked (by decide) (by decide) rfl

end Offside.Forest
