import Offside.Forest

/-!
# Links that form a forest

In a forest both sides of every link agree, every node is the child of at most one node and that
only once, and every way up comes to an end.
-/

namespace Offside.Forest

variable {f : Forest}

/-! ## Single nodes -/

theorem node_modify (f : Forest) (id other : NodeId) (change : Node → Node) :
    (f.modify id change).node other =
      if id = other ∧ other < f.size then change (f.node other) else f.node other := by
  rw [node, node, modify, Array.getD_eq_getD_getElem?, Array.getD_eq_getD_getElem?,
    Array.getElem?_modify]
  by_cases same : id = other
  · subst same
    by_cases inside : id < f.size
    · have present : id < f.nodes.size := inside
      simp [present, size]
    · have absent : f.nodes.size ≤ id := Nat.le_of_not_lt inside
      simp [absent, inside]
  · simp [same]

@[simp] theorem size_modify (f : Forest) (id : NodeId) (change : Node → Node) :
    (f.modify id change).size = f.size :=
  Array.size_modify

theorem children_modifyInfo (f : Forest) (id other : NodeId) (change : Info → Info) :
    (f.modifyInfo id change).children other = f.children other := by
  rw [children, modifyInfo, node_modify]
  split <;> rfl

theorem parent_modifyInfo (f : Forest) (id other : NodeId) (change : Info → Info) :
    (f.modifyInfo id change).parent other = f.parent other := by
  rw [parent, modifyInfo, node_modify]
  split <;> rfl

/-! ## Forests -/

def ancestor? (f : Forest) : Nat → NodeId → Option NodeId
  | 0, id => some id
  | steps + 1, id => (f.parent id).bind (f.ancestor? steps)

/-- The links of a forest form one. -/
structure IsForest (f : Forest) : Prop where
  /-- No link was refused. -/
  unrefused : f.refused = none
  /-- Parents and children know each other. -/
  agree : ∀ id child, child ∈ f.children id ↔ f.parent child = some id
  /-- No node stands twice among the children of another one. -/
  once : ∀ id child, child ∈ f.children id → (f.children id).count child = 1
  /-- No way up leads back to where it began. -/
  acyclic : ∀ id steps, 0 < steps → f.ancestor? steps id ≠ some id

theorem ancestor?_add (f : Forest) (first second : Nat) (id : NodeId) :
    f.ancestor? (first + second) id = (f.ancestor? first id).bind (f.ancestor? second) := by
  induction first generalizing id with
  | zero => rw [Nat.zero_add]; rfl
  | succ first ih =>
    rw [Nat.succ_add, ancestor?, ancestor?, Option.bind_assoc]
    exact congrArg _ (funext ih)

/-- A way up that ends does not lead back. -/
theorem ancestor?_ne_self {id : NodeId} {last : Nat} (ends : f.ancestor? last id = none)
    {steps : Nat} (positive : 0 < steps) : f.ancestor? steps id ≠ some id := by
  intro back
  have again : ∀ rounds, f.ancestor? (rounds * steps) id = some id := by
    intro rounds
    induction rounds with
    | zero => rw [Nat.zero_mul]; rfl
    | succ rounds ih => rw [Nat.succ_mul, ancestor?_add, ih, Option.bind_some, back]
  have enough : last ≤ last * steps := Nat.le_mul_of_pos_right last positive
  have longer := again last
  rw [← Nat.add_sub_cancel' enough, ancestor?_add, ends] at longer
  cases longer

def Free (f : Forest) (id : NodeId) : Prop :=
  f.children id = #[] ∧ f.parent id = none

/-- Nodes without links form a forest. -/
theorem isForest_of_free (unrefused : f.refused = none) (free : ∀ id, f.Free id) : f.IsForest := by
  have empty (id child : NodeId) : child ∉ f.children id := by
    rw [(free id).1]
    exact Array.not_mem_empty child
  refine ⟨unrefused, fun id child => ?_, fun id child listed => absurd listed (empty id child),
    fun id steps positive => ?_⟩
  · rw [(free child).2]
    exact ⟨fun listed => absurd listed (empty id child), by rintro ⟨⟩⟩
  · have ends : f.ancestor? 1 id = none := by
      rw [ancestor?, (free id).2]
      rfl
    exact ancestor?_ne_self ends positive

end Offside.Forest
