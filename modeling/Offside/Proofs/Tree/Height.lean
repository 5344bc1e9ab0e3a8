import Offside.Tree

/-!
# Height

What stands below a node is lower than the node, so what holds of a tree if it holds of all that is
lower holds of all trees.
-/

namespace Offside.Tree

theorem height_lt_of_mem {t child : Tree} (member : child ∈ t.children) :
    child.height < t.height := by
  obtain ⟨id, info, children⟩ := t
  rw [height]
  refine Nat.lt_succ_of_le ?_
  change child ∈ children at member
  induction children with
  | nil => cases member
  | cons first rest ih =>
    rw [heightOfAll]
    rcases List.mem_cons.mp member with rfl | later
    · exact Nat.le_max_left _ _
    · exact Nat.le_trans (ih later) (Nat.le_max_right _ _)

/-- Induction along the height. -/
theorem induction_on_height {P : Tree → Prop}
    (step : ∀ t : Tree, (∀ u : Tree, u.height < t.height → P u) → P t) (t : Tree) : P t :=
  (InvImage.wf height Nat.lt_wfRel.wf).induction t step

/-- What holds of a node if it holds of its children holds of all trees. -/
@[elab_as_elim, induction_eliminator]
theorem induct {P : Tree → Prop} (node : ∀ id info children, (∀ child ∈ children, P child) →
    P (.node id info children)) (t : Tree) : P t := by
  induction t using induction_on_height with
  | step t ih =>
    obtain ⟨id, info, children⟩ := t
    exact node id info children fun child member => ih child (height_lt_of_mem member)

end Offside.Tree
