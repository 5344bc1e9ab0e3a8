import Offside.Proofs.Combination.Rules
import Offside.Proofs.Ownership.Numbers

/-!
# Numbers of the trees of a line

Combining the items of a line puts every item below at most one operator. The trees of the items
that are left and the tree that was made hold no number twice.
-/

namespace Offside

open Offside.Tree

namespace Item

def numbers (items : List Item) : Multiset NodeId :=
  numbersOfAll (items.map Item.tree)

@[simp] theorem numbers_nil : numbers [] = 0 :=
  numbersOfAll_nil

@[simp] theorem numbers_cons (item : Item) (items : List Item) :
    numbers (item :: items) = item.tree.numbers + numbers items :=
  numbersOfAll_cons _ _

@[simp] theorem numbers_append (items more : List Item) :
    numbers (items ++ more) = numbers items + numbers more := by
  rw [numbers, List.map_append, numbersOfAll_append]
  rfl

end Item

namespace Climb

mutual

@[simp] theorem numbers_declare (constant : Bool) (t : Tree) :
    (declare constant t).numbers = t.numbers := by
  cases t with
  | node id info children =>
    rw [declare]
    split
    · rfl
    · rw [numbers_node, numbers_node, numbersOfAll_declareAll constant children]
    · rfl

@[simp] theorem numbersOfAll_declareAll (constant : Bool) (ts : List Tree) :
    numbersOfAll (declareAll constant ts) = numbersOfAll ts := by
  cases ts with
  | nil => rfl
  | cons t ts =>
    rw [declareAll, numbersOfAll_cons, numbersOfAll_cons, numbers_declare constant t,
      numbersOfAll_declareAll constant ts]

end

/-- Marking names moves no tree. -/
@[simp] theorem numbersOfAll_classify (symbol : Symbol) (children : List Tree) :
    numbersOfAll (classify symbol children) = numbersOfAll children := by
  unfold classify
  split
  · simp
  · simp
  · simp
  · simp
  · rw [numbersOfAll_cons, numbersOfAll_cons]
    split <;> simp
  · split
    · rename_i head body _ _ _ target rest _ parts
      have whole : head.numbers = {head.id} + (target.numbers + numbersOfAll rest) := by
        rw [numbers_eq, parts, numbersOfAll_cons]
      simp [whole]
    · rfl
  · rfl

theorem numbers_operatorNode_le (node : Tree) (symbol : Symbol) (children : List Tree) :
    (operatorNode node symbol children).numbers ≤ node.numbers + numbersOfAll children := by
  rw [operatorNode, numbers_withChildren, numbersOfAll_classify]
  obtain ⟨id, info, old⟩ := node
  exact Multiset.add_le_add_right (singleton_id_le _)

def Phase.numbers : Phase → Multiset NodeId
  | .expression _ => 0
  | .following _ t => t.numbers
  | .operator _ bare children => bare.numbers + numbersOfAll children
  | .operands _ _ children | .clauses _ children => numbersOfAll children

/-- Climbing keeps numbers apart, whatever other numbers are in use. -/
theorem Climbed.owns {phase : Phase} {items left : List Item} {ts : List Tree} {n n' : Numbering}
    (climbed : Climbed phase items n ts left n') (rest : Multiset NodeId)
    (owns : n.Owns (phase.numbers + (Item.numbers items + rest))) :
    n'.Owns (numbersOfAll ts + (Item.numbers left + rest)) := by
  induction climbed generalizing rest with
  | operand _ _ ih =>
    refine ih rest (owns.mono (le_of_eq ?_))
    simp [Phase.numbers, add_assoc]
  | leading _ _ _ first onward =>
    refine onward rest ((first rest (owns.mono (le_of_eq ?_))).mono (le_of_eq ?_))
    all_goals simp [Phase.numbers, add_assoc]
  | stopped => exact owns.mono (le_of_eq (by simp [Phase.numbers]))
  | between _ _ _ _ first onward =>
    refine onward rest ((first rest (owns.mono (le_of_eq ?_))).mono (le_of_eq ?_))
    · simp only [Phase.numbers, numbersOfAll_cons, numbersOfAll_nil, Item.numbers_cons]
      abel
    · simp [Phase.numbers]
  | @called _ t _ item spread more _ _ _ _ _ _ made _ ih =>
    have inside : numbersOfAll (if spread then item.tree.children else [item.tree]) ≤
        item.tree.numbers := by
      cases spread with
      | false => simp
      | true => exact item.tree.numbersOfAll_children_le
    refine ih rest ((keeps_new _ _ _ _).of_run made (owns.mono ?_))
    simp only [Phase.numbers, numbersOfAll_cons, Item.numbers_cons, ← add_assoc]
    gcongr
  | @indexed _ t _ item _ _ _ _ _ _ _ made _ ih =>
    have inside := item.tree.numbersOfAll_children_le
    refine ih rest ((keeps_new _ _ _ _).of_run made (owns.mono ?_))
    simp only [Phase.numbers, numbersOfAll_cons, Item.numbers_cons, ← add_assoc]
    gcongr
  | @argued _ t _ _ _ more _ _ _ _ _ _ _ made _ first onward =>
    have value := first (t.numbers + rest) (owns.mono (le_of_eq ?_))
    · refine onward rest ((keeps_new _ _ _ _).of_run made (value.mono (le_of_eq ?_)))
      simp only [numbersOfAll_cons, numbersOfAll_nil]
      abel
    · simp only [Phase.numbers]
      abel
  | @operator symbol bare _ _ all _ _ _ _ _ _ _ _ first second =>
    have operands := first (bare.numbers + rest) (owns.mono (le_of_eq ?_))
    · have made := numbers_operatorNode_le bare symbol all
      rw [numbersOfAll_cons, numbersOfAll_nil, add_zero]
      refine ((second (bare.numbers + rest) operands).mono (le_of_eq ?_)).mono
        (Multiset.add_le_add_right made)
      abel
    · simp only [Phase.numbers]
      abel
  | noOperands | noClauses => exact owns
  | atom _ _ _ ih =>
    refine ih rest (owns.mono (le_of_eq ?_))
    simp [Phase.numbers, add_assoc]
  | @operands _ _ children _ _ _ _ _ _ _ _ _ _ _ _ _ first onward =>
    have value := first (numbersOfAll children + rest) (owns.mono (le_of_eq ?_))
    · refine onward rest (value.mono (le_of_eq ?_))
      simp only [Phase.numbers, numbersOfAll_append]
      abel
    · simp only [Phase.numbers]
      abel
  | @clauses _ _ _ children _ _ _ _ _ _ _ _ _ _ _ _ _ _ first onward =>
    have made := first (numbersOfAll children + rest) (owns.mono (le_of_eq ?_))
    · refine onward rest (made.mono (le_of_eq ?_))
      simp only [Phase.numbers, numbersOfAll_append]
      abel
    · simp only [Phase.numbers, numbersOfAll_nil, Item.numbers_cons]
      abel

/-- The first expression of some items and the items behind it hold no number twice. -/
theorem keeps_first (items : List Item) :
    Keeps Supply.ledger (Item.numbers items) (first items)
      (fun r => numbersOfAll r.1.toList + Item.numbers r.2) := by
  intro n rest owns
  have before : n.Owns (Item.numbers items + rest) := owns.mono (le_of_eq (by simp [Supply.ledger]))
  rcases climbed_first items n with ⟨rfl, same, unchanged⟩ | ⟨t, isSome, climbed⟩
  · rw [same, unchanged]
    exact owns
  · have after := climbed.owns rest (before.mono (le_of_eq (by simp [Phase.numbers])))
    exact after.mono (le_of_eq (by simp [Supply.ledger, isSome, add_assoc]))

end Climb

end Offside
