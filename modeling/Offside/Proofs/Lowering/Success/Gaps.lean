import Offside.Proofs.Binding.Bindable
import Offside.Proofs.Checking.Accepted
import Offside.Proofs.Lowering.Spots

/-!
# Gaps

Some trees pass the check though nothing can be generated for them at the spot where they stand: a
spot with such a tree is a gap.
-/

namespace Offside

open List

theorem Tree.Under.obeys {law : Law} {inner outer : Tree} (under : Under inner outer)
    (obeys : outer.Obeys law) : inner.Obeys law := by
  induction under with
  | single member => exact obeyAll_iff.mp obeys.children _ member
  | tail _ member ih => exact ih (obeyAll_iff.mp obeys.children _ member)

namespace Lowering

namespace Spot

/-- Decides whether nothing can be generated at a spot, though the tree may pass the check. -/
def isGap (spot : Spot) : Bool :=
  match spot.tree.symbol, spot.tree.children with
  -- a call of nothing
  | .builtin .call, [] => true
  -- keys that have no text
  | .builtin .object, entries => !entries.all (isKey ∘ entryKey)
  -- a value is asked of a declaration of several names
  | .builtin .var, names | .builtin .const, names =>
    spot.sink ≠ .dropped && !names.head?.any isNamed
  -- several values are returned
  | .builtin .tuple, _ => spot.sink = .returned
  -- several values are returned, or assigned to what has parts or no name
  | .builtin .assign, [left, _] =>
    !isSingleTarget left && (spot.sink = .returned || !(targets left).all isPlace)
  -- the variables of a loop stand in tuples inside of a tuple
  | .builtin .loop, [.node _ _ (names :: _), _] => names.spelled.length ≠ Check.width names
  -- several names are caught
  | .builtin .tryBlock, _ :: clauses =>
    clauses.any fun clause => clause.is .catchClause &&
      clause.children.head?.any fun param => 1 < param.spelled.length
  -- a clause or a whole unit stands alone
  | symbol, _ => symbol.isClause || symbol = .block .root

end Spot

def Sink.Takes (expected : Option Nat) : Sink → Prop
  | .into count => expected = some count
  | .dropped | .returned => True

/-- What the check knows of the targets of jumps agrees with what generation knows of them. -/
structure Follows (cx : JumpContext) (aims : List Aim) : Prop where
  leave : ∀ wanted, cx.leave = some wanted → ∃ aim, aims.head? = some aim ∧ aim.results.Takes wanted
  nextRound : ∀ count, cx.nextRound = some count →
    ∃ aim, aims.find? (·.kind = .loop) = some aim ∧ aim.loopVars = count

/-- A spot that is no gap; a property that is no name has been looked at like any other value. -/
structure Spot.Regular (strict : Prop) (spot : Spot) : Prop where
  noGap : spot.isGap = false
  computed : ∀ property, computed? spot.tree = some property →
    property.Bindable .value ∧
      ∃ cx, Follows cx spot.aims ∧ Check.Accepts strict (.produce (some 1)) cx property

/-- Generation of a whole unit comes to no gap. -/
def Gapless (t : Tree) : Prop :=
  ∀ line ∈ (Spot.mk .dropped [] t).parts, ∀ spot, line.Reaches spot → spot.Regular False

namespace Spot

variable {strict : Prop} {spot other : Spot}

/-- Decides whether a spot is no gap, and no property is computed there. -/
def isPlain (spot : Spot) : Bool :=
  !spot.isGap && (computed? spot.tree).isNone

/--
Decides whether all spots that are reached in a limited number of steps pass a test, and no others
are reached.
-/
def allWithin (test : Spot → Bool) : Nat → Spot → Bool
  | 0, _ => false
  | steps + 1, spot => test spot && spot.parts.all (allWithin test steps)

theorem regular_of_isPlain (plain : spot.isPlain = true) : spot.Regular strict := by
  rw [isPlain, Bool.and_eq_true, Bool.not_eq_true', Option.isNone_iff_eq_none] at plain
  constructor
  · exact plain.1
  · intro property found
    rw [plain.2] at found
    cases found

theorem Reaches.of_allWithin {test : Spot → Bool} {steps : Nat} (reaches : spot.Reaches other)
    (all : allWithin test steps spot = true) : test other = true := by
  induction steps generalizing spot with
  | zero => cases all
  | succ steps ih =>
    rw [allWithin, Bool.and_eq_true, all_eq_true] at all
    rcases Relation.ReflTransGen.cases_head reaches with rfl | ⟨part, member, onward⟩
    · exact all.1
    · exact ih onward (all.2 part member)

end Spot

end Lowering

end Offside
