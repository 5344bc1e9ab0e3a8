import Offside.Expression
import Mathlib.Data.List.Basic

/-!
# Groupings by precedence

Operands that stand in a row, with an operator or nothing between each two of them, can be grouped
in many ways. Exactly one of them respects how tightly the operators bind, and to which side they
group. Combination by precedence finds it: the tree of the items is the one of that grouping.
-/

namespace Offside

open List

/-! ## Rows of operands -/

/-- A plain operand or an object literal. -/
structure Operand where
  item : Item
  plain : item.role = .operand ∨ item.role = .curly

/--
Operators that are written between their operands. A subscript takes an operand on its left too,
but it has no spelling.
-/
def Builtin.isBetween (op : Builtin) : Bool :=
  op.arity.left && !op.spellings.isEmpty

/-- What stands between two operands: an operator, or nothing, which makes a call. -/
inductive Joint where
  | operator (node : Tree) (op : Builtin) (between : op.isBetween = true)
  | beside

namespace Joint

def items : Joint → List Item
  | operator node op _ => [⟨node, .operator (.builtin op)⟩]
  | beside => []

def precedence : Joint → Nat
  | operator _ op _ => op.precedence
  | beside => callPrecedence

def groupsRight : Joint → Bool
  | operator _ op _ => op.arity.rightAssoc
  | beside => true

/-- How tightly the operand on the right of a joint must bind. -/
def floor (joint : Joint) : Nat :=
  if joint.groupsRight then joint.precedence - 1 else joint.precedence

def make (left right : Tree) : Joint → Supply Tree
  | operator node op _ => pure (Climb.operatorNode node (.builtin op) [left, right])
  | beside => Climb.call left [right]

theorem precedence_pos (joint : Joint) : 0 < joint.precedence := by
  cases joint with
  | operator node op between => cases op <;> first | exact Nat.succ_pos _ | cases between
  | beside => exact Nat.succ_pos _

/-- Joints that bind equally tightly group to the same side. -/
theorem groupsRight_eq {first second : Joint} (same : first.precedence = second.precedence) :
    first.groupsRight = second.groupsRight := by
  have known (joint : Joint) :
      joint.groupsRight = decide (joint.precedence ∈ [10, callPrecedence]) := by
    cases joint with
    | operator node op between => cases op <;> first | rfl | cases between
    | beside => rfl
  rw [known, known, same]

end Joint

def Joint.behind : List (Joint × Operand) → List Item
  | [] => []
  | (joint, operand) :: rest => joint.items ++ operand.item :: behind rest

theorem Joint.behind_append (before after : List (Joint × Operand)) :
    behind (before ++ after) = behind before ++ behind after := by
  induction before with
  | nil => rfl
  | cons pair before ih =>
    rw [cons_append, behind, behind, ih, append_assoc, cons_append]

/-! ## Groupings -/

/-- A way to group operands: one of the joints is the last to be made. -/
inductive Grouping where
  | leaf (operand : Operand)
  | join (joint : Joint) (left right : Grouping)

namespace Grouping

variable {g h left right : Grouping} {joint : Joint} {side : Bool}

def first : Grouping → Operand
  | leaf operand => operand
  | join _ left _ => left.first

def rest : Grouping → List (Joint × Operand)
  | leaf _ => []
  | join joint left right => left.rest ++ (joint, right.first) :: right.rest

def top? : Grouping → Option Joint
  | leaf _ => none
  | join joint _ _ => some joint

/--
A grouping can stand beside a joint: its own last joint binds more tightly, or it binds equally
tightly and groups to the side on which the grouping stands.
-/
def Fits (g : Grouping) (joint : Joint) (right : Bool) : Prop :=
  ∀ top ∈ g.top?, joint.precedence < top.precedence ∨
    (top.precedence = joint.precedence ∧ top.groupsRight = right)

/-- What stands on the sides of each joint can stand there. -/
def Respects : Grouping → Prop
  | leaf _ => True
  | join joint left right =>
    left.Fits joint false ∧ right.Fits joint true ∧ left.Respects ∧ right.Respects

/-! ## One grouping respects precedence -/

/-- No joint binds less tightly than the last one. -/
theorem Respects.precedence_le (respects : g.Respects) {top : Joint} (isTop : top ∈ g.top?) :
    ∀ pair ∈ g.rest, top.precedence ≤ pair.1.precedence := by
  induction g generalizing top with
  | leaf operand => cases isTop
  | join joint left right ihLeft ihRight =>
    obtain ⟨fitsLeft, fitsRight, respectsLeft, respectsRight⟩ := respects
    cases isTop
    have below {side : Grouping} {right : Bool} (fits : side.Fits joint right)
        (deep : ∀ {top : Joint}, top ∈ side.top? → ∀ pair ∈ side.rest, top.precedence ≤
          pair.1.precedence)
        {pair : Joint × Operand} (member : pair ∈ side.rest) :
        joint.precedence ≤ pair.1.precedence := by
      cases side with
      | leaf operand => cases member
      | join root before behind =>
        have least := deep rfl pair member
        rcases fits root rfl with less | same
        · omega
        · omega
    intro pair member
    rcases mem_append.mp member with before | here
    · exact below fitsLeft (ihLeft respectsLeft) before
    · rcases mem_cons.mp here with rfl | behind
      · exact Nat.le_refl _
      · exact below fitsRight (ihRight respectsRight) behind

/-- What can stand beside a joint has only joints that could stand there. -/
theorem Fits.of_mem (fits : g.Fits joint side) (respects : g.Respects) {pair : Joint × Operand}
    (member : pair ∈ g.rest) : joint.precedence < pair.1.precedence ∨
      (pair.1.precedence = joint.precedence ∧ pair.1.groupsRight = side) := by
  cases g with
  | leaf operand => cases member
  | join root before behind =>
    have isTop : root ∈ (join root before behind).top? := rfl
    have least := respects.precedence_le isTop pair member
    rcases fits root rfl with less | ⟨same, groups⟩
    · exact .inl (Nat.lt_of_lt_of_le less least)
    · rcases Nat.lt_or_eq_of_le least with less | equal
      · exact .inl (same ▸ less)
      · exact .inr ⟨equal.symm.trans same, (Joint.groupsRight_eq equal).symm.trans groups⟩

/-- Of two joints only one can be the last one of a grouping that respects precedence. -/
theorem Respects.not_crossed {joint' : Joint} {left' right' : Grouping} {operand operand' : Operand}
    (respects : (join joint left right).Respects) (respects' : (join joint' left' right').Respects)
    (behind : (joint', operand') ∈ right.rest) (before : (joint, operand) ∈ left'.rest) :
    False := by
  have above := respects.2.1.of_mem respects.2.2.2 behind
  have under := respects'.1.of_mem respects'.2.2.1 before
  dsimp only at above under
  rcases above with less | ⟨same, toRight⟩
  · omega
  · rcases under with less | ⟨_, toLeft⟩
    · omega
    · rw [Joint.groupsRight_eq same, toLeft] at toRight
      cases toRight

/-- The last joints of two groupings of the same operands stand at the same place. -/
theorem Respects.same_parts {joint' : Joint} {left' right' : Grouping}
    {more : List (Joint × Operand)} (respects : (join joint left right).Respects)
    (respects' : (join joint' left' right').Respects) (longer : left.rest = left'.rest ++ more)
    (shorter : (joint', right'.first) :: right'.rest = more ++ (joint, right.first) :: right.rest) :
    left.rest = left'.rest ∧ (joint', right'.first) = (joint, right.first) ∧
      right'.rest = right.rest := by
  cases more with
  | nil => exact ⟨longer.trans (append_nil _), List.cons.inj shorter⟩
  | cons pair more =>
    obtain ⟨rfl, behind⟩ := List.cons.inj shorter
    have later : (joint, right.first) ∈ right'.rest := by
      rw [behind]
      exact mem_append_right more mem_cons_self
    have earlier : (joint', right'.first) ∈ left.rest := by
      rw [longer]
      exact mem_append_right _ (.head _)
    exact (respects'.not_crossed respects later earlier).elim

/-- Groupings of the same operands that respect precedence are the same. -/
theorem Respects.eq (respects : g.Respects) (respects' : h.Respects) (first : h.first = g.first)
    (rest : h.rest = g.rest) : h = g := by
  induction g generalizing h with
  | leaf operand =>
    cases h with
    | leaf other =>
      have same : other = operand := first
      rw [same]
    | join joint left right => simp [Grouping.rest] at rest
  | join joint left right ihLeft ihRight =>
    cases h with
    | leaf other => simp [Grouping.rest] at rest
    | join joint' left' right' =>
      rw [Grouping.rest, Grouping.rest] at rest
      have parts : left.rest = left'.rest ∧ (joint', right'.first) = (joint, right.first) ∧
          right'.rest = right.rest := by
        rcases append_eq_append_iff.mp rest with ⟨more, longer, shorter⟩ | ⟨more, longer, shorter⟩
        · exact respects.same_parts respects' longer shorter
        · obtain ⟨sameLeft, samePair, sameRest⟩ := respects'.same_parts respects longer shorter
          exact ⟨sameLeft.symm, samePair.symm, sameRest.symm⟩
      obtain ⟨sameLeft, samePair, sameRest⟩ := parts
      obtain ⟨sameJoint, sameFirst⟩ := Prod.mk.inj samePair
      rw [ihLeft respects.2.2.1 respects'.2.2.1 first sameLeft.symm,
        ihRight respects.2.2.2 respects'.2.2.2 sameFirst sameRest, sameJoint]

/-! ## The tree of a grouping -/

/-- Makes the nodes of all joints, those on the left first. -/
def build : Grouping → Supply Tree
  | leaf operand => return operand.item.tree
  | join joint left right => do
      let left ← left.build
      let right ← right.build
      joint.make left right

/-- No joint of a grouping is made last that binds as loosely as `floor`. -/
def Exceeds (g : Grouping) (floor : Nat) : Prop :=
  ∀ top ∈ g.top?, floor < top.precedence

def Stops (floor : Nat) (rest : List (Joint × Operand)) : Prop :=
  ∀ pair ∈ rest.head?, pair.1.precedence ≤ floor

theorem Exceeds.fits (exceeds : g.Exceeds joint.floor) : g.Fits joint true := by
  intro top isTop
  have above := exceeds top isTop
  unfold Joint.floor at above
  split at above
  case isTrue toRight =>
    rcases Nat.lt_or_eq_of_le (Nat.le_of_pred_lt above) with less | same
    · exact .inl less
    · exact .inr ⟨same.symm, (Joint.groupsRight_eq same).symm.trans toRight⟩
  case isFalse => exact .inl above

/-- Behind the right operand of a joint stands a joint that takes the whole as its left operand. -/
theorem Stops.fits {rest : List (Joint × Operand)} (stops : Stops joint.floor rest) :
    ∀ pair ∈ rest.head?, (join joint left right).Fits pair.1 false := by
  intro pair isNext top isTop
  cases isTop
  have under := stops pair isNext
  have positive := joint.precedence_pos
  unfold Joint.floor at under
  split at under
  case isTrue => exact .inl (by omega)
  case isFalse toLeft =>
    rcases Nat.lt_or_eq_of_le under with less | same
    · exact .inl less
    · exact .inr ⟨same.symm, (Bool.not_eq_true _).mp toLeft⟩

end Grouping

/-! ## Climbing groups -/

namespace Climb

open Grouping Joint

variable {later : List Item} {rest : List (Joint × Operand)}

variable {fuel bound : Nat} {op : Builtin} {joint : Joint} {operand : Operand} {items : List Item}

theorem startsOperand_operand (operand : Operand) : operand.item.startsOperand = true := by
  rcases operand.plain with plain | plain <;> rw [Item.startsOperand, plain]

theorem startsArgument_operand (operand : Operand) : operand.item.startsArgument = true := by
  rw [Item.startsArgument, startsOperand_operand, Bool.and_true]
  rcases operand.plain with plain | plain <;> rw [plain] <;> rfl

theorem leading_operand (fuel : Nat) (operand : Operand) (items : List Item) :
    leading fuel operand.item items = pure (operand.item.tree, items) := by
  cases fuel with
  | zero => rfl
  | succ fuel => rcases operand.plain with plain | plain <;> rw [leading, plain]

section

variable (between : op.isBetween = true)
include between

theorem floor_operator (node : Tree) :
    operandFloor (.builtin op) = (Joint.operator node op between).floor := by
  cases op <;> rfl

theorem operatorNode_between (node left right : Tree) :
    operatorNode node (.builtin op) [left, right] =
      (node.withSymbol (.builtin op)).withChildren [left, right] := by
  cases op <;> first | rfl | cases between

/-- An operator between two operands reads one operand. -/
theorem operands_done (children : List Tree) :
    operands fuel (.builtin op) 1 children items = pure (children, items) := by
  have most : (Symbol.builtin op).arity.rightMax ≤ 1 := by
    cases op <;> first | decide | cases between
  cases fuel with
  | zero => rfl
  | succ fuel =>
    cases items with
    | nil => rfl
    | cons item rest =>
      rw [operands]
      exact if_pos most

theorem clauses_none (children : List Tree) :
    clauses fuel (.builtin op) children items = pure (children, items) := by
  have none : op.arity.dependents = [] := by cases op <;> first | rfl | cases between
  cases fuel with
  | zero => rfl
  | succ fuel =>
    cases items with
    | nil => rfl
    | cons item rest =>
      rw [clauses]
      split
      case h_1 clause _ =>
        have free : (clause.builtin?.any (Clause.isTaken (.builtin op) children)) = false := by
          cases clause.builtin? with
          | none => rfl
          | some clause => simp [Clause.isTaken, Symbol.builtin?, none]
        rw [free]
        rfl
      case h_2 => rfl

/-- What an operator between two operands makes of the expression on its right. -/
theorem operator_between (node : Tree) {g : Grouping} (left : Tree)
    (reads : expression fuel (Joint.operator node op between).floor (operand.item :: items) =
      g.build >>= fun t => pure (some t, later)) :
    operator (fuel + 2) (.builtin op) node [left] (operand.item :: items) =
      g.build >>= fun right => (Joint.operator node op between).make left right >>= fun whole =>
        pure (whole, later) := by
  have none : ¬(Symbol.builtin op).arity.rightMax ≤ 0 := by
    cases op <;> first | decide | cases between
  have anywhere : ¬0 < (Symbol.builtin op).arity.leadingAtoms := by
    cases op <;> first | decide | cases between
  rw [operator, operands]
  simp only [none, anywhere, startsOperand_operand, if_false, if_true, floor_operator between node,
    reads, bind_assoc, pure_bind, operands_done between, clauses_none between, singleton_append]
  rfl

end

/-- What the start of an argument becomes. -/
theorem argument_operand (loose : bound < callPrecedence) {g : Grouping} (left : Tree)
    (reads : expression fuel Joint.beside.floor (operand.item :: items) =
      g.build >>= fun t => pure (some t, later)) :
    argument (fuel + 1) bound left operand.item items =
      g.build >>= fun right => Joint.beside.make left right >>= fun whole =>
        following fuel bound whole later := by
  have continues : (decide (callPrecedence ≤ bound) || !operand.item.startsArgument) = false := by
    rw [startsArgument_operand, decide_eq_false (Nat.not_le.mpr loose)]
    rfl
  have floor : callPrecedence - 1 = Joint.beside.floor := rfl
  rw [argument, continues, floor, reads]
  simp only [Bool.false_eq_true, if_false, bind_assoc, pure_bind]
  rfl

theorem following_operand (left : Tree) :
    following (fuel + 1) bound left (operand.item :: items) =
      argument fuel bound left operand.item items := by
  rcases operand.plain with plain | plain <;> rw [following, plain]

theorem following_operator (node : Tree) (between : op.isBetween = true) (left : Tree) :
    following (fuel + 1) bound left (⟨node, .operator (.builtin op)⟩ :: items) =
      if op.precedence ≤ bound then pure (left, ⟨node, .operator (.builtin op)⟩ :: items)
      else operator fuel (.builtin op) node [left] items >>= fun read =>
        following fuel bound read.1 read.2 := by
  have takesLeft : (Symbol.builtin op).arity.left = true := by
    cases op <;> first | rfl | cases between
  rw [following]
  simp only [takesLeft, if_true]
  rfl

/-- Climbing stops before a joint that binds as loosely as the bound. -/
theorem following_stops (weak : joint.precedence ≤ bound) (left : Tree) :
    following (fuel + 2) bound left (joint.items ++ operand.item :: items) =
      pure (left, joint.items ++ operand.item :: items) := by
  cases joint with
  | operator node op between => exact (following_operator node between left).trans (if_pos weak)
  | beside =>
    have ends : (decide (callPrecedence ≤ bound) || !operand.item.startsArgument) = true := by
      have weak : callPrecedence ≤ bound := weak
      rw [decide_eq_true weak, Bool.true_or]
    rw [Joint.items, nil_append, following_operand, argument, ends]
    rfl

/-- Climbing goes on behind the right operand of a joint that binds more tightly. -/
theorem following_joint (tight : bound < joint.precedence) {g : Grouping}
    (reads : ∀ fuel, 6 * items.length + 7 ≤ fuel →
      expression fuel joint.floor (operand.item :: items) = g.build >>= fun t =>
        pure (some t, later))
    (shorter : later.length ≤ items.length)
    (enough : 6 * (joint.items ++ operand.item :: items).length + 3 ≤ fuel) :
    ∃ less, 6 * later.length + 3 ≤ less ∧ ∀ left,
      following fuel bound left (joint.items ++ operand.item :: items) =
        g.build >>= fun right => joint.make left right >>= fun whole =>
          following less bound whole later := by
  cases joint with
  | operator node op between =>
    obtain ⟨fuel, rfl⟩ : ∃ n, fuel = n + 3 := ⟨fuel - 3, by simp at enough; omega⟩
    rw [Joint.items, singleton_append, length_cons, length_cons] at enough
    refine ⟨fuel + 2, by omega, fun left => ?_⟩
    have tight : ¬op.precedence ≤ bound := Nat.not_le.mpr tight
    rw [Joint.items, singleton_append, following_operator node between, if_neg tight,
      operator_between between node left (reads fuel (by omega))]
    simp only [bind_assoc, pure_bind]
  | beside =>
    obtain ⟨fuel, rfl⟩ : ∃ n, fuel = n + 2 := ⟨fuel - 2, by simp at enough; omega⟩
    rw [Joint.items, nil_append, length_cons] at enough
    refine ⟨fuel, by omega, fun left => ?_⟩
    rw [Joint.items, nil_append, following_operand,
      argument_operand tight left (reads fuel (by omega))]

/--
A grouping of the operands at the start of a row. It respects precedence, its joints bind more
tightly than a bound, and the joint behind it does not.
-/
structure Leads (bound : Nat) (first : Operand) (rest : List (Joint × Operand)) (g : Grouping)
    (later : List (Joint × Operand)) : Prop where
  respects : g.Respects
  exceeds : g.Exceeds bound
  first : g.first = first
  rest : g.rest ++ later = rest
  stops : Stops bound later

/-- Climbing behind a grouping makes a larger one of it. -/
def Grows (bound : Nat) (g : Grouping) (rest : List (Joint × Operand)) : Prop :=
  ∃ whole later, Leads bound g.first (g.rest ++ rest) whole later ∧
    ∀ fuel, 6 * (behind rest).length + 3 ≤ fuel →
      (g.build >>= fun t => following fuel bound t (behind rest)) =
        whole.build >>= fun t => pure (t, behind later)

def Follows (rest : List (Joint × Operand)) : Prop :=
  ∀ (bound : Nat) (g : Grouping), g.Respects → g.Exceeds bound →
    (∀ pair ∈ rest.head?, g.Fits pair.1 false) → Grows bound g rest

/-- Climbing from an operand groups what stands behind it. -/
theorem expression_of_follows (follows : Follows rest) (bound : Nat) (operand : Operand) :
    ∃ g later, Leads bound operand rest g later ∧
      ∀ fuel, 6 * (behind rest).length + 7 ≤ fuel →
        expression fuel bound (operand.item :: behind rest) =
          g.build >>= fun t => pure (some t, behind later) := by
  obtain ⟨whole, later, leads, groups⟩ := follows bound (leaf operand) trivial
    (fun top isTop => by cases isTop) (fun _ _ top isTop => by cases isTop)
  refine ⟨whole, later, leads, fun fuel enough => ?_⟩
  obtain ⟨fuel, rfl⟩ : ∃ n, fuel = n + 1 := ⟨fuel - 1, by omega⟩
  have made := groups fuel (by omega)
  rw [build, pure_bind] at made
  rw [expression, leading_operand, pure_bind]
  simp only [made, bind_assoc, pure_bind]

/-- A joint that binds less tightly is left to others. -/
theorem follows_weak {g : Grouping} (respects : g.Respects) (exceeds : g.Exceeds bound)
    (weak : joint.precedence ≤ bound) : Grows bound g ((joint, operand) :: rest) := by
  refine ⟨g, (joint, operand) :: rest, ⟨respects, exceeds, rfl, rfl, ?_⟩, fun fuel enough => ?_⟩
  · rintro pair ⟨⟩
    exact weak
  · obtain ⟨fuel, rfl⟩ : ∃ n, fuel = n + 2 := ⟨fuel - 2, by omega⟩
    rw [behind]
    simp only [following_stops weak]

/-- A joint that binds more tightly takes the grouping before it and one behind it. -/
theorem follows_tight {g : Grouping} (respects : g.Respects) (fits : g.Fits joint false)
    (tight : bound < joint.precedence)
    (shorter : ∀ later, later.length ≤ rest.length → Follows later) :
    Grows bound g ((joint, operand) :: rest) := by
  obtain ⟨right, between, reads, read⟩ :=
    expression_of_follows (shorter rest (Nat.le_refl _)) joint.floor operand
  have fewer : between.length ≤ rest.length := by
    rw [← reads.rest, length_append]
    omega
  have fewerItems : (behind between).length ≤ (behind rest).length := by
    rw [← reads.rest, behind_append, length_append]
    omega
  have joined :
      (join joint g right).Respects := ⟨fits, reads.exceeds.fits, respects, reads.respects⟩
  obtain ⟨whole, later, leads, groups⟩ := shorter between fewer bound (join joint g right) joined
    (by rintro top ⟨⟩; exact tight) reads.stops.fits
  refine ⟨whole, later, ⟨leads.respects, leads.exceeds, leads.first, ?_, leads.stops⟩,
    fun fuel enough => ?_⟩
  · rw [leads.rest, Grouping.rest, append_assoc, cons_append, reads.rest, reads.first]
  · obtain ⟨less, enoughLess, onward⟩ := following_joint tight read fewerItems enough
    rw [← groups less enoughLess, behind]
    simp only [onward, build, bind_assoc]

theorem follows (rest : List (Joint × Operand)) : Follows rest := by
  -- The right operand of a joint is read from what stands behind the joint, which is shorter.
  induction length : rest.length using Nat.strongRecOn generalizing rest with
  | ind length ih =>
    intro bound g respects exceeds fits
    cases rest with
    | nil =>
      refine ⟨g, [], ⟨respects, exceeds, rfl, rfl, by rintro pair ⟨⟩⟩, fun fuel enough => ?_⟩
      obtain ⟨fuel, rfl⟩ : ∃ n, fuel = n + 1 := ⟨fuel - 1, by omega⟩
      rfl
    | cons pair rest =>
      obtain ⟨joint, operand⟩ := pair
      by_cases weak : joint.precedence ≤ bound
      · exact follows_weak respects exceeds weak
      · apply follows_tight respects (fits _ rfl) (Nat.lt_of_not_le weak)
        intro later shorter
        apply ih later.length _ later rfl
        rw [← length, length_cons]
        exact Nat.lt_succ_of_le shorter

/-- Climbing groups a whole row. -/
theorem first_groups (first : Operand) (rest : List (Joint × Operand)) :
    ∃ g : Grouping, g.Respects ∧ g.first = first ∧ g.rest = rest ∧
      Climb.first (first.item :: behind rest) = g.build >>= fun t => pure (some t, []) := by
  obtain ⟨g, later, leads, reads⟩ := expression_of_follows (follows rest) 0 first
  have none : later = [] := by
    cases later with
    | nil => rfl
    | cons pair later => exact absurd (leads.stops pair rfl) (Nat.not_le.mpr pair.1.precedence_pos)
  subst none
  refine ⟨g, leads.respects, leads.first, (append_nil _).symm.trans leads.rest, ?_⟩
  apply reads
  rw [fuelFor, length_cons]
  omega

end Climb

/-! ## Trees of groupings -/

namespace Grouping

/--
A tree shows a grouping. Operands stand for themselves, an operator has what it joins as its
children, and a new call stands where nothing is between two operands.
-/
inductive Shows : Grouping → Tree → Prop
  | leaf (operand : Operand) : Shows (leaf operand) operand.item.tree
  | operator {node : Tree} {op : Builtin} (between : op.isBetween = true) {left right : Grouping}
      {first second : Tree} (showsLeft : Shows left first) (showsRight : Shows right second) :
      Shows (join (.operator node op between) left right)
        (.node node.id { node.info with symbol := .builtin op } [first, second])
  | call (id : NodeId) {left right : Grouping} {first second : Tree}
      (showsLeft : Shows left first) (showsRight : Shows right second) :
      Shows (join .beside left right)
        (.node id (.new (.builtin .call) none first.loc) [first, second])

theorem shows_build (g : Grouping) (n : Numbering) : g.Shows (g.build.run n).1 := by
  induction g generalizing n with
  | leaf operand => exact .leaf operand
  | join joint left right ihLeft ihRight =>
    have first := ihLeft n
    have second := ihRight (left.build.run n).2
    cases joint with
    | operator node op between =>
      change Shows _ (Climb.operatorNode node _ _)
      rw [Climb.operatorNode_between between]
      obtain ⟨id, info, children⟩ := node
      exact .operator between first second
    | beside => exact .call _ first second

end Grouping

/-! ## Combination -/

/--
Operands in a row, with an operator or nothing between each two of them, are combined without a
report. The tree shows the one grouping that respects precedence.
-/
theorem Combine.fold_groups (first : Operand) (rest : List (Joint × Operand)) (s : Combination) :
    ∃ (g : Grouping) (t : Tree) (numbering : Numbering),
      (g.Respects ∧ g.first = first ∧ g.rest = rest) ∧
      (∀ h : Grouping, h.Respects → h.first = first → h.rest = rest → h = g) ∧
      (Combine.fold (first.item :: Joint.behind rest)).run s = (some t, { s with numbering }) ∧
      g.Shows t := by
  obtain ⟨g, respects, rfl, rfl, reads⟩ := Climb.first_groups first rest
  refine ⟨g, (g.build.run s.numbering).1, (g.build.run s.numbering).2, ⟨respects, rfl, rfl⟩, ?_, ?_,
    g.shows_build s.numbering⟩
  · intro h respectsToo sameFirst sameRest
    exact respects.eq respectsToo sameFirst sameRest
  · rw [fold, reads]
    rfl

def Operand.named (id : NodeId) (name : String) : Operand :=
  ⟨⟨.node id (.new (.tag .use) (some (.name name)) default) [], .operand⟩, .inl rfl⟩

def Joint.sign (id : NodeId) (op : Builtin) (between : op.isBetween = true) : Joint :=
  .operator (.node id (.new (.builtin op) none default) []) op between

/-- `x = f a.b * y + g z`, grouped as `x = (((f (a.b)) * y) + (g z))`. -/
def Grouping.mixed : Grouping :=
  .join (.sign 1 .assign rfl) (.leaf (.named 0 "x"))
    (.join (.sign 8 .add rfl)
      (.join (.sign 6 .mul rfl)
        (.join .beside (.leaf (.named 2 "f"))
          (.join (.sign 4 .member rfl) (.leaf (.named 3 "a")) (.leaf (.named 5 "b"))))
        (.leaf (.named 7 "y")))
      (.join .beside (.leaf (.named 9 "g")) (.leaf (.named 10 "z"))))

theorem Combine.fold_groups_mixed :
    ∃ t numbering,
      (Combine.fold (Grouping.mixed.first.item :: Joint.behind Grouping.mixed.rest)).run
        ⟨.startAt 11, .start .empty, #[], #[]⟩ =
          (some t, ⟨numbering, .start .empty, #[], #[]⟩) ∧
      Grouping.mixed.Shows t := by
  have respects : Grouping.mixed.Respects := by
    simp only [Grouping.mixed, Grouping.Respects, Grouping.Fits, Grouping.top?]
    decide
  obtain ⟨g, t, numbering, _, unique, folds, shows⟩ :=
    Combine.fold_groups Grouping.mixed.first Grouping.mixed.rest
      ⟨.startAt 11, .start .empty, #[], #[]⟩
  have same := unique Grouping.mixed respects rfl rfl
  subst same
  exact ⟨t, numbering, folds, shows⟩

end Offside
