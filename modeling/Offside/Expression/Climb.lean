import Offside.Expression.Clause
import Offside.Expression.Item

/-!
# Combination by precedence

The items of a line become one tree. After an operand comes an operator that takes it as its
left operand, brackets with arguments or a subscript, or the start of an argument; an operator
takes operands on its right as tightly as it binds itself. Two operands side by side are a call,
and calls side by side group to the right.
-/

namespace Offside.Climb

mutual

/-- Turns the names of a pattern into declarations. -/
def declare (constant : Bool) : Tree → Tree
  | .node id info children =>
    match info.symbol with
    | .tag kind =>
      let kind := kind.toDeclaration
      let kind := if constant then kind.toConstant else kind
      .node id { info with symbol := .tag kind } children
    | .builtin .tuple => .node id info (declareAll constant children)
    | _ => .node id info children

/-- Turns the names of some patterns into declarations. -/
def declareAll (constant : Bool) : List Tree → List Tree
  | [] => []
  | t :: ts => declare constant t :: declareAll constant ts

end

/-- The operands of a symbol with the names marked that it declares. -/
def classify (symbol : Symbol) (children : List Tree) : List Tree :=
  match symbol.builtin?, children with
  | some .var, target :: rest | some .fn, target :: rest | some .catchClause, target :: rest =>
    declare false target :: rest
  | some .const, target :: rest => declare true target :: rest
  | some .external, target :: rest =>
    (if target.isTag then target.withSymbol (.tag .external) else target) :: rest
  | some .loop, [head, body] =>
    match head.is .assign, head.children with
    | true, target :: rest => [head.withChildren (declare false target :: rest), body]
    | _, _ => [head, body]
  | _, _ => children

/-- What an operator means where no operand stands on its left. -/
def leadingSymbol (symbol : Symbol) : Symbol :=
  match symbol.builtin?.bind Builtin.leadingForm? with
  | some op => if symbol.arity.left then .builtin op else symbol
  | none => symbol

/-- How tightly operands on the right must bind: a chain that groups to the right goes on. -/
def operandFloor (symbol : Symbol) : Nat :=
  if symbol.arity.left && symbol.arity.rightAssoc then symbol.precedence - 1
  else symbol.precedence

def operatorNode (node : Tree) (symbol : Symbol) (children : List Tree) : Tree :=
  (node.withSymbol symbol).withChildren (classify symbol children)

/-- The call of what stands before parentheses or an argument. -/
def call (callee : Tree) (arguments : List Tree) : Supply Tree :=
  Tree.new (.builtin .call) none callee.loc (callee :: arguments)

/-- The element of what stands before square brackets. -/
def element (object : Tree) (subscripts : List Tree) : Supply Tree :=
  Tree.new (.builtin .element) none object.loc (object :: subscripts)

mutual

/-- Reads an expression of operators that bind more tightly than `floor`. -/
def expression : Nat → Nat → List Item → Supply (Option Tree × List Item)
  | 0, _, items => return (none, items)
  | _ + 1, _, [] => return (none, [])
  | fuel + 1, floor, item :: rest => do
      let (first, rest) ← leading fuel item rest
      let (whole, rest) ← following fuel floor first rest
      return (some whole, rest)
termination_by structural fuel => fuel

/-- Reads what an item leads: itself, or an operator with its operands. -/
def leading : Nat → Item → List Item → Supply (Tree × List Item)
  | 0, item, rest => return (item.tree, rest)
  | fuel + 1, item, rest =>
    match item.role with
    | .operator symbol => operator fuel (leadingSymbol symbol) item.tree [] rest
    | _ => return (item.tree, rest)
termination_by structural fuel => fuel

/-- Goes on with an expression behind `left`. -/
def following : Nat → Nat → Tree → List Item → Supply (Tree × List Item)
  | 0, _, left, items => return (left, items)
  | _ + 1, _, left, [] => return (left, [])
  | fuel + 1, floor, left, item :: rest => do
      match item.role with
      | .operator symbol =>
        if symbol.arity.left then
          if symbol.precedence ≤ floor then return (left, item :: rest)
          let (node, rest) ← operator fuel symbol item.tree [left] rest
          following fuel floor node rest
        else argument fuel floor left item rest
      | .paren spread =>
        if callPrecedence ≤ floor then return (left, item :: rest)
        let node ← call left (if spread then item.tree.children else [item.tree])
        following fuel floor node rest
      | .square =>
        if callPrecedence ≤ floor then return (left, item :: rest)
        let node ← element left item.tree.children
        following fuel floor node rest
      | _ => argument fuel floor left item rest
termination_by structural fuel => fuel

/-- Goes on behind `left` with an item that can start an argument of it. -/
def argument : Nat → Nat → Tree → Item → List Item → Supply (Tree × List Item)
  | 0, _, left, item, rest => return (left, item :: rest)
  | fuel + 1, floor, left, item, rest => do
      if callPrecedence ≤ floor || !item.startsArgument then return (left, item :: rest)
      match ← expression fuel (callPrecedence - 1) (item :: rest) with
      | (none, rest) => return (left, rest)
      | (some value, rest) =>
        let node ← call left [value]
        following fuel floor node rest
termination_by structural fuel => fuel

/-- Reads the operands of an operator that has some children already. -/
def operator : Nat → Symbol → Tree → List Tree → List Item → Supply (Tree × List Item)
  | 0, symbol, node, children, items => return (operatorNode node symbol children, items)
  | fuel + 1, symbol, node, children, items => do
      let (children, items) ← operands fuel symbol 0 children items
      let (children, items) ← clauses fuel symbol children items
      return (operatorNode node symbol children, items)
termination_by structural fuel => fuel

/-- Reads operands on the right, of which `count` have been read. -/
def operands : Nat → Symbol → Nat → List Tree → List Item → Supply (List Tree × List Item)
  | 0, _, _, children, items => return (children, items)
  | _ + 1, _, _, children, [] => return (children, [])
  | fuel + 1, symbol, count, children, item :: rest => do
      let arity := symbol.arity
      if arity.rightMax ≤ count then return (children, item :: rest)
      if count < arity.leadingAtoms then
        if item.isAtom then operands fuel symbol (count + 1) (children ++ [item.tree]) rest
        else return (children, item :: rest)
      else if item.startsOperand then
        match ← expression fuel (operandFloor symbol) (item :: rest) with
        | (none, rest) => return (children, rest)
        | (some value, rest) => operands fuel symbol (count + 1) (children ++ [value]) rest
      else return (children, item :: rest)
termination_by structural fuel => fuel

/-- Reads the clauses that follow on the same line. -/
def clauses : Nat → Symbol → List Tree → List Item → Supply (List Tree × List Item)
  | 0, _, children, items => return (children, items)
  | _ + 1, _, children, [] => return (children, [])
  | fuel + 1, symbol, children, item :: rest => do
      match item.role with
      | .operator clause =>
        if clause.builtin?.any (Clause.isTaken symbol children) then
          let (node, rest) ← operator fuel clause item.tree [] rest
          clauses fuel symbol (children ++ [node]) rest
        else return (children, item :: rest)
      | _ => return (children, item :: rest)
termination_by structural fuel => fuel

end

/-- Enough steps for the items: each one is read by a few steps. -/
def fuelFor (items : List Item) : Nat :=
  6 * items.length + 6

def first (items : List Item) : Supply (Option Tree × List Item) :=
  expression (fuelFor items) 0 items

end Offside.Climb
