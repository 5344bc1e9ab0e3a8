import Offside.Program
import Offside.Tree

/-!
# Nodes that are expressions

Some nodes can be written as an expression, perhaps behind some statements; others are written
as statements only. A pure node is an expression that needs no statements before it.
-/

namespace Offside.Lowering

/-- The operator of a program for an operator on two values. -/
def binaryOp? : Builtin → Option BinaryOp
  | .eq => some .eq
  | .notEq => some .notEq
  | .lt => some .lt
  | .le => some .le
  | .gt => some .gt
  | .ge => some .ge
  | .add => some .add
  | .sub => some .sub
  | .mul => some .mul
  | .div => some .div
  | .mod => some .mod
  | _ => none

/-- Decides whether a target takes a single value. -/
def isSingleTarget (target : Tree) : Bool :=
  match target.builtin? with
  | some .tuple => false
  | some .var | some .const => (target.child? 0).any fun inner => !inner.is .tuple
  | _ => true

/-- Decides whether a node other than an `if` can be written as an expression. -/
def isForm (symbol : Symbol) (children : List Tree) : Bool :=
  match symbol with
  | .value | .tag _ | .nothing => true
  | .builtin op =>
    match op with
    | .assign => children.head?.any isSingleTarget
    | .var | .const => children.head?.any Tree.isTag
    | .or | .and | .neg | .not | .member | .call | .element | .array | .object | .new | .fn =>
      true
    | op => (binaryOp? op).isSome
  | _ => false

/-- Where a node stands in another one. -/
inductive Place where
  | value
  /-- A branch of an `if`; a block with a single line stands for the line. -/
  | branch
  /-- An entry of an object literal. -/
  | entry
  /-- On the left of an assignment. -/
  | target
deriving DecidableEq

/-- Decides whether names are declared at the top of a node. -/
def hasDeclarations (info : Info) : Bool :=
  !info.declaredNames.isEmpty

mutual

/-- Decides whether a node needs no statements where it stands. -/
def isPureIn (place : Place) : Tree → Bool
  | .node _ info children =>
    match place, info.symbol, children with
    | .branch, .block .block, [line] => !hasDeclarations info && isPureIn .value line
    | .branch, .block _, _ => false
    | .entry, .builtin .pair, _ :: value :: _ => isPureIn .value value
    | .target, .builtin .member, [] => true
    | .target, .builtin .member, object :: _ => isPureIn .value object
    | .target, .builtin .element, children => arePureIn .value children
    | .target, _, _ => true
    | _, .builtin .ifThen, [condition, branch, .node _ clause (other :: _)] =>
      clause.is .elseClause && isPureIn .value condition && isPureIn .branch branch &&
        isPureIn .branch other
    | _, .builtin .ifThen, _ => false
    | _, symbol, children =>
    isForm symbol children &&
      match symbol, children with
      | .builtin .fn, _ | .builtin .var, _ | .builtin .const, _ => true
      | .builtin .member, [] => true
      | .builtin .member, object :: _ => isPureIn .value object
      | .builtin .object, entries => arePureIn .entry entries
      | .builtin .assign, [left, right] => isPureIn .target left && isPureIn .value right
      | .builtin .assign, _ => false
      | _, children => arePureIn .value children

/-- Decides whether some nodes need no statements. -/
def arePureIn (place : Place) : List Tree → Bool
  | [] => true
  | t :: ts => isPureIn place t && arePureIn place ts

end

/-- Decides whether a value can be written without statements. -/
def isPure (t : Tree) : Bool :=
  isPureIn .value t

/-- Decides whether a node can be written as an expression, perhaps behind statements. -/
def isExpression (t : Tree) : Bool :=
  if t.is .ifThen then isPure t else isForm t.symbol t.children

/-- The single value of a branch, unless the branch is a block of another kind. -/
def singleValue? (branch : Tree) : Option Tree :=
  match branch.symbol, branch.children with
  | .block .block, [line] => if hasDeclarations branch.info then none else some line
  | .block _, _ => none
  | _, _ => some branch

/-- The condition and the two values of an `if` that is a pure expression. -/
def conditional? (t : Tree) : Option (Tree × Tree × Tree) :=
  match t.children with
  | [condition, branch, clause] => do
      guard (clause.is .elseClause)
      let consequent ← singleValue? branch
      let alternate ← (clause.child? 0).bind singleValue?
      guard (isPure condition && isPure consequent && isPure alternate)
      return (condition, consequent, alternate)
  | _ => none

end Offside.Lowering
