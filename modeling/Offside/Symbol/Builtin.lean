/-!
# Builtin operators and keywords

Every operator and keyword of the language with its spellings, its operands, its precedence and
its behaviour. Calls, subscripts and the literals in brackets have no spelling of their own.
-/

namespace Offside

def callPrecedence : Nat := 90

/-- The operators and keywords of the language. -/
inductive Builtin where
  | assign
  | pair
  | or
  | and
  | eq
  | notEq
  | lt
  | le
  | gt
  | ge
  | add
  | sub
  | mul
  | div
  | mod
  | neg
  | not
  | member
  | call
  | element
  | tuple
  | array
  | object
  | new
  | var
  | const
  | external
  | ifThen
  | elseClause
  | whileLoop
  | loop
  | give
  | nextRound
  | leave
  | ret
  | throw
  | tryBlock
  | catchClause
  | finallyClause
  | fn
  | defMacro
  | quote
  | unquote
  | atSign
deriving DecidableEq, Inhabited

/-- The operands that a symbol takes. -/
structure Arity where
  left : Bool
  /-- The least number of operands on the right. -/
  rightMin : Nat
  /-- The largest number of operands on the right. -/
  rightMax : Nat
  /-- Whether a chain of the operator groups to the right. -/
  rightAssoc : Bool
  /-- Whether any number of operands is allowed. -/
  sequence : Bool
  /-- How many operands on the right are single items. -/
  leadingAtoms : Nat
  /-- The clauses that may follow the operands. -/
  dependents : List Builtin
deriving DecidableEq, Inhabited

namespace Arity

def none : Arity := ⟨false, 0, 0, false, false, 0, []⟩

def binary : Arity := { none with left := true, rightMin := 1, rightMax := 1 }

def following (least most : Nat) : Arity := { none with rightMin := least, rightMax := most }

def anyNumber : Arity := { none with sequence := true }

/-- The same operands, grouping to the right. -/
def toRight (arity : Arity) : Arity := { arity with rightAssoc := true }

/-- The same operands, the first `count` on the right being single items. -/
def withAtoms (arity : Arity) (count : Nat) : Arity := { arity with leadingAtoms := count }

/-- The same operands with clauses behind them. -/
def withDependents (arity : Arity) (clauses : List Builtin) : Arity :=
  { arity with dependents := clauses }

/-- The least number of operands, clauses left out. -/
def minOperands (arity : Arity) : Nat := arity.left.toNat + arity.rightMin

/-- The largest number of operands, clauses left out. -/
def maxOperands (arity : Arity) : Nat := arity.left.toNat + arity.rightMax

/-- The largest number of children, clauses counted. -/
def maxWithDependents (arity : Arity) : Nat := arity.maxOperands + arity.dependents.length

end Arity

/-- What the passes need to know of a symbol. -/
structure Flags where
  opensScope : Bool := false
  /-- Declarations below the node are gathered on it. -/
  hostsDeclarations : Bool := false
  /-- The node leaves the place where it stands. -/
  jump : Bool := false
  assignable : Bool := false
  expands : Bool := false
  /-- Expansion does not look below the node. -/
  quoting : Bool := false
  /-- The node is a clause of another node. -/
  dependentClause : Bool := false
  declares : Bool := false
deriving DecidableEq, Inhabited

namespace Flags

def bits (flags : Flags) : Nat :=
  flags.opensScope.toNat + 2 * flags.hostsDeclarations.toNat + 4 * flags.jump.toNat +
    8 * flags.assignable.toNat + 16 * flags.expands.toNat + 32 * flags.quoting.toNat +
    64 * flags.dependentClause.toNat + 128 * flags.declares.toNat

end Flags

namespace Builtin

def all : List Builtin :=
  [.assign, .pair, .or, .and, .eq, .notEq, .lt, .le, .gt, .ge, .add, .sub, .mul, .div, .mod,
   .neg, .not, .member, .call, .element, .tuple, .array, .object, .new, .var, .const, .external,
   .ifThen, .elseClause, .whileLoop, .loop, .give, .nextRound, .leave, .ret, .throw, .tryBlock,
   .catchClause, .finallyClause, .fn, .defMacro, .quote, .unquote, .atSign]

/-- The name that is shown in trees and messages. -/
def name : Builtin → String
  | .assign => "="
  | .pair => ":"
  | .or => "||"
  | .and => "&&"
  | .eq => "=="
  | .notEq => "!="
  | .lt => "<"
  | .le => "<="
  | .gt => ">"
  | .ge => ">="
  | .add => "+"
  | .sub => "-"
  | .mul => "*"
  | .div => "/"
  | .mod => "%"
  | .neg => "neg"
  | .not => "!"
  | .member => "."
  | .call => "<call>"
  | .element => "<element>"
  | .tuple => "<tuple>"
  | .array => "<array>"
  | .object => "<object>"
  | .new => "new"
  | .var => "var"
  | .const => "const"
  | .external => "#external"
  | .ifThen => "if"
  | .elseClause => "else"
  | .whileLoop => "while"
  | .loop => "loop"
  | .give => "give"
  | .nextRound => "next"
  | .leave => "end"
  | .ret => "return"
  | .throw => "throw"
  | .tryBlock => "try"
  | .catchClause => "catch"
  | .finallyClause => "finally"
  | .fn => "fn"
  | .defMacro => "#macro"
  | .quote => "#quote"
  | .unquote => "#unquote"
  | .atSign => "@"

/-- The operands of an operator or keyword. -/
def arity : Builtin → Arity
  | .assign => Arity.binary.toRight
  | .pair | .or | .and | .eq | .notEq | .lt | .le | .gt | .ge | .add | .sub | .mul | .div | .mod
  | .member | .element => .binary
  | .neg | .not | .new | .throw | .finallyClause | .quote | .elseClause => .following 1 1
  | .call | .tuple | .array | .object => .anyNumber
  | .var | .const | .external | .unquote | .atSign => (Arity.following 1 1).withAtoms 1
  | .ifThen => (Arity.following 2 2).withDependents [.elseClause]
  | .whileLoop => .following 2 2
  | .loop => .following 1 2
  | .give | .nextRound | .ret => .following 0 1
  | .leave => .following 0 0
  | .tryBlock => (Arity.following 1 1).withDependents [.catchClause, .finallyClause]
  | .catchClause | .fn => (Arity.following 2 2).withAtoms 1
  | .defMacro => (Arity.following 3 3).withAtoms 2

def precedence : Builtin → Nat
  | .pair => 8
  | .assign => 10
  | .or => 20
  | .and => 30
  | .eq | .notEq => 40
  | .lt | .le | .gt | .ge => 50
  | .add | .sub => 60
  | .mul | .div | .mod => 70
  | .neg | .not => 80
  | .new => callPrecedence - 1
  | .call | .element => callPrecedence
  | .var | .const | .external | .unquote | .atSign => 95
  | .member => 100
  | _ => 0

/-- The behaviour of an operator or keyword. -/
def flags : Builtin → Flags
  | .member | .element => { assignable := true }
  | .var | .const => { declares := true, assignable := true }
  | .external => { declares := true }
  | .elseClause | .finallyClause => { dependentClause := true }
  | .catchClause => { dependentClause := true, opensScope := true }
  | .loop | .fn => { opensScope := true, hostsDeclarations := true }
  | .give | .nextRound | .leave | .ret | .throw => { jump := true }
  | .defMacro | .quote => { expands := true, quoting := true }
  | .unquote | .atSign => { expands := true }
  | _ => {}

/-- What a spelling means where no operand stands on the left: a minus sign negates. -/
def leadingForm? : Builtin → Option Builtin
  | .sub => some .neg
  | _ => none

/-- Operators that a unit can do without. -/
def isPrelude : Builtin → Bool
  | .defMacro | .quote | .unquote | .atSign => true
  | _ => false

def spellings : Builtin → List String
  | .or => ["||", "or"]
  | .and => ["&&", "and"]
  | .not => ["!", "not"]
  | .neg | .call | .element | .tuple | .array | .object => []
  | other => [other.name]

end Builtin

end Offside
