import Offside.Location
import Offside.Number.Binary

/-!
# Programs

What a unit is compiled to: statements and expressions of no particular language, from which a
printer makes the text of one. Statements and expressions that come from a node of the source
say where it stands.
-/

namespace Offside

/-- Where a part of a program comes from. -/
structure Span where
  loc : Loc
  /-- Where the macro was invoked that the part comes from. -/
  origin : Option Loc
deriving DecidableEq

/-- A literal of a program. -/
inductive Literal where
  | number (x : Binary64)
  | str (text : String)
  | bool (b : Bool)
  | null
  | undefined
deriving DecidableEq

/-- An operator on two values. -/
inductive BinaryOp where
  | eq
  | notEq
  | lt
  | le
  | gt
  | ge
  | add
  | sub
  | mul
  | div
  | mod
deriving DecidableEq

def BinaryOp.text : BinaryOp → String
  | .eq => "==="
  | .notEq => "!=="
  | .lt => "<"
  | .le => "<="
  | .gt => ">"
  | .ge => ">="
  | .add => "+"
  | .sub => "-"
  | .mul => "*"
  | .div => "/"
  | .mod => "%"

/-- An operator that does not always need its second value. -/
inductive LogicalOp where
  | and
  | or
deriving DecidableEq

/-- An operator on one value. -/
inductive UnaryOp where
  | neg
  | not
deriving DecidableEq

mutual

/-- A statement. -/
inductive Stmt where
  | expr (e : Expr)
  /-- Declares the names of the statements that follow. -/
  | decl (names : List String)
  | block (body : List Stmt)
  | ifThen (test : Expr) (consequent : Stmt) (alternate : Option Stmt)
  | whileLoop (test : Expr) (body : Stmt)
  | labeled (label : String) (body : Stmt)
  | leave (label : Option String)
  | next (label : Option String)
  | ret (value : Option Expr)
  | throw (value : Expr)
  | tryBlock (block : List Stmt) (handler : Option Handler) (finalizer : Option (List Stmt))
  | located (span : Span) (s : Stmt)

/-- What runs when a `try` fails, with the name that it gives the failure. -/
inductive Handler where
  | mk (param : Option String) (body : List Stmt)

/-- An expression. -/
inductive Expr where
  | literal (value : Literal)
  | ident (name : String)
  | function (params : List String) (body : List Stmt)
  /-- A property; a computed one is an expression, another one a name. -/
  | member (object property : Expr) (computed : Bool)
  | call (callee : Expr) (args : List Expr)
  | new (callee : Expr) (args : List Expr)
  | binary (op : BinaryOp) (left right : Expr)
  | logical (op : LogicalOp) (left right : Expr)
  | unary (op : UnaryOp) (argument : Expr)
  | assign (target value : Expr)
  | conditional (test consequent alternate : Expr)
  | array (items : List Expr)
  | object (entries : List (String × Expr))
  | located (span : Span) (e : Expr)

end

instance : Inhabited Stmt := ⟨.block []⟩

instance : Inhabited Expr := ⟨.literal .undefined⟩

namespace Expr

/-- Decides whether the value of an expression is the same wherever it is computed. -/
def isTrivial : Expr → Bool
  | .literal _ | .function _ _ => true
  | .located _ e => isTrivial e
  | _ => false

def withSpan (span : Span) : Expr → Expr
  | .located inner e => .located inner e
  | e => .located span e

end Expr

namespace Stmt

def assign (name : String) (value : Expr) : Stmt :=
  .expr (.assign (.ident name) value)

/-- Decides whether a statement is a jump. -/
def isTerminal : Stmt → Bool
  | .leave _ | .next _ | .ret _ | .throw _ => true
  | .located _ s => isTerminal s
  | _ => false

/-- The statement with its place, unless it has one. -/
def withSpan (span : Span) : Stmt → Stmt
  | .located inner s => .located inner s
  | s => .located span s

end Stmt

abbrev Program := List Stmt

mutual

def Stmt.bare : Stmt → Stmt
  | .located _ s => s.bare
  | .expr e => .expr e.bare
  | .decl names => .decl names
  | .block body => .block (Stmt.bareAll body)
  | .ifThen test consequent alternate =>
    .ifThen test.bare consequent.bare (Stmt.bareAlternate alternate)
  | .whileLoop test body => .whileLoop test.bare body.bare
  | .labeled label body => .labeled label body.bare
  | .leave label => .leave label
  | .next label => .next label
  | .ret value => .ret (Expr.bareValue value)
  | .throw value => .throw value.bare
  | .tryBlock block handler finalizer =>
    .tryBlock (Stmt.bareAll block) (Handler.bareHandler handler) (Stmt.bareFinalizer finalizer)

def Stmt.bareAll : List Stmt → List Stmt
  | [] => []
  | s :: rest => s.bare :: Stmt.bareAll rest

/-- The statement behind an `else` without places. -/
def Stmt.bareAlternate : Option Stmt → Option Stmt
  | none => none
  | some s => some s.bare

/-- The statements of a `finally` without places. -/
def Stmt.bareFinalizer : Option (List Stmt) → Option (List Stmt)
  | none => none
  | some body => some (Stmt.bareAll body)

def Handler.bareHandler : Option Handler → Option Handler
  | none => none
  | some (.mk param body) => some (.mk param (Stmt.bareAll body))

def Expr.bare : Expr → Expr
  | .located _ e => e.bare
  | .literal value => .literal value
  | .ident name => .ident name
  | .function params body => .function params (Stmt.bareAll body)
  | .member object property computed => .member object.bare property.bare computed
  | .call callee args => .call callee.bare (Expr.bareAll args)
  | .new callee args => .new callee.bare (Expr.bareAll args)
  | .binary op left right => .binary op left.bare right.bare
  | .logical op left right => .logical op left.bare right.bare
  | .unary op argument => .unary op argument.bare
  | .assign target value => .assign target.bare value.bare
  | .conditional test consequent alternate =>
    .conditional test.bare consequent.bare alternate.bare
  | .array items => .array (Expr.bareAll items)
  | .object entries => .object (Expr.bareEntries entries)

def Expr.bareAll : List Expr → List Expr
  | [] => []
  | e :: rest => e.bare :: Expr.bareAll rest

/-- The value of a `return` without places. -/
def Expr.bareValue : Option Expr → Option Expr
  | none => none
  | some e => some e.bare

/-- Entries of an object without places. -/
def Expr.bareEntries : List (String × Expr) → List (String × Expr)
  | [] => []
  | (key, value) :: rest => (key, value.bare) :: Expr.bareEntries rest

end

def Program.bare (program : Program) : Program :=
  Stmt.bareAll program

end Offside
