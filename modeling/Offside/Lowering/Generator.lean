import Offside.Diagnostic.Cause
import Offside.Program
import Offside.Tree

/-!
# The state of generation

Generation makes statements of a tree. It gives out names of temporaries and labels, remembers
which temporaries each host has to declare, and knows the targets of jumps.
-/

namespace Offside.Lowering

/-- What can be wrong with the shape of a node. -/
inductive Fault where
  | namelessTag
  | namelessDeclaration
  | notNames
  | nothingToThrow
  | severalNames
  | conditionAndBody
  | emptyElse
  | headAndBody
  | loopHead
  | emptyTry
  | catchNames
  | tryClause
  | tupleWidth
  | targetAndValue
  | jumpOutside
  | emptyLiteral
  | twoOperands
  | oneOperand
  | objectAndProperty
  | objectAndIndex
  | noCallee
  | objectKey
  | paramsAndBody
  | notTarget
deriving DecidableEq

/-- What is wrong with the shape of a node. -/
def Fault.text : Fault → String
  | .namelessTag => "a name without text"
  | .namelessDeclaration => "a declaration without a name"
  | .notNames => "only names can be declared here"
  | .nothingToThrow => "nothing to throw"
  | .severalNames => "one value assigned to several names"
  | .conditionAndBody => "expected a condition and a body"
  | .emptyElse => "`else` without a body"
  | .headAndBody => "expected a head and a body"
  | .loopHead => "expected `names = initial values`"
  | .emptyTry => "`try` without a body"
  | .catchNames => "`catch` binds a single name"
  | .tryClause => "expected `catch` or `finally`"
  | .tupleWidth => "tuple width does not match its destination"
  | .targetAndValue => "expected a target and a value"
  | .jumpOutside => "jump outside of its target"
  | .emptyLiteral => "a literal without a value"
  | .twoOperands => "expected two operands"
  | .oneOperand => "expected one operand"
  | .objectAndProperty => "expected an object and a property"
  | .objectAndIndex => "expected an object and an index"
  | .noCallee => "a call without a callee"
  | .objectKey => "object keys must be names, strings or numbers"
  | .paramsAndBody => "expected parameters and a body"
  | .notTarget => "not an assignable target"

/-- Why no program can be generated. -/
inductive GenError where
  | unsupported (what : String) (loc : Loc)
  | malformed (what : String) (fault : Fault) (loc : Loc)
deriving DecidableEq

namespace GenError

def message : GenError → String
  | .unsupported what _ => s!"cannot generate code for `{what}`"
  | .malformed what fault _ => s!"`{what}` has an unexpected shape: {fault.text}"

/-- The node with which generation failed. -/
def loc : GenError → Loc
  | .unsupported _ loc | .malformed _ _ loc => loc

def diagnostic (e : GenError) : Diagnostic :=
  .internalError e.loc e.message

end GenError

/-- Where the values of a node go. -/
inductive Dest where
  /-- The values are dropped. -/
  | discard
  /-- The values are assigned to names in order. -/
  | into (names : List String)
  /-- The value is returned from the function. -/
  | ret
deriving DecidableEq

/-- What a jump can leave. -/
inductive JumpKind where
  | doBlock
  | loop
deriving DecidableEq

/-- A `do` or `loop` that is being generated. -/
structure JumpTarget where
  kind : JumpKind
  label : String
  results : Dest
  loopVars : List String
  used : Bool
deriving DecidableEq

/-- The state of generation. -/
structure GenState where
  temps : Nat
  labels : Nat
  /-- The temporaries of each open host, the innermost host first. -/
  hosts : List (Array String)
  jumps : List JumpTarget
deriving DecidableEq

/-- The state in which nothing has been generated. -/
def GenState.start : GenState := ⟨0, 0, [], []⟩

abbrev Gen := StateT GenState (Except GenError)

/-- Fails because nothing can be generated for a node. -/
def unsupported {α : Type} (t : Tree) : Gen α :=
  throw (.unsupported t.symbol.name t.loc)

/-- Fails because a node has an unexpected shape. -/
def malformed {α : Type} (t : Tree) (fault : Fault) : Gen α :=
  throw (.malformed t.symbol.name fault t.loc)

/-- A new temporary, which the innermost host declares. -/
def freshTemp : Gen String :=
  modifyGet fun s =>
    let name := s!"$t{s.temps + 1}"
    let hosts := match s.hosts with
      | frame :: rest => frame.push name :: rest
      | [] => []
    (name, { s with temps := s.temps + 1, hosts })

def freshTemps {α : Type} : List α → Gen (List String)
  | [] => return []
  | _ :: rest => do
      let name ← freshTemp
      return name :: (← freshTemps rest)

def freshLabel (kind : JumpKind) : Gen String :=
  modifyGet fun s =>
    let word := match kind with
      | .doBlock => "do"
      | .loop => "loop"
    (s!"{word}${s.labels + 1}", { s with labels := s.labels + 1 })

/-- Generates the statements of a host behind the declaration of its names and temporaries. -/
def inHost (host : Info) (x : Gen (List Stmt)) : Gen (List Stmt) := do
  modify fun s => { s with hosts := #[] :: s.hosts }
  let body ← x
  let temps ← modifyGet fun s => (s.hosts.headD #[], { s with hosts := s.hosts.tail })
  match host.declaredNames ++ temps.toList with
  | [] => return body
  | names => return .decl names :: body

/-- Generates inside of a target of jumps; the target comes back as jumps left it. -/
def inTarget {α : Type} (target : JumpTarget) (x : Gen α) : Gen (α × JumpTarget) := do
  modify fun s => { s with jumps := target :: s.jumps }
  let a ← x
  let target ← modifyGet fun s => (s.jumps.headD target, { s with jumps := s.jumps.tail })
  return (a, target)

/-- Generates outside of all targets of jumps. -/
def inFunction {α : Type} (x : Gen α) : Gen α := do
  let outer := (← get).jumps
  modify fun s => { s with jumps := [] }
  let a ← x
  modify fun s => { s with jumps := outer }
  return a

/-- Notes that a jump needs the label of a target. -/
def markUsed (label : String) : Gen Unit :=
  modify fun s =>
    { s with
      jumps := s.jumps.map fun t => if t.label = label then { t with used := true } else t }

/-- The place of a node in the program. -/
def spanOf (t : Tree) : Span :=
  ⟨t.loc, t.info.origin⟩

def tagName (t : Tree) : Gen String :=
  match t.name? with
  | some name => return name
  | none => malformed t .namelessTag

mutual

/-- The names of a declaration or a target, in order. -/
def namesOf : Tree → Gen (List String)
  | .node id info children => do
      match info.symbol, children with
      | .tag _, children => return [← tagName (.node id info children)]
      | .builtin .var, inner :: _ | .builtin .const, inner :: _ => namesOf inner
      | .builtin .var, [] | .builtin .const, [] =>
        malformed (.node id info children) .namelessDeclaration
      | .builtin .tuple, elements => namesOfAll elements
      | _, _ => malformed (.node id info children) .notNames

def namesOfAll : List Tree → Gen (List String)
  | [] => return []
  | t :: ts => do
      let names ← namesOf t
      return names ++ (← namesOfAll ts)

end

def mentions (names : List String) (t : Tree) : Bool :=
  t.nodes.any fun (_, info) => info.isTag && info.name?.any (· ∈ names)

/-- Hands the value of an expression to its destination. -/
def emit (t : Tree) (e : Expr) : Dest → Gen (List Stmt)
  | .discard => return [.expr e]
  | .ret => return [.ret (some e)]
  | .into [name] => return [.assign name e]
  | .into _ => malformed t .severalNames

/-- Puts the value of an expression into a temporary, unless it is the same everywhere. -/
def spill (e : Expr) : Gen (List Stmt × Expr) := do
  if e.isTrivial then return ([], e)
  let temp ← freshTemp
  return ([.assign temp e], .ident temp)

/-- Puts the values of expressions into temporaries, from left to right. -/
def spillAll : List Expr → Gen (List Stmt × List Expr)
  | [] => return ([], [])
  | e :: rest => do
      let (before, e) ← spill e
      let (after, rest) ← spillAll rest
      return (before ++ after, e :: rest)

end Offside.Lowering
