import Offside.Lowering.Generator
import Offside.Lowering.Purity

/-!
# Generation of expressions

An expression comes with the statements that have to run before it. Operands are computed from
left to right: if a later operand needs statements, the values of those before it are put into
temporaries first.
-/

namespace Offside.Lowering

/-- Generation of what stands below a node. -/
structure Below where
  /-- The statements that hand the values of a node to a destination. -/
  lower : Tree → Dest → Gen (List Stmt)
  /-- The statements and the expression of a node that can be written as an expression. -/
  build : Tree → Gen (List Stmt × Expr)
  /-- The statements of an `if` behind an `else`. -/
  branch : Tree → Dest → Gen (List Stmt)

namespace Below

/-- The value of a node; what is no expression goes through a temporary. -/
def value (below : Below) (t : Tree) : Gen (List Stmt × Expr) := do
  if isExpression t then below.build t
  else
    let temp ← freshTemp
    let stmts ← below.lower t (.into [temp])
    return (stmts, (Expr.ident temp).withSpan (spanOf t))

/-- The values of operands, from left to right. -/
def operands (below : Below) : List Tree → Gen (List Stmt × List Expr)
  | [] => return ([], [])
  | t :: ts => do
      let (before, e) ← below.value t
      let (kept, e) ← if ts.all isPure then pure ([], e) else spill e
      let (after, es) ← below.operands ts
      return (before ++ kept ++ after, e :: es)

/-- The statements of a block, of which the last one has the destination. -/
def statements (below : Below) (dest : Dest) : List Tree → Gen (List Stmt)
  | [] => return []
  | [last] => below.lower last dest
  | t :: next :: ts => do
      let first ← below.lower t .discard
      return first ++ (← below.statements dest (next :: ts))

def sequence (below : Below) (block : Tree) (dest : Dest) : Gen (List Stmt) :=
  inHost block.info (below.statements dest block.children)

/-- The statements of a branch or a body; an indented block is its statements. -/
def body (below : Below) (t : Tree) (dest : Dest) : Gen (List Stmt) :=
  if t.isBlock .block then below.sequence t dest else below.lower t dest

/-- A property of an object. A name is itself, and all else is computed. -/
def property (below : Below) (object : Expr) (t : Tree) : Gen (List Stmt × Expr) := do
  match t.isTag, t.name? with
  | true, some name => return ([], .member object (.ident name) false)
  | _, _ =>
    let (stmts, e) ← below.value t
    return (stmts, .member object e true)

/-- A target that takes a single value. If `keep` is set, its parts are put into temporaries. -/
def target (below : Below) (t : Tree) (keep : Bool) : Gen (List Stmt × Expr) := do
  if t.isTag then return ([], .ident (← tagName t))
  match t.builtin?, t.children with
  | some .var, inner :: _ | some .const, inner :: _ => return ([], .ident (← tagName inner))
  | some .var, [] | some .const, [] => malformed t .namelessDeclaration
  | some .member, [object, property] =>
    let (before, object) ← below.value object
    let (kept, object) ← if keep then spill object else pure ([], object)
    let (after, e) ← below.property object property
    return (before ++ kept ++ after, e)
  | some .member, _ => malformed t .objectAndProperty
  | some .element, parts =>
    let (before, es) ← below.operands parts
    let (kept, es) ← if keep then spillAll es else pure ([], es)
    match es with
    | [object, index] => return (before ++ kept, .member object index true)
    | _ => malformed t .objectAndIndex
  | _, _ => malformed t .notTarget

/-- An operator that does not always need its right operand. -/
def logical (below : Below) (t : Tree) (op : LogicalOp) : Gen (List Stmt × Expr) := do
  match t.children with
  | [left, right] =>
    let (before, left) ← below.value left
    if isPure right then
      let (after, right) ← below.build right
      return (before ++ after, .logical op left right)
    let temp ← freshTemp
    let (inside, right) ← below.value right
    let test := match op with
      | .and => .ident temp
      | .or => .unary .not (.ident temp)
    let choice := Stmt.ifThen test (.block (inside ++ [.assign temp right])) none
    return (before ++ [.assign temp left, choice], .ident temp)
  | _ => malformed t .twoOperands

def callParts (below : Below) (t : Tree) : Gen (List Stmt × Expr × List Expr) := do
  match ← below.operands t.children with
  | (stmts, callee :: arguments) => return (stmts, callee, arguments)
  | (_, []) => malformed t .noCallee

def keyText (key : Tree) : Gen String :=
  match key.info.value with
  | some (.name text) | some (.str text) => return text
  | some (.number x) => return x.plain
  | _ => malformed key .objectKey

/-- The keys and the values of the entries of an object. -/
def entries : List Tree → Gen (List (String × Tree))
  | [] => return []
  | t :: ts => do
      let (key, value) := match t.is .pair, t.children with
        | true, [key, value] => (key, value)
        | _, _ => (t, t)
      let text ← keyText key
      return (text, value) :: (← entries ts)

/-- The value of a function's last statement is returned, if there is exactly one. -/
def functionDest (body : Tree) : Dest :=
  let last := if body.isBlock .block then body.children.getLast? else some body
  if last.any fun t => t.info.count = some 1 && !t.symbol.flags.jump then .ret else .discard

def function (below : Below) (t : Tree) : Gen (List Stmt × Expr) := do
  match t.children with
  | [params, code] =>
    let names ← namesOf params
    let stmts ← inFunction (inHost t.info (below.body code (functionDest code)))
    return ([], .function names stmts)
  | _ => malformed t .paramsAndBody

def literal (t : Tree) : Gen Expr :=
  match t.info.value with
  | some (.number x) => return .literal (.number x)
  | some (.str s) => return .literal (.str s)
  | some (.bool b) => return .literal (.bool b)
  | some .null => return .literal .null
  | _ => malformed t .emptyLiteral

def buildBuiltin (below : Below) (t : Tree) (op : Builtin) : Gen (List Stmt × Expr) := do
  match op, t.children with
  | .and, _ => below.logical t .and
  | .or, _ => below.logical t .or
  | .neg, [operand] =>
    let (stmts, e) ← below.value operand
    return (stmts, .unary .neg e)
  | .not, [operand] =>
    let (stmts, e) ← below.value operand
    return (stmts, .unary .not e)
  | .neg, _ | .not, _ => malformed t .oneOperand
  | .member, [object, property] =>
    let (before, object) ← below.value object
    let (after, e) ← below.property object property
    return (before ++ after, e)
  | .member, _ => malformed t .objectAndProperty
  | .element, parts =>
    match ← below.operands parts with
    | (stmts, [object, index]) => return (stmts, .member object index true)
    | _ => malformed t .objectAndIndex
  | .call, _ =>
    let (stmts, callee, arguments) ← below.callParts t
    return (stmts, .call callee arguments)
  | .new, [operand] =>
    if operand.is .call then
      let (stmts, callee, arguments) ← below.callParts operand
      return (stmts, .new callee arguments)
    else
      let (stmts, callee) ← below.value operand
      return (stmts, .new callee [])
  | .new, _ => malformed t .oneOperand
  | .array, elements =>
    let (stmts, es) ← below.operands elements
    return (stmts, .array es)
  | .object, fields =>
    let fields ← entries fields
    let (stmts, es) ← below.operands (fields.map Prod.snd)
    return (stmts, .object ((fields.map Prod.fst).zip es))
  | .fn, _ => below.function t
  | .var, inner :: _ | .const, inner :: _ => return ([], .ident (← tagName inner))
  | .var, [] | .const, [] => malformed t .namelessDeclaration
  | .assign, [left, right] =>
    let (before, left) ← below.target left (!isPure right)
    let (after, right) ← below.value right
    return (before ++ after, .assign left right)
  | .assign, _ => malformed t .targetAndValue
  | .ifThen, _ =>
    match conditional? t with
    | none => unsupported t
    | some (condition, consequent, alternate) =>
      let (first, condition) ← below.build condition
      let (second, consequent) ← below.build consequent
      let (third, alternate) ← below.build alternate
      return (first ++ second ++ third, .conditional condition consequent alternate)
  | op, parts =>
    match binaryOp? op with
    | none => unsupported t
    | some op =>
      match ← below.operands parts with
      | (stmts, [left, right]) => return (stmts, .binary op left right)
      | _ => malformed t .twoOperands

def expression (below : Below) (t : Tree) : Gen (List Stmt × Expr) := do
  let (stmts, e) ← match t.symbol with
    | .value => pure ([], ← literal t)
    | .tag _ => pure ([], .ident (← tagName t))
    | .nothing => pure ([], .literal .undefined)
    | .builtin op => below.buildBuiltin t op
    | _ => unsupported t
  return (stmts, e.withSpan (spanOf t))

end Below

end Offside.Lowering
