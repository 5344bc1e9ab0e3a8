import Offside.Lowering.Expression

/-!
# Generation of statements

Nodes that are no expressions hand their values to a destination. A `do` is a block with a
label, and a `loop` an endless loop with one: `give` assigns and leaves, `next` assigns the
variables of the loop and goes on, and `end` leaves.
-/

namespace Offside.Lowering.Below

def choice (below : Below) (t : Tree) (dest : Dest) : Gen (List Stmt) := do
  match t.children with
  | condition :: branch :: rest =>
    let (before, test) ← below.value condition
    let consequent ← below.body branch dest
    let alternate ← match rest.find? (·.is .elseClause) with
      | none => pure none
      | some clause =>
        match clause.children with
        | [] => malformed clause .emptyElse
        | inner :: _ =>
          if inner.is .ifThen then
            match ← below.branch inner dest with
            | [only] => pure (some only)
            | stmts => pure (some (.block stmts))
          else pure (some (.block (← below.body inner dest)))
    return before ++ [.ifThen test (.block consequent) alternate]
  | _ => malformed t .conditionAndBody

/-- A `while`. A condition that needs statements is computed inside of an endless loop. -/
def whileLoop (below : Below) (t : Tree) : Gen (List Stmt) := do
  match t.children with
  | [condition, code] =>
    if isPure condition then
      let (before, test) ← below.build condition
      let stmts ← below.body code .discard
      return before ++ [.whileLoop test (.block stmts)]
    let (before, test) ← below.value condition
    let stop := Stmt.ifThen (.unary .not test) (.leave none) none
    let stmts ← below.body code .discard
    return [.whileLoop (.literal (.bool true)) (.block (before ++ [stop] ++ stmts))]
  | _ => malformed t .conditionAndBody

/-- A `do` block; it has a label if a jump needs it. -/
def doBlock (below : Below) (t : Tree) (dest : Dest) : Gen (List Stmt) := do
  let label ← freshLabel .doBlock
  let (stmts, target) ← inTarget ⟨.doBlock, label, dest, [], false⟩ (below.sequence t dest)
  if target.used then return [.labeled label (.block stmts)] else return [.block stmts]

/--
The head of a loop: its variables, the statements before the block of the loop, and those at
its start. Initial values that mention a variable are computed outside.
-/
def loopHead (below : Below) (head : Tree) : Gen (List String × List Stmt × List Stmt) := do
  match head.children with
  | [names, init] =>
    let loopVars ← namesOf names
    if mentions loopVars init then
      let temps ← freshTemps loopVars
      let before ← below.lower init (.into temps)
      return (loopVars, before,
        (loopVars.zip temps).map fun pair => .assign pair.1 (.ident pair.2))
    else return (loopVars, [], ← below.lower init (.into loopVars))
  | _ => malformed head .loopHead

/-- A `loop`. Its variables are declared in a block around it; its end leaves it. -/
def loop (below : Below) (t : Tree) (dest : Dest) : Gen (List Stmt) := do
  let (head, code) ← match t.children with
    | [code] => pure (none, code)
    | [head, code] => pure (some head, code)
    | _ => malformed t .headAndBody
  let label ← freshLabel .loop
  let (loopVars, before, start) ← match head with
    | none => pure ([], [], [])
    | some head => below.loopHead head
  let (stmts, _) ← inTarget ⟨.loop, label, dest, loopVars, false⟩ (below.body code .discard)
  let stmts :=
    if stmts.getLast?.any Stmt.isTerminal then stmts else stmts ++ [.leave (some label)]
  let start := match t.info.declaredNames with
    | [] => start
    | names => .decl names :: start
  let whole := Stmt.labeled label (.whileLoop (.literal (.bool true)) (.block stmts))
  match start with
  | [] => return before ++ [whole]
  | start => return before ++ [.block (start ++ [whole])]

/-- The handler and the finalizer of a `try`; of several clauses of a kind the last one counts. -/
def tryClauses (below : Below) (dest : Dest) :
    List Tree → Option Handler → Option (List Stmt) →
      Gen (Option Handler × Option (List Stmt))
  | [], handler, finalizer => return (handler, finalizer)
  | clause :: rest, handler, finalizer => do
      match clause.builtin?, clause.children with
      | some .catchClause, [param, code] =>
        let name ← match ← namesOf param with
          | [] => pure none
          | [name] => pure (some name)
          | _ => malformed param .catchNames
        let stmts ← inHost clause.info (below.body code dest)
        below.tryClauses dest rest (some (.mk name stmts)) finalizer
      | some .finallyClause, [code] =>
        let stmts ← below.body code .discard
        below.tryClauses dest rest handler (some stmts)
      | _, _ => malformed clause .tryClause

def tryBlock (below : Below) (t : Tree) (dest : Dest) : Gen (List Stmt) := do
  match t.children with
  | code :: clauses =>
    let block ← below.body code dest
    let (handler, finalizer) ← below.tryClauses dest clauses none none
    return [.tryBlock block handler finalizer]
  | [] => malformed t .emptyTry

def discardAll (below : Below) : List Tree → Gen (List Stmt)
  | [] => return []
  | t :: ts => do
      let first ← below.lower t .discard
      return first ++ (← below.discardAll ts)

/-- Puts the values of some nodes into temporaries, from left to right. -/
def keepAll (below : Below) : List Tree → Gen (List Stmt × List Expr)
  | [] => return ([], [])
  | t :: ts => do
      let (before, e) ← below.value t
      let (kept, e) ← spill e
      let (after, es) ← below.keepAll ts
      return (before ++ kept ++ after, e :: es)

/-- A tuple. All values are computed before the first one is assigned. -/
def tuple (below : Below) (t : Tree) (dest : Dest) : Gen (List Stmt) := do
  match dest, t.children with
  | .discard, elements => below.discardAll elements
  | .into [name], [element] => below.lower element (.into [name])
  | .into names, elements =>
    if names.length ≠ elements.length then malformed t .tupleWidth
    let (before, es) ← below.keepAll elements
    return before ++ (names.zip es).map fun pair => .assign pair.1 pair.2
  | .ret, _ => malformed t .tupleWidth

/-- Assigns temporaries to targets, from left to right. -/
def assignAll (below : Below) : List (Tree × String) → Gen (List Stmt)
  | [] => return []
  | (t, temp) :: rest => do
      let (before, place) ← below.target t false
      return before ++ .expr (.assign place (.ident temp)) :: (← below.assignAll rest)

/-- An assignment to several targets. Names take their values directly. -/
def multipleAssign (below : Below) (target value : Tree) (dest : Dest) : Gen (List Stmt) := do
  let elements ← match target.builtin?, target.children with
    | some .var, inner :: _ | some .const, inner :: _ => pure inner.children
    | some .var, [] | some .const, [] => malformed target .namelessDeclaration
    | _, elements => pure elements
  let (stmts, results) ←
    if elements.all Tree.isTag then do
      let names ← namesOf target
      let stmts ← below.lower value (.into names)
      pure (stmts, names)
    else do
      let temps ← freshTemps elements
      let stmts ← below.lower value (.into temps)
      pure (stmts ++ (← below.assignAll (elements.zip temps)), temps)
  match dest with
  | .discard => return stmts
  | .into names =>
    if names.length ≠ results.length then malformed target .tupleWidth
    return stmts ++ (names.zip results).map fun pair => .assign pair.1 (.ident pair.2)
  | .ret => malformed target .tupleWidth

/-- An assignment. What is no expression takes the target as its destination. -/
def assign (below : Below) (t : Tree) (dest : Dest) : Gen (List Stmt) := do
  match t.children with
  | [left, right] =>
    if !isSingleTarget left then below.multipleAssign left right dest
    else if (left.isTag || left.is .var || left.is .const) && !isExpression right then
      match (← namesOf left).getLast? with
      | none => malformed left .namelessDeclaration
      | some name =>
        let stmts ← below.lower right (.into [name])
        match dest with
        | .discard => return stmts
        | dest => return stmts ++ (← emit t (.ident name) dest)
    else
      let (stmts, e) ← below.expression t
      return stmts ++ (← emit t e dest)
  | _ => malformed t .targetAndValue

/-- A jump out of the nearest `do` or `loop`, or to the next round of the nearest `loop`. -/
def jump (below : Below) (t : Tree) (op : Builtin) : Gen (List Stmt) := do
  let jumps := (← get).jumps
  let target := if op = .nextRound then jumps.find? (·.kind = .loop) else jumps.head?
  match target with
  | none => malformed t .jumpOutside
  | some target =>
    match op with
    | .give =>
      let stmts ← match t.children with
        | value :: _ => below.lower value target.results
        | [] => pure []
      if target.results = .ret then return stmts
      markUsed target.label
      return stmts ++ [.leave (some target.label)]
    | .nextRound =>
      let dest := if target.loopVars.isEmpty then .discard else .into target.loopVars
      let stmts ← match t.children with
        | value :: _ => below.lower value dest
        | [] => pure []
      markUsed target.label
      return stmts ++ [.next (some target.label)]
    | _ =>
      markUsed target.label
      return [.leave (some target.label)]

/-- The statements of a node as an expression. -/
def plain (below : Below) (t : Tree) (dest : Dest) : Gen (List Stmt) := do
  let (stmts, e) ← below.expression t
  return stmts ++ (← emit t e dest)

def builtinStatements (below : Below) (t : Tree) (op : Builtin) (dest : Dest) :
    Gen (List Stmt) := do
  match op with
  | .ifThen =>
    if dest ≠ .discard && isPure t then below.plain t dest else below.choice t dest
  | .whileLoop => below.whileLoop t
  | .loop => below.loop t dest
  | .tryBlock => below.tryBlock t dest
  | .tuple => below.tuple t dest
  | .assign => below.assign t dest
  | .give | .nextRound | .leave => below.jump t op
  | .ret =>
    match t.children with
    | [] => return [.ret none]
    | value :: _ =>
      let (stmts, e) ← below.value value
      return stmts ++ [.ret (some e)]
  | .throw =>
    match t.children with
    | [] => malformed t .nothingToThrow
    | value :: _ =>
      let (stmts, e) ← below.value value
      return stmts ++ [.throw e]
  | .external => return []
  | .var | .const => if dest = .discard then return [] else below.plain t dest
  | _ => below.plain t dest

/-- The statements of a node; those without a place get that of the node. -/
def node (below : Below) (t : Tree) (dest : Dest) : Gen (List Stmt) := do
  let stmts ← match t.symbol with
    | .block .doBlock => below.doBlock t dest
    | .block .block => pure [.block (← below.sequence t dest)]
    | .block _ | .token _ | .expander _ => unsupported t
    | .builtin op => below.builtinStatements t op dest
    | _ => below.plain t dest
  return stmts.map (Stmt.withSpan (spanOf t))

end Offside.Lowering.Below
