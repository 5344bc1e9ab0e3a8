import Offside.Expression.Climb
import Offside.Macro.Template

/-!
# Expressions

Combination turns the blocks of a source into expressions. The lines of a block are combined in
order, and what stands in brackets or blocks of a line before the line itself. A macro that a
line defines is known to the lines behind it in the same block.
-/

namespace Offside

/-- What combination knows: the spellings in each scope, the templates, and the reports. -/
structure Combination where
  numbering : Numbering
  keys : Scopes Symbol
  templates : Array Template
  diagnostics : Diagnostics

abbrev Combine := StateM Combination

namespace Combine

def report (d : Diagnostic) : Combine Unit :=
  modify fun s => { s with diagnostics := s.diagnostics.push d }

/-- Runs a computation that numbers new nodes. -/
def supply {α : Type} (x : Supply α) : Combine α :=
  modifyGet fun s =>
    let (a, numbering) := x.run s.numbering
    (a, { s with numbering })

def extend (scope : ScopeId) : Combine ScopeId :=
  modifyGet fun s =>
    let (inner, keys) := s.keys.extend scope
    (inner, { s with keys })

def lookup (scope : ScopeId) (text : String) : Combine (Option Symbol) :=
  return (← get).keys.get? scope text

/-! ## Tokens -/

/-- The longest known operator at the start of some characters, from `length` characters down. -/
def longestOperator (keys : Scopes Symbol) (scope : ScopeId) (chars : List Char) :
    Nat → Option (String × Symbol)
  | 0 => none
  | length + 1 =>
    let text := String.ofList (chars.take (length + 1))
    match (keys.get? scope text).filter Symbol.isOperator with
    | some symbol => some (text, symbol)
    | none => longestOperator keys scope chars length

/-- Cuts an operator text into known operators, each the longest one where it starts. -/
def cutOperators (keys : Scopes Symbol) (scope : ScopeId) :
    Nat → List Char → Option (List (String × Symbol))
  | _, [] => some []
  | 0, _ :: _ => none
  | fuel + 1, c :: rest => do
      let (text, symbol) ← longestOperator keys scope (c :: rest) (rest.length + 1)
      let pieces ← cutOperators keys scope fuel ((c :: rest).drop text.length)
      return (text, symbol) :: pieces

/-- The items of the pieces of an operator text, the first of which is `offset` behind `loc`. -/
def pieceItems (loc : Loc) : Nat → List (String × Symbol) → Supply (List Item)
  | _, [] => return []
  | offset, (text, symbol) :: rest => do
      let place := Loc.clamped loc.source loc.line (loc.column + offset)
      let node ← Tree.new symbol (some (.name text)) place []
      return ⟨node, .operator symbol⟩ :: (← pieceItems loc (offset + text.length) rest)

/-- The items of an operator token: one, or its pieces if it is not known as a whole. -/
def operatorItems (scope : ScopeId) (token : Tree) (text : String) : Combine (List Item) := do
  let keys := (← get).keys
  match (keys.get? scope text).filter Symbol.isOperator with
  | some symbol => return [⟨token.withSymbol symbol, .operator symbol⟩]
  | none =>
    match cutOperators keys scope text.length text.toList with
    | some pieces => supply (pieceItems token.loc 0 pieces)
    | none =>
      report (.unknownOperator token.loc text)
      return []

def tokenItems (scope : ScopeId) (token : Tree) (kind : TokenClass) : Combine (List Item) := do
  match kind, token.name? with
  | .identifier, some name =>
    match ← lookup scope name with
    | some (.keyword literal) =>
      let node := token.withInfo fun info =>
        { info with symbol := .value, value := some literal }
      return [⟨node, .operand⟩]
    | some symbol =>
      if symbol.isOperator then return [⟨token.withSymbol symbol, .operator symbol⟩]
      else return [⟨token.withSymbol (.tag .use), .operand⟩]
    | none => return [⟨token.withSymbol (.tag .use), .operand⟩]
  | .virtualIdentifier, _ => return [⟨token.withSymbol (.tag TagKind.use.toVirtual), .operand⟩]
  | .operator, some text => operatorItems scope token text
  | .hashOperator, some text =>
    match (← lookup scope text).filter Symbol.isOperator with
    | some symbol => return [⟨token.withSymbol symbol, .operator symbol⟩]
    | none =>
      report (.unknownOperator token.loc text)
      return []
  | _, _ => return [⟨token.withSymbol .value, .operand⟩]

/-! ## Items -/

/-- Reports the items behind an expression; what each of them starts is passed over. -/
def leftovers : Nat → List Item → Combine Unit
  | 0, _ | _, [] => return
  | fuel + 1, item :: rest => do
      report (.unexpected item.tree.loc item.shown)
      let (_, rest) ← supply (Climb.first rest)
      leftovers fuel rest

def fold (items : List Item) : Combine (Option Tree) := do
  let (result, rest) ← supply (Climb.first items)
  leftovers rest.length rest
  return result

/-- Decides whether an entry of an object literal is a pair with a proper key. -/
def isEntry (t : Tree) : Bool :=
  match t.is .pair, t.children with
  | true, key :: _ => key.isTag || (key.info.value matches some (.str _))
  | _, _ => false

def bracketItem (kind : BlockKind) (loc : Loc) (groups : Nat) (elements : List Tree) :
    Combine Item := do
  match kind, elements with
  | .paren, [element] =>
    if groups = 1 then return ⟨element, .paren false⟩
    else return ⟨← supply (Tree.new (.builtin .tuple) none loc [element]), .paren true⟩
  | .paren, elements =>
    return ⟨← supply (Tree.new (.builtin .tuple) none loc elements), .paren true⟩
  | .square, elements => return ⟨← supply (Tree.new (.builtin .array) none loc elements), .square⟩
  | _, elements =>
    for element in elements do
      if !isEntry element then report (.malformedEntry element.loc)
    return ⟨← supply (Tree.new (.builtin .object) none loc elements), .curly⟩

/-- Notes the macro that a definition makes; what remains of the definition is the result. -/
def register (scope : ScopeId) (definition : Tree) : Combine Tree := do
  let (remains, result) := Template.define definition
  match result with
  | .error d => report d
  | .ok template =>
    modify fun s =>
      let m : Macro := ⟨template.name, template.arity, .template s.templates.size⟩
      { s with
        keys := s.keys.insert scope template.name (.expander m)
        templates := s.templates.push template }
  return remains

/-- Adds the expression of a line to the statements of its block. -/
def addStatement (scope : ScopeId) (statements : Array Tree) (expr : Tree) :
    Combine (Array Tree) := do
  match expr.builtin? with
  | some op =>
    if op.flags.dependentClause then
      match statements.back?.bind (Clause.attach expr op) with
      | some statement => return statements.pop.push statement
      | none =>
        report (.unattachedClause expr.loc expr.symbol.name)
        return statements
    else if op = .defMacro then return statements.push (← register scope expr)
    else return statements.push expr
  | none => return statements.push expr

/-- Ends a block: its clauses are looked at, and the statements become its children. -/
def finishBlock (id : NodeId) (info : Info) (scope : ScopeId) (statements : Array Tree) :
    Combine Tree := do
  for statement in statements do
    modify fun s => { s with diagnostics := Clause.faults none statement s.diagnostics }
  return .node id { info with keyScope := some scope } statements.toList

/-! ## Blocks -/

mutual

def lines : List Tree → ScopeId → Array Tree → Combine (Array Tree)
  | [], _, statements => return statements
  | .node _ info parts :: rest, scope, statements => do
      let expr ←
        if parts.any (·.isBlock .comma) then
          let elements ← groups parts scope none #[]
          pure (some (← supply (Tree.new (.builtin .tuple) none info.loc elements.toList)))
        else fold (← items parts scope)
      match expr with
      | none => lines rest scope statements
      | some expr => lines rest scope (← addStatement scope statements expr)

/-- Combines the groups of a line with commas; `items` belong to the group before. -/
def groups : List Tree → ScopeId → Option (List Item) → Array Tree → Combine (Array Tree)
  | [], _, group, elements => do
      return elements ++ (← fold (group.getD [])).toArray
  | .node id info parts :: rest, scope, group, elements => do
      if info.isBlock .comma then
        let elements := elements ++ (← fold (group.getD [])).toArray
        groups rest scope (some (← items parts scope)) elements
      else
        let more ← item (.node id info parts) scope
        groups rest scope (some (group.getD [] ++ more)) elements

def bracket : List Tree → ScopeId → Array Tree → Combine (Array Tree)
  | [], _, elements => return elements
  | .node _ _ parts :: rest, scope, elements => do
      let element ← fold (← items parts scope)
      bracket rest scope (elements ++ element.toArray)

def items : List Tree → ScopeId → Combine (List Item)
  | [], _ => return []
  | t :: ts, scope => do
      let first ← item t scope
      return first ++ (← items ts scope)

def item : Tree → ScopeId → Combine (List Item)
  | .node id info parts, scope => do
      match info.symbol with
      | .block .block =>
        let inner ← extend scope
        let statements ← lines parts inner #[]
        return [⟨← finishBlock id info inner statements, .block⟩]
      | .block .doBlock =>
        let inner ← extend scope
        let statements ← lines parts inner #[]
        return [⟨← finishBlock id info inner statements, .operand⟩]
      | .block kind =>
        if kind.isBracket then
          let elements ← bracket parts scope #[]
          return [← bracketItem kind info.loc parts.length elements.toList]
        else return [⟨.node id info parts, .operand⟩]
      | .token kind => tokenItems scope (.node id info parts) kind
      | _ => return [⟨.node id info parts, .operand⟩]

end

def root : Tree → Combine Tree
  | .node id info parts => do
      let statements ← lines parts Scopes.root #[]
      finishBlock id info Scopes.root statements

end Combine

end Offside
