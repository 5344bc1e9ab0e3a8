import Offside.Diagnostic.Cause
import Offside.Environment

/-!
# Binding of names

Every use of a name is bound to the declaration that is nearest to it. The root, indented
blocks, `do` blocks, functions, `catch` clauses and loops open a scope each and are hosts: the
names declared in such a scope are gathered on the host, except parameters, and declared at its
top. A use sees only the declarations before it.
-/

namespace Offside

/-- The state of binding. -/
structure Binding where
  scopes : Scopes Declaration
  /-- The names gathered on the innermost host. -/
  decls : Table Declaration
  diagnostics : Diagnostics

abbrev Bind := StateM Binding

namespace Bind

def report (d : Diagnostic) : Bind Unit :=
  modify fun s => { s with diagnostics := s.diagnostics.push d }

def extend (scope : ScopeId) : Bind ScopeId :=
  modifyGet fun s =>
    let (inner, scopes) := s.scopes.extend scope
    (inner, { s with scopes })

/-- The contents of a node that has been looked at. -/
def done (info : Info) : Info :=
  { info with resolved := true }

def skip (t : Tree) : Tree :=
  t.withInfo done

/-- Runs a computation inside of a host and gathers the names that it declares. -/
def inHost {α : Type} (info : Info) (scope : ScopeId) (x : Bind α) : Bind (Info × α) := do
  let outer := (← get).decls
  modify fun s => { s with decls := info.decls.getD .empty }
  let a ← x
  let decls := (← get).decls
  modify fun s => { s with decls := outer }
  return ({ info with varScope := some scope, decls := some decls }, a)

/-! ## Tags -/

/-- Declares the name of a tag; a hoisted name is gathered on the host. -/
def declare (id : NodeId) (info : Info) (kind : TagKind) (scope : ScopeId) (hoisted : Bool) :
    Bind Info := do
  match info.name? with
  | none => return info
  | some name =>
    let declaration : Declaration :=
      { name, tag := some id, loc := some info.loc, assignable := !kind.isConstant, hoisted }
    match (← get).scopes.define scope name declaration with
    | .error existing =>
      report (.redeclared info.loc info.origin name existing.loc)
      return info
    | .ok scopes =>
      modify fun s =>
        { s with
          scopes
          decls := if hoisted then s.decls.insert name declaration else s.decls }
      return { info with binding := some declaration }

/-- Reports a virtual name that stands in no template. -/
def reportVirtual (info : Info) : Bind Unit :=
  report (.undeclaredVirtual info.loc info.origin (info.name?.getD "?") .outsideTemplate)

def use (info : Info) (scope : ScopeId) (assigning : Bool) : Bind Info := do
  match info.name? with
  | none => return info
  | some name =>
    match (← get).scopes.get? scope name with
    | none =>
      report (.undeclared info.loc info.origin name)
      return info
    | some declaration =>
      if assigning && !declaration.assignable then
        report (.constantAssigned info.loc info.origin name declaration.loc)
      return { info with binding := some declaration }

def tag (id : NodeId) (info : Info) (kind : TagKind) (scope : ScopeId) (assigning : Bool) :
    Bind Info := do
  if kind = .external then return info
  else if kind.isVirtual then
    reportVirtual info
    return info
  else if kind.isDeclaration then declare id info kind scope true
  else use info scope assigning

mutual

/-- Declares a name or the names of a tuple. -/
def pattern (scope : ScopeId) (hoisted : Bool) : Tree → Bind Tree
  | .node id info children => do
      match info.symbol with
      | .tag kind =>
        if kind.isVirtual then
          reportVirtual info
          return .node id (done info) children
        else if kind.isDeclaration then
          return .node id (done (← declare id info kind scope hoisted)) children
        else
          report (.invalidDeclaration info.loc info.origin .notNames)
          return .node id (done info) children
      | .builtin .tuple => return .node id (done info) (← patterns scope hoisted children)
      | _ =>
        report (.invalidDeclaration info.loc info.origin .notNames)
        return .node id (done info) children

/-- Declares the names of some patterns, from left to right. -/
def patterns (scope : ScopeId) (hoisted : Bool) : List Tree → Bind (List Tree)
  | [] => return []
  | t :: ts => do
      let t ← pattern scope hoisted t
      return t :: (← patterns scope hoisted ts)

end

/-- Makes a name visible without a declaration in the output; doing so twice is harmless. -/
def external (scope : ScopeId) (t : Tree) : Bind Tree := do
  match t.isTag, t.name? with
  | true, some name =>
    let declaration : Declaration :=
      { (Declaration.fromOutside name) with tag := some t.id, loc := some t.loc }
    match (← get).scopes.define scope name declaration with
    | .ok scopes => modify fun s => { s with scopes }
    | .error _ => pure ()
    return t.withInfo fun info => { (done info) with binding := some declaration }
  | _, _ =>
    report (.invalidDeclaration t.loc t.info.origin .notExternalName)
    return skip t

/-! ## Trees -/

/-- Where a node stands in another one. -/
inductive Place where
  | value
  /-- On the left of an assignment. -/
  | target
  /-- An entry of an object literal. -/
  | entry
deriving DecidableEq

mutual

/-- Binds the names of a tree that stands in some place, unless that has been done. -/
def tree (place : Place) (scope : ScopeId) : Tree → Bind Tree
  | .node id info children => do
      match place, info.symbol, children with
      | .target, .tag kind, children =>
        return .node id (done (← tag id info kind scope true)) children
      | .target, .builtin .tuple, children =>
        return .node id (done info) (← trees .target scope children)
      | .entry, .builtin .pair, key :: values =>
        return .node id (done info) (skip key :: (← trees .value scope values))
      | .entry, .builtin .pair, [] => return .node id (done info) []
      | _, symbol, children =>
      if place = .target && !symbol.flags.assignable then
        report (.invalidTarget info.loc info.origin)
      if info.resolved then return .node id info children
      match symbol, children with
      | .block kind, children =>
        if kind.opensScope then
          let inner ← extend scope
          let (info, children) ← inHost info inner (trees .value inner children)
          return .node id (done info) children
        else return .node id (done info) (← trees .value scope children)
      | .tag kind, children => return .node id (done (← tag id info kind scope false)) children
      | .builtin .assign, [left, right] =>
        let left ← tree .target scope left
        let right ← tree .value scope right
        return .node id (done info) [left, right]
      | .builtin .member, object :: properties =>
        let object ← tree .value scope object
        return .node id (done info) (object :: properties.map skip)
      | .builtin .object, entries => return .node id (done info) (← trees .entry scope entries)
      | .builtin .pair, key :: values =>
        report (.misplacedPair info.loc info.origin)
        return .node id (done info) (skip key :: (← trees .value scope values))
      | .builtin .pair, [] =>
        report (.misplacedPair info.loc info.origin)
        return .node id (done info) []
      | .builtin .var, children => return .node id (done info) (← patterns scope true children)
      | .builtin .const, children => return .node id (done info) (← patterns scope true children)
      | .builtin .external, children =>
        return .node id (done info) (← children.mapM (external scope))
      | .builtin .fn, [params, body] =>
        let inner ← extend scope
        let (info, params, body) ← inHost info inner do
          let params ← pattern inner false params
          return (params, ← tree .value inner body)
        return .node id (done info) [params, body]
      | .builtin .catchClause, [param, body] =>
        let inner ← extend scope
        let (info, param, body) ← inHost info inner do
          let param ← pattern inner false param
          return (param, ← tree .value inner body)
        return .node id (done info) [param, body]
      | .builtin .fn, children =>
        let inner ← extend scope
        let (info, children) ← inHost info inner (trees .value inner children)
        return .node id (done info) children
      | .builtin .catchClause, children =>
        let inner ← extend scope
        let (info, children) ← inHost info inner (trees .value inner children)
        return .node id (done info) children
      | .builtin .loop, [body] =>
        let inner ← extend scope
        let (info, body) ← inHost info inner (tree .value inner body)
        return .node id (done info) [body]
      | .builtin .loop, [.node headId headInfo [names, init], body] =>
        let inner ← extend scope
        if headInfo.is .assign then
          let init ← tree .value scope init
          let (info, names, body) ← inHost info inner do
            let names ← pattern inner true names
            return (names, ← tree .value inner body)
          return .node id (done info) [.node headId (done headInfo) [names, init], body]
        else
          report (.invalidDeclaration headInfo.loc headInfo.origin .loopHead)
          let head ← tree .value scope (.node headId headInfo [names, init])
          let (info, body) ← inHost info inner (tree .value inner body)
          return .node id (done info) [head, body]
      | .builtin .loop, [head, body] =>
        let inner ← extend scope
        report (.invalidDeclaration head.loc head.info.origin .loopHead)
        let head ← tree .value scope head
        let (info, body) ← inHost info inner (tree .value inner body)
        return .node id (done info) [head, body]
      | .builtin .loop, children =>
        let _ ← extend scope
        return .node id (done info) (← trees .value scope children)
      | _, children => return .node id (done info) (← trees .value scope children)

/-- Binds the names of some trees, from left to right. -/
def trees (place : Place) (scope : ScopeId) : List Tree → Bind (List Tree)
  | [] => return []
  | t :: ts => do
      let t ← tree place scope t
      return t :: (← trees place scope ts)

end

def root : Tree → Bind Tree
  | .node id info children => do
      let (info, children) ← inHost info Scopes.root (trees .value Scopes.root children)
      return .node id (done info) children

end Bind

end Offside
