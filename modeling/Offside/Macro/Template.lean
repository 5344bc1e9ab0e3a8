import Offside.Diagnostic.Cause
import Offside.Environment

/-!
# Templates

A macro of the source is a template with a hole for each use of a parameter. Its definition
gives the template away: what remains of the definition is without it. An expansion copies the
template, and puts a copy of the argument into each hole.
-/

namespace Offside

/-- A template with its parameters and holes. -/
structure Template where
  name : String
  params : List String
  body : Tree
  /-- The parameter that each hole stands for, by the name of the hole. -/
  holes : Table Nat

namespace Template

def holeName (index : Nat) : String :=
  s!"$hole{index}"

def paramsOf (t : Tree) : Except Diagnostic (List String) :=
  if t.isTag then .ok [t.name?.getD ""]
  else if t.is .tuple then
    t.children.mapM fun param =>
      match param.isTag, param.name? with
      | true, some name => .ok name
      | _, _ => .error (.malformedMacro param.loc .parameter)
  else .error (.malformedMacro t.loc .parameters)

/-- The name that a definition gives its macro. It may be that of a macro already. -/
def nameOf (t : Tree) : Except Diagnostic String :=
  match t.name? with
  | some name =>
    if t.isTag || t.symbol.isMacro then .ok name else .error (.malformedMacro t.loc .name)
  | none => .error (.malformedMacro t.loc .name)

/-- Takes the only line from an indented block; what remains comes first. -/
def unwrapLine (t : Tree) : Option Tree × Tree :=
  match t.isBlock .block, t.children with
  | true, [line] => (some (t.withChildren []), line)
  | _, _ => (none, t)

/-- Takes the template from a body, which may quote it; what remains of the body comes first. -/
def unwrap (body : Tree) : Except Diagnostic (Option Tree × Tree) :=
  if body.is .quote then
    match body.children with
    | [] => .error (.malformedMacro body.loc .emptyQuote)
    | quoted :: rest =>
      let (remains, template) := unwrapLine quoted
      .ok (some (body.withChildren (remains.toList ++ rest)), template)
  else .ok (unwrapLine body)

mutual

/-- Makes a hole of each use of a parameter; `holes` are those made before. -/
def punch (params : List String) : Tree → Table Nat → Except Diagnostic (Tree × Table Nat)
  | .node id info children, holes =>
    if info.is .unquote then
      let operand := (children.head?.bind Tree.name?).bind fun name =>
        params.findIdx? (· = name)
      match operand with
      | none => .error (.malformedMacro info.loc .hole)
      | some index => do
          let name := holeName holes.size
          let (_, holes) ← punchAll params children (holes.insert name index)
          return (.node id { info with symbol := .nothing, value := some (.name name) } [], holes)
    else do
      let (children, holes) ← punchAll params children holes
      return (.node id info children, holes)

/-- Makes holes in some trees, from left to right. -/
def punchAll (params : List String) :
    List Tree → Table Nat → Except Diagnostic (List Tree × Table Nat)
  | [], holes => .ok ([], holes)
  | t :: ts, holes => do
      let (t, holes) ← punch params t holes
      let (ts, holes) ← punchAll params ts holes
      return (t :: ts, holes)

end

/--
Reads the definition of a macro. The first result is what remains of the definition; a template
that has been taken from it is gone even if it turns out to be malformed.
-/
def define (definition : Tree) : Tree × Except Diagnostic Template :=
  match definition.children with
  | [nameNode, paramsNode, body] =>
    let parts := do
      let name ← nameOf nameNode
      let params ← paramsOf paramsNode
      return (name, params, ← unwrap body)
    match parts with
    | .error d => (definition, .error d)
    | .ok (name, params, remains, template) =>
      (definition.withChildren (nameNode :: paramsNode :: remains.toList),
        (punch params template .empty).map fun (body, holes) =>
          { name, params, body, holes })
  | _ => (definition, .error (.malformedMacro definition.loc .parts))

/-- The operands of a macro with a template: none, or one that may be a tuple. -/
def arity (t : Template) : Arity :=
  if t.params.isEmpty then .following 0 0 else .following 1 1

/-- How a template is named in the notes of a report. -/
def describe (t : Template) : String :=
  let params := String.intercalate ", " t.params
  s!"#macro {t.name} ({params}) {t.body.text}"

/-- The arguments of an invocation. Several arguments are the elements of a tuple. -/
def arguments (t : Template) (invocation : Tree) : Except MacroError (List Tree) :=
  let expected := t.params.length
  let fault (found : Nat) : Except MacroError (List Tree) :=
    .error (.argumentCount t.name expected found)
  match expected, invocation.children with
  | 0, [] => .ok []
  | 0, _ :: _ => fault 1
  | _, [] => fault 0
  | 1, argument :: _ => .ok [argument]
  | _, argument :: _ =>
    if !argument.is .tuple then fault 1
    else if argument.children.length ≠ expected then fault argument.children.length
    else .ok argument.children

mutual

/-- A copy of a template in which each hole is a copy of its argument. -/
def fill (holes : Table Nat) (arguments : List Tree) (origin : Loc) : Tree → Supply Tree
  | .node _ info children => do
      let argument := match info.symbol with
        | .nothing => (info.name?.bind holes.get?).bind fun index => arguments[index]?
        | _ => none
      match argument with
      | some argument => argument.copy
      | none =>
        let id ← Supply.fresh
        let children ← fillAll holes arguments origin children
        return .node id { info with origin := some origin } children

/-- Copies of parts of a template with their holes filled. -/
def fillAll (holes : Table Nat) (arguments : List Tree) (origin : Loc) :
    List Tree → Supply (List Tree)
  | [] => return []
  | t :: ts => do
      let t ← fill holes arguments origin t
      return t :: (← fillAll holes arguments origin ts)

end

def expand (t : Template) (invocation : Tree) : Supply Outcome := do
  match t.arguments invocation with
  | .error reason => return .fail reason
  | .ok arguments =>
    let result ← fill t.holes arguments invocation.info.expansionSite t.body
    return .replace invocation result

end Template

end Offside
