import Offside.Macro.Hygiene
import Offside.Macro.Template
import Offside.Text.Lines

/-!
# Expansion

Expansion goes from the leaves up. An invocation becomes what its macro makes of it, in place;
then the new children are expanded, and the node itself again, until it is no invocation. The
rounds on one node are limited, and so is the nesting of expansions. Definitions disappear, and
what they quote is not expanded.
-/

namespace Offside

/-- What expansion is given. -/
structure ExpansionSettings where
  env : Environment
  templates : Array Template
  /-- Whether a report on a macro says how it is defined and where it is invoked. -/
  trace : Bool
  text : Option (List Char)

/-- The state of expansion. -/
structure Expanding where
  numbering : Numbering
  names : NameSupply
  diagnostics : Diagnostics
  /-- Whether the limit has been reported. -/
  limited : Bool

abbrev Expand := StateM Expanding

namespace Expand

/-- The largest number of rounds on one node, and of nested expansions. -/
def limit : Nat := 256

def report (d : Diagnostic) : Expand Unit :=
  modify fun s => { s with diagnostics := s.diagnostics.push d }

/-- Runs a computation that numbers new nodes. -/
def supply {α : Type} (x : Supply α) : Expand α :=
  modifyGet fun s =>
    let (a, numbering) := x.run s.numbering
    (a, { s with numbering })

def external (name : String) (loc : Loc) : Supply Tree :=
  Tree.new (.tag .external) (some (.name name)) loc []

/-- An invocation becomes a call of a function from outside. Tuples are spread out. -/
def callOutside (callee : String) (invocation : Tree) : Supply Outcome := do
  let operands := invocation.children
  let arguments := operands.flatMap fun operand =>
    if operand.is .tuple then operand.children else [operand]
  let remains := (operands.filter (·.is .tuple)).map (·.withChildren [])
  let function ← external callee invocation.loc
  let call ← Tree.new (.builtin .call) none invocation.loc (function :: arguments)
  return .replace (invocation.withChildren remains) call

/-- What becomes of the operand of `@`: a member of `this`. -/
def memberOfThis (node : Tree) : Supply Outcome := do
  match node.children with
  | [] => return .unchanged
  | property :: rest =>
    let this ← external "this" node.loc
    let member ← Tree.new (.builtin .member) none node.loc [this, property]
    return .replace (node.withChildren rest) member

def traceNotes (settings : ExpansionSettings) (m : Macro) (loc : Loc) : List String :=
  let description := match m.body with
    | .template index => settings.templates[index]?.map Template.describe
    | _ => settings.env.describe m
  let line := settings.text.bind fun text => Text.sourceLine? text (loc.line - 1)
  (description.map fun text => s!"while expanding {text}").toList ++
    (line.map fun text =>
      s!"invoked at line {loc.line}: {String.ofList (Text.trimBlanks text)}").toList

def failure (settings : ExpansionSettings) (m : Macro) (info : Info) (d : Diagnostic) :
    Diagnostic :=
  let d := d.withOrigin info.origin
  if settings.trace then
    (traceNotes settings m info.loc).foldl (fun d note => d.withNote note) d
  else d

def invoke (settings : ExpansionSettings) (m : Macro) (invocation : Tree) : Supply Outcome :=
  match m.body with
  | .template index =>
    match settings.templates[index]? with
    | some template => template.expand invocation
    | none => return .unchanged
  | .call callee => callOutside callee invocation
  | .host index =>
    match settings.env.routines[index]? with
    | some routine => routine.expand invocation
    | none => return .unchanged

/-- The result of one round on a node. -/
inductive Round where
  | stay
  /-- The node disappears. -/
  | vanish
  /-- The node becomes `result`, or `remains` if the limit is reached. -/
  | become (remains result : Tree)

def builtinRound (op : Builtin) (node : Tree) : Expand Round := do
  match op with
  | .defMacro => return .vanish
  | .quote | .unquote =>
    report (.misplacedQuote node.loc node.info.origin op)
    return .stay
  | .atSign =>
    match ← supply (memberOfThis node) with
    | .replace remains result => return .become remains result
    | _ => return .stay
  | _ => return .stay

def round (settings : ExpansionSettings) (node : Tree) : Expand Round := do
  match node.symbol with
  | .builtin op => if op.flags.expands then builtinRound op node else return .stay
  | .expander m =>
    match ← supply (invoke settings m node) with
    | .unchanged => return .stay
    | .delete => return .vanish
    | .replace remains result => return .become remains result
    | .fail (.message text) =>
      report (failure settings m node.info (.macroFailed node.loc text))
      return .stay
    | .fail (.argumentCount name expected found) =>
      report (failure settings m node.info
        (.macroArgumentCount node.loc name expected found))
      return .stay
    | .crash reason =>
      report (failure settings m node.info
        (.macroCrashed node.loc (reason.getD "unknown panic")))
      return .stay
  | _ => return .stay

/-- Reports that a node did not stop expanding; only the first such report is made. -/
def reportLimit (node : Tree) : Expand Unit :=
  modify fun s =>
    if s.limited then s
    else
      let d := Diagnostic.expansionLimit node.loc node.info.origin limit
      { s with limited := true, diagnostics := s.diagnostics.push d }

/-- The node in the place of an invocation, with its virtual names renamed. -/
def settle (id : NodeId) (result : Tree) : Expand Tree :=
  modifyGet fun s =>
    let start : Renaming := ⟨.empty, s.names, #[]⟩
    let (t, r) := Renaming.tree (.node id result.info result.children) start
    (t, { s with names := r.names, diagnostics := s.diagnostics ++ r.faults })

mutual

/-- Expands what stands below a node, unless it is quoted, and then the node by `node`. -/
def tree (node : Tree → Expand (Option Tree)) : Tree → Expand (Option Tree)
  | .node id info children => do
      let children ← if info.symbol.flags.quoting then pure children else trees node children
      node (.node id info children)

/-- Expands some trees; those that disappear are left out. -/
def trees (node : Tree → Expand (Option Tree)) : List Tree → Expand (List Tree)
  | [] => return []
  | t :: ts => do
      let first ← tree node t
      return first.toList ++ (← trees node ts)

end

/-- Runs rounds on a node; `below` expands the new children after each round. -/
def rounds (settings : ExpansionSettings) (below : List Tree → Expand (List Tree)) :
    Nat → Tree → Expand (Option Tree)
  | count, node => do
      match ← round settings node with
      | .stay => return some node
      | .vanish => return none
      | .become remains result =>
        match count with
        | 0 =>
          reportLimit node
          return some remains
        | count + 1 =>
          let node ← settle node.id result
          let children ←
            if node.symbol.flags.quoting then pure node.children else below node.children
          rounds settings below count (node.withChildren children)

/-- Expands trees; expansions may be nested as deep as given. -/
def nested (settings : ExpansionSettings) : Nat → List Tree → Expand (List Tree)
  | 0 => trees (rounds settings pure 0)
  | depth + 1 => trees (rounds settings (nested settings depth) limit)

def root (settings : ExpansionSettings) (t : Tree) : Expand Tree := do
  match ← nested settings (limit + 1) [t] with
  | root :: _ => return root
  | [] => return t

end Expand

end Offside
