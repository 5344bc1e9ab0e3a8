import Offside.Binding
import Offside.Block
import Offside.Diagnostic.Report
import Offside.Expression
import Offside.Forest
import Offside.Lowering
import Offside.Macro.Expansion
import Offside.Token.Scan
import Offside.ValueCount

/-!
# Compilation

A source is read into blocks, combined into expressions, expanded, bound and checked, and then
a program is generated. Each step takes the unit that the step before has left. Compilation ends
with the first step that reports an error.
-/

namespace Offside

/-- A source on its way to a program. -/
structure SourceUnit where
  tree : Tree
  numbering : Numbering
  templates : Array Template
  diagnostics : Diagnostics

namespace SourceUnit

def read (settings : Scan.Settings) (text : List Char) : SourceUnit :=
  let (lines, scanned) := Scan.source settings text
  let (tree, numbering, blocks) := Block.read settings.source lines
  ⟨tree, numbering, #[], scanned ++ blocks⟩

def combine (unit : SourceUnit) (env : Environment) (prelude : Bool) : SourceUnit :=
  let start : Combination :=
    ⟨unit.numbering, .start (env.rootKeys prelude), unit.templates, unit.diagnostics⟩
  let (tree, final) := (Combine.root unit.tree).run start
  ⟨tree, final.numbering, final.templates, final.diagnostics⟩

def expand (unit : SourceUnit) (env : Environment) (trace : Bool) (text : Option (List Char)) :
    SourceUnit :=
  let settings : ExpansionSettings := ⟨env, unit.templates, trace, text⟩
  let start : Expanding := ⟨unit.numbering, .start, unit.diagnostics, false⟩
  let (tree, final) := (Expand.root settings unit.tree).run start
  { unit with tree, numbering := final.numbering, diagnostics := final.diagnostics }

def bind (unit : SourceUnit) (env : Environment) : SourceUnit :=
  let start : Binding := ⟨.start env.globals, .empty, unit.diagnostics⟩
  let (tree, final) := (Bind.root unit.tree).run start
  { unit with tree, diagnostics := final.diagnostics }

def check (unit : SourceUnit) : SourceUnit :=
  let (tree, diagnostics) := (Check.root unit.tree).run unit.diagnostics
  { unit with tree, diagnostics }

def generate (unit : SourceUnit) : Option Program × SourceUnit :=
  match Lowering.run unit.tree with
  | .ok program => (some program, unit)
  | .error e => (none, { unit with diagnostics := unit.diagnostics.push e.diagnostic })

/-- Decides whether the nodes of the unit, linked under their numbers, are consistent. -/
def isConsistent (unit : SourceUnit) : Bool :=
  (Forest.ofTree unit.tree unit.numbering.next).isConsistent unit.tree.id

/-- Runs a step unless an error has been reported. -/
def andThen (unit : SourceUnit) (step : SourceUnit → SourceUnit) : SourceUnit :=
  if unit.diagnostics.hasErrors then unit else step unit

end SourceUnit

/-- How a source is compiled. -/
structure CompileOptions where
  /-- Whether macros can be defined and quoted. -/
  prelude : Bool
  /-- Whether a report on a macro says how it is defined and where it is invoked. -/
  trace : Bool
  /-- Whether the text is kept for reports. -/
  keepText : Bool
  /-- The number of columns between tab stops; without it tabs may not indent. -/
  tabSize : Option Nat

/-- All that comes of a source. -/
structure Compilation where
  sources : SourceTable
  unit : SourceUnit
  program : Option Program
  text : Option (List Char)

namespace Compilation

/-- Decides whether there is a program and no error. -/
def isOk (c : Compilation) : Bool :=
  c.program.isSome && !c.unit.diagnostics.hasErrors

def reports (c : Compilation) : List String :=
  c.unit.diagnostics.print c.sources c.text

end Compilation

def compile (name : String) (text : List Char) (env : Environment) (options : CompileOptions) :
    Compilation :=
  let (source, sources) := (SourceTable.empty.add name).toOption.getD (0, .empty)
  let kept := if options.keepText then some text else none
  let unit := (((SourceUnit.read ⟨source, options.tabSize⟩ text).andThen
    (·.combine env options.prelude)).andThen
    (·.expand env options.trace kept)).andThen
    (·.bind env)
  let unit := unit.andThen SourceUnit.check
  let (program, unit) := if unit.diagnostics.hasErrors then (none, unit) else unit.generate
  { sources, unit, program, text := kept }

end Offside
