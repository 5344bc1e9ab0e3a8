import Offside.Block.Stack
import Offside.Diagnostic.Cause
import Offside.Token

/-!
# Blocks of tokens

The token lines of a source become a tree of blocks. Lines stand in the root, in indented blocks
and in `do` blocks; brackets hold one group for each comma and one more. Operators are not
looked at: every other token is a leaf where it stands.
-/

namespace Offside.Block

/-- Reading of blocks: what is open, the numbering of the nodes, and the reports. -/
structure Reader where
  stack : BlockStack
  numbering : Numbering
  diagnostics : Diagnostics

namespace Reader

/-- Reading of a source before its first line. -/
def start (source : SourceId) : Reader :=
  ⟨⟨.new 0 .root (.clamped source 1 0) none, []⟩, .startAt 1, #[]⟩

def report (r : Reader) (d : Diagnostic) : Reader :=
  { r with diagnostics := r.diagnostics.push d }

def push (r : Reader) (kind : BlockKind) (level : Option Nat) (loc : Loc) : Reader :=
  { r with
    stack := r.stack.push (.new r.numbering.next kind loc level)
    numbering := r.numbering.advance }

def leaf (r : Reader) (kind : TokenClass) (value : Value) (loc : Loc) : Reader :=
  { r with
    stack := r.stack.add (.node r.numbering.next (.new (.token kind) (some value) loc) [])
    numbering := r.numbering.advance }

def newLine (r : Reader) (column : Nat) (loc : Loc) : Reader :=
  let entry := BlockStack.enter column false r.stack.top r.stack.below
  let r := { r with stack := entry.stack }
  let r := if entry.inconsistent then r.report (.inconsistentDedent loc) else r
  entry.opens.foldl (fun r block => r.push block.1 block.2 loc) r

/-- The stack on which what stands in the innermost line is its first group. -/
def grouped (stack : BlockStack) (id : NodeId) (loc : Loc) : BlockStack :=
  let group : OpenBlock :=
    { (OpenBlock.new id .comma loc none) with children := stack.top.children }
  { stack with top := { stack.top with children := #[group.tree] } }

/-- The reading in which what stands in the innermost line is its first group. -/
def group (r : Reader) (loc : Loc) : Reader :=
  { r with
    stack := grouped r.stack r.numbering.next loc
    numbering := r.numbering.advance }

/-- Begins a group behind a comma. The first comma of a line makes a group of what is before. -/
def comma (r : Reader) (loc : Loc) : Reader :=
  match r.stack.top.kind with
  | .comma => { r with stack := r.stack.pop }.push .comma none loc
  | .line =>
    let r :=
      if r.stack.top.children.any (·.isBlock .comma) then r else r.group loc
    r.push .comma none loc
  | .paren | .square | .curly => r.push .comma none loc
  | .root | .block | .doBlock => r

def close (r : Reader) (c : Char) (loc : Loc) : Reader :=
  let (closing, stack) := BlockStack.close c r.stack.top r.stack.below
  let r := { r with stack }
  match closing with
  | .matched => r
  | .mismatched opened expected => r.report (.mismatchedClose loc opened expected c)
  | .misplaced => (r.report (.misplacedClose loc c)).report (.closingRoot loc)

def token (r : Reader) (token : Token) : Reader :=
  let loc := token.loc
  match token.kind with
  | .doWord => (r.push .doBlock none loc).push .line none loc
  | .openBracket c =>
    match BlockKind.ofOpen? c with
    | some kind => (r.push kind none loc).push .comma none loc
    | none => r
  | .closeBracket c => r.close c loc
  | .comma => r.comma loc
  | .ident name => r.leaf .identifier (.name name) loc
  | .virtualIdent name => r.leaf .virtualIdentifier (.name name) loc
  | .operator text => r.leaf .operator (.name text) loc
  | .hashOperator text => r.leaf .hashOperator (.name text) loc
  | .number x => r.leaf .number (.number x) loc
  | .str text => r.leaf .str (.str text) loc

def line (r : Reader) (line : TokenLine) : Reader :=
  match line.tokens with
  | [] => r
  | first :: rest => (first :: rest).foldl token (r.newLine line.indent first.loc)

/-- Reports the brackets that are open at the end, the innermost one first. -/
def finish (r : Reader) : Reader :=
  r.stack.openBrackets.foldl (fun r block => r.report (.unclosedBracket block.loc)) r

end Reader

/-- The blocks of a source, the numbering of their nodes, and the reports about them. -/
def read (source : SourceId) (lines : List TokenLine) : Tree × Numbering × Diagnostics :=
  let r := (lines.foldl Reader.line (.start source)).finish
  (BlockStack.finish r.stack.top r.stack.below, r.numbering, r.diagnostics)

end Offside.Block
