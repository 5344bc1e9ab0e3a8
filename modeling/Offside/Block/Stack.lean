import Offside.Tree

/-!
# Open blocks

While the lines of a source are read, the blocks that are not closed yet form a stack. An open
block holds the trees of the blocks that were closed in it; closing the innermost block puts its
tree behind them in the block around it.
-/

namespace Offside

/-- A block whose end has not been seen. -/
structure OpenBlock where
  id : NodeId
  kind : BlockKind
  loc : Loc
  /-- The column of the lines of the block, once it is known. -/
  level : Option Nat
  children : Array Tree

namespace OpenBlock

def new (id : NodeId) (kind : BlockKind) (loc : Loc) (level : Option Nat) : OpenBlock :=
  ⟨id, kind, loc, level, #[]⟩

def tree (block : OpenBlock) : Tree :=
  .node block.id (.new (.block block.kind) none block.loc) block.children.toList

def add (block : OpenBlock) (t : Tree) : OpenBlock :=
  { block with children := block.children.push t }

/-- The block with a column for its lines, unless it has one. -/
def settleLevel (block : OpenBlock) (column : Nat) : OpenBlock :=
  { block with level := block.level.or (some column) }

end OpenBlock

/-- The open blocks: the innermost one, and those around it from the inside out. -/
structure BlockStack where
  top : OpenBlock
  below : List OpenBlock

namespace BlockStack

def push (stack : BlockStack) (block : OpenBlock) : BlockStack :=
  ⟨block, stack.top :: stack.below⟩

def add (stack : BlockStack) (t : Tree) : BlockStack :=
  { stack with top := stack.top.add t }

/-- The stack without its innermost block; the outermost block is never closed. -/
def pop (stack : BlockStack) : BlockStack :=
  match stack.below with
  | [] => stack
  | outer :: rest => ⟨outer.add stack.top.tree, rest⟩

/-- The column of the nearest block around some place that has one. -/
def enclosingLevel (blocks : List OpenBlock) : Nat :=
  ((blocks.filter (·.kind.opensScope)).findSome? OpenBlock.level).getD 0

/-- What a new line does to the stack. -/
structure Entry where
  stack : BlockStack
  /-- The blocks that the line opens, the outer one first. -/
  opens : List (BlockKind × Option Nat)
  /-- Whether the line starts in no column of a block around it. -/
  inconsistent : Bool

/--
Finds the place of a line that starts in a column. Inside of brackets a line is a continuation.
A line that is indented deeper than the one before opens a block below it; another line closes
blocks until one is left whose column it reaches. The first line below a `do` gives that block
its column; if it is not indented deeper than what is around it, the block is empty.
-/
def enter (column : Nat) : Bool → OpenBlock → List OpenBlock → Entry
  | _, top, [] =>
    match top.kind with
    | .root | .block | .doBlock => ⟨⟨top.settleLevel column, []⟩, [(.line, none)], false⟩
    | _ => ⟨⟨top, []⟩, [], false⟩
  | dedented, top, outer :: rest =>
    match top.kind with
    | .paren | .square | .curly => ⟨⟨top, outer :: rest⟩, [], false⟩
    | .comma =>
      if outer.kind = .line then enter column dedented (outer.add top.tree) rest
      else ⟨⟨top, outer :: rest⟩, [], false⟩
    | .root | .block | .doBlock =>
      ⟨⟨top.settleLevel column, outer :: rest⟩, [(.line, none)], false⟩
    | .line =>
      let closed : BlockStack := ⟨outer.add top.tree, rest⟩
      match outer.level with
      | none =>
        if outer.kind = .doBlock && column ≤ enclosingLevel rest then
          match rest with
          | [] => ⟨closed, [], false⟩
          | next :: rest => enter column dedented (next.add closed.top.tree) rest
        else if top.children.isEmpty then
          ⟨⟨top, outer.settleLevel column :: rest⟩, [], false⟩
        else ⟨⟨closed.top.settleLevel column, rest⟩, [(.line, none)], false⟩
      | some level =>
        if level < column && !dedented then
          ⟨⟨top, outer :: rest⟩, [(.block, some column), (.line, none)], false⟩
        else if level ≤ column then ⟨closed, [(.line, none)], column ≠ level⟩
        else
          match outer.kind, rest with
          | .root, _ | _, [] => ⟨closed, [(.line, none)], true⟩
          | _, next :: rest => enter column true (next.add closed.top.tree) rest

/-- What a closing bracket does to the stack. -/
inductive Closing where
  /-- It closes a bracket of its own kind. -/
  | matched
  /-- It closes a bracket that was opened at a place and expects another one. -/
  | mismatched (opened : Loc) (expected : Char)
  /-- There is no bracket to close. -/
  | misplaced
deriving DecidableEq

/--
Closes blocks up to the innermost bracket. Blocks inside of the bracket end with it. If there
is no bracket, only a group of a line with commas is closed.
-/
def close (c : Char) : OpenBlock → List OpenBlock → Closing × BlockStack
  | top, [] => (.misplaced, ⟨top, []⟩)
  | top, outer :: rest =>
    let closed : BlockStack := ⟨outer.add top.tree, rest⟩
    match top.kind with
    | .comma => close c closed.top rest
    | .paren | .square | .curly =>
      match top.kind.close?.filter (· ≠ c) with
      | some expected => (.mismatched top.loc expected, closed)
      | none => (.matched, closed)
    | _ =>
      if (outer :: rest).any (·.kind.isBracket) then close c closed.top rest
      else (.misplaced, ⟨top, outer :: rest⟩)

/-- The tree of all blocks when they are closed at the end of a source. -/
def finish : OpenBlock → List OpenBlock → Tree
  | top, [] => top.tree
  | top, outer :: rest => finish (outer.add top.tree) rest

/-- The brackets that are still open, the innermost one first. -/
def openBrackets (stack : BlockStack) : List OpenBlock :=
  (stack.top :: stack.below).filter (·.kind.isBracket)

end BlockStack

end Offside
