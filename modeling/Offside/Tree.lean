import Offside.Node

/-!
# Trees

A unit is a tree of numbered nodes. Passes walk such a tree and build a new one; a node that
stays keeps its number, and a new node takes the next number that is free.
-/

namespace Offside

/-- A node with all that stands below it. -/
inductive Tree where
  | node (id : NodeId) (info : Info) (children : List Tree)
deriving Inhabited

/-- How the nodes of a unit are numbered. -/
structure Numbering where
  /-- The number of the next node. -/
  next : NodeId
deriving DecidableEq

namespace Numbering

def startAt (next : NodeId) : Numbering := ⟨next⟩

/-- The numbering with one more number given out. -/
def advance (n : Numbering) : Numbering :=
  ⟨n.next + 1⟩

end Numbering

/-- Computations that number new nodes. -/
abbrev Supply := StateM Numbering

namespace Supply

def fresh : Supply NodeId :=
  modifyGet fun n => (n.next, n.advance)

end Supply

namespace Tree

def id : Tree → NodeId
  | .node id _ _ => id

def info : Tree → Info
  | .node _ info _ => info

def children : Tree → List Tree
  | .node _ _ children => children

def symbol (t : Tree) : Symbol :=
  t.info.symbol

def loc (t : Tree) : Loc :=
  t.info.loc

def name? (t : Tree) : Option String :=
  t.info.name?

def builtin? (t : Tree) : Option Builtin :=
  t.symbol.builtin?

def tag? (t : Tree) : Option TagKind :=
  t.symbol.tag?

def isTag (t : Tree) : Bool :=
  t.info.isTag

/-- Decides whether the node is a given builtin. -/
def is (t : Tree) (op : Builtin) : Bool :=
  t.info.is op

/-- Decides whether the node is a given block. -/
def isBlock (t : Tree) (kind : BlockKind) : Bool :=
  t.info.isBlock kind

/-- Decides whether the node is the root, an indented block or a `do` block. -/
def isBlockLike (t : Tree) : Bool :=
  t.symbol.isBlockLike

def child? (t : Tree) (index : Nat) : Option Tree :=
  t.children[index]?

def withInfo : Tree → (Info → Info) → Tree
  | .node id info children, change => .node id (change info) children

def withSymbol (t : Tree) (symbol : Symbol) : Tree :=
  t.withInfo fun info => { info with symbol }

def withChildren : Tree → List Tree → Tree
  | .node id info _, children => .node id info children

def new (symbol : Symbol) (value : Option Value) (loc : Loc) (children : List Tree) :
    Supply Tree := do
  let id ← Supply.fresh
  return .node id (.new symbol value loc) children

mutual

/-- The nodes of a tree as numbers with contents, parents first, in front of `rest`. -/
def nodesBefore : Tree → List (NodeId × Info) → List (NodeId × Info)
  | .node id info children, rest => (id, info) :: nodesOfAll children rest

/-- The nodes of some trees, in front of `rest`. -/
def nodesOfAll : List Tree → List (NodeId × Info) → List (NodeId × Info)
  | [], rest => rest
  | t :: ts, rest => nodesBefore t (nodesOfAll ts rest)

end

/-- All nodes, parents before children and siblings in order. -/
def nodes (t : Tree) : List (NodeId × Info) :=
  t.nodesBefore []

/-- The numbers of all nodes, parents before children and siblings in order. -/
def ids (t : Tree) : List NodeId :=
  t.nodes.map Prod.fst

mutual

/-- Changes the contents of every node. -/
def mapInfo (change : Info → Info) : Tree → Tree
  | .node id info children => .node id (change info) (mapInfoAll change children)

/-- Changes the contents of every node of some trees. -/
def mapInfoAll (change : Info → Info) : List Tree → List Tree
  | [] => []
  | t :: ts => mapInfo change t :: mapInfoAll change ts

end

/-- The tree with the note on all nodes that they come from a macro invoked at a place. -/
def withOrigin (t : Tree) (origin : Loc) : Tree :=
  t.mapInfo fun info => { info with origin := some origin }

mutual

/-- A copy with new numbers, parents first. -/
def copy : Tree → Supply Tree
  | .node _ info children => do
      let id ← Supply.fresh
      let children ← copyAll children
      return .node id info children

/-- Copies of some trees with new numbers. -/
def copyAll : List Tree → Supply (List Tree)
  | [] => return []
  | t :: ts => do
      let t ← copy t
      return t :: (← copyAll ts)

end

mutual

/-- The number of nodes on the longest way down. -/
def height : Tree → Nat
  | .node _ _ children => heightOfAll children + 1

def heightOfAll : List Tree → Nat
  | [] => 0
  | t :: ts => max (height t) (heightOfAll ts)

end

mutual

/-- Writes a tree behind a text: its head, and its children in parentheses. -/
def write : Tree → String → String
  | .node _ info [], out => out ++ info.head
  | .node _ info (child :: rest), out =>
    (writeAll (child :: rest) (out ++ "(" ++ info.head)).push ')'

/-- Writes trees behind a text, each after a blank. -/
def writeAll : List Tree → String → String
  | [], out => out
  | t :: ts, out => writeAll ts (write t (out.push ' '))

end

/-- A tree in parentheses, such as `(+ x (* 3 5))`. -/
def text (t : Tree) : String :=
  t.write ""

end Tree

end Offside
