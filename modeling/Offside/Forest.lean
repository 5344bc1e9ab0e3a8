import Offside.Tree

/-!
# Forests of linked nodes

A forest keeps nodes in one array, where they refer to each other by number. A node knows its
children in order and its parent, and every operation updates both sides of a link. A link that
would put a node below itself is refused: the forest stays as it was and remembers the refusal.
-/

namespace Offside

/-- A node with its links. -/
structure Node where
  info : Info
  children : Array NodeId
  parent : Option NodeId
deriving Inhabited

/-- Linked nodes under their numbers. -/
structure Forest where
  nodes : Array Node
  /-- The first link that was refused: the child and the parent. -/
  refused : Option (NodeId × NodeId)

namespace Forest

def empty : Forest := ⟨#[], none⟩

def size (f : Forest) : Nat :=
  f.nodes.size

def node (f : Forest) (id : NodeId) : Node :=
  f.nodes.getD id default

def info (f : Forest) (id : NodeId) : Info :=
  (f.node id).info

def children (f : Forest) (id : NodeId) : Array NodeId :=
  (f.node id).children

def child? (f : Forest) (id : NodeId) (index : Nat) : Option NodeId :=
  (f.children id)[index]?

def parent (f : Forest) (id : NodeId) : Option NodeId :=
  (f.node id).parent

def modify (f : Forest) (id : NodeId) (change : Node → Node) : Forest :=
  { f with nodes := f.nodes.modify id change }

def modifyInfo (f : Forest) (id : NodeId) (change : Info → Info) : Forest :=
  f.modify id fun n => { n with info := change n.info }

def setSymbol (f : Forest) (id : NodeId) (symbol : Symbol) : Forest :=
  f.modifyInfo id fun info => { info with symbol }

def add (f : Forest) (info : Info) : NodeId × Forest :=
  (f.size, { f with nodes := f.nodes.push ⟨info, #[], none⟩ })

/-- Takes a node from its parent; a node without parent stays as it is. -/
def detach (f : Forest) (id : NodeId) : Forest :=
  match f.parent id with
  | some parent =>
    (f.modify id fun n => { n with parent := none }).modify parent fun n =>
      { n with children := n.children.filter (· ≠ id) }
  | none => f

/-- Decides whether a node is another one or above it, looking at `count` nodes at most. -/
def isAboveWithin (f : Forest) (upper : NodeId) : Nat → NodeId → Bool
  | 0, _ => false
  | count + 1, id =>
    id = upper ||
      match f.parent id with
      | some parent => isAboveWithin f upper count parent
      | none => false

def isAbove (f : Forest) (upper id : NodeId) : Bool :=
  f.isAboveWithin upper f.size id

/-- An array with a new entry at an index, or at the end if there is no such index. -/
def insertAt (ids : Array NodeId) (index : Nat) (id : NodeId) : Array NodeId :=
  if h : index < ids.size then ids.insertIdx index id else ids.push id

/-- Makes a node a child of another one at an index. It leaves its old parent first. -/
def insertChild (f : Forest) (parent : NodeId) (index : Nat) (child : NodeId) : Forest :=
  if f.isAbove child parent then { f with refused := f.refused.or (some (child, parent)) }
  else
    ((f.detach child).modify parent fun n =>
      { n with children := insertAt n.children index child }).modify child fun n =>
      { n with parent := some parent }

/-- Makes a node the last child of another one. -/
def appendChild (f : Forest) (parent child : NodeId) : Forest :=
  f.insertChild parent (f.children parent).size child

/-- Makes nodes the last children of another one, in order. -/
def appendChildren (f : Forest) (parent : NodeId) (children : List NodeId) : Forest :=
  children.foldl (fun f child => f.appendChild parent child) f

/-- Puts a node in the place of another one. -/
def replace (f : Forest) (old new : NodeId) : Forest :=
  if old = new then f
  else
    let f := f.detach new
    match f.parent old with
    | none => f
    | some parent =>
      match (f.children parent).findIdx? (· = old) with
      | none => f
      | some index =>
        ((f.modify parent fun n =>
          { n with children := n.children.setIfInBounds index new }).modify
          new fun n => { n with parent := some parent }).modify
          old fun n => { n with parent := none }

def takeChildren (f : Forest) (id : NodeId) : List NodeId × Forest :=
  let children := (f.children id).toList
  let f := f.modify id fun n => { n with children := #[] }
  (children, children.foldl (fun f child => f.modify child fun n => { n with parent := none }) f)

/--
Turns `target` into `source`: it keeps its number and its place, and takes over the contents
and the children. What remains of `source` has no links.
-/
def transformInto (f : Forest) (target source : NodeId) : Forest :=
  if target = source then f
  else
    let f := f.detach source
    let (_, f) := f.takeChildren target
    let (children, f) := f.takeChildren source
    let info := f.info source
    (f.modifyInfo target fun _ => info).appendChildren target children

/-- What stands below a node, down to a depth. -/
def treeWithin (f : Forest) : Nat → NodeId → Tree
  | 0, id => .node id (f.info id) []
  | depth + 1, id => .node id (f.info id) ((f.children id).toList.map (treeWithin f depth))

/-- What stands below a node. No way down is longer than the number of nodes. -/
def tree (f : Forest) (id : NodeId) : Tree :=
  f.treeWithin f.size id

end Forest

namespace Tree

mutual

/-- Plants a tree as new nodes of a forest, parents first. -/
def plant : Tree → Forest → NodeId × Forest
  | .node _ info children, f =>
    let (root, f) := f.add info
    (root, plantBelow children root f)

/-- Plants trees as the last children of a node. -/
def plantBelow : List Tree → NodeId → Forest → Forest
  | [], _, f => f
  | t :: ts, parent, f =>
    let (child, f) := plant t f
    plantBelow ts parent (f.appendChild parent child)

end

mutual

/-- Gives the nodes of a tree their contents and links in a forest that has their numbers. -/
def settle : Tree → Forest → Forest
  | .node id info children, f => settleBelow children id (f.modifyInfo id fun _ => info)

/-- Settles trees and links them as the last children of a node. -/
def settleBelow : List Tree → NodeId → Forest → Forest
  | [], _, f => f
  | t :: ts, parent, f => settleBelow ts parent ((settle t f).appendChild parent t.id)

end

end Tree

namespace Forest

/-- The forest of `count` nodes that holds the nodes of a tree under their own numbers. -/
def ofTree (t : Tree) (count : Nat) : Forest :=
  t.settle ⟨Array.replicate count default, none⟩

/-- A copy of all that stands below a node; the copy has no parent. -/
def deepClone (f : Forest) (id : NodeId) : NodeId × Forest :=
  (f.tree id).plant f

/-- The numbers of all nodes from a node down, parents before children. -/
def descendants (f : Forest) (id : NodeId) : List NodeId :=
  (f.tree id).ids

/-- Notes on all nodes from a node down which macro they come from. -/
def setOrigin (f : Forest) (id : NodeId) (origin : Loc) : Forest :=
  (f.descendants id).foldl
    (fun f id => f.modifyInfo id fun info => { info with origin := some origin }) f

/-- Decides whether every child below a node knows its parent and stands there once. -/
def isConsistent (f : Forest) (root : NodeId) : Bool :=
  (f.descendants root).all fun id =>
    (f.children id).all fun child =>
      f.parent child = some id && (f.children id).count child = 1

end Forest

end Offside
