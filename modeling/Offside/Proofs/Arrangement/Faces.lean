import Offside.Expression
import Offside.Proofs.Contents.Everywhere
import Offside.Proofs.Tree.Preorder

/-!
# Faces of nodes

What combination leaves alone of a node: its number, its place, what it carries, and whether it is
a name or literal, an operator, or a block. Calls, elements, tuples, arrays and objects are made
by combination and have no face.
-/

namespace Offside

open List

/-- What a node is to combination. -/
inductive FaceKind where
  /-- A name or a literal. -/
  | leaf
  | operator
  /-- The definition of a macro. -/
  | definition
  | block (kind : BlockKind)
  /-- What combination does not make. -/
  | unread
deriving DecidableEq

/-- What a node with a symbol is, unless combination makes nodes with the symbol. -/
def Symbol.faceKind? : Symbol → Option FaceKind
  | .builtin .call | .builtin .element | .builtin .tuple | .builtin .array | .builtin .object =>
    none
  | .builtin .defMacro => some .definition
  | .builtin _ | .expander _ => some .operator
  | .tag _ | .value => some .leaf
  | .block kind => some (.block kind)
  | .token _ | .keyword _ | .nothing => some .unread

/-- What combination leaves alone of a node. -/
structure Face where
  number : NodeId
  kind : FaceKind
  value : Option Value
  loc : Loc
deriving DecidableEq

namespace Face

def isLeaf (face : Face) : Bool :=
  face.kind = .leaf

def chars (face : Face) : List Char :=
  (face.value.map fun value => value.text.toList).getD []

end Face

def Info.face? (info : Info) (id : NodeId) : Option Face :=
  info.symbol.faceKind?.map fun kind => ⟨id, kind, info.value, info.loc⟩

/-! ## Order of faces -/

/-- The same faces, those of names and literals in the same order. -/
structure Rearranges (before after : List Face) : Prop where
  perm : before.Perm after
  leaves : before.filter Face.isLeaf = after.filter Face.isLeaf

namespace Rearranges

variable {first second third fourth : List Face}

theorem refl (faces : List Face) : Rearranges faces faces :=
  ⟨.refl faces, rfl⟩

theorem of_eq (same : first = second) : Rearranges first second :=
  same ▸ refl first

theorem trans (one : Rearranges first second) (two : Rearranges second third) :
    Rearranges first third :=
  ⟨one.perm.trans two.perm, one.leaves.trans two.leaves⟩

theorem append (left : Rearranges first second) (right : Rearranges third fourth) :
    Rearranges (first ++ third) (second ++ fourth) := by
  constructor
  · exact left.perm.append right.perm
  · rw [filter_append, filter_append, left.leaves, right.leaves]

theorem append_left (faces : List Face) (step : Rearranges first second) :
    Rearranges (faces ++ first) (faces ++ second) :=
  (refl faces).append step

theorem append_right (step : Rearranges first second) (faces : List Face) :
    Rearranges (first ++ faces) (second ++ faces) :=
  step.append (refl faces)

/-- What has no leaves can go to the front. -/
theorem to_front (none : second.filter Face.isLeaf = []) :
    Rearranges (first ++ second) (second ++ first) := by
  constructor
  · exact perm_append_comm
  · rw [filter_append, filter_append, none, append_nil, nil_append]

end Rearranges

/-! ## Faces of trees -/

namespace Tree

def faces (t : Tree) : List Face :=
  t.nodes.filterMap fun entry => entry.2.face? entry.1

def facesAll (ts : List Tree) : List Face :=
  (nodesAll ts).filterMap fun entry => entry.2.face? entry.1

@[simp] theorem faces_node (id : NodeId) (info : Info) (children : List Tree) :
    (node id info children).faces = (info.face? id).toList ++ facesAll children := by
  rw [faces, nodes_node, filterMap_cons, facesAll]
  cases info.face? id <;> rfl

@[simp] theorem facesAll_nil : facesAll [] = [] := by
  rw [facesAll, nodesAll_nil, filterMap_nil]

@[simp] theorem facesAll_cons (t : Tree) (ts : List Tree) :
    facesAll (t :: ts) = t.faces ++ facesAll ts := by
  rw [facesAll, nodesAll_cons, filterMap_append]
  rfl

@[simp] theorem facesAll_append (ts us : List Tree) :
    facesAll (ts ++ us) = facesAll ts ++ facesAll us := by
  rw [facesAll, nodesAll_append, filterMap_append]
  rfl

theorem faces_eq (t : Tree) : t.faces = (t.info.face? t.id).toList ++ facesAll t.children := by
  obtain ⟨id, info, children⟩ := t
  exact faces_node id info children

/-- A node that combination makes shows the faces below it. -/
theorem faces_of_made {t : Tree} (made : t.symbol.faceKind? = none) :
    t.faces = facesAll t.children := by
  rw [faces_eq, Info.face?, show t.info.symbol.faceKind? = none from made]
  rfl

/-- Another symbol of the same kind shows the same face. -/
theorem faces_withSymbol {t : Tree} {symbol : Symbol}
    (same : symbol.faceKind? = t.symbol.faceKind?) : (t.withSymbol symbol).faces = t.faces := by
  obtain ⟨id, info, children⟩ := t
  rw [withSymbol, withInfo, faces_node, faces_node, Info.face?, Info.face?, same]
  rfl

end Tree

/-! ## Declarations and clauses -/

namespace Climb

open Offside.Tree hiding id

mutual

@[simp] theorem faces_declare (constant : Bool) (t : Tree) :
    (declare constant t).faces = t.faces := by
  match t with
  | .node id info children =>
    rw [declare]
    split
    case h_1 kind isTag =>
      rw [faces_node, faces_node, Info.face?, Info.face?, isTag]
      rfl
    case h_2 => rw [faces_node, faces_node, facesAll_declareAll constant children]
    case h_3 => rfl

@[simp] theorem facesAll_declareAll (constant : Bool) (ts : List Tree) :
    facesAll (declareAll constant ts) = facesAll ts := by
  match ts with
  | [] => rfl
  | t :: ts =>
    rw [declareAll, facesAll_cons, facesAll_cons, faces_declare constant t,
      facesAll_declareAll constant ts]

end

/-- Names that become declarations show the same faces. -/
theorem facesAll_classify (symbol : Symbol) (children : List Tree) :
    facesAll (classify symbol children) = facesAll children := by
  unfold classify
  split
  case h_1 | h_2 | h_3 | h_4 => rw [facesAll_cons, faces_declare, facesAll_cons]
  case h_5 target rest _ =>
    split
    case isTrue isTag =>
      obtain ⟨kind, tagged⟩ := Info.exists_tag isTag
      have same : (Symbol.tag .external).faceKind? = target.symbol.faceKind? := by
        rw [show target.symbol = .tag kind from tagged]
        rfl
      rw [facesAll_cons, faces_withSymbol same, facesAll_cons]
    case isFalse => rfl
  case h_6 head body _ =>
    split
    case h_1 target rest _ parts =>
      have whole : (head.withChildren (declare false target :: rest)).faces = head.faces := by
        obtain ⟨id, info, children⟩ := head
        cases parts
        rw [withChildren, faces_node, faces_node, facesAll_cons, faces_declare, facesAll_cons]
      rw [facesAll_cons, whole, ← facesAll_cons]
    case h_2 => rfl
  case h_7 => rfl

end Climb

end Offside
