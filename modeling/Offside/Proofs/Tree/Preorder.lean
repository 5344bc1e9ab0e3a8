import Offside.Tree

/-!
# Preorder

The nodes of a tree, parents before children and siblings in order, as a list that is put
together from the lists of the children.
-/

namespace Offside.Tree

def nodesAll (ts : List Tree) : List (NodeId × Info) :=
  nodesOfAll ts []

mutual

theorem nodesBefore_eq (t : Tree) (rest : List (NodeId × Info)) :
    t.nodesBefore rest = t.nodes ++ rest := by
  cases t with
  | node id info children =>
    rw [nodes, nodesBefore, nodesBefore, nodesOfAll_eq children rest]
    rfl

theorem nodesOfAll_eq (ts : List Tree) (rest : List (NodeId × Info)) :
    nodesOfAll ts rest = nodesAll ts ++ rest := by
  cases ts with
  | nil =>
    rw [nodesAll, nodesOfAll, nodesOfAll]
    rfl
  | cons t ts =>
    rw [nodesAll, nodesOfAll, nodesOfAll, nodesBefore_eq t, nodesBefore_eq t,
      nodesOfAll_eq ts rest, nodesAll, List.append_assoc]

end

@[simp] theorem nodes_node (id : NodeId) (info : Info) (children : List Tree) :
    (Tree.node id info children).nodes = (id, info) :: nodesAll children := by
  rw [nodes, nodesBefore, nodesAll]

@[simp] theorem nodesAll_nil : nodesAll [] = [] := by
  rw [nodesAll, nodesOfAll]

@[simp] theorem nodesAll_cons (t : Tree) (ts : List Tree) :
    nodesAll (t :: ts) = t.nodes ++ nodesAll ts := by
  rw [nodesAll, nodesOfAll, nodesBefore_eq, nodesAll]

@[simp] theorem nodesAll_append (ts us : List Tree) :
    nodesAll (ts ++ us) = nodesAll ts ++ nodesAll us := by
  induction ts with
  | nil => simp
  | cons t ts ih => simp [ih]

end Offside.Tree
