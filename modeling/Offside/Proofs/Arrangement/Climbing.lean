import Offside.Proofs.Arrangement.Faces
import Offside.Proofs.Combination.Rules

/-!
# Order within a line

Combining the items of a line puts operators in front of their operands and makes calls and
elements. The faces of the items that are left and of the tree that was made are those of the items
before, and names and literals keep their order.
-/

namespace Offside

open List

open Offside.Tree hiding id node

/-- An operator that has not been given its operands. -/
structure Tree.Bares (symbol : Symbol) (t : Tree) : Prop where
  alone : t.children = []
  own : t.symbol.faceKind? = some .operator
  meant : symbol.faceKind? = some .operator

theorem Tree.Bares.leafless {symbol : Symbol} {t : Tree} (bares : t.Bares symbol) :
    t.faces.filter Face.isLeaf = [] := by
  rw [faces_eq, bares.alone, Info.face?, show t.info.symbol.faceKind? = _ from bares.own]
  rfl

namespace Item

def faces (items : List Item) : List Face :=
  facesAll (items.map Item.tree)

@[simp] theorem faces_nil : faces [] = [] :=
  facesAll_nil

@[simp] theorem faces_cons (item : Item) (items : List Item) :
    faces (item :: items) = item.tree.faces ++ faces items :=
  facesAll_cons _ _

@[simp] theorem faces_append (items more : List Item) :
    faces (items ++ more) = faces items ++ faces more := by
  rw [faces, map_append, facesAll_append]
  rfl

/-- An operator stands alone, and brackets that are spread out are made by combination. -/
structure Settled (item : Item) : Prop where
  operator : ∀ symbol, item.role = .operator symbol → item.tree.Bares symbol
  spread : item.role = .paren true ∨ item.role = .square → item.tree.symbol.faceKind? = none

def AllSettled (items : List Item) : Prop :=
  ∀ item ∈ items, item.Settled

theorem allSettled_cons {item : Item} {items : List Item} :
    AllSettled (item :: items) ↔ item.Settled ∧ AllSettled items :=
  forall_mem_cons

end Item

namespace Climb

open Item (AllSettled)

variable {node : Tree} {symbol : Symbol}

theorem bares_leadingSymbol (bares : node.Bares symbol) : node.Bares (leadingSymbol symbol) := by
  refine ⟨bares.alone, bares.own, ?_⟩
  unfold leadingSymbol
  split
  case h_1 op leads =>
    split
    · obtain ⟨known, isBuiltin, form⟩ := Option.bind_eq_some_iff.mp leads
      cases known <;> cases form
      rfl
    · exact bares.meant
  case h_2 => exact bares.meant

/-- An operator with its operands shows its own face and those of the operands. -/
theorem faces_operatorNode (bares : node.Bares symbol) (children : List Tree) :
    (operatorNode node symbol children).faces = node.faces ++ facesAll children := by
  have same : symbol.faceKind? = node.symbol.faceKind? := bares.meant.trans bares.own.symm
  have alone := bares.alone
  have own := faces_withSymbol same
  obtain ⟨id, info, below⟩ := node
  change below = [] at alone
  subst alone
  rw [withSymbol, withInfo, faces_node, facesAll_nil, append_nil] at own
  rw [operatorNode, withSymbol, withInfo, withChildren, faces_node, own, facesAll_classify]

/-- A node that combination makes shows the faces of its children. -/
theorem arranges_new {op : Builtin} (made : (Symbol.builtin op).faceKind? = none) (loc : Loc)
    (children : List Tree) :
    Yields (Tree.new (.builtin op) none loc children) fun t =>
      t.faces = facesAll children ∧ t.symbol = .builtin op := by
  rw [Tree.new]
  refine .after fun _ => .pure ⟨?_, rfl⟩
  exact faces_of_made made

def Phase.faces : Phase → List Face
  | .expression _ => []
  | .following _ t => t.faces
  | .operator _ bare children => bare.faces ++ facesAll children
  | .operands _ _ children | .clauses _ children => facesAll children

/-- An operator that is given its operands has none before. -/
def Phase.Settled : Phase → Prop
  | .operator symbol bare _ => bare.Bares symbol
  | _ => True

/-- Climbing rearranges faces, and leaves keep their order. -/
theorem Climbed.arranges {phase : Phase} {items left : List Item} {ts : List Tree}
    {n n' : Numbering} (climbed : Climbed phase items n ts left n') (settled : phase.Settled)
    (all : AllSettled items) :
    Rearranges (phase.faces ++ Item.faces items) (facesAll ts ++ Item.faces left) ∧
      AllSettled left := by
  induction climbed with
  | operand _ _ ih =>
    rw [Item.faces_cons]
    exact ih trivial (Item.allSettled_cons.mp all).2
  | leading isOperator _ _ first onward =>
    obtain ⟨here, others⟩ := Item.allSettled_cons.mp all
    obtain ⟨moved, middle⟩ := first (bares_leadingSymbol (here.operator _ isOperator)) others
    obtain ⟨more, last⟩ := onward trivial middle
    simp only [Phase.faces, facesAll_cons, facesAll_nil, append_nil] at moved more
    rw [Item.faces_cons]
    exact ⟨moved.trans more, last⟩
  | stopped =>
    rw [facesAll_cons, facesAll_nil, append_nil]
    exact ⟨.refl _, all⟩
  | between isOperator _ _ _ first onward =>
    obtain ⟨here, others⟩ := Item.allSettled_cons.mp all
    have bares := here.operator _ isOperator
    obtain ⟨moved, middle⟩ := first bares others
    obtain ⟨more, last⟩ := onward trivial middle
    simp only [Phase.faces, facesAll_cons, facesAll_nil, append_nil] at moved more ⊢
    refine ⟨.trans ?_ (moved.trans more), last⟩
    rw [Item.faces_cons, ← append_assoc]
    exact (Rearranges.to_front bares.leafless).append_right _
  | @called _ t _ item spread _ _ _ _ _ _ isParen made _ ih =>
    obtain ⟨here, others⟩ := Item.allSettled_cons.mp all
    have inside : facesAll (if spread then item.tree.children else [item.tree]) =
        item.tree.faces := by
      cases spread with
      | false => rw [if_neg Bool.false_ne_true, facesAll_cons, facesAll_nil, append_nil]
      | true => exact (faces_of_made (here.spread (.inl isParen))).symm
    have shows := ((arranges_new rfl t.loc _).of_run made).1
    rw [facesAll_cons, inside] at shows
    have onward := ih trivial others
    rw [Phase.faces, shows, append_assoc, ← Item.faces_cons] at onward
    exact onward
  | @indexed _ t _ _ _ _ _ _ _ _ isSquare made _ ih =>
    obtain ⟨here, others⟩ := Item.allSettled_cons.mp all
    have shows := ((arranges_new rfl t.loc _).of_run made).1
    rw [facesAll_cons, ← faces_of_made (here.spread (.inr isSquare))] at shows
    have onward := ih trivial others
    rw [Phase.faces, shows, append_assoc, ← Item.faces_cons] at onward
    exact onward
  | @argued _ t _ _ _ _ _ _ _ _ _ _ _ made _ first onward =>
    obtain ⟨moved, middle⟩ := first trivial all
    obtain ⟨more, last⟩ := onward trivial middle
    have shows := ((arranges_new rfl t.loc _).of_run made).1
    rw [Phase.faces, shows, facesAll_cons, append_assoc] at more
    exact ⟨(moved.append_left _).trans more, last⟩
  | operator _ _ first second =>
    obtain ⟨moved, middle⟩ := first trivial all
    obtain ⟨more, last⟩ := second trivial middle
    refine ⟨?_, last⟩
    rw [Phase.faces, facesAll_cons, facesAll_nil, append_nil, faces_operatorNode settled,
      append_assoc, append_assoc]
    exact (moved.trans more).append_left _
  | noOperands | noClauses => exact ⟨.refl _, all⟩
  | atom _ _ _ ih =>
    obtain ⟨moved, last⟩ := ih trivial (Item.allSettled_cons.mp all).2
    rw [Phase.faces, facesAll_append, facesAll_cons, facesAll_nil, append_nil,
      append_assoc, ← Item.faces_cons] at moved
    exact ⟨moved, last⟩
  | operands _ _ _ _ first onward =>
    obtain ⟨moved, middle⟩ := first trivial all
    obtain ⟨more, last⟩ := onward trivial middle
    rw [Phase.faces, facesAll_append, append_assoc] at more
    exact ⟨(moved.append_left _).trans more, last⟩
  | clauses isOperator _ _ _ _ first onward =>
    obtain ⟨here, others⟩ := Item.allSettled_cons.mp all
    obtain ⟨moved, middle⟩ := first (here.operator _ isOperator) others
    obtain ⟨more, last⟩ := onward trivial middle
    rw [Phase.faces, facesAll_append, append_assoc] at more
    rw [Phase.faces, facesAll_nil, append_nil, ← Item.faces_cons] at moved
    exact ⟨(moved.append_left _).trans more, last⟩

/-- The first expression of some items and the items behind it. -/
theorem arranges_first {items : List Item} (settled : AllSettled items) :
    Yields (first items) fun r =>
      Rearranges (Item.faces items) (facesAll r.1.toList ++ Item.faces r.2) ∧ AllSettled r.2 := by
  intro n
  rcases climbed_first items n with ⟨rfl, same, -⟩ | ⟨t, isSome, climbed⟩
  · rw [same]
    exact ⟨.refl _, settled⟩
  · rw [isSome]
    exact climbed.arranges trivial settled

end Climb

end Offside
