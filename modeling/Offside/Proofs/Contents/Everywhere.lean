import Offside.Proofs.Tree.Height

/-!
# Contents of all nodes

A property of the contents of a node, asked of every node of a tree. A new node has contents that
binding has not looked at.
-/

namespace Offside

theorem Symbol.eq_builtin_of_builtin? {symbol : Symbol} {op : Builtin}
    (found : symbol.builtin? = some op) : symbol = .builtin op := by
  cases symbol with
  | builtin known =>
    cases found
    rfl
  | _ => cases found

theorem Symbol.eq_tag_of_tag? {symbol : Symbol} {kind : TagKind} (isTag : symbol.tag? = some kind) :
    symbol = .tag kind := by
  cases symbol with
  | tag known =>
    cases isTag
    rfl
  | _ => cases isTag

theorem Info.exists_tag {info : Info} (isTag : info.isTag = true) :
    ∃ kind, info.symbol = .tag kind := by
  obtain ⟨kind, known⟩ := Option.isSome_iff_exists.mp isTag
  exact ⟨kind, Symbol.eq_tag_of_tag? known⟩

theorem Info.symbol_of_is {info : Info} {op : Builtin} (isOp : info.is op = true) :
    info.symbol = .builtin op :=
  Symbol.eq_builtin_of_builtin? (of_decide_eq_true isOp)

theorem Info.is_of_symbol {info : Info} {op : Builtin} (isOp : info.symbol = .builtin op) :
    info.is op = true :=
  decide_eq_true (congrArg Symbol.builtin? isOp)

theorem Info.symbol_of_isBlock {info : Info} {kind : BlockKind}
    (isBlock : info.isBlock kind = true) :
    info.symbol = .block kind := by
  rw [Info.isBlock, decide_eq_true_eq] at isBlock
  cases known : info.symbol with
  | block other =>
    rw [known] at isBlock
    cases isBlock
    rfl
  | _ =>
    rw [known] at isBlock
    cases isBlock

theorem Tree.eq_node {t : Tree} {symbol : Symbol} {parts : List Tree} (isSymbol : t.symbol = symbol)
    (all : t.children = parts) : t = .node t.id { t.info with symbol } parts := by
  subst isSymbol all
  cases t
  rfl

namespace Info

/-- Contents that binding has not written to. -/
structure Plain (info : Info) : Prop where
  decls : info.decls = none
  varScope : info.varScope = none
  binding : info.binding = none

/-- Contents that binding has not looked at. -/
structure Unbound (info : Info) : Prop extends info.Plain where
  unresolved : info.resolved = false

theorem unbound_new (symbol : Symbol) (value : Option Value) (loc : Loc) :
    (Info.new symbol value loc).Unbound :=
  ⟨⟨rfl, rfl, rfl⟩, rfl⟩

end Info

namespace Tree

variable {P Q : Info → Prop}

mutual

def Everywhere (P : Info → Prop) : Tree → Prop
  | .node _ info children => P info ∧ EverywhereAll P children

def EverywhereAll (P : Info → Prop) : List Tree → Prop
  | [] => True
  | t :: ts => Everywhere P t ∧ EverywhereAll P ts

end

@[simp] theorem everywhere_node (id : NodeId) (info : Info) (children : List Tree) :
    Everywhere P (.node id info children) ↔ P info ∧ EverywhereAll P children := by
  rw [Everywhere]

@[simp] theorem everywhereAll_nil : EverywhereAll P [] := by
  rw [EverywhereAll]
  exact trivial

@[simp] theorem everywhereAll_cons (t : Tree) (ts : List Tree) :
    EverywhereAll P (t :: ts) ↔ Everywhere P t ∧ EverywhereAll P ts := by
  rw [EverywhereAll]

theorem everywhereAll_iff {ts : List Tree} : EverywhereAll P ts ↔ ∀ t ∈ ts, Everywhere P t := by
  induction ts with
  | nil => simp
  | cons t ts ih => simp [ih]

theorem everywhere_iff {t : Tree} : Everywhere P t ↔ P t.info ∧ EverywhereAll P t.children := by
  obtain ⟨id, info, children⟩ := t
  exact everywhere_node id info children

theorem Everywhere.merge {R : Info → Prop} {t : Tree} (first : Everywhere P t)
    (second : Everywhere Q t) (both : ∀ info, P info → Q info → R info) : Everywhere R t := by
  induction t with
  | node id info children ih =>
    rw [everywhere_node, everywhereAll_iff] at first second ⊢
    exact ⟨both info first.1 second.1, fun child member =>
      ih child member (first.2 child member) (second.2 child member)⟩

theorem Everywhere.mono {t : Tree} (holds : Everywhere P t) (weaken : ∀ info, P info → Q info) :
    Everywhere Q t :=
  holds.merge holds fun info here _ => weaken info here

theorem EverywhereAll.mono {ts : List Tree} (holds : EverywhereAll P ts)
    (weaken : ∀ info, P info → Q info) : EverywhereAll Q ts :=
  everywhereAll_iff.mpr fun t member => (everywhereAll_iff.mp holds t member).mono weaken

mutual

/-- What is read off each node of a tree, parents first. -/
def gather (here : Info → List Tree → List String) : Tree → List String
  | .node _ info children => here info children ++ gatherAll here children

def gatherAll (here : Info → List Tree → List String) : List Tree → List String
  | [] => []
  | t :: ts => gather here t ++ gatherAll here ts

end

section Gather

variable {here : Info → List Tree → List String} {t : Tree} {ts : List Tree} {name : String}

@[simp] theorem gather_node (id : NodeId) (info : Info) (children : List Tree) :
    gather here (.node id info children) = here info children ++ gatherAll here children := by
  rw [gather]

@[simp] theorem gatherAll_nil : gatherAll here [] = [] := by
  rw [gatherAll]

@[simp] theorem gatherAll_cons (t : Tree) (ts : List Tree) :
    gatherAll here (t :: ts) = gather here t ++ gatherAll here ts := by
  rw [gatherAll]

theorem mem_gatherAll : name ∈ gatherAll here ts ↔ ∃ t ∈ ts, name ∈ t.gather here := by
  induction ts with
  | nil => simp
  | cons t ts ih => simp [ih]

theorem mem_gather : name ∈ t.gather here ↔
    name ∈ here t.info t.children ∨ ∃ child ∈ t.children, name ∈ child.gather here := by
  obtain ⟨id, info, children⟩ := t
  rw [gather_node, List.mem_append, mem_gatherAll]
  rfl

theorem mem_gather_of_child {child : Tree} (member : child ∈ t.children)
    (inside : name ∈ child.gather here) : name ∈ t.gather here :=
  mem_gather.mpr (.inr ⟨child, member, inside⟩)

end Gather

end Tree

end Offside
