import Offside.Proofs.Binding.Paths
import Offside.Proofs.Contents.Proper

/-!
# Orderly trees

In an orderly tree every node is proper, the clauses of each node stand in their order, each at most
once, and every macro comes from outside or has a template. If nothing is reported, in every block
all clauses are in their places.
-/

namespace Offside

open List

namespace Tree

variable {P : Tree → Prop} {t : Tree}

theorem Throughout.of_subtree (throughout : t.Throughout P) {path : List Nat} {u : Tree}
    (found : t.subtree? path = some u) : P u := by
  induction path generalizing t with
  | nil =>
    cases found
    exact throughout.here
  | cons index path ih =>
    obtain ⟨c, child, inside⟩ := subtree?_cons.mp found
    exact ih (throughout.below c (mem_of_getElem? child)) inside

end Tree

/-! ## Order of clauses -/

/-- The clauses of a node stand in their order, each at most once. -/
def Symbol.Seats (symbol : Symbol) (below : List Symbol) : Prop :=
  ∀ op, symbol = .builtin op →
    (below.filter (· ∈ op.arity.dependents.map Symbol.builtin)).Sublist
      (op.arity.dependents.map Symbol.builtin)

namespace Symbol

variable {symbol : Symbol} {below after : List Symbol}

theorem seats_of_no_dependents
    (none : ∀ op, symbol = .builtin op → op.arity.dependents = []) (below : List Symbol) :
    symbol.Seats below := by
  intro op isOp
  rw [none op isOp]
  simp

theorem seats_nil (symbol : Symbol) : symbol.Seats [] :=
  fun _ _ => nil_sublist _

/-- At most one clause is in order. -/
theorem seats_of_one_clause (one : (below.filter isClause).length ≤ 1) : symbol.Seats below := by
  rintro op rfl
  have members : ∀ other ∈ below.filter (· ∈ op.arity.dependents.map Symbol.builtin),
      other ∈ op.arity.dependents.map Symbol.builtin :=
    fun other member => of_decide_eq_true (mem_filter.mp member).2
  have fewer : (below.filter (· ∈ op.arity.dependents.map Symbol.builtin)).length ≤ 1 := by
    refine Nat.le_trans (List.Sublist.length_le ?_) one
    refine monotone_filter_right below fun other listed => ?_
    obtain ⟨clause, member, rfl⟩ := mem_map.mp (of_decide_eq_true listed)
    exact isClause_of_dependent member
  match found : below.filter (· ∈ op.arity.dependents.map Symbol.builtin) with
  | [] => exact nil_sublist _
  | [only] =>
    rw [found] at members
    exact singleton_sublist.mpr (members only mem_cons_self)
  | first :: second :: rest =>
    rw [found] at fewer
    simp at fewer

/-- A clause that is taken comes behind those that are there. -/
theorem Seats.append_clause {children : List Tree} {clause : Builtin}
    (seats : symbol.Seats (children.map Tree.symbol))
    (taken : Clause.isTaken symbol children clause = true) :
    symbol.Seats (children.map Tree.symbol ++ [.builtin clause]) := by
  rintro op rfl
  have listed : clause ∈ op.arity.dependents := by
    rw [Clause.isTaken, Symbol.builtin?] at taken
    simp only [Bool.and_eq_true, decide_eq_true_eq] at taken
    exact taken.1
  rw [filter_append, filter_cons_of_pos, filter_nil]
  · refine sublist_append_clause (seats op rfl) (fun other member => ?_) taken
    obtain ⟨child, known, same⟩ := mem_map.mp (mem_filter.mp member).1
    exact mem_filterMap.mpr ⟨child, known, congrArg Symbol.builtin? same⟩
  · exact decide_eq_true (mem_map.mpr ⟨clause, listed, rfl⟩)

/-- Only the clauses among the children matter. -/
theorem Seats.of_clauses (seats : symbol.Seats below)
    (same : after.filter isClause = below.filter isClause) : symbol.Seats after := by
  intro op isOp
  have narrow (symbols : List Symbol) :
      symbols.filter (· ∈ op.arity.dependents.map Symbol.builtin) =
        (symbols.filter isClause).filter (· ∈ op.arity.dependents.map Symbol.builtin) := by
    rw [filter_filter]
    refine filter_congr fun other _ => ?_
    by_cases listed : other ∈ op.arity.dependents.map Symbol.builtin
    · obtain ⟨clause, member, rfl⟩ := mem_map.mp listed
      rw [isClause_of_dependent member, Bool.and_true]
    · rw [decide_eq_false listed, Bool.false_and]
  rw [narrow, same, ← narrow]
  exact seats op isOp

end Symbol

/-! ## Places of clauses -/

namespace Clause

mutual

/--
Nothing is wrong with the clauses of a tree that stands below a builtin or below something else.
-/
def Seated (parent : Option Builtin) : Tree → Prop
  | .node id info children =>
    fault? parent (.node id info children) = none ∧ SeatedAll info.symbol.builtin? children

def SeatedAll (parent : Option Builtin) : List Tree → Prop
  | [] => True
  | t :: ts => Seated parent t ∧ SeatedAll parent ts

end

/-- Nothing is wrong with the clauses of the statements of a block. -/
def ClosedBlock (t : Tree) : Prop :=
  SeatedAll none t.children

end Clause

/-! ## Orderly trees -/

/-- What is asked of trees that are combined. -/
structure Demands where
  /-- The names of the functions that macros may call. -/
  admitted : String → Prop
  /-- The macros from outside. -/
  provided : Macro → Prop
  /-- How many templates there are in the end. -/
  templates : Nat
  /-- How many reports there are at the start. -/
  reports : Nat
  /-- Whether nothing more is reported. -/
  quiet : Prop

/-- A macro comes from outside, or it has a template. -/
def Demands.Allows (asks : Demands) (m : Macro) : Prop :=
  asks.provided m ∨ ∃ index < asks.templates, m.body = .template index

namespace Tree

variable {asks : Demands} {t : Tree} {children : List Tree} {op : Builtin}

/-- A node whose macro, if it has one, is allowed. -/
def Admissible (asks : Demands) (t : Tree) : Prop :=
  ∀ m, t.symbol = .expander m → asks.Allows m

/-- An admissible node that is proper, with its clauses in order. -/
structure Regular (asks : Demands) (t : Tree) : Prop where
  allowed : t.Admissible asks
  proper : t.info.Proper asks.admitted (t.children.map symbol)
  seats : t.symbol.Seats (t.children.map symbol)

/-- A regular node; if it opens a scope for names, it is closed unless there are reports. -/
structure OrderlyHere (asks : Demands) (t : Tree) : Prop extends t.Regular asks where
  closed : t.isBlockLike = true → asks.quiet → Clause.ClosedBlock t

/-- All nodes of a tree are regular, and all blocks are closed. -/
abbrev Orderly (asks : Demands) : Tree → Prop :=
  Throughout (OrderlyHere asks)

theorem Orderly.isProper (orderly : t.Orderly asks) : t.IsProper asks.admitted :=
  orderly.obeys fun _ here => here.proper

/-- A node without operands that opens no scope. -/
theorem orderly_leaf {id : NodeId} {info : Info} (proper : info.Proper asks.admitted [])
    (allowed : ∀ m, info.symbol = .expander m → asks.Allows m)
    (plain : info.symbol.isBlockLike = false) : (Tree.node id info []).Orderly asks := by
  refine throughout_iff.mpr ⟨⟨⟨allowed, proper, Symbol.seats_nil _⟩, ?_⟩, forall_mem_nil _⟩
  exact fun isBlock => absurd (plain.symm.trans isBlock) Bool.false_ne_true

/-- A new node of a builtin whose operands stand in brackets. -/
theorem orderly_new (openEnded : op.isOpenEnded = true) (loc : Loc)
    (parts : ∀ c ∈ children, c.Orderly asks) :
    Yields (Tree.new (.builtin op) none loc children)
      (fun t => t.Orderly asks ∧ t.symbol = .builtin op) := by
  refine .after fun id => .pure ⟨throughout_iff.mpr ⟨⟨⟨?_, ?_, ?_⟩, ?_⟩, parts⟩, rfl⟩
  · rintro _ ⟨⟩
  · exact Info.proper_new (Symbol.carries_builtin op) (.inl openEnded) (by rintro _ ⟨⟩)
  · refine Symbol.seats_of_no_dependents ?_ _
    rintro _ ⟨⟩
    cases op <;> first | rfl | cases openEnded
  · rintro ⟨⟩

/-- A builtin with other children. -/
theorem Orderly.replace (orderly : t.Orderly asks) (isOp : t.symbol = .builtin op)
    (arranges : t.symbol.Arranges (children.map symbol))
    (seats : t.symbol.Seats (children.map symbol)) (parts : ∀ c ∈ children, c.Orderly asks) :
    (t.withChildren children).Orderly asks := by
  obtain ⟨id, info, old⟩ := t
  have here := orderly.here
  refine throughout_iff.mpr ⟨⟨⟨here.allowed, { here.proper with arranges }, seats⟩,
    fun isBlock => ?_⟩, parts⟩
  have isBlockToo : (Tree.node id info old).isBlockLike = true := isBlock
  rw [isBlockLike, isOp] at isBlockToo
  cases isBlockToo

/-- A builtin without clauses, with other operands, of which there are not more than before. -/
theorem Orderly.withOperands (orderly : t.Orderly asks) (isOp : t.symbol = .builtin op)
    (noClauses : op.arity.dependents = [])
    (fewer : children.length ≤ t.children.length) (parts : ∀ c ∈ children, c.Orderly asks) :
    (t.withChildren children).Orderly asks := by
  have arranges := orderly.here.proper.arranges
  rw [show t.info.symbol = _ from isOp] at arranges
  refine orderly.replace isOp ?_ ?_ parts
  · rw [isOp]
    exact arranges.fewer noClauses (by simpa using fewer)
  · refine Symbol.seats_of_no_dependents (fun other isOther => ?_) _
    rw [← Symbol.builtin.inj (isOp.symm.trans isOther)]
    exact noClauses

/-! ### Nodes in the place of others -/

/-- Two nodes with the same symbol, or neither of them is a clause. -/
def Alike (t u : Tree) : Prop :=
  u.symbol = t.symbol ∨ u.symbol.isClause = false ∧ t.symbol.isClause = false

theorem alike_refl (ts : List Tree) : List.Forall₂ Alike ts ts :=
  List.forall₂_same.mpr fun _ _ => .inl rfl

variable {ts us : List Tree}

theorem passes_of_alike (alike : List.Forall₂ Alike ts us) :
    Symbol.Passes (ts.map symbol) (us.map symbol) := by
  induction alike with
  | nil => exact .nil
  | cons here _ ih =>
    refine .cons_toList (fun isClause => congrArg some (here.resolve_right fun other => ?_)) ih
    cases isClause.symm.trans other.2

theorem filter_of_alike (alike : List.Forall₂ Alike ts us) :
    (us.map symbol).filter Symbol.isClause = (ts.map symbol).filter Symbol.isClause := by
  induction alike with
  | nil => rfl
  | cons here _ ih =>
    rw [map_cons, map_cons, filter_cons, filter_cons, ih]
    rcases here with same | ⟨other, first⟩
    · rw [same]
    · rw [other, first]
      rfl

/-- The same builtin with other nodes in the place of its children. -/
theorem Orderly.withAlike (orderly : t.Orderly asks) (isOp : t.symbol = .builtin op)
    (alike : List.Forall₂ Alike t.children children)
    (parts : ∀ c ∈ children, c.Orderly asks) : (t.withChildren children).Orderly asks :=
  orderly.replace isOp (orderly.here.proper.arranges.passes (passes_of_alike alike))
    (orderly.here.seats.of_clauses (filter_of_alike alike)) parts

/-- A tag of another kind. -/
theorem Orderly.retag (orderly : t.Orderly asks) {kind other : TagKind}
    (isTag : t.symbol = .tag kind) (same : kind = .external → other = .external) :
    (t.withSymbol (.tag other)).Orderly asks := by
  obtain ⟨id, info, children⟩ := t
  have here := orderly.here
  have carries := here.proper.carries
  have arranges := here.proper.arranges
  rw [show (Tree.node id info children).info.symbol = _ from isTag] at carries arranges
  refine throughout_iff.mpr ⟨⟨⟨?_, ?_, ?_⟩, ?_⟩, orderly.below⟩
  · rintro _ ⟨⟩
  · exact { here.proper with carries := carries.retag same, arranges }
  · exact Symbol.seats_of_no_dependents (by rintro _ ⟨⟩) _
  · rintro ⟨⟩

end Tree

namespace Climb

open Offside.Tree

/-! ## Declarations -/

variable {asks : Demands}

/-- Only names are turned into declarations, so the clauses stay. -/
theorem alike_declare (constant : Bool) (t : Tree) : Alike t (declare constant t) := by
  obtain ⟨id, info, children⟩ := t
  rw [declare]
  split
  case h_1 kind isTag =>
    right
    rw [Tree.symbol, Tree.symbol, Tree.info, Tree.info, isTag]
    exact ⟨rfl, rfl⟩
  case h_2 | h_3 => exact .inl rfl

theorem alike_outside (t : Tree) :
    Alike t (if t.isTag then t.withSymbol (.tag .external) else t) := by
  split
  case isTrue isTag =>
    obtain ⟨kind, tagged⟩ := Info.exists_tag isTag
    obtain ⟨id, info, children⟩ := t
    exact .inr ⟨rfl, by rw [show (Tree.node id info children).symbol = _ from tagged]; rfl⟩
  case isFalse => exact .inl rfl

theorem alike_classify (symbol : Symbol) (children : List Tree) :
    List.Forall₂ Alike children (classify symbol children) := by
  unfold classify
  split
  case h_1 | h_2 | h_3 | h_4 => exact .cons (alike_declare _ _) (alike_refl _)
  case h_5 => exact .cons (alike_outside _) (alike_refl _)
  case h_6 head body _ =>
    split
    · exact .cons (.inl (by cases head; rfl)) (alike_refl _)
    · exact alike_refl _
  case h_7 => exact alike_refl _

theorem orderly_declare (constant : Bool) {t : Tree} (orderly : t.Orderly asks) :
    (declare constant t).Orderly asks := by
  induction t with
  | node id info children ih =>
    rw [declare]
    split
    case h_1 kind isTag =>
      refine orderly.retag isTag ?_
      rintro rfl
      cases constant <;> rfl
    case h_2 isTuple =>
      rw [declareAll_eq]
      refine orderly.withAlike isTuple ?_ fun c member => ?_
      · exact List.forall₂_map_right_iff.mpr (List.forall₂_same.mpr fun t _ => alike_declare _ t)
      · obtain ⟨child, known, rfl⟩ := mem_map.mp member
        exact ih child known (orderly.below child known)
    case h_3 => exact orderly

theorem orderly_outside {t : Tree} (orderly : t.Orderly asks) :
    (if t.isTag then t.withSymbol (.tag .external) else t).Orderly asks := by
  split
  case isTrue isTag =>
    obtain ⟨kind, tagged⟩ := Info.exists_tag isTag
    exact orderly.retag tagged fun _ => rfl
  case isFalse => exact orderly

theorem orderly_classify (symbol : Symbol) {children : List Tree}
    (orderly : ∀ t ∈ children, t.Orderly asks) :
    ∀ t ∈ classify symbol children, t.Orderly asks := by
  unfold classify
  split
  case h_1 | h_2 | h_3 | h_4 =>
    rw [forall_mem_cons] at orderly ⊢
    exact ⟨orderly_declare _ orderly.1, orderly.2⟩
  case h_5 =>
    rw [forall_mem_cons] at orderly ⊢
    exact ⟨orderly_outside orderly.1, orderly.2⟩
  case h_6 head body _ =>
    split
    case h_1 target rest isAssign parts =>
      rw [forall_mem_cons] at orderly ⊢
      have inner := orderly.1.below
      rw [parts, forall_mem_cons] at inner
      refine ⟨orderly.1.withAlike (Info.symbol_of_is isAssign) ?_ ?_, orderly.2⟩
      · rw [parts]
        exact .cons (alike_declare _ _) (alike_refl _)
      · rw [forall_mem_cons]
        exact ⟨orderly_declare _ inner.1, inner.2⟩
    case h_2 => exact orderly
  case h_7 => exact orderly

/-! ## Operators -/

/-- A bare node of an operator that may have some symbol. -/
structure IsOperator (asks : Demands) (node : Tree) (symbol : Symbol) : Prop where
  operates : symbol.Operates asks.admitted
  allowed : ∀ m, symbol = .expander m → asks.Allows m
  spelled : node.info.Spelled asks.admitted

theorem symbol_operatorNode (node : Tree) (symbol : Symbol) (children : List Tree) :
    (operatorNode node symbol children).symbol = symbol := by
  obtain ⟨id, info, old⟩ := node
  rfl

theorem orderly_operatorNode {node : Tree} {symbol : Symbol} {children : List Tree}
    (isOperator : IsOperator asks node symbol) (parts : ∀ t ∈ children, t.Orderly asks)
    (arranges : symbol.Arranges (children.map Tree.symbol))
    (seats : symbol.Seats (children.map Tree.symbol)) :
    (operatorNode node symbol children).Orderly asks := by
  obtain ⟨operates, allowed, spelled⟩ := isOperator
  obtain ⟨id, info, old⟩ := node
  have alike := alike_classify symbol children
  refine throughout_iff.mpr ⟨⟨⟨allowed, ?_, ?_⟩, ?_⟩, orderly_classify symbol parts⟩
  · exact { spelled with
      carries := operates.carries
      arranges := arranges.passes (passes_of_alike alike) }
  · exact seats.of_clauses (filter_of_alike alike)
  · intro isBlock
    cases symbol <;> first | cases isBlock | cases operates

end Climb

end Offside
