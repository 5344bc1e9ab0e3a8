import Offside.Proofs.Combination.Orderly

/-!
# Climbing to orderly trees

Precedence climbing makes orderly trees of orderly items. A clause in parentheses can be an operand
of an `if` or a `try`, but not the second one: only an indented block can stand there, since the
first operand goes on until a block, a clause or the end of the line.
-/

namespace Offside

variable {asks : Demands}

/-! ## Items -/

/-- An item with an orderly tree; an operator takes operands, and a block is no clause. -/
structure Item.Orderly (asks : Demands) (item : Item) : Prop where
  tree : item.tree.Orderly asks
  operator : ∀ symbol, item.role = .operator symbol → Climb.IsOperator asks item.tree symbol
  block : item.role = .block → item.tree.symbol.isClause = false

def Item.AllOrderly (asks : Demands) (items : List Item) : Prop :=
  ∀ item ∈ items, item.Orderly asks

theorem Item.allOrderly_cons {item : Item} {rest : List Item} :
    AllOrderly asks (item :: rest) ↔ item.Orderly asks ∧ AllOrderly asks rest :=
  List.forall_mem_cons

theorem Item.orderly_operand {t : Tree} (orderly : t.Orderly asks) :
    Item.Orderly asks ⟨t, .operand⟩ := by
  constructor
  · exact orderly
  · intro symbol isOperator
    cases isOperator
  · intro isBlock
    cases isBlock

/-- An operator without operands. -/
theorem Item.orderly_operator {id : NodeId} {info : Info}
    (isOperator : Climb.IsOperator asks (.node id info []) info.symbol) :
    Item.Orderly asks ⟨.node id info [], .operator info.symbol⟩ := by
  obtain ⟨operates, allowed, spelled⟩ := isOperator
  refine ⟨Tree.orderly_leaf ?_ allowed ?_, fun other same => ?_, by rintro ⟨⟩⟩
  · exact { spelled with carries := operates.carries, arranges := Symbol.arranges_nil _ }
  · generalize info.symbol = symbol at operates
    cases symbol <;> first | rfl | cases operates
  · cases same
    exact ⟨operates, allowed, spelled⟩

/-- No operand but an indented block can start with the first of some items. -/
def Item.Stops (items : List Item) : Prop :=
  ∀ item ∈ items.head?, item.role = .block ∨ item.startsOperand = false

theorem Item.stops_cons {item : Item} {rest : List Item} :
    Stops (item :: rest) ↔ item.role = .block ∨ item.startsOperand = false := by
  simp [Stops]

/-! ## Symbols -/

namespace Symbol

variable {symbol : Symbol}

/-- Operators with an operand on the left bind, and they are no clauses. -/
theorem precedence_pos (isOperator : symbol.isOperator = true) (left : symbol.arity.left = true) :
    0 < symbol.precedence := by
  cases symbol with
  | builtin op => cases op <;> first | decide | cases left
  | expander m =>
    have isLeft : m.arity.left = true := left
    rw [precedence, if_pos isLeft]
    decide
  | _ => cases isOperator

theorem not_isClause_of_left (left : symbol.arity.left = true) : symbol.isClause = false := by
  cases symbol with
  | builtin op => cases op <;> first | rfl | cases left
  | _ => rfl

def TakesNone (symbol : Symbol) : Prop :=
  ∀ op, symbol = .builtin op → op.arity.dependents = []

theorem takesNone_of_left (left : symbol.arity.left = true) : symbol.TakesNone := by
  rintro op rfl
  cases op <;> first | rfl | cases left

theorem TakesNone.seats (none : symbol.TakesNone) (below : List Symbol) : symbol.Seats below :=
  seats_of_no_dependents none below

/-- A builtin with clauses takes no atoms and reads its operands as loosely as possible. -/
theorem operands_of_dependents {op : Builtin} (some : op.arity.dependents ≠ []) :
    (Symbol.builtin op).arity.leadingAtoms = 0 ∧ Climb.operandFloor (.builtin op) = 0 := by
  rcases op.dependents_cases with none | rfl | rfl
  · exact absurd none some
  all_goals exact ⟨rfl, rfl⟩

theorem Operates.isOperator {admitted : String → Prop} (operates : symbol.Operates admitted) :
    symbol.isOperator = true := by
  cases symbol <;> first | rfl | cases operates

end Symbol

namespace Climb

open List Offside.Tree

/-! ## What climbing reads -/

/-- An operator with a left operand binds, so no expression ends before it. -/
theorem Ends.stops {items : List Item} (ends : Ends items) (all : Item.AllOrderly asks items) :
    Item.Stops items := by
  intro item isFirst
  rcases ends item isFirst with isBlock | noStart | ⟨symbol, isOperator, left, loose⟩
  · exact .inl isBlock
  · exact .inr noStart
  · have operates := ((all item (mem_of_mem_head? isFirst)).operator symbol isOperator).operates
    exact absurd loose (Nat.ne_of_gt (Symbol.precedence_pos operates.isOperator left))

/-- An operator is what it is, or it is a builtin. -/
theorem IsOperator.leading {node : Tree} {symbol : Symbol}
    (isOperator : IsOperator asks node symbol) : IsOperator asks node (leadingSymbol symbol) := by
  unfold leadingSymbol
  split
  case h_1 op isLeading =>
    split
    · refine { isOperator with operates := ?_, allowed := by rintro _ ⟨⟩ }
      obtain ⟨known, _, form⟩ := Option.bind_eq_some_iff.mp isLeading
      cases known <;> cases form
      rintro ⟨⟩
    · exact isOperator
  case h_2 => exact isOperator

/-- Of the operands that were read there is at most one clause, and no other one can follow. -/
def OneClause (children : List Tree) (items : List Item) : Prop :=
  children = [] ∨
    (((children.map Tree.symbol).filter Symbol.isClause).length ≤ 1 ∧ Item.Stops items)

/-- Behind the first operand, only an indented block is one. -/
theorem OneClause.append {children : List Tree} {item : Item} {rest items : List Item}
    {value : Tree} (one : OneClause children (item :: rest)) (starts : item.startsOperand = true)
    (stops : Item.Stops items) (noClause : item.role = .block → value.symbol.isClause = false) :
    OneClause (children ++ [value]) items := by
  refine .inr ⟨?_, stops⟩
  rw [map_append, filter_append, length_append, map_singleton]
  rcases one with rfl | ⟨few, before⟩
  · exact (Nat.zero_add _).trans_le (length_filter_le _ _)
  · have isBlock := (Item.stops_cons.mp before).resolve_right (by simp [starts])
    rw [filter_cons_of_neg (by simp [noClause isBlock])]
    exact few

/-- What a phase of climbing needs of the trees that it has, and of the items before it. -/
def Phase.Orderly (asks : Demands) : Phase → List Item → Prop
  | .expression _, _ => True
  | .following _ t, _ => t.Orderly asks
  | .operator symbol bare children, _ => (∀ t ∈ children, t.Orderly asks) ∧
      IsOperator asks bare symbol ∧ children.length ≤ symbol.arity.left.toNat
  | .operands symbol count children, items => (∀ t ∈ children, t.Orderly asks) ∧
      count ≤ symbol.arity.rightMax ∧ children.length ≤ symbol.arity.left.toNat + count ∧
      (symbol.TakesNone ∨ OneClause children items)
  | .clauses symbol children, _ => (∀ t ∈ children, t.Orderly asks) ∧
      symbol.Arranges (children.map Tree.symbol) ∧ symbol.Seats (children.map Tree.symbol)

/-- What is known of the trees that a phase makes and of the items behind it. -/
def Phase.Leaves : Phase → List Item → List Tree → List Item → Prop
  | .expression floor, items, ts, left => (floor = 0 → Item.Stops left) ∧
      ∀ item ∈ items.head?, item.role = .block → ∀ t ∈ ts, t.symbol.isClause = false
  | .following floor t, _, ts, left => (floor = 0 → Item.Stops left) ∧
      (t.symbol.isClause = false → ∀ whole ∈ ts, whole.symbol.isClause = false)
  | .operator symbol _ _, _, ts, _ => ∀ t ∈ ts, t.symbol = symbol
  | .operands symbol _ _, _, ts, _ =>
    ts.length ≤ symbol.arity.maxOperands ∧ symbol.Seats (ts.map Tree.symbol)
  | .clauses symbol _, _, ts, _ =>
    symbol.Arranges (ts.map Tree.symbol) ∧ symbol.Seats (ts.map Tree.symbol)

theorem forall_mem_concat {P : Tree → Prop} {ts : List Tree} {t : Tree} (all : ∀ u ∈ ts, P u)
    (last : ∀ u ∈ [t], P u) : ∀ u ∈ ts ++ [t], P u :=
  forall_mem_append.mpr ⟨all, last⟩

/-- Climbing makes orderly trees of orderly items. -/
theorem Climbed.orderly {phase : Phase} {items left : List Item} {ts : List Tree} {n n' : Numbering}
    (climbed : Climbed phase items n ts left n') (before : phase.Orderly asks items)
    (all : Item.AllOrderly asks items) :
    (∀ t ∈ ts, t.Orderly asks) ∧ Item.AllOrderly asks left ∧ phase.Leaves items ts left := by
  have called {t : Tree} {arguments : List Tree} (parts : ∀ u ∈ t :: arguments, u.Orderly asks) :
      Yields (call t arguments) fun made => made.Orderly asks ∧ made.symbol = .builtin .call :=
    orderly_new rfl _ parts
  induction climbed with
  | operand _ _ ih =>
    obtain ⟨here, others⟩ := Item.allOrderly_cons.mp all
    obtain ⟨trees, last, stops, noClause⟩ := ih here.tree others
    refine ⟨trees, last, stops, fun first isFirst isBlock => noClause ?_⟩
    cases Option.some.inj isFirst
    exact here.block isBlock
  | leading isOperator _ _ first onward =>
    obtain ⟨here, others⟩ := Item.allOrderly_cons.mp all
    have operates := (here.operator _ isOperator).leading
    obtain ⟨trees, middle, -⟩ := first ⟨forall_mem_nil _, operates, Nat.zero_le _⟩ others
    obtain ⟨made, last, stops, -⟩ := onward (trees _ (.head _)) middle
    refine ⟨made, last, stops, fun other isFirst isBlock => ?_⟩
    cases Option.some.inj isFirst
    cases isOperator.symm.trans isBlock
  | stopped _ ends =>
    exact ⟨forall_mem_singleton.mpr before, all, fun isZero => (ends isZero).stops all,
      fun noClause => forall_mem_singleton.mpr noClause⟩
  | between isOperator takesLeft _ _ first onward =>
    obtain ⟨here, others⟩ := Item.allOrderly_cons.mp all
    obtain ⟨trees, middle, isSymbol⟩ := first ⟨forall_mem_singleton.mpr before,
      here.operator _ isOperator, by rw [takesLeft]; exact Nat.le_refl 1⟩ others
    obtain ⟨made, last, stops, noClause⟩ := onward (trees _ (.head _)) middle
    refine ⟨made, last, stops, fun _ => noClause ?_⟩
    rw [isSymbol _ mem_cons_self]
    exact Symbol.not_isClause_of_left takesLeft
  | @called _ t _ item spread _ _ _ _ _ _ _ ran _ ih =>
    obtain ⟨here, others⟩ := Item.allOrderly_cons.mp all
    have parts : ∀ u ∈ t :: (if spread then item.tree.children else [item.tree]),
        u.Orderly asks := by
      refine forall_mem_cons.mpr ⟨before, ?_⟩
      split
      · exact here.tree.below
      · exact forall_mem_singleton.mpr here.tree
    obtain ⟨orderly, isCall⟩ := (called parts).of_run ran
    obtain ⟨made, last, stops, noClause⟩ := ih orderly others
    exact ⟨made, last, stops, fun _ => noClause (isCall ▸ rfl)⟩
  | @indexed _ t _ item _ _ _ _ _ _ _ ran _ ih =>
    obtain ⟨here, others⟩ := Item.allOrderly_cons.mp all
    have parts : ∀ u ∈ t :: item.tree.children, u.Orderly asks :=
      forall_mem_cons.mpr ⟨before, here.tree.below⟩
    have whole : Yields (element t item.tree.children) fun made =>
        made.Orderly asks ∧ made.symbol = .builtin .element :=
      orderly_new rfl _ parts
    obtain ⟨orderly, isElement⟩ := whole.of_run ran
    obtain ⟨made, last, stops, noClause⟩ := ih orderly others
    exact ⟨made, last, stops, fun _ => noClause (isElement ▸ rfl)⟩
  | argued _ ran _ first onward =>
    obtain ⟨trees, middle, -⟩ := first trivial all
    obtain ⟨orderly, isCall⟩ :=
      (called (forall_mem_cons.mpr ⟨before, trees⟩)).of_run ran
    obtain ⟨made, last, stops, noClause⟩ := onward orderly middle
    exact ⟨made, last, stops, fun _ => noClause (isCall ▸ rfl)⟩
  | @operator symbol _ children _ _ unread _ _ _ _ _ _ _ first second =>
    obtain ⟨parts, isOperator, few⟩ := before
    have one : symbol.TakesNone ∨ OneClause children unread := by
      cases takesLeft : symbol.arity.left with
      | true => exact .inl (Symbol.takesNone_of_left takesLeft)
      | false =>
        rw [takesLeft] at few
        exact .inr (.inl (eq_nil_of_length_eq_zero (Nat.le_zero.mp few)))
    obtain ⟨operands, middle, fewer, seats⟩ := first ⟨parts, Nat.zero_le _, few, one⟩ all
    obtain ⟨trees, last, arranges, seats⟩ := second ⟨operands, Symbol.arranges_of_length
      isOperator.operates ((length_map _).trans_le fewer), seats⟩ middle
    have orderly := orderly_operatorNode isOperator trees arranges seats
    exact ⟨forall_mem_singleton.mpr orderly, last,
      forall_mem_singleton.mpr (symbol_operatorNode ..)⟩
  | noOperands =>
    obtain ⟨parts, less, few, one⟩ := before
    refine ⟨parts, all, Nat.le_trans few (Nat.add_le_add_left less _), ?_⟩
    rcases one with none | rfl | ⟨one, -⟩
    · exact none.seats _
    · exact Symbol.seats_nil _
    · exact Symbol.seats_of_one_clause one
  | @atom symbol count _ _ _ _ _ _ _ room leads _ ih =>
    obtain ⟨here, others⟩ := Item.allOrderly_cons.mp all
    have none : symbol.TakesNone := by
      intro op isOp
      by_contra some
      rw [isOp, (Symbol.operands_of_dependents some).1] at leads
      exact absurd leads (Nat.not_lt_zero count)
    refine ih ⟨forall_mem_concat before.1 (forall_mem_singleton.mpr here.tree), room, ?_,
      .inl none⟩ others
    rw [length_append, ← Nat.add_assoc]
    exact Nat.add_le_add_right before.2.2.1 1
  | @operands symbol _ children _ value item _ more _ _ _ _ room starts _ _ first onward =>
    obtain ⟨parts, less, few, one⟩ := before
    obtain ⟨trees, middle, stops, noClause⟩ := first trivial all
    have next : symbol.TakesNone ∨ OneClause (children ++ [value]) more := by
      by_cases none : symbol.TakesNone
      · exact .inl none
      · obtain ⟨op, isOp, some⟩ : ∃ op, symbol = .builtin op ∧ op.arity.dependents ≠ [] := by
          simpa [Symbol.TakesNone] using none
        have loose := (Symbol.operands_of_dependents some).2
        exact .inr ((one.resolve_left none).append starts (stops (isOp ▸ loose))
          fun isBlock => noClause item rfl isBlock value mem_cons_self)
    refine onward ⟨forall_mem_concat parts trees, room, ?_, next⟩ middle
    rw [length_append, ← Nat.add_assoc]
    exact Nat.add_le_add_right few 1
  | noClauses => exact ⟨before.1, all, before.2⟩
  | clauses isOperator isOp taken _ _ first onward =>
    obtain ⟨here, others⟩ := Item.allOrderly_cons.mp all
    obtain ⟨trees, middle, isClause⟩ :=
      first ⟨forall_mem_nil _, here.operator _ isOperator, Nat.zero_le _⟩ others
    refine onward ⟨forall_mem_concat before.1 trees, ?_⟩ middle
    rw [map_append, map_singleton, isClause _ (.head _), isOp]
    exact ⟨before.2.1.append_clause taken, before.2.2.append_clause taken⟩

/-- The first expression of orderly items is orderly. -/
theorem orderly_first {items : List Item} (all : Item.AllOrderly asks items) :
    Yields (first items) (fun r => ∀ t ∈ r.1, t.Orderly asks) := by
  intro n
  rcases climbed_first items n with ⟨-, same, -⟩ | ⟨t, isSome, climbed⟩
  · rw [same]
    exact fun _ member => by cases member
  · rw [isSome]
    rintro _ ⟨⟩
    exact (climbed.orderly trivial all).1 t mem_cons_self

end Climb

end Offside
