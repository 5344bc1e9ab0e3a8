import Offside.Expression
import Offside.Proofs.Computation
import Offside.Proofs.Contents.Everywhere

/-!
# Rules of precedence climbing

What climbing can make of the items of a line, as a relation between the items and the numbering
before it, the trees that it makes, and the items and the numbering behind it. A rule says why
climbing goes on or stops as far as that can be seen from the items. There are always enough steps,
so the rules do not count them.
-/

namespace Offside

open List

namespace Climb

theorem declareAll_eq (constant : Bool) (ts : List Tree) :
    declareAll constant ts = ts.map (declare constant) := by
  induction ts with
  | nil => rw [declareAll, map_nil]
  | cons t ts ih => rw [declareAll, ih, map_cons]

/-- What has to be read. -/
inductive Phase where
  /-- An expression of operators that bind more tightly than a bound. -/
  | expression (floor : Nat)
  /-- What goes on with an expression. -/
  | following (floor : Nat) (left : Tree)
  /-- The operands and clauses of an operator that has some children already. -/
  | operator (symbol : Symbol) (node : Tree) (children : List Tree)
  /-- Operands on the right, behind some that have been read. -/
  | operands (symbol : Symbol) (count : Nat) (children : List Tree)
  /-- The clauses that follow. -/
  | clauses (symbol : Symbol) (children : List Tree)

/-- The least number of items that are read. -/
def Phase.taken : Phase → Nat
  | .expression _ => 1
  | _ => 0

/--
An expression ends before items: nothing but a block stands there, or what cannot start an
operand, or an operator that does not bind at all.
-/
def Ends (items : List Item) : Prop :=
  ∀ item ∈ items.head?, item.role = .block ∨ item.startsOperand = false ∨
    ∃ symbol, item.role = .operator symbol ∧ symbol.arity.left = true ∧ symbol.precedence = 0

theorem ends_cons {item : Item} {rest : List Item} : Ends (item :: rest) ↔
    item.role = .block ∨ item.startsOperand = false ∨
      ∃ symbol, item.role = .operator symbol ∧ symbol.arity.left = true ∧
        symbol.precedence = 0 := by
  simp [Ends]

/-- The trees that climbing can make of some items, and the items that are left. -/
inductive Climbed : Phase → List Item → Numbering → List Tree → List Item → Numbering → Prop
  | operand {floor item rest left ts n n'}
      (plain : ∀ symbol, item.role ≠ .operator symbol)
      (onward : Climbed (.following floor item.tree) rest n ts left n') :
      Climbed (.expression floor) (item :: rest) n ts left n'
  | leading {floor item symbol rest more left t ts n n₁ n'}
      (isOperator : item.role = .operator symbol)
      (first : Climbed (.operator (leadingSymbol symbol) item.tree []) rest n [t] more n₁)
      (onward : Climbed (.following floor t) more n₁ ts left n') :
      Climbed (.expression floor) (item :: rest) n ts left n'
  | stopped {floor t items} (n : Numbering)
      (ends : floor = 0 → Ends items) : Climbed (.following floor t) items n [t] items n
  | between {floor t whole item symbol rest more left ts n n₁ n'}
      (isOperator : item.role = .operator symbol) (takesLeft : symbol.arity.left = true)
      (first : Climbed (.operator symbol item.tree [t]) rest n [whole] more n₁)
      (onward : Climbed (.following floor whole) more n₁ ts left n') :
      Climbed (.following floor t) (item :: rest) n ts left n'
  | called {floor t whole item spread rest left ts n n₁ n'} (isParen : item.role = .paren spread)
      (made : call t (if spread then item.tree.children else [item.tree]) n = (whole, n₁))
      (onward : Climbed (.following floor whole) rest n₁ ts left n') :
      Climbed (.following floor t) (item :: rest) n ts left n'
  | indexed {floor t whole item rest left ts n n₁ n'} (isSquare : item.role = .square)
      (made : element t item.tree.children n = (whole, n₁))
      (onward : Climbed (.following floor whole) rest n₁ ts left n') :
      Climbed (.following floor t) (item :: rest) n ts left n'
  | argued {floor t value whole items more left ts n n₁ n₂ n'}
      (first : Climbed (.expression (callPrecedence - 1)) items n [value] more n₁)
      (made : call t [value] n₁ = (whole, n₂))
      (onward : Climbed (.following floor whole) more n₂ ts left n') :
      Climbed (.following floor t) items n ts left n'
  | operator {symbol node children operands all items more left n n₁ n'}
      (first : Climbed (.operands symbol 0 children) items n operands more n₁)
      (second : Climbed (.clauses symbol operands) more n₁ all left n') :
      Climbed (.operator symbol node children) items n [operatorNode node symbol all] left n'
  | noOperands {symbol count children items}
      (n : Numbering) : Climbed (.operands symbol count children) items n children items n
  | atom {symbol count children ts item rest left n n'} (room : count < symbol.arity.rightMax)
      (leads : count < symbol.arity.leadingAtoms)
      (onward :
        Climbed (.operands symbol (count + 1) (children ++ [item.tree])) rest n ts left n') :
      Climbed (.operands symbol count children) (item :: rest) n ts left n'
  | operands {symbol count children ts value item rest more left n n₁ n'}
      (room : count < symbol.arity.rightMax)
      (starts : item.startsOperand = true)
      (first : Climbed (.expression (operandFloor symbol)) (item :: rest) n [value] more n₁)
      (onward : Climbed (.operands symbol (count + 1) (children ++ [value])) more n₁ ts left n') :
      Climbed (.operands symbol count children) (item :: rest) n ts left n'
  | noClauses {symbol children items} (n : Numbering) :
      Climbed (.clauses symbol children) items n children items n
  | clauses {symbol clause op children ts t item rest more left n n₁ n'}
      (isOperator : item.role = .operator clause)
      (isOp : clause = .builtin op) (taken : Clause.isTaken symbol children op = true)
      (first : Climbed (.operator clause item.tree []) rest n [t] more n₁)
      (onward : Climbed (.clauses symbol (children ++ [t])) more n₁ ts left n') :
      Climbed (.clauses symbol children) (item :: rest) n ts left n'

theorem Climbed.length_le {phase : Phase} {items left : List Item} {n n' : Numbering}
    {ts : List Tree} (climbed : Climbed phase items n ts left n') :
    left.length + phase.taken ≤ items.length := by
  induction climbed with
  | stopped | noOperands | noClauses => exact Nat.le_refl _
  | operand _ _ ih | called _ _ _ ih | indexed _ _ _ ih | atom _ _ _ ih =>
    simp only [Phase.taken, length_cons] at ih ⊢
    omega
  | leading _ _ _ first rest | between _ _ _ _ first rest | argued _ _ _ first rest
  | operator _ _ first rest | operands _ _ _ _ first rest | clauses _ _ _ _ _ first rest =>
    simp only [Phase.taken, length_cons] at first rest ⊢
    omega

/-! ## Steps -/

/--
Within some number of steps, if they are enough for the items, the functions follow the rules.
-/
structure Ruled (fuel : Nat) : Prop where
  expression : ∀ (floor : Nat) (item : Item) (rest : List Item), 6 * rest.length + 7 ≤ fuel →
    Runs (expression fuel floor (item :: rest)) fun n r n' =>
      ∃ t, r.1 = some t ∧ Climbed (.expression floor) (item :: rest) n [t] r.2 n'
  leading : ∀ (item : Item) (rest : List Item), 6 * rest.length + 4 ≤ fuel →
    Runs (leading fuel item rest) fun n r n' =>
      (∀ symbol, item.role ≠ .operator symbol) ∧ r = (item.tree, rest) ∧ n' = n ∨
        ∃ symbol, item.role = .operator symbol ∧
          Climbed (.operator (leadingSymbol symbol) item.tree []) rest n [r.1] r.2 n'
  following : ∀ (floor : Nat) (t : Tree) (items : List Item), 6 * items.length + 3 ≤ fuel →
    Runs (following fuel floor t items) fun n r n' =>
      Climbed (.following floor t) items n [r.1] r.2 n'
  argument : ∀ (floor : Nat) (t : Tree) (item : Item) (rest : List Item),
    6 * rest.length + 8 ≤ fuel → Runs (argument fuel floor t item rest) fun n r n' =>
      Climbed (.following floor t) (item :: rest) n [r.1] r.2 n'
  operator : ∀ (symbol : Symbol) (node : Tree) (children : List Tree) (items : List Item),
    6 * items.length + 3 ≤ fuel → Runs (operator fuel symbol node children items) fun n r n' =>
      Climbed (.operator symbol node children) items n [r.1] r.2 n'
  operands : ∀ (symbol : Symbol) (count : Nat) (children : List Tree) (items : List Item),
    6 * items.length + 2 ≤ fuel → Runs (operands fuel symbol count children items) fun n r n' =>
      Climbed (.operands symbol count children) items n r.1 r.2 n'
  clauses : ∀ (symbol : Symbol) (children : List Tree) (items : List Item),
    6 * items.length + 2 ≤ fuel → Runs (clauses fuel symbol children items) fun n r n' =>
      Climbed (.clauses symbol children) items n r.1 r.2 n'

section Step

variable {fuel : Nat} (below : Ruled fuel)
include below

theorem ruled_expression (floor : Nat) (item : Item) (rest : List Item)
    (enough : 6 * rest.length + 7 ≤ fuel + 1) :
    Runs (expression (fuel + 1) floor (item :: rest)) fun n r n' =>
      ∃ t, r.1 = some t ∧ Climbed (.expression floor) (item :: rest) n [t] r.2 n' := by
  rw [expression]
  refine .bind (below.leading item rest (by omega)) fun n first n₁ read => ⟨_, rfl, ?_⟩
  rcases read with ⟨plain, rfl, rfl⟩ | ⟨symbol, isOperator, climbed⟩
  · exact .operand plain (below.following floor item.tree rest (by omega) n₁)
  · have fewer : first.2.length ≤ rest.length := climbed.length_le
    exact .leading isOperator climbed (below.following floor first.1 first.2 (by omega) n₁)

theorem ruled_following (floor : Nat) (t : Tree) (items : List Item)
    (enough : 6 * items.length + 3 ≤ fuel + 1) :
    Runs (following (fuel + 1) floor t items) fun n r n' =>
      Climbed (.following floor t) items n [r.1] r.2 n' := by
  cases items with
  | nil => exact .pure fun n => .stopped n fun _ => by simp [Ends]
  | cons item rest =>
    rw [length_cons] at enough
    have onward (whole : Tree) := below.following floor whole rest (by omega)
    have tight (weak : callPrecedence ≤ floor) (isZero : floor = 0) : Ends (item :: rest) := by
      rw [isZero] at weak
      exact absurd weak (by decide)
    rw [following]
    split
    case h_1 symbol isOperator =>
      split
      case isTrue takesLeft =>
        split
        case isTrue weak =>
          refine .pure fun n => .stopped n fun isZero => ?_
          rw [ends_cons]
          exact .inr (.inr ⟨symbol, isOperator, takesLeft, by omega⟩)
        case isFalse =>
          refine .bind (below.operator symbol item.tree [t] rest (by omega)) ?_
          intro n first n₁ climbed
          have fewer : first.2.length ≤ rest.length := climbed.length_le
          exact .between isOperator takesLeft climbed (below.following floor _ _ (by omega) n₁)
      case isFalse => exact below.argument floor t item rest (by omega)
    case h_2 spread isParen =>
      split
      case isTrue weak => exact .pure fun n => .stopped n (tight weak)
      case isFalse => exact fun n => .called isParen rfl (onward _ _)
    case h_3 isSquare =>
      split
      case isTrue weak => exact .pure fun n => .stopped n (tight weak)
      case isFalse => exact fun n => .indexed isSquare rfl (onward _ _)
    case h_4 => exact below.argument floor t item rest (by omega)

theorem ruled_argument (floor : Nat) (t : Tree) (item : Item) (rest : List Item)
    (enough : 6 * rest.length + 8 ≤ fuel + 1) :
    Runs (argument (fuel + 1) floor t item rest) fun n r n' =>
      Climbed (.following floor t) (item :: rest) n [r.1] r.2 n' := by
  rw [argument]
  split
  case isTrue ends =>
    refine .pure fun n => .stopped n fun isZero => ?_
    rw [isZero] at ends
    rw [ends_cons, ← or_assoc]
    refine .inl ?_
    simpa [callPrecedence, Item.startsArgument, Decidable.or_iff_not_imp_left] using ends
  case isFalse =>
    refine .bind (below.expression (callPrecedence - 1) item rest (by omega)) ?_
    rintro n ⟨found, more⟩ n₁ ⟨value, isSome, climbed⟩
    cases isSome
    have fewer : more.length + 1 ≤ rest.length + 1 := climbed.length_le
    exact .argued climbed rfl (below.following floor _ more (by omega) _)

theorem ruled_operands (symbol : Symbol) (count : Nat) (children : List Tree)
    (items : List Item) (enough : 6 * items.length + 2 ≤ fuel + 1) :
    Runs (operands (fuel + 1) symbol count children items) fun n r n' =>
      Climbed (.operands symbol count children) items n r.1 r.2 n' := by
  cases items with
  | nil => exact .pure .noOperands
  | cons item rest =>
    rw [length_cons] at enough
    rw [operands]
    split
    case isTrue => exact .pure .noOperands
    case isFalse full =>
      have room : count < symbol.arity.rightMax := Nat.lt_of_not_le full
      split
      case isTrue leads =>
        split
        case isTrue => exact fun n => .atom room leads (below.operands _ _ _ rest (by omega) n)
        case isFalse => exact .pure .noOperands
      case isFalse =>
        split
        case isTrue starts =>
          refine .bind (below.expression (operandFloor symbol) item rest (by omega)) ?_
          rintro n ⟨found, more⟩ n₁ ⟨value, isSome, climbed⟩
          cases isSome
          have fewer : more.length + 1 ≤ rest.length + 1 := climbed.length_le
          exact .operands room starts climbed (below.operands _ _ _ more (by omega) n₁)
        case isFalse => exact .pure .noOperands

theorem ruled_clauses (symbol : Symbol) (children : List Tree) (items : List Item)
    (enough : 6 * items.length + 2 ≤ fuel + 1) :
    Runs (clauses (fuel + 1) symbol children items) fun n r n' =>
      Climbed (.clauses symbol children) items n r.1 r.2 n' := by
  cases items with
  | nil => exact .pure .noClauses
  | cons item rest =>
    rw [length_cons] at enough
    rw [clauses]
    split
    case h_1 clause isOperator =>
      split
      case isTrue isTaken =>
        obtain ⟨op, isBuiltin, taken⟩ := (Option.any_eq_true _ _).mp isTaken
        refine .bind (below.operator clause item.tree [] rest (by omega))
          fun n first n₁ climbed => ?_
        have fewer : first.2.length ≤ rest.length := climbed.length_le
        exact .clauses isOperator (Symbol.eq_builtin_of_builtin? isBuiltin) taken climbed
          (below.clauses symbol _ first.2 (by omega) n₁)
      case isFalse => exact .pure .noClauses
    case h_2 => exact .pure .noClauses

end Step

theorem ruled (fuel : Nat) : Ruled fuel := by
  induction fuel with
  | zero =>
    constructor
    all_goals
      intros
      omega
  | succ fuel ih =>
    constructor
    case expression => exact ruled_expression ih
    case leading =>
      intro item rest enough
      rw [leading]
      split
      case h_1 symbol isOperator =>
        exact fun n => .inr ⟨symbol, isOperator, ih.operator _ _ _ _ (by omega) n⟩
      case h_2 plain => exact .pure fun n => .inl ⟨plain, rfl, rfl⟩
    case following => exact ruled_following ih
    case argument => exact ruled_argument ih
    case operator =>
      intro symbol node children items enough
      refine .bind (ih.operands symbol 0 children items (by omega)) fun n read n₁ first => ?_
      have fewer : read.2.length ≤ items.length := first.length_le
      exact .operator first (ih.clauses symbol read.1 read.2 (by omega) n₁)
    case operands => exact ruled_operands ih
    case clauses => exact ruled_clauses ih

/-- The first expression of some items follows the rules, if there are items. -/
theorem climbed_first (items : List Item) : Runs (first items) fun n r n' =>
    items = [] ∧ r = (none, []) ∧ n' = n ∨
      ∃ t, r.1 = some t ∧ Climbed (.expression 0) items n [t] r.2 n' := by
  cases items with
  | nil => exact .pure fun n => .inl ⟨rfl, rfl, rfl⟩
  | cons item rest =>
    have enough : 6 * rest.length + 7 ≤ fuelFor (item :: rest) := by
      rw [fuelFor, length_cons]
      omega
    exact fun n => .inr ((ruled _).expression 0 item rest enough n)

end Climb

end Offside
