import Offside.Proofs.Checking.Accepted
import Offside.Proofs.Errors
import Offside.Proofs.Tree.Height

/-!
# Checks without an error

If checking a tree ends without an error, the tree is accepted. For each construct this holds of a
node, given that it holds of what stands below the node.
-/

namespace Offside

open List Offside.Tree

namespace Check

/-! ## Parts of nodes -/

abbrev Passes {α : Type} (x : Check α) (fact : α → Prop) : Prop :=
  Cleanly (fun ds => ds) x fact

variable {op : Builtin} {children : List Tree} {expected : Option Nat}

theorem cleanly_require (info : Info) (expected : Option Nat) (actual : Nat) :
    Passes (require info expected actual) fun _ => Meets expected actual := by
  unfold require
  cases expected with
  | none => exact .pure nofun
  | some wanted =>
    dsimp only
    split
    case isTrue differ =>
      split
      case isTrue | isFalse => exact .of_error fun _ => Diagnostics.hasErrors_push_ne rfl
    case isFalse same =>
      refine .pure fun other isWanted => ?_
      cases isWanted
      exact not_not.mp same

/-- A node whose operands are not as many as it takes is reported. -/
theorem passes_operands {α : Type} {info : Info} {a : α} {body : Check α} {fact : α → Prop}
    (holds : Operands op children → Passes body fact) :
    Passes (do
      if !(← hasOperands info op children) then return a
      body) fact := by
  unfold hasOperands
  dsimp only
  split
  case isTrue takes =>
    rw [Bool.or_eq_true, Bool.and_eq_true, decide_eq_true_eq, decide_eq_true_eq] at takes
    exact holds takes
  case isFalse => exact .of_error fun _ => Diagnostics.hasErrors_push_ne rfl

/-- The operands of a node stand before its clauses, and there are as many as the node takes. -/
theorem Operands.split (takes : Operands op children)
    (arranges : (Symbol.builtin op).Arranges (children.map symbol))
    (limited : op.isOpenEnded = false) :
    ∃ operands clauses, children = operands ++ clauses ∧
      op.arity.minOperands ≤ (operands.filter fun c => !c.symbol.isClause).length ∧
      operands.length ≤ op.arity.maxOperands ∧
      (clauses.map symbol).Sublist (op.arity.dependents.map Symbol.builtin) := by
  rcases arranges with isOpen | ⟨front, back, parts, few, listed⟩
  · rw [limited] at isOpen
    cases isOpen
  obtain ⟨operands, clauses, rfl, rfl, rfl⟩ := map_eq_append_iff.mp parts
  refine ⟨operands, clauses, rfl, ?_, length_map (f := symbol) ▸ few, listed⟩
  have noSequence : op.arity.sequence = false := (Bool.or_eq_false_iff.mp limited).1
  have enough := (takes.resolve_left (by rw [noSequence]; exact Bool.false_ne_true)).1
  have none : clauses.filter (fun c => !c.symbol.isClause) = [] := by
    refine filter_eq_nil_iff.mpr fun clause member => ?_
    have inside := listed.subset (mem_map_of_mem member)
    obtain ⟨dependent, isDependent, same⟩ := mem_map.mp inside
    rw [← same, Symbol.isClause_of_dependent isDependent]
    exact Bool.false_ne_true
  rwa [filter_append, none, append_nil] at enough

section Counted

variable (takes : Operands op children)
  (arranges : (Symbol.builtin op).Arranges (children.map symbol))
  (limited : op.isOpenEnded = false) (alone : op.arity.dependents = [])
  {P : Tree → Prop} (each : ∀ child ∈ children, P child)

include arranges limited alone

theorem length_le_of_arranges : children.length ≤ op.arity.maxOperands := by
  have few := arranges.length_le rfl limited alone
  rwa [length_map] at few

include takes

/-- A node without clauses has as many children as it takes operands. -/
theorem Operands.length :
    op.arity.minOperands ≤ children.length ∧ children.length ≤ op.arity.maxOperands := by
  have noSequence : op.arity.sequence = false := (Bool.or_eq_false_iff.mp limited).1
  have enough := (takes.resolve_left (by rw [noSequence]; exact Bool.false_ne_true)).1
  exact ⟨Nat.le_trans enough (length_filter_le _ _), length_le_of_arranges arranges limited alone⟩

include each

theorem Operands.exists_one (one : op.arity.minOperands = 1 ∧ op.arity.maxOperands = 1) :
    ∃ only, children = [only] ∧ P only := by
  have ⟨enough, few⟩ := takes.length arranges limited alone
  rw [one.1] at enough
  rw [one.2] at few
  obtain ⟨only, rfl⟩ := length_eq_one_iff.mp (Nat.le_antisymm few enough)
  exact ⟨only, rfl, forall_mem_singleton.mp each⟩

theorem Operands.exists_two (two : op.arity.minOperands = 2 ∧ op.arity.maxOperands = 2) :
    ∃ first second, children = [first, second] ∧ P first ∧ P second := by
  have ⟨enough, few⟩ := takes.length arranges limited alone
  rw [two.1] at enough
  rw [two.2] at few
  obtain ⟨first, second, rfl⟩ := length_eq_two.mp (Nat.le_antisymm few enough)
  exact ⟨first, second, rfl, each first (.head _), each second (.tail _ (.head _))⟩

end Counted

theorem passes_yields {id : NodeId} {info : Info} {actual : Nat} {fact : Nat × Tree → Prop}
    (holds : ∀ r, Meets expected actual → fact r) :
    Passes (yields id info expected actual children) fact :=
  .bind (cleanly_require info expected actual) fun _ => .pure (holds _)

/-- Checking a tree without an error makes sure that it is accepted. -/
abbrev Clears (strict : Prop) (use : Use) (cx : JumpContext) (t : Tree) : Prop :=
  Passes (tree use cx t) fun _ => Accepts strict use cx t

variable {strict : Prop} {use : Use} {cx : JumpContext} {ts : List Tree}

theorem cleanly_trees (each : ∀ t ∈ ts, ∀ use cx, Clears strict use cx t) :
    Passes (trees use cx ts) fun _ => ∀ t ∈ ts, Accepts strict use cx t := by
  induction ts with
  | nil => exact .pure (forall_mem_nil _)
  | cons t ts ih =>
    obtain ⟨here, there⟩ := forall_mem_cons.mp each
    rw [trees]
    refine .bind (here use cx) fun _ => .bind (ih there) fun _ => .pure fun others first => ?_
    exact forall_mem_cons.mpr ⟨first, others⟩

theorem cleanly_statements (each : ∀ t ∈ ts, ∀ use cx, Clears strict use cx t) :
    Passes (statements expected cx ts) fun found => (ts = [] → found.1 = none) ∧
      ∀ job ∈ lines expected ts, Accepts strict (.produce job.2) cx job.1 := by
  induction ts with
  | nil => exact .pure ⟨fun _ => rfl, forall_mem_nil _⟩
  | cons t ts ih =>
    obtain ⟨here, there⟩ := forall_mem_cons.mp each
    cases ts with
    | nil =>
      rw [statements]
      exact .bind (here (.produce expected) cx) fun _ => .pure fun last =>
        ⟨by rintro ⟨⟩, forall_mem_singleton.mpr last⟩
    | cons next rest =>
      rw [statements]
      refine .bind (here (.produce none) cx) fun _ => .bind (ih there) fun _ => ?_
      exact .pure fun others first => ⟨by rintro ⟨⟩, forall_mem_cons.mpr ⟨first, others.2⟩⟩

theorem passes_report {d : Diagnostic} (isError : d.level = .error) :
    Passes (report d) fun _ => False :=
  .of_error fun _ => Diagnostics.hasErrors_push_ne isError

/-! ## Jumps -/

def wanted? (cx : JumpContext) : Builtin → Option (Option Nat)
  | .give | .leave => cx.leave
  | .nextRound => cx.nextRound.map some
  | _ => some (some 1)

theorem passes_jumpOperand {info : Info} {jump : Builtin} {operands : List Tree} :
    Passes (jumpOperand info jump operands cx) fun found =>
      ∃ wanted, wanted? cx jump = some wanted ∧ found = some wanted ∧
        (jump = .give ∨ jump = .leave → operands = [] → wanted.any (0 < ·) = false) := by
  have reported {d : Diagnostic} (isError : d.level = .error) {found : Option (Option Nat)}
      {fact : Option (Option Nat) → Prop} : Passes (report d >>= fun _ => pure found) fact :=
    .bind (passes_report isError) fun _ => .pure False.elim
  unfold jumpOperand
  cases jump
  case give | leave =>
    dsimp only
    cases near : cx.leave with
    | none => exact reported rfl
    | some wanted =>
      dsimp only
      split
      · exact reported rfl
      case h_2 fits =>
        refine .pure ⟨wanted, near, rfl, fun _ none => ?_⟩
        rcases wanted with _ | _ | n
        · rfl
        · rfl
        · exact absurd rfl (fits n none)
  case nextRound =>
    dsimp only
    cases near : cx.nextRound with
    | none => exact reported rfl
    | some count => exact .pure ⟨some count, congrArg (Option.map some) near, rfl, by simp⟩
  case ret =>
    dsimp only
    split
    · exact .pure ⟨some 1, rfl, rfl, by simp⟩
    · exact reported rfl
  all_goals exact .pure ⟨some 1, rfl, rfl, by simp⟩

theorem accepts_jump {t : Tree} {wanted : Option Nat} (isOp : t.symbol = .builtin op)
    (isJump : op.flags.jump = true) (near : wanted? cx op = some wanted)
    (brings : op = .give ∨ op = .leave → t.children = [] → wanted.any (0 < ·) = false)
    (throws : op = .throw → ∃ value, t.children = [value])
    (values : ∀ value, t.children.head? = some value → Accepts strict (.produce wanted) cx value) :
    Accepts strict (.produce expected) cx t := by
  cases op
  case give => exact .give isOp near (fun _ => brings (.inl rfl)) values
  case leave => exact .leave isOp near fun _ => brings (.inr rfl)
  case nextRound =>
    obtain ⟨count, found, rfl⟩ := Option.map_eq_some_iff.mp near
    exact .nextRound isOp found values
  case ret =>
    cases near
    exact .ret isOp values
  case throw =>
    cases near
    obtain ⟨value, parts⟩ := throws rfl
    exact .throw isOp parts (values value (by rw [parts]; rfl))
  all_goals cases isJump

/-! ## Clauses -/

/-- What is no clause is not one of the builtins that are. -/
theorem not_is_of_isClause {t : Tree} (noClause : t.symbol.isClause = false)
    (isClause : (Symbol.builtin op).isClause = true) : ¬t.is op = true := by
  intro isOp
  rw [symbol, Info.symbol_of_is isOp, isClause] at noClause
  cases noClause

/-- The body of a clause. -/
theorem passes_clause (clause : Tree) (isOp : clause.symbol = .builtin op)
    (isClause : (Symbol.builtin op).isClause = true)
    (arranges : clause.symbol.Arranges (clause.children.map symbol))
    (each : ∀ code ∈ clause.children, ∀ use cx, Clears strict use cx code) :
    Passes (tree (.produce expected) cx clause) fun _ =>
      ∃ code, (op = .catchClause ∧ (∃ param, clause.children = [param, code]) ∨
        op ≠ .catchClause ∧ clause.children = [code]) ∧
        Accepts strict (.produce expected) cx code := by
  obtain ⟨id, info, children⟩ := clause
  replace isOp : info.symbol = .builtin op := isOp
  replace arranges : info.symbol.Arranges (children.map symbol) := arranges
  rw [isOp] at arranges
  unfold tree
  rw [isOp]
  refine passes_operands fun takes => ?_
  cases op
  case catchClause =>
    obtain ⟨param, code, rfl, _, second⟩ := takes.exists_two arranges rfl rfl each ⟨rfl, rfl⟩
    exact .bind (second _ _) fun _ => .pure fun inner => ⟨code, .inl ⟨rfl, param, rfl⟩, inner⟩
  case elseClause | finallyClause =>
    obtain ⟨code, rfl, only⟩ := takes.exists_one arranges rfl rfl each ⟨rfl, rfl⟩
    exact .bind (only _ _) fun _ => .pure fun inner => ⟨code, .inr ⟨by decide, rfl⟩, inner⟩
  all_goals cases isClause

theorem passes_alternative {P : Tree → Prop}
    (each : ∀ t ∈ ts, t.is .elseClause = true →
      Passes (tree (.produce expected) cx t) fun _ => P t) :
    Passes (alternative expected cx ts) fun _ =>
      ∀ clause, ts.find? (·.is .elseClause) = some clause → P clause := by
  induction ts with
  | nil => exact .pure (by rintro _ ⟨⟩)
  | cons t ts ih =>
    obtain ⟨here, there⟩ := forall_mem_cons.mp each
    rw [alternative, List.find?_cons]
    split
    case isTrue isElse =>
      rw [isElse]
      refine .bind (here isElse) fun _ => .pure fun holds clause found => ?_
      cases found
      exact holds
    case isFalse noElse =>
      rw [Bool.eq_false_iff.mpr noElse]
      exact .bind (ih there) fun _ => .pure id

theorem passes_clauses {P : Tree → Prop}
    (each : ∀ t ∈ ts, Passes (tree (.produce (if t.is .finallyClause then none else expected)) cx t)
      fun _ => P t) :
    Passes (clauses expected cx ts) fun _ => ∀ t ∈ ts, P t := by
  induction ts with
  | nil => exact .pure (forall_mem_nil _)
  | cons t ts ih =>
    obtain ⟨here, there⟩ := forall_mem_cons.mp each
    rw [clauses]
    split
    case' isTrue isFinally => rw [if_pos isFinally] at here
    case' isFalse noFinally => rw [if_neg noFinally] at here
    all_goals
      refine .bind here fun _ => .bind (ih there) fun _ => .pure fun others first => ?_
      exact forall_mem_cons.mpr ⟨first, others⟩

/-- If all are needed, no operand is a clause. -/
theorem length_of_filter {count : Nat} {operands : List Tree}
    (enough : count ≤ (operands.filter fun c => !c.symbol.isClause).length)
    (few : operands.length ≤ count) :
    operands.length = count ∧ ∀ operand ∈ operands, operand.symbol.isClause = false := by
  have fewer := length_filter_le (fun c : Tree => !c.symbol.isClause) operands
  have same : operands.length = count := by omega
  refine ⟨same, fun operand member => ?_⟩
  have all := length_filter_eq_length_iff.mp (Nat.le_antisymm fewer (same ▸ enough))
  simpa using all operand member

/-! ## One level -/

section Node

variable {id : NodeId} {info : Info}
  (each : ∀ t ∈ children, ∀ use cx, Clears strict use cx t)

include each

theorem clears_simple (isOp : info.symbol = .builtin op) (simple : isSimple op = true) :
    Clears strict (.produce expected) cx (.node id info children) := by
  have same : tree (.produce expected) cx (.node id info children) = (do
      if !(← hasOperands info op children) then return noted id info (expected.getD 0) children
      yields id info expected 1 (← trees (.produce (some 1)) cx children)) := by
    unfold tree
    rw [isOp]
    cases op <;> first | (cases children <;> rfl) | cases simple
  unfold Clears
  rw [same]
  refine passes_operands fun takes => .bind (cleanly_trees each) fun _ => ?_
  exact passes_yields fun _ one operands => .operator isOp simple takes one operands

theorem clears_lines {kind : BlockKind} (isBlock : info.symbol = .block kind)
    (opens : kind.opensScope = true) :
    Clears strict (.produce expected) cx (.node id info children) := by
  unfold Clears tree
  rw [isBlock]
  cases kind with
  | root => exact .bind (cleanly_trees each) fun _ => .pure fun lines => .root isBlock lines
  | block =>
    refine .bind (cleanly_statements each) fun found => ?_
    obtain ⟨_ | count, checked⟩ := found
    · exact passes_yields fun _ enough lines => .block isBlock (fun _ _ => enough) lines.2
    · exact .pure fun lines => .block isBlock (fun _ none => by cases lines.1 none) lines.2
  | doBlock =>
    refine .bind (cleanly_statements each) fun found => ?_
    obtain ⟨_ | count, checked⟩ := found
    · exact passes_yields fun _ enough lines => .doBlock isBlock (fun _ _ => enough) lines.2
    · exact .pure fun lines => .doBlock isBlock (fun _ none => by cases lines.1 none) lines.2
  | _ => cases opens

variable (arranges : info.symbol.Arranges (children.map symbol))
  (clauses : ∀ clause ∈ children, clause.symbol.Arranges (clause.children.map symbol) ∧
    ∀ t ∈ clause.children, ∀ use cx, Clears strict use cx t)

include arranges

theorem clears_jump (isOp : info.symbol = .builtin op) (isJump : op.flags.jump = true) :
    Clears strict (.produce expected) cx (.node id info children) := by
  rw [isOp] at arranges
  unfold Clears tree
  rw [isOp]
  refine passes_operands fun takes => ?_
  have parts : children = [] ∧ op ≠ .throw ∨ ∃ value, children = [value] := by
    have limited : op.isOpenEnded = false ∧ op.arity.dependents = [] ∧ op.arity.maxOperands ≤ 1 ∧
        (op = .throw → op.arity.minOperands = 1) := by
      cases op <;> first | exact ⟨rfl, rfl, by decide, by decide⟩ | cases isJump
    obtain ⟨enough, few⟩ := takes.length arranges limited.1 limited.2.1
    rcases children with _ | ⟨value, _ | ⟨second, rest⟩⟩
    · refine .inl ⟨rfl, fun isThrow => ?_⟩
      rw [limited.2.2.2 isThrow] at enough
      cases enough
    · exact .inr ⟨value, rfl⟩
    · have two := Nat.le_trans few limited.2.2.1
      simp at two
  have accepts {wanted : Option Nat} (near : wanted? cx op = some wanted)
      (brings : op = .give ∨ op = .leave → children = [] → wanted.any (0 < ·) = false)
      (inner : ∀ value, children.head? = some value → Accepts strict (.produce wanted) cx value) :
      Accepts strict (.produce expected) cx (.node id info children) :=
    accepts_jump isOp isJump near brings
      (fun isThrow => parts.resolve_left fun none => none.2 isThrow) inner
  rcases parts with ⟨rfl, -⟩ | ⟨value, rfl⟩
  · cases op
    case give | nextRound | leave | ret | throw =>
      refine .bind passes_jumpOperand fun _ => .pure fun found => ?_
      obtain ⟨_, near, _, brings⟩ := found
      exact accepts near brings (by rintro _ ⟨⟩)
    all_goals cases isJump
  · have only := forall_mem_singleton.mp each
    cases op
    case give | nextRound | leave | ret | throw =>
      refine .bind passes_jumpOperand fun wanted => ?_
      cases wanted with
      | none => exact .pure (by rintro ⟨_, _, ⟨⟩, _⟩)
      | some wanted =>
        refine .bind (only _ _) fun _ => .pure fun inner found => ?_
        obtain ⟨_, near, ⟨⟩, brings⟩ := found
        exact accepts near brings (by rintro _ ⟨⟩; exact inner)
    all_goals cases isJump

include clauses

theorem clears_choice (isIf : info.symbol = .builtin .ifThen) :
    Clears strict (.produce expected) cx (.node id info children) := by
  rw [isIf] at arranges
  unfold Clears tree
  rw [isIf]
  refine passes_operands fun takes => ?_
  obtain ⟨operands, rest, rfl, enough, few, _⟩ := takes.split arranges rfl
  obtain ⟨two, noClause⟩ := length_of_filter enough few
  obtain ⟨condition, branch, rfl⟩ := length_eq_two.mp two
  obtain ⟨first, second, _⟩ := forall_mem_cons.mp each |>.imp_right forall_mem_cons.mp
  have noElse : ¬branch.is .elseClause = true :=
    not_is_of_isClause (noClause branch (.tail _ (.head _))) rfl
  change Passes (tree _ _ condition >>= _) _
  refine .bind (first _ _) fun _ => ?_
  dsimp only
  split
  case isTrue =>
    refine .bind (passes_report rfl) fun _ => .bind (second _ _) fun _ => ?_
    exact .pure fun _ impossible => impossible.elim
  case isFalse complete =>
    refine .bind (second _ _) fun _ => ?_
    have alternatives : Passes (alternative expected cx rest) fun _ =>
        ∀ clause, rest.find? (·.is .elseClause) = some clause →
          ∃ code, clause.children = [code] ∧ Accepts strict (.produce expected) cx code := by
      refine passes_alternative fun clause member isElse => ?_
      obtain ⟨shape, below⟩ := clauses clause (mem_append_right _ member)
      refine (passes_clause clause (Info.symbol_of_is isElse) rfl shape below).mono
        fun _ inner => ?_
      obtain ⟨code, ⟨⟨⟩, _⟩ | ⟨_, only⟩, accepts⟩ := inner
      exact ⟨code, only, accepts⟩
    refine .bind alternatives fun _ => .pure fun behind consequent test => ?_
    refine .choice isIf rfl (fun _ asked => ?_) ?_ test consequent ?_
    · rw [List.find?_isSome]
      simpa [noElse, asked] using complete
    · exact fun clause found => (behind clause found).imp fun _ => And.left
    · intro clause code found inside
      obtain ⟨other, same, accepts⟩ := behind clause found
      cases inside.symm.trans same
      exact accepts

theorem clears_tryBlock (isTry : info.symbol = .builtin .tryBlock) :
    Clears strict (.produce expected) cx (.node id info children) := by
  rw [isTry] at arranges
  unfold Clears tree
  rw [isTry]
  refine passes_operands fun takes => ?_
  obtain ⟨operands, rest, rfl, enough, few, listed⟩ := takes.split arranges rfl
  obtain ⟨one, noClause⟩ := length_of_filter enough few
  obtain ⟨code, rfl⟩ := length_eq_one_iff.mp one
  have first := (forall_mem_cons.mp each).1
  have noFinally : ¬code.is .finallyClause = true :=
    not_is_of_isClause (noClause code (.head _)) rfl
  let fits (clause : Tree) : Prop :=
    (clause.symbol = .builtin .catchClause ∧ (∃ param body, clause.children = [param, body]) ∨
      clause.symbol = .builtin .finallyClause ∧ ∃ body, clause.children = [body]) ∧
    (∀ param body, clause.children = [param, body] → Accepts strict (.produce expected) cx body) ∧
    ∀ body, clause.children = [body] → Accepts strict (.produce none) cx body
  have passes (clause : Tree) (member : clause ∈ rest) :
      Passes (tree (.produce (if clause.is .finallyClause then none else expected)) cx clause)
        fun _ => fits clause := by
    obtain ⟨shape, below⟩ := clauses clause (mem_append_right _ member)
    have kind : clause.symbol ∈ [Symbol.builtin .catchClause, .builtin .finallyClause] :=
      listed.subset (mem_map_of_mem member)
    rw [mem_cons, mem_singleton] at kind
    rcases kind with isCatch | isFinally
    · have isOther : clause.is .finallyClause = false := by
        rw [is, Info.is, ← symbol, isCatch]
        rfl
      rw [isOther]
      refine (passes_clause clause isCatch rfl shape below).mono fun _ inner => ?_
      obtain ⟨body, ⟨_, param, parts⟩ | ⟨other, _⟩, accepts⟩ := inner
      · refine ⟨.inl ⟨isCatch, param, body, parts⟩, ?_, ?_⟩
        · rintro _ _ same
          cases parts.symm.trans same
          exact accepts
        · intro _ same
          cases parts.symm.trans same
      · exact absurd rfl other
    · have found : clause.is .finallyClause = true := Info.is_of_symbol isFinally
      rw [found]
      refine (passes_clause clause isFinally rfl shape below).mono fun _ inner => ?_
      obtain ⟨body, ⟨⟨⟩, _⟩ | ⟨_, parts⟩, accepts⟩ := inner
      refine ⟨.inr ⟨isFinally, body, parts⟩, ?_, ?_⟩
      · intro _ _ same
        cases parts.symm.trans same
      · intro _ same
        cases parts.symm.trans same
        exact accepts
  have all : Passes (Check.clauses expected cx (code :: rest)) fun _ =>
      Accepts strict (.produce expected) cx code ∧ ∀ clause ∈ rest, fits clause := by
    rw [Check.clauses, if_neg noFinally]
    exact .bind (first _ _) fun _ => .bind (passes_clauses passes) fun _ =>
      .pure fun behind inner =>
      ⟨inner, behind⟩
  refine .bind all fun _ => .pure fun parts => .tryBlock isTry rfl ?_ parts.1 ?_ ?_
  · exact fun clause member => (parts.2 clause member).1
  · exact fun clause member => (parts.2 clause member).2.1
  · exact fun clause member => (parts.2 clause member).2.2

theorem clears_builtin (isOp : info.symbol = .builtin op) (special : isSimple op = false)
    (noJump : op.flags.jump = false) :
    Clears strict (.produce expected) cx (.node id info children) := by
  cases op
  case ifThen => exact clears_choice each arranges clauses isOp
  case tryBlock => exact clears_tryBlock each arranges clauses isOp
  case elseClause | finallyClause | catchClause =>
    refine (passes_clause (.node id info children) isOp rfl arranges each).mono fun _ _ => .stray ?_
    exact congrArg Symbol.isClause isOp
  all_goals
    rw [isOp] at arranges
    unfold Clears tree
    rw [isOp]
    refine passes_operands fun takes => ?_
  -- values
  case tuple =>
    change Passes (trees (.produce (some 1)) cx children >>= fun parts =>
      yields id info expected parts.length parts) _
    rw [bind_trees_length fun count parts => yields id info expected count parts]
    refine .bind (cleanly_trees each) fun _ => ?_
    exact passes_yields fun _ count elements => .tuple isOp count elements
  case object =>
    refine .bind (cleanly_trees each) fun _ => ?_
    exact passes_yields fun _ one entries => .object isOp one entries
  case member =>
    obtain ⟨object, property, rfl, first, _⟩ := takes.exists_two arranges rfl rfl each ⟨rfl, rfl⟩
    exact .bind (first _ _) fun _ => passes_yields fun _ one inner => .member isOp rfl one inner
  case fn =>
    obtain ⟨params, code, rfl, _, second⟩ := takes.exists_two arranges rfl rfl each ⟨rfl, rfl⟩
    exact .bind (second _ _) fun _ => passes_yields fun _ one inner => .function isOp rfl one inner
  -- declarations and assignments
  case var | const =>
    obtain ⟨inner, rfl, _⟩ := takes.exists_one arranges rfl rfl each ⟨rfl, rfl⟩
    exact passes_yields fun _ count => .declaration isOp (by decide) rfl count
  case external => exact passes_yields fun _ none => .external isOp fun _ => none
  case assign =>
    obtain ⟨left, right, rfl, first, second⟩ := takes.exists_two arranges rfl rfl each ⟨rfl, rfl⟩
    refine .bind (first _ _) fun _ => .bind (second _ _) fun _ => ?_
    exact passes_yields fun _ count value target => .assign isOp rfl count target value
  -- loops
  case whileLoop =>
    obtain ⟨condition, code, rfl, first, second⟩ :=
      takes.exists_two arranges rfl rfl each ⟨rfl, rfl⟩
    refine .bind (first _ _) fun _ => .bind (second _ _) fun _ => ?_
    exact passes_yields fun _ none inner test => .whileLoop isOp rfl (fun _ => none) test inner
  case loop =>
    obtain ⟨enough, few⟩ := takes.length arranges rfl rfl
    rcases children with _ | ⟨head, _ | ⟨code, _ | ⟨third, rest⟩⟩⟩
    · cases enough
    · have only := forall_mem_singleton.mp each
      exact .bind (only _ _) fun _ => .pure fun inner => .endless isOp rfl inner
    · obtain ⟨first, rest⟩ := forall_mem_cons.mp each
      have second := forall_mem_singleton.mp rest
      refine .bind (first _ _) fun _ => .bind (second _ _) fun _ => .pure fun inner start => ?_
      exact .loop isOp rfl start inner
    · exact absurd (Nat.le_of_succ_le_succ (Nat.le_of_succ_le_succ few)) (Nat.not_succ_le_zero _)
  all_goals contradiction

end Node

/-! ## All trees -/

variable {admitted : String → Prop}

section

variable {t : Tree} (each : ∀ child ∈ t.children, ∀ use cx, Clears strict use cx child)
include each

/-- A tree that produces values. -/
theorem clears_produce (formed : t.Obeys (Info.Formed admitted))
    (clauses : ∀ clause ∈ t.children, ∀ child ∈ clause.children,
      ∀ use cx, Clears strict use cx child) :
    Clears strict (.produce expected) cx t := by
  have law := formed.root
  have shapes (clause : Tree) (member : clause ∈ t.children) :
      clause.symbol.Arranges (clause.children.map symbol) ∧
        ∀ child ∈ clause.children, ∀ use cx, Clears strict use cx child :=
    ⟨(obeyAll_iff.mp formed.children clause member).root.arranges, clauses clause member⟩
  obtain ⟨id, info, children⟩ := t
  have arranges : info.symbol.Arranges (children.map symbol) := law.arranges
  have carries : info.symbol.Carries admitted info.value := law.carries
  cases isSymbol : info.symbol with
  | block kind =>
    have opens : kind.opensScope = true := by
      rw [isSymbol] at carries
      cases isValue : info.value with
      | none =>
        rw [isValue] at carries
        exact carries
      | some value =>
        rw [isValue] at carries
        cases carries
    exact clears_lines each isSymbol opens
  | builtin op =>
    cases simple : isSimple op with
    | true => exact clears_simple each isSymbol simple
    | false =>
      cases jumps : op.flags.jump with
      | true => exact clears_jump each arranges isSymbol jumps
      | false => exact clears_builtin each arranges shapes isSymbol simple jumps
  | expander m =>
    unfold Clears tree
    rw [isSymbol]
    exact .pure (.invocation isSymbol)
  | value =>
    unfold Clears tree
    rw [isSymbol]
    exact passes_yields fun _ one => .leaf (.inl isSymbol) one
  | tag kind =>
    unfold Clears tree
    rw [isSymbol]
    exact passes_yields fun _ one => .leaf (.inr ⟨kind, isSymbol⟩) one
  | _ =>
    rw [isSymbol] at carries
    cases isValue : info.value with
    | none | some value =>
      rw [isValue] at carries
      cases carries

/-- A tree that is assigned to. -/
theorem clears_receive (produces : Clears strict (.produce (some 1)) cx t) :
    Clears strict .receive cx t := by
  obtain ⟨id, info, children⟩ := t
  unfold Clears
  cases demanded : demand? .receive info.symbol with
  | none =>
    rw [tree_received info demanded]
    split
    case isTrue isTuple =>
      exact .bind (cleanly_trees each) fun _ => .pure fun elements => .targets isTuple elements
    case isFalse noTuple =>
      refine .pure (.given fun op member isOp => ?_)
      change info.symbol = _ at isOp
      simp only [mem_cons, not_mem_nil, or_false] at member
      rcases member with rfl | rfl | rfl
      · exact noTuple isOp
      all_goals cases isOp ▸ demanded
  | some expected =>
    rw [tree_demanded info demanded (by simp)]
    unfold demand? at demanded
    split at demanded
    all_goals cases demanded
    case h_3 isMember => exact produces.mono fun _ value => .place isMember (.inl rfl) value
    case h_4 isElement => exact produces.mono fun _ value => .place isElement (.inr rfl) value
    all_goals contradiction

/-- An entry of an object. -/
theorem clears_entry (formed : t.Obeys (Info.Formed admitted))
    (produces : Clears strict (.produce (some 1)) cx t) : Clears strict .entry cx t := by
  obtain ⟨id, info, children⟩ := t
  by_cases isPair : info.symbol = .builtin .pair
  case neg =>
    unfold Clears
    rw [tree_demanded info rfl fun entry => isPair entry.2.1]
    exact produces.mono fun _ value => .bare isPair value
  case pos =>
    have arranges : info.symbol.Arranges (children.map symbol) := formed.root.arranges
    rw [isPair] at arranges
    unfold Clears tree
    rw [isPair]
    rcases children with _ | ⟨key, _ | ⟨value, _ | ⟨third, rest⟩⟩⟩
    case cons.cons.nil =>
      have second := each value (.tail _ (.head _))
      exact .bind (second _ _) fun _ => .pure fun inner => .pair isPair rfl inner
    case cons.cons.cons =>
      have few : _ ≤ 2 := length_le_of_arranges arranges rfl rfl
      simp at few
    all_goals
      refine passes_operands fun takes => ?_
      have enough := (takes.length arranges rfl rfl).1
      simp [Builtin.arity, Arity.minOperands, Arity.binary] at enough

end

/-- A tree is accepted if checking it ends without an error. -/
theorem clears_of_formed {t : Tree} (formed : t.Obeys (Info.Formed admitted)) :
    ∀ use cx, Clears strict use cx t := by
  induction t using induction_on_height with
  | step t ih =>
    have below {u child : Tree} (obeys : u.Obeys (Info.Formed admitted))
      (member : child ∈ u.children)
        (low : child.height < t.height) : ∀ use cx, Clears strict use cx child :=
      ih child low (obeyAll_iff.mp obeys.children child member)
    have each (child : Tree) (member : child ∈ t.children) : ∀ use cx, Clears strict use cx child :=
      below formed member (height_lt_of_mem member)
    have clauses (clause : Tree) (member : clause ∈ t.children) (child : Tree)
        (inside : child ∈ clause.children) : ∀ use cx, Clears strict use cx child :=
      below (obeyAll_iff.mp formed.children clause member) inside
        (Nat.lt_trans (height_lt_of_mem inside) (height_lt_of_mem member))
    have produces (expected : Option Nat) (cx : JumpContext) :
        Clears strict (.produce expected) cx t :=
      clears_produce each formed clauses
    intro use cx
    cases use with
    | produce expected => exact produces expected cx
    | receive => exact clears_receive each (produces _ cx)
    | entry => exact clears_entry each formed (produces _ cx)

end Check

end Offside
