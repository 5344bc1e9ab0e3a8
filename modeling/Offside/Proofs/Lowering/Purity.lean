import Offside.Compilation
import Offside.Proofs.Binding.Paths
import Offside.Proofs.Lowering.Growth
import Offside.Proofs.Lowering.Derivations

/-!
# Pure nodes

A pure node is built without statements and without temporaries, if the properties that it computes
are pure as well. Purity does not look at these properties: one that is no expression goes through
a temporary of the host, and its statements run before the node, even if the node stands where it
need not be reached.
-/

namespace Offside

open List

namespace Lowering

mutual

/-- Decides whether the properties that a node computes are pure; a function computes none. -/
def readsPurely : Tree → Bool
  | .node _ info children =>
    match info.symbol, children with
    | .builtin .fn, _ => true
    | .builtin .member, [object, property] =>
      readsPurely object && (isNamed property || isPure property && readsPurely property)
    | .builtin .pair, [_, value] => readsPurely value
    -- other pairs are not built at all
    | .builtin .pair, _ => false
    | _, children => allReadPurely children

/-- Decides whether the properties that some nodes compute are pure. -/
def allReadPurely : List Tree → Bool
  | [] => true
  | t :: ts => readsPurely t && allReadPurely ts

end

/-- A node that can be written inside of an expression as it is. -/
structure Inline (t : Tree) : Prop where
  pure : isPure t = true
  reads : readsPurely t = true

variable {α β : Type} {s : GenState} {t : Tree} {op : Builtin}

/-! ## Parts of pure nodes -/

theorem forall_of_allReadPurely {ts : List Tree} (all : allReadPurely ts = true) :
    ∀ child ∈ ts, readsPurely child = true := by
  induction ts with
  | nil => exact forall_mem_nil _
  | cons t ts ih =>
    rw [allReadPurely, Bool.and_eq_true] at all
    exact forall_mem_cons.mpr ⟨all.1, ih all.2⟩

theorem forall_of_arePureIn {place : Place} {ts : List Tree} (all : arePureIn place ts = true) :
    ∀ child ∈ ts, isPureIn place child = true := by
  induction ts with
  | nil => exact forall_mem_nil _
  | cons t ts ih =>
    rw [arePureIn, Bool.and_eq_true] at all
    exact forall_mem_cons.mpr ⟨all.1, ih all.2⟩

theorem reads_child (reads : readsPurely t = true)
    (other : t.symbol ∉ [.builtin .fn, .builtin .member, .builtin .pair]) :
    ∀ child ∈ t.children, readsPurely child = true := by
  obtain ⟨id, info, children⟩ := t
  unfold readsPurely at reads
  split at reads
  case h_5 => exact forall_of_allReadPurely reads
  all_goals
    have isSymbol : info.symbol = _ := ‹_›
    exact absurd (show info.symbol ∈ _ by simp [isSymbol]) other

theorem reads_member {object property : Tree} (isMember : t.symbol = .builtin .member)
    (parts : t.children = [object, property]) (reads : readsPurely t = true) :
    readsPurely object = true ∧ (isNamed property = true ∨ Inline property) := by
  rw [Tree.eq_node isMember parts] at reads
  have ⟨inObject, inProperty⟩ := Bool.and_eq_true_iff.mp reads
  refine ⟨inObject, (Bool.or_eq_true_iff.mp inProperty).imp_right fun inline => ?_⟩
  exact ⟨(Bool.and_eq_true_iff.mp inline).1, (Bool.and_eq_true_iff.mp inline).2⟩

theorem Inline.children (inline : Inline t) (isOp : t.symbol = .builtin op)
    (takes : takesValues t.children op = true) (noAssign : op ≠ .assign) :
    ∀ child ∈ t.children, Inline child := by
  have reads := reads_child inline.reads (by
    rw [isOp]
    cases op <;> first | decide | cases takes)
  have pure : arePureIn .value t.children = true := by
    have pure := inline.pure
    rw [isPure, Tree.eq_node isOp rfl] at pure
    cases op
    case assign => exact absurd rfl noAssign
    all_goals first | exact (Bool.and_eq_true_iff.mp pure).2 | cases takes
  exact fun child member => ⟨forall_of_arePureIn pure child member, reads child member⟩

theorem Inline.member {object property : Tree} (inline : Inline t)
    (isMember : t.symbol = .builtin .member) (parts : t.children = [object, property]) :
    Inline object ∧ (isNamed property = true ∨ Inline property) := by
  obtain ⟨reads, inside⟩ := reads_member isMember parts inline.reads
  refine ⟨⟨?_, reads⟩, inside⟩
  have pure := inline.pure
  rw [isPure, Tree.eq_node isMember parts] at pure
  exact pure

theorem inline_entryValue (pure : isPureIn .entry t = true) (reads : readsPurely t = true) :
    Inline (entryValue t) := by
  obtain ⟨id, info, children⟩ := t
  by_cases isPair : info.symbol = .builtin .pair
  · unfold readsPurely at reads
    unfold isPureIn at pure
    rw [isPair] at reads pure
    rcases children with _ | ⟨key, _ | ⟨value, _ | ⟨third, rest⟩⟩⟩
    case cons.cons.nil =>
      have same : entryValue (.node id info [key, value]) = value := by
        rw [entryValue, Tree.is, Info.is, show (Tree.node id info [key, value]).info =
          info from rfl, isPair]
        rfl
      rw [same]
      exact ⟨pure, reads⟩
    all_goals cases reads
  · have same : entryValue (.node id info children) = .node id info children := by
      have noPair : (Tree.node id info children).is .pair = false :=
        decide_eq_false fun found => isPair (Symbol.eq_builtin_of_builtin? found)
      rw [entryValue, noPair]
    rw [same]
    refine ⟨?_, reads⟩
    rw [isPure]
    unfold isPureIn at pure ⊢
    cases isSymbol : info.symbol with
    | builtin op =>
      rw [isSymbol] at isPair
      simp only [isSymbol] at pure ⊢
      cases op
      case pair => exact absurd rfl isPair
      case ifThen =>
        rcases children with _ | ⟨c, _ | ⟨b, _ | ⟨⟨_, _, _ | ⟨o, more⟩⟩, _ | ⟨third, rest⟩⟩⟩⟩ <;>
          exact pure
      all_goals exact pure
    | _ =>
      simp only [isSymbol] at pure ⊢
      exact pure

theorem Inline.entries (inline : Inline t) (isObject : t.symbol = .builtin .object) :
    ∀ entry ∈ t.children, Inline (entryValue entry) := by
  have reads := reads_child inline.reads (isObject ▸ by decide)
  have pure : arePureIn .entry t.children = true := by
    have pure := inline.pure
    rw [isPure, Tree.eq_node isObject rfl] at pure
    exact pure
  exact fun entry member =>
    inline_entryValue (forall_of_arePureIn pure entry member) (reads entry member)

theorem Inline.assign {left right : Tree} (inline : Inline t)
    (isAssign : t.symbol = .builtin .assign) (parts : t.children = [left, right]) :
    isPureIn .target left = true ∧ readsPurely left = true ∧ Inline right := by
  have reads := reads_child inline.reads (isAssign ▸ by decide)
  have pure := inline.pure
  rw [parts] at reads
  rw [isPure, Tree.eq_node isAssign parts] at pure
  have both := Bool.and_eq_true_iff.mp (Bool.and_eq_true_iff.mp pure).2
  exact ⟨both.1, reads _ (.head _), both.2, reads _ (.tail _ (.head _))⟩

/-- The parts of a target are computed as in a value. -/
theorem inline_of_target (pure : isPureIn .target t = true) (reads : readsPurely t = true)
    (isPlace : t.symbol = .builtin .member ∨ t.symbol = .builtin .element) : Inline t := by
  refine ⟨?_, reads⟩
  obtain ⟨id, info, children⟩ := t
  rw [isPure]
  unfold isPureIn at pure ⊢
  rcases isPlace with isMember | isElement
  · change info.symbol = _ at isMember
    simp only [isMember] at pure ⊢
    cases children <;> exact pure
  · change info.symbol = _ at isElement
    simp only [isElement] at pure ⊢
    exact pure

theorem Inline.of_singleValue {branch value : Tree} (single : singleValue? branch = some value)
    (pure : isPure value = true) (reads : readsPurely branch = true) : Inline value := by
  rw [singleValue?] at single
  split at single
  case h_1 line isBlock parts =>
    have lineReads := reads_child reads (isBlock ▸ by decide) line (parts ▸ mem_cons_self)
    split at single
    · cases single
    · cases single
      exact ⟨pure, lineReads⟩
  case h_2 => cases single
  case h_3 =>
    cases single
    exact ⟨pure, reads⟩

theorem Inline.conditional {condition consequent alternate : Tree} (inline : Inline t)
    (isIf : t.symbol = .builtin .ifThen)
    (found : conditional? t = some (condition, consequent, alternate)) :
    Inline condition ∧ Inline consequent ∧ Inline alternate := by
  have isIfThen : t.is .ifThen = true := by
    change decide (t.symbol.builtin? = some .ifThen) = true
    rw [isIf]
    rfl
  obtain ⟨_, branch, clause, other, more, _, _, parts, isElse, inner, same, single, singleOther,
    pureCondition, pureConsequent, pureAlternate⟩ := exists_conditional isIfThen inline.pure
  cases found.symm.trans same
  have reads := reads_child inline.reads (isIf ▸ by decide)
  simp only [parts, forall_mem_cons] at reads
  have isClause : clause.symbol = .builtin .elseClause :=
    Info.symbol_of_is isElse
  have otherReads := reads_child reads.2.2.1 (isClause ▸ by decide) other
    (inner ▸ mem_cons_self)
  exact ⟨⟨pureCondition, reads.1⟩, .of_singleValue single pureConsequent reads.2.1,
    .of_singleValue singleOther pureAlternate otherReads⟩

/-! ## Generation without statements -/

/-- A computation that makes no statements and leaves the temporaries of the hosts as they are. -/
def Quietly (s : GenState) (x : Gen (List Stmt × α)) : Prop :=
  Ensures s x fun r s' => r.1 = [] ∧ s'.hosts = s.hosts

namespace Quietly

theorem pure {a : α} : Quietly s (Pure.pure ([], a)) :=
  Ensures.pure ⟨rfl, rfl⟩

theorem bind {x : Gen (List Stmt × α)} {f : List Stmt × α → Gen (List Stmt × β)}
    (first : Quietly s x) (second : ∀ a s', Quietly s' (f ([], a))) : Quietly s (x >>= f) := by
  refine Ensures.bind first fun r s' quiet => ?_
  obtain ⟨stmts, a⟩ := r
  obtain ⟨rfl, same⟩ := quiet
  refine (second a s').mono fun _ s'' later => ?_
  exact ⟨later.1, later.2.trans same⟩

/-- A first computation that leaves the state as it is. -/
theorem read {γ : Type} {x : Gen γ} {f : γ → Gen (List Stmt × β)} {P : γ → Prop}
    (same : Ensures s x fun a s' => P a ∧ s' = s) (second : ∀ a, P a → Quietly s (f a)) :
    Quietly s (x >>= f) := by
  refine Ensures.bind same ?_
  rintro a s' ⟨holds, rfl⟩
  exact second a holds

end Quietly

theorem quietly_function {below : Below} {level : Nat} (sound : below.Sound level) (t : Tree)
    (s : GenState) :
    Quietly s (below.function t) := by
  rw [Below.function]
  split
  case h_1 params code parts =>
    refine .read (fares_namesOf params s).ensures fun names _ => ?_
    refine Ensures.bind (P := fun _ s' => s'.hosts = s.hosts) ?_ fun _ _ same => .pure ⟨rfl, same⟩
    refine (fares_inFunction (fares_inHost ((Below.fares_body sound code _ rfl).mono ?_))).ensures
    intro body s₁ made
    exact made.grows.hosts_exitHost
  case h_2 => exact Ensures.malformed

section Levels

variable {below : Below} (quiet : ∀ t s, Inline t → Quietly s (below.build t))
include quiet

theorem quietly_value (inline : Inline t) (s : GenState) : Quietly s (below.value t) := by
  rw [Below.value, if_pos (isExpression_of_isPure inline.pure)]
  exact quiet t s inline

theorem quietly_operands {ts : List Tree} (inline : ∀ t ∈ ts, Inline t) (s : GenState) :
    Quietly s (below.operands ts) := by
  induction ts generalizing s with
  | nil => exact .pure
  | cons t ts ih =>
    obtain ⟨first, rest⟩ := forall_mem_cons.mp inline
    have allPure : ts.all isPure = true := all_eq_true.mpr fun t member => (rest t member).pure
    rw [Below.operands]
    refine .bind (quietly_value quiet first s) fun e s₁ => ?_
    simp only [if_pos allPure]
    refine .bind .pure fun e s₂ => ?_
    exact .bind (ih rest s₂) fun es s₃ => .pure

theorem quietly_property {object : Expr} (reads : isNamed t = true ∨ Inline t) (s : GenState) :
    Quietly s (below.property object t) := by
  rw [Below.property]
  split
  case h_1 => exact .pure
  case h_2 unnamed =>
    have inline : Inline t := by
      refine reads.resolve_left fun named => ?_
      rw [isNamed, Bool.and_eq_true] at named
      obtain ⟨name, isName⟩ := Option.isSome_iff_exists.mp named.2
      exact unnamed name named.1 isName
    exact .bind (quietly_value quiet inline s) fun e s₁ => .pure

theorem quietly_target (pure : isPureIn .target t = true) (reads : readsPurely t = true)
    (s : GenState) : Quietly s (below.target t false) := by
  rw [Below.target]
  split
  case isTrue => exact .read (fares_tagName t s).ensures fun _ _ => .pure
  case isFalse =>
    split
    case h_1 inner _ _ _ | h_2 inner _ _ _ =>
      exact .read (fares_tagName inner s).ensures fun _ _ => .pure
    case h_3 | h_4 => exact Ensures.malformed
    case h_5 object property isMember parts =>
      have isSymbol := Symbol.eq_builtin_of_builtin? isMember
      have inline := (inline_of_target pure reads (.inl isSymbol)).member isSymbol parts
      refine .bind (quietly_value quiet inline.1 s) fun e s₁ => ?_
      refine .bind .pure fun e s₂ => ?_
      exact .bind (quietly_property quiet inline.2 s₂) fun e s₃ => .pure
    case h_6 => exact Ensures.malformed
    case h_7 isElement =>
      have isSymbol := Symbol.eq_builtin_of_builtin? isElement
      have inline :=
        (inline_of_target pure reads (.inr isSymbol)).children isSymbol rfl (by rintro ⟨⟩)
      refine .bind (quietly_operands quiet inline s) fun es s₁ => ?_
      refine .bind .pure fun es s₂ => ?_
      dsimp only
      split
      case h_1 => exact .pure
      case h_2 => exact Ensures.malformed
    case h_8 => exact Ensures.malformed

theorem quietly_logical (inline : ∀ child ∈ t.children, Inline child) (logical : LogicalOp)
    (s : GenState) : Quietly s (below.logical t logical) := by
  rw [Below.logical]
  split
  case h_1 left right parts =>
    simp only [parts, forall_mem_cons] at inline
    refine .bind (quietly_value quiet inline.1 s) fun e s₁ => ?_
    simp only [if_pos inline.2.1.pure]
    exact .bind (quiet right s₁ inline.2.1) fun e s₂ => .pure
  case h_2 => exact Ensures.malformed

theorem quietly_callParts (inline : ∀ child ∈ t.children, Inline child) (s : GenState) :
    Quietly s (below.callParts t) := by
  rw [Below.callParts]
  refine .bind (quietly_operands quiet inline s) fun es s₁ => ?_
  cases es with
  | nil => exact Ensures.malformed
  | cons callee arguments => exact .pure

theorem quietly_construction {operand : Tree} (inline : Inline operand) (s : GenState) :
    Quietly s (if operand.is .call then do
        let (stmts, callee, arguments) ← below.callParts operand
        return (stmts, Expr.new callee arguments)
      else do
        let (stmts, callee) ← below.value operand
        return (stmts, .new callee [])) := by
  split
  case isTrue isCall =>
    have isSymbol := Info.symbol_of_is isCall
    have parts := inline.children isSymbol rfl (by rintro ⟨⟩)
    exact .bind (quietly_callParts quiet parts s) fun _ _ => .pure
  case isFalse => exact .bind (quietly_value quiet inline s) fun _ _ => .pure

theorem quietly_buildBuiltin {level : Nat} (sound : below.Sound level) (inline : Inline t)
    (isOp : t.symbol = .builtin op) (s : GenState) : Quietly s (below.buildBuiltin t op) := by
  have children := inline.children isOp
  unfold Below.buildBuiltin
  split
  -- `and` and `or`
  case h_1 | h_2 => exact quietly_logical quiet (children rfl (by rintro ⟨⟩)) _ s
  -- operators on one value
  case h_3 operand parts | h_4 operand parts =>
    have only := children rfl (by rintro ⟨⟩) operand (parts ▸ mem_cons_self)
    exact .bind (quietly_value quiet only s) fun _ _ => .pure
  case h_5 | h_6 => exact Ensures.malformed
  -- members and elements
  case h_7 object property parts =>
    have reads := inline.member isOp parts
    refine .bind (quietly_value quiet reads.1 s) fun e s₁ => ?_
    exact .bind (quietly_property quiet reads.2 s₁) fun _ _ => .pure
  case h_8 => exact Ensures.malformed
  case h_9 =>
    refine .bind (quietly_operands quiet (children rfl (by rintro ⟨⟩)) s) fun es s₁ => ?_
    split
    case h_1 pair =>
      cases pair
      exact .pure
    case h_2 => exact Ensures.malformed
  -- calls
  case h_10 =>
    exact .bind (quietly_callParts quiet (children rfl (by rintro ⟨⟩)) s) fun _ _ => .pure
  case h_11 operand parts =>
    exact quietly_construction quiet (children rfl (by rintro ⟨⟩) operand (parts ▸ mem_cons_self)) s
  case h_12 => exact Ensures.malformed
  -- literals of several values
  case h_13 =>
    exact .bind (quietly_operands quiet (children rfl (by rintro ⟨⟩)) s) fun _ _ => .pure
  case h_14 =>
    refine .read (Below.fares_entries t.children s).ensures fun fields values => ?_
    have inside : ∀ value ∈ fields.map Prod.snd, Inline value := by
      rw [values]
      exact forall_mem_map.mpr (inline.entries isOp)
    exact .bind (quietly_operands quiet inside s) fun _ _ => .pure
  case h_15 => exact quietly_function sound t s
  -- names that are declared where they stand
  case h_16 inner _ _ | h_17 inner _ _ =>
    exact .read (fares_tagName inner s).ensures fun _ _ => .pure
  case h_18 | h_19 => exact Ensures.malformed
  case h_20 left right parts =>
    obtain ⟨pure, reads, value⟩ := inline.assign isOp parts
    rw [value.pure]
    refine .bind (quietly_target quiet pure reads s) fun e s₁ => ?_
    exact .bind (quietly_value quiet value s₁) fun _ _ => .pure
  case h_21 => exact Ensures.malformed
  case h_22 =>
    split
    case h_1 => exact Ensures.unsupported
    case h_2 condition consequent alternate found =>
      obtain ⟨first, second, third⟩ := inline.conditional isOp found
      refine .bind (quiet condition s first) fun _ s₁ => ?_
      refine .bind (quiet consequent s₁ second) fun _ s₂ => ?_
      exact .bind (quiet alternate s₂ third) fun _ _ => .pure
  case h_23 noAssign _ _ _ =>
    split
    case h_1 => exact Ensures.unsupported
    case h_2 binary isBinary =>
      have inside :=
        children (Below.takesValues_of_binaryOp isBinary) (by rintro rfl; cases isBinary)
      refine .bind (quietly_operands quiet inside s) fun es s₁ => ?_
      split
      case h_1 pair =>
        cases pair
        exact .pure
      case h_2 => exact Ensures.malformed

end Levels

theorem quietly_expression {below : Below} {level : Nat} (sound : below.Sound level)
    (quiet : ∀ t s, Inline t → Quietly s (below.build t)) (inline : Inline t) (s : GenState) :
    Quietly s (below.expression t) := by
  unfold Below.expression
  split
  case h_1 =>
    refine .read (P := fun _ => True) ?_ fun _ _ => .bind .pure fun _ _ => .pure
    unfold Below.literal
    split
    case h_5 => exact .malformed
    all_goals exact .pure ⟨trivial, rfl⟩
  case h_2 => exact .read (fares_tagName t s).ensures fun _ _ => .bind .pure fun _ _ => .pure
  case h_3 => exact .bind .pure fun _ _ => .pure
  case h_4 op isOp =>
    exact .bind (quietly_buildBuiltin quiet sound inline isOp s) fun _ _ => .pure
  case h_5 => exact .bind (α := Expr) Ensures.unsupported fun _ _ => .pure

/-- At each level an inline node is built without statements. -/
theorem quietly_build (height : Nat) (inline : Inline t) (s : GenState) :
    Quietly s ((upTo height).build t) := by
  induction height generalizing t s with
  | zero => exact Ensures.unsupported
  | succ height ih =>
    exact quietly_expression (sound_upTo height) (fun t s inline => ih inline s) inline s

theorem isExpression_of_isTag (isTag : t.isTag = true) : isExpression t = true := by
  obtain ⟨id, info, children⟩ := t
  change (Symbol.tag? info.symbol).isSome at isTag
  change (if decide (info.symbol.builtin? = some .ifThen) then _ else isForm info.symbol _) = true
  cases isSymbol : info.symbol with
  | tag kind => rfl
  | _ =>
    rw [isSymbol] at isTag
    cases isTag

/-- A property that is no expression is put into a temporary of the host. -/
theorem ensures_property_temp {object property : Tree} {height : Nat}
    (isMember : t.symbol = .builtin .member) (parts : t.children = [object, property])
    (noExpression : isExpression property = false) (hosts : s.hosts ≠ []) :
    Ensures s ((upTo height).build t) fun _ s' =>
      ∃ n, s.temps < n ∧ n ≤ s'.temps ∧ s!"$t{n}" ∈ s'.frame := by
  cases height with
  | zero => exact .unsupported
  | succ height =>
    have sound := sound_upTo height
    let holds : List Stmt × Expr → GenState → Prop := fun _ s' =>
      ∃ n, s.temps < n ∧ n ≤ s'.temps ∧ s!"$t{n}" ∈ s'.frame
    refine Below.ensures_expression_of_builtin (P := holds) isMember ?_ fun _ _ _ taken => taken
    unfold Below.buildBuiltin
    rw [parts]
    refine .bind (Below.fares_value sound object rfl).ensures fun ⟨before, e⟩ s₁ made => ?_
    have grown := made.grows
    refine .bind (P := holds) ?_ fun _ _ taken => .pure taken
    rw [Below.property]
    split
    case h_1 isTag _ => exact absurd (isExpression_of_isTag isTag) (by simp [noExpression])
    case h_2 =>
      refine .bind (P := holds) ?_ fun _ _ taken => .pure taken
      rw [Below.value, if_neg (by simp [noExpression])]
      refine .bind (@fares_freshTemp True s₁).ensures ?_
      rintro temp s₂ ⟨rfl, rfl⟩
      refine .bind (sound.lower property _ rfl).ensures fun stmts s₃ lowered => .pure ?_
      have later := lowered.grows
      refine ⟨s₁.temps + 1, Nat.lt_succ_of_le grown.temps, later.temps, later.frame _ ?_⟩
      exact GenState.nextTemp_mem_frame (grown.hosts_ne.mpr hosts)

/--
A pure node is built without statements and leaves the temporaries of the host as they are, if the
properties that it computes are pure. The access to a property is pure whatever the property is:
one that is no expression takes a temporary of the host.
-/
theorem quiet_of_pure {r : List Stmt × Expr} {s' : GenState} {height : Nat}
    (pure : isPure t = true) (built : (upTo height).build t s = .ok (r, s')) :
    (readsPurely t = true → r.1 = [] ∧ s'.hosts = s.hosts) ∧
    ∀ object property, t.symbol = .builtin .member → t.children = [object, property] →
      isExpression property = false → s.hosts ≠ [] →
      ∃ n, s.temps < n ∧ n ≤ s'.temps ∧ s!"$t{n}" ∈ s'.frame :=
  ⟨fun reads => quietly_build height ⟨pure, reads⟩ s r s' built,
    fun _ _ isMember parts noExpression hosts =>
      ensures_property_temp isMember parts noExpression hosts r s' built⟩

/-- Access to a property of `x` that is computed from `true`. -/
def computing (symbol : Symbol) : Tree :=
  .node 0 (.new (.builtin .member) none default)
    [.node 1 (.new (.tag .external) (some (.name "x")) default) [],
      .node 2 (.new symbol none default) [.node 3 (.new .value (some (.bool true)) default) []]]

def computed (symbol : Symbol) : Except GenError ((List Stmt × Expr) × GenState) :=
  (upTo 3).build (computing symbol) GenState.start.enterHost

theorem quiet_of_pure_computing :
    (∃ r, computed (.builtin .not) = .ok r ∧ r.1.1 = [] ∧ r.2.hosts = [#[]]) ∧
      ∃ r, computed (.block .doBlock) = .ok r ∧ ∃ n, 0 < n ∧ s!"$t{n}" ∈ r.2.frame := by
  constructor
  · obtain ⟨r, built⟩ : ∃ r, computed (.builtin .not) = .ok r := ⟨_, rfl⟩
    exact ⟨r, built, (quiet_of_pure rfl built).1 rfl⟩
  · obtain ⟨r, built⟩ : ∃ r, computed (.block .doBlock) = .ok r := ⟨_, rfl⟩
    obtain ⟨n, isNew, _, taken⟩ := (quiet_of_pure rfl built).2 _ _ rfl rfl rfl (by rintro ⟨⟩)
    exact ⟨r, built, n, isNew, taken⟩

end Lowering

/-- The right side of an `and` computes a property by a `do`. -/
def shortening : Compilation :=
  compile "main" "#external a\n#external x\nvar y = a and x.(do\n  1)".toList .standard
    ⟨true, false, true, none⟩

/-- The right side is pure, but it is built with statements and with a temporary of the host. -/
theorem loud_shortening :
    ∃ t ∈ shortening.unit.tree.subtree? [2, 1, 1], Lowering.isPure t ∧
      ((Lowering.upTo t.height).build t Lowering.GenState.start.enterHost).toOption.any fun r =>
        !r.1.1.isEmpty && r.2.frame = ["$t1"] := by
  decide +kernel

end Offside
