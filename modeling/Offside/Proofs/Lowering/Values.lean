import Offside.Proofs.Lowering.Outcomes

/-!
# Generation of values

Whatever a function of generation makes of a value, the rules make it too, and if it does not end,
generation comes to a spot that does not fit. The functions for what stands below a node are
followed level by level.
-/

namespace Offside.Lowering

open List Offside.Tree
open Fares (Returns)

variable {t : Tree} {op : Builtin} {s : GenState} {reason : Prop} {aims : List Aim} {sink : Sink}

/-! ## Expressions -/

theorem isExpression_of_isPure {t : Tree} (pure : isPure t = true) : isExpression t = true := by
  rw [isExpression]
  split
  case isTrue => exact pure
  case isFalse noIf =>
    obtain ⟨id, info, children⟩ := t
    rw [isPure] at pure
    unfold isPureIn at pure
    split at pure
    case h_8 =>
      have isIf : info.symbol = .builtin .ifThen := ‹_›
      exact absurd (Info.is_of_symbol isIf) noIf
    case h_9 => cases pure
    case h_10 => exact (Bool.and_eq_true _ _ |>.mp pure).1
    all_goals contradiction

/-- A branch that is pure has a single value. -/
theorem exists_singleValue (pure : isPureIn .branch t = true) :
    ∃ value, singleValue? t = some value ∧ isPure value = true := by
  obtain ⟨id, info, children⟩ := t
  unfold isPureIn at pure
  unfold singleValue? Tree.symbol Tree.children Tree.info
  cases isSymbol : info.symbol with
  | block kind =>
    rw [isSymbol] at pure
    rcases children with _ | ⟨line, _ | ⟨second, rest⟩⟩
    case cons.nil =>
      cases kind
      case block =>
        simp only [Bool.and_eq_true, Bool.not_eq_true'] at pure
        refine ⟨line, ?_, pure.2⟩
        dsimp only
        rw [pure.1, if_neg Bool.false_ne_true]
      all_goals cases pure
    all_goals cases kind <;> cases pure
  | builtin op =>
    refine ⟨.node id info children, rfl, ?_⟩
    rw [isPure]
    unfold isPureIn
    rw [isSymbol] at pure ⊢
    cases op
    case ifThen =>
      rcases children with _ | ⟨c, _ | ⟨b, _ | ⟨⟨_, _, _ | ⟨o, more⟩⟩, _ | ⟨third, rest⟩⟩⟩⟩
        <;> exact pure
    all_goals exact pure
  | _ =>
    refine ⟨.node id info children, rfl, ?_⟩
    rw [isPure]
    unfold isPureIn
    rw [isSymbol] at pure ⊢
    exact pure

/-- An `if` that is pure has a condition and two values, which are pure. -/
theorem exists_conditional (isIf : t.is .ifThen = true) (pure : isPure t = true) :
    ∃ condition branch clause other more consequent alternate,
      t.children = [condition, branch, clause] ∧ clause.is .elseClause = true ∧
      clause.children = other :: more ∧
      conditional? t = some (condition, consequent, alternate) ∧
      singleValue? branch = some consequent ∧ singleValue? other = some alternate ∧
      isPure condition = true ∧ isPure consequent = true ∧ isPure alternate = true := by
  obtain ⟨id, info, children⟩ := t
  have isSymbol := symbol_of_is isIf
  rw [isPure] at pure
  unfold isPureIn at pure
  rw [isSymbol] at pure
  rcases children with _ | ⟨condition, _ | ⟨branch, _ | ⟨⟨clauseId, clause, _ | ⟨other, more⟩⟩,
    _ | ⟨third, rest⟩⟩⟩⟩
  case cons.cons.cons.cons.nil =>
    simp only [Bool.and_eq_true] at pure
    obtain ⟨⟨⟨isElse, tested⟩, chosen⟩, otherwise⟩ := pure
    obtain ⟨consequent, single, pureConsequent⟩ := exists_singleValue chosen
    obtain ⟨alternate, singleOther, pureAlternate⟩ := exists_singleValue otherwise
    refine ⟨condition, branch, _, other, more, consequent, alternate, rfl, isElse, rfl, ?_, single,
      singleOther, tested, pureConsequent, pureAlternate⟩
    have tested' : isPure condition = true := tested
    have isClause : (Tree.node clauseId clause (other :: more)).is .elseClause = true := isElse
    simp [conditional?, children, child?, isClause, single, singleOther, tested',
      pureConsequent, pureAlternate, guard]
  all_goals cases pure

/-- Decides whether an operator or keyword is never part of an expression. -/
def isStatement : Builtin → Bool
  | .whileLoop | .loop | .tryBlock | .tuple | .give | .nextRound | .leave | .ret | .throw |
      .external =>
    true
  | _ => false

/-- The value of a node is written as an expression. -/
structure IsWritten (sink : Sink) (t : Tree) : Prop where
  noBlock : ∀ kind, t.symbol ≠ .block kind
  noStatement : ∀ op, t.symbol = .builtin op → isStatement op = false
  single : t.symbol = .builtin .assign → t.children.head?.any isSingleTarget = true
  pure : t.symbol = .builtin .ifThen → isPure t = true
  used : t.symbol = .builtin .ifThen ∨ t.symbol = .builtin .var ∨ t.symbol = .builtin .const →
    sink ≠ .dropped

theorem isWritten_of_isExpression (used : sink ≠ .dropped) (isExpression : isExpression t = true) :
    IsWritten sink t := by
  have choice (isIf : t.symbol = .builtin .ifThen) : isPure t = true := by
    have found : t.is .ifThen = true := Info.is_of_symbol isIf
    rwa [Lowering.isExpression, if_pos found] at isExpression
  have form (noIf : t.symbol ≠ .builtin .ifThen) : isForm t.symbol t.children = true := by
    have other : ¬t.is .ifThen = true := fun isIf => noIf (Info.symbol_of_is isIf)
    rwa [Lowering.isExpression, if_neg other] at isExpression
  refine ⟨fun kind isBlock => ?_, fun op isOp => ?_, fun isAssign => ?_, choice, fun _ => used⟩
  · rw [isBlock] at form
    cases form (by rintro ⟨⟩)
  · rw [isOp] at form
    cases op <;> first | rfl | cases form (by rintro ⟨⟩)
  · rw [isAssign] at form
    exact form (by rintro ⟨⟩)

theorem isWritten_of_builtin (isOp : t.symbol = .builtin op) (noStatement : isStatement op = false)
    (single : op = .assign → t.children.head?.any isSingleTarget = true)
    (pure : op = .ifThen → isPure t = true)
    (used : op = .ifThen ∨ op = .var ∨ op = .const → sink ≠ .dropped) : IsWritten sink t := by
  rw [← Symbol.builtin.injEq, ← isOp] at single pure
  simp only [← Symbol.builtin.injEq, ← isOp] at used
  refine ⟨fun kind isBlock => ?_, fun other isOther => ?_, single, pure, used⟩
  · cases isOp.symm.trans isBlock
  · cases isOp.symm.trans isOther
    exact noStatement

namespace Spot

/-- The single value of a branch stands where the branch does, or alone in its block. -/
theorem reaches_singleValue {branch value : Tree} (single : singleValue? branch = some value) :
    Reaches ⟨sink, aims, branch⟩ ⟨sink, aims, value⟩ := by
  unfold singleValue? at single
  split at single
  case h_1 line isBlock inside =>
    split at single
    · cases single
    · cases single
      refine .head ?_ (.refl _)
      rw [parts_block isBlock, inside]
      exact mem_singleton_self _
  case h_2 => cases single
  case h_3 =>
    cases single
    exact .refl _

/-- A node that is written as an expression has one value. -/
theorem Blocks.of_not_admits {level : Nat} (written : IsWritten sink t)
    (no : sink.admits 1 = false) :
    Blocks level ⟨sink, aims, t⟩ := by
  have used : sink ≠ .dropped := by
    rintro rfl
    cases no
  induction t using induction_on_height with
  | step t ih =>
    by_cases isIf : t.symbol = .builtin .ifThen
    · obtain ⟨_, branch, _, _, _, value, _, inside, _, _, _, single, _, _, pure, _⟩ :=
        exists_conditional (Info.is_of_symbol isIf) (written.pure isIf)
      have member : (⟨sink, aims, branch⟩ : Spot) ∈ parts ⟨sink, aims, t⟩ := by
        rw [parts_choice isIf inside]
        exact .tail _ (.head _)
      have reaches : Reaches ⟨sink, aims, branch⟩ ⟨sink, aims, value⟩ := reaches_singleValue single
      refine .from (.head member reaches) (ih value ?_ ?_)
      · exact Nat.lt_of_le_of_lt reaches.height_le (under_of_mem_parts member).height_lt
      · exact isWritten_of_isExpression used (isExpression_of_isPure pure)
    · obtain ⟨noBlock, noStatement, single, -, -⟩ := written
      refine .unfit ?_
      unfold isFit
      dsimp only
      split <;> simp_all [isStatement]

end Spot

/-! ## Places -/

theorem isNamed_of_isPlace (isPlace : isPlace t = true) (isTag : t.isTag = true) :
    isNamed t = true := by
  obtain ⟨kind, isSymbol⟩ := Info.exists_tag isTag
  have noOp (op : Builtin) : t.is op = false := by
    rw [Tree.is, Info.is, isSymbol]
    rfl
  simpa [Lowering.isPlace, noOp] using isPlace

theorem exists_of_declaring (isPlace : isPlace t = true) (declares : t.is .var ∨ t.is .const) :
    ∃ inner rest, t.children = inner :: rest ∧ isNamed inner = true := by
  have noTag : isNamed t = false := by
    rw [isNamed, Tree.isTag, Info.isTag]
    rcases declares with isOp | isOp <;> rw [Info.symbol_of_is isOp] <;> rfl
  have others (op : Builtin) (isOther : op ≠ .var ∧ op ≠ .const) : t.is op = false := by
    refine decide_eq_false fun isOp => ?_
    rcases declares with isVar | isConst
    · exact isOther.1 (Option.some.inj (isOp.symm.trans (of_decide_eq_true isVar)))
    · exact isOther.2 (Option.some.inj (isOp.symm.trans (of_decide_eq_true isConst)))
  cases parts : t.children with
  | nil => simp [Lowering.isPlace, noTag, others .member, others .element, parts] at isPlace
  | cons inner rest =>
    refine ⟨inner, rest, rfl, ?_⟩
    simpa [Lowering.isPlace, noTag, others .member, others .element, parts, declares] using isPlace

/-- Names, declarations, members and elements are assigned to, and nothing else. -/
theorem symbol_of_isPlace (isPlace : isPlace t = true) :
    (∃ kind, t.symbol = .tag kind) ∨
      ∃ op, t.symbol = .builtin op ∧ op ∈ [Builtin.var, .const, .member, .element] := by
  simp only [Lowering.isPlace, isNamed, Bool.or_eq_true, Bool.and_eq_true] at isPlace
  have builtin {op : Builtin} (isOp : t.is op = true) : t.symbol = .builtin op :=
    Info.symbol_of_is isOp
  rcases isPlace with ((named | ⟨isVar | isConst, _⟩) | isMember) | isElement
  · exact .inl (Info.exists_tag named.1)
  · exact .inr ⟨_, builtin isVar, by decide⟩
  · exact .inr ⟨_, builtin isConst, by decide⟩
  · exact .inr ⟨_, builtin isMember, by decide⟩
  · exact .inr ⟨_, builtin isElement, by decide⟩

theorem length_ne_two {α : Type} {items : List α} (wrong : ∀ a b, items = [a, b] → False) :
    items.length ≠ 2 := by
  intro two
  obtain ⟨a, b, same⟩ := length_eq_two.mp two
  exact wrong a b same

/-- A member has an object and a property, and a function parameters and a body. -/
theorem Spot.unfit_of_not_pair (isOp : t.symbol = .builtin op) (isPair : op = .member ∨ op = .fn)
    (wrong : ∀ a b, t.children = [a, b] → False) : Spot.isFit ⟨sink, aims, t⟩ = false := by
  rcases inside : t.children with _ | ⟨a, _ | ⟨b, _ | ⟨c, rest⟩⟩⟩
  case cons.cons.nil => exact (wrong a b inside).elim
  all_goals rcases isPair with rfl | rfl <;> simp [isFit, isOp, inside, takesOperands, binaryOp?]

/-! ## Values -/

/-- What a computation makes of a task is made by the rules, unless a spot blocks it. -/
abbrev Makes (level : Nat) (spot : Spot) (s : GenState) (x : Gen (List Stmt)) (task : Task) :
    Prop :=
  Fares s x (spot.Blocks level) fun a s' => Made task s a [] s'

abbrev MakesValue (level : Nat) (spot : Spot) (s : GenState) (x : Gen (List Stmt × Expr)) : Prop :=
  Fares s x (spot.Blocks level) fun r s' => Made (.values [spot.tree]) s r.1 [r.2] s'

namespace Below

/-- What stands below a node is made by the rules, if it is not too high. -/
structure Sound (level : Nat) (below : Below) : Prop where
  lower : ∀ {s aims} (t : Tree) (dest : Dest), s.aims = aims →
    Makes level ⟨dest.sink, aims, t⟩ s (below.lower t dest) (.run t dest)
  build : ∀ {s aims sink} (t : Tree), s.aims = aims → sink ≠ .dropped → isExpression t = true →
    MakesValue level ⟨sink, aims, t⟩ s (below.build t)
  branch : ∀ {s aims} (t : Tree) (dest : Dest), s.aims = aims → t.is .ifThen →
    Makes level ⟨dest.sink, aims, t⟩ s (below.branch t dest) (.run t dest)

section Values

variable {ts : List Tree} {s₀ : GenState} {a : List Stmt} {es fs : List Expr} {e : Expr}

theorem fares_spill (values : Made (.values ts) s₀ a (es ++ e :: fs) s) :
    Fares s (spill e) reason fun r s' => Made (.values ts) s₀ (a ++ r.1) (es ++ r.2 :: fs) s' := by
  rw [spill]
  split
  · exact .pure (by rwa [append_nil])
  · refine .next (fares_freshTemp s) ?_
    exact .pure values.spilled

theorem fares_spillOne {e : Expr} (value : Made (.values ts) s₀ a [e] s) :
    Fares s (spill e) reason fun r s' => Made (.values ts) s₀ (a ++ r.1) [r.2] s' := by
  have values : Made (.values ts) s₀ a ([] ++ e :: []) s := value
  exact fares_spill values

theorem fares_spillAll (values : Made (.values ts) s₀ a (es ++ fs) s) :
    Fares s (spillAll fs) reason fun r s' =>
      Made (.values ts) s₀ (a ++ r.1) (es ++ r.2) s' ∧ r.2.length = fs.length := by
  induction fs generalizing es a s with
  | nil => exact .pure ⟨by rwa [append_nil], rfl⟩
  | cons f rest ih =>
    rw [spillAll]
    refine .bind (fares_spill values) fun ⟨before, e⟩ s₁ kept => ?_
    have split : Made (.values ts) s₀ (a ++ before) (es ++ [e] ++ rest) s₁ := by
      simpa using kept
    refine .bind (ih split) fun ⟨after, more⟩ s₂ made => ?_
    refine .pure ⟨?_, congrArg (· + 1) made.2⟩
    simpa using made.1

end Values

variable {left : Tree} {ts : List Tree} {level : Nat}

variable {below : Below} (sound : below.Sound level)
include sound

theorem fares_value (t : Tree) (here : s.aims = aims) :
    MakesValue level ⟨.one, aims, t⟩ s (below.value t) := by
  rw [value]
  split
  case isTrue isExpression => exact sound.build t here (by rintro ⟨⟩) isExpression
  case isFalse noExpression =>
    refine .next (fares_freshTemp s) ?_
    refine .bind (sound.lower t (.into [_]) here) fun a s₂ made => ?_
    exact .pure (.valuePlaced _ (.through (Bool.eq_false_iff.mpr noExpression) made))

theorem fares_operands (each : ∀ t ∈ ts, Spot.Blocks level ⟨.one, aims, t⟩ → reason)
    (here : s.aims = aims) :
    Fares s (below.operands ts) reason fun r s' =>
      Made (.values ts) s r.1 r.2 s' ∧ r.2.length = ts.length := by
  induction ts generalizing s with
  | nil => exact .pure ⟨.noValues s, rfl⟩
  | cons t ts ih =>
    obtain ⟨blamed, others⟩ := forall_mem_cons.mp each
    rw [operands]
    refine .bind ((fares_value sound t here).blame blamed) fun ⟨before, e⟩ s₁ made => ?_
    refine .join (P :=
      fun (r : List Stmt × Expr) s' => Made (.values [t]) s (before ++ r.1) [r.2] s') ?_ ?_
    · split
      · exact .pure (by rwa [append_nil])
      · exact fares_spillOne made
    · rintro ⟨kept, e⟩ s₂ first
      refine .bind (ih others (first.stays here)) fun ⟨after, es⟩ s₃ rest => ?_
      exact .pure ⟨first.moreValues rest.1, congrArg (· + 1) rest.2⟩

theorem fares_keepAll (each : ∀ t ∈ ts, Spot.Blocks level ⟨.one, aims, t⟩ → reason)
    (here : s.aims = aims) :
    Fares s (below.keepAll ts) reason fun r s' =>
      Made (.values ts) s r.1 r.2 s' ∧ r.2.length = ts.length := by
  induction ts generalizing s with
  | nil => exact .pure ⟨.noValues s, rfl⟩
  | cons t ts ih =>
    obtain ⟨blamed, others⟩ := forall_mem_cons.mp each
    rw [keepAll]
    refine .bind ((fares_value sound t here).blame blamed) fun ⟨before, e⟩ s₁ made => ?_
    refine .bind (fares_spillOne made) fun ⟨kept, e⟩ s₂ first => ?_
    refine .bind (ih others (first.stays here)) fun ⟨after, es⟩ s₃ rest => ?_
    exact .pure ⟨Made.moreValues first rest.1, congrArg (· + 1) rest.2⟩

theorem fares_property {object property : Tree} {s₀ : GenState} {a : List Stmt} {e : Expr}
    (isMember : t.is .member) (parts : t.children = [object, property])
    (made : Made (.values [object]) s₀ a [e] s) (here : s.aims = aims) :
    Fares s (below.property e property) (Spot.Blocks (level + 1) ⟨sink, aims, t⟩) fun r s' =>
      Made (.values [t]) s₀ (a ++ r.1) [r.2] s' := by
  rw [Below.property]
  split
  case h_1 name isTag named =>
    refine .pure ?_
    rw [append_nil]
    exact .property isMember parts isTag named made
  case h_2 unnamed =>
    have computed : isNamed property = false := by
      rw [isNamed]
      cases isTag : property.isTag with
      | false => rfl
      | true =>
        cases named : property.name? with
        | none => rfl
        | some name => exact absurd named (unnamed name isTag)
    have all : Spot.parts ⟨sink, aims, t⟩ = [⟨.one, aims, object⟩, ⟨.one, aims, property⟩] := by
      simp [Spot.parts, computed?, Tree.symbol, Info.symbol_of_is isMember, parts, computed]
    refine .bind ((fares_value sound property here).blame (.above all (.tail _ (.head _))))
      fun r s₁ second => ?_
    exact .pure (.composed (.property isMember parts computed) (made.moreValues second)
      (.computed e r.2))

/-- The operands of a node block it. -/
theorem fares_children (isOp : t.symbol = .builtin op) (takes : takesValues t.children op = true)
    (noAssign : op ≠ .assign) (here : s.aims = aims) :
    Fares s (below.operands t.children) (Spot.Blocks (level + 1) ⟨sink, aims, t⟩) fun r s' =>
      Made (.values t.children) s r.1 r.2 s' ∧ r.2.length = t.children.length :=
  fares_operands sound (fun _ member =>
    .above (Spot.parts_operator isOp takes noAssign) (mem_map_of_mem member)) here

omit sound in
/-- A name that is declared where it stands. -/
theorem fares_declared {inner : Tree} {rest : List Tree} (declares : t.is .var ∨ t.is .const)
    (parts : t.children = inner :: rest) (s : GenState) :
    Fares s (do return ([], .ident (← tagName inner))) (isNamed inner = false) fun r s' =>
      Made (.values [t]) s r.1 [r.2] s' := by
  refine .bind ((fares_tagName inner s).blame fun none => ?_) ?_
  · rw [isNamed, none, Bool.and_false]
  rintro name s' ⟨named, rfl⟩
  exact .pure (.declared s' declares parts named)

theorem fares_target (t : Tree) (keep : Bool) (here : s.aims = aims) :
    Fares s (below.target t keep) (isPlace t = true → Spot.Blocks level ⟨.one, aims, t⟩) fun r s' =>
      Made (.values [t]) s r.1 [r.2] s' := by
  have noName (declares : t.is .var ∨ t.is .const) (none : t.children.head?.any isNamed = false) :
      isPlace t = true → Spot.Blocks level ⟨.one, aims, t⟩ := by
    intro place
    obtain ⟨inner, rest, parts, named⟩ := exists_of_declaring place declares
    rw [parts, head?_cons, Option.any_some, named] at none
    cases none
  rw [target]
  split
  case isTrue isTag =>
    refine .bind ((fares_tagName t s).blame fun none place => ?_) ?_
    · have named := isNamed_of_isPlace place isTag
      rw [isNamed, none, Bool.and_false] at named
      cases named
    rintro name s' ⟨named, rfl⟩
    exact .pure (.name s' isTag named)
  case isFalse noTag =>
    split
    case h_1 inner rest isVar parts =>
      have declares : t.is .var ∨ t.is .const := .inl (decide_eq_true isVar)
      exact (fares_declared declares parts s).blame fun none =>
        noName declares (by rw [parts]; exact none)
    case h_2 inner rest isConst parts =>
      have declares : t.is .var ∨ t.is .const := .inr (decide_eq_true isConst)
      exact (fares_declared declares parts s).blame fun none =>
        noName declares (by rw [parts]; exact none)
    case h_3 isVar parts =>
      exact .malformed (noName (.inl (decide_eq_true isVar)) (by rw [parts]; rfl))
    case h_4 isConst parts =>
      exact .malformed (noName (.inr (decide_eq_true isConst)) (by rw [parts]; rfl))
    case h_5 object property isMember parts =>
      have isSymbol := Symbol.eq_builtin_of_builtin? isMember
      refine .bind ((fares_value sound object here).blame fun blocks _ =>
        (Spot.Blocks.above (Spot.parts_member isSymbol parts) (.head _) blocks).low)
          fun ⟨before, e⟩ s₁ made => ?_
      refine .join (P := fun (r : List Stmt × Expr) s' =>
        Made (.values [object]) s (before ++ r.1) [r.2] s') ?_ ?_
      · split
        · exact fares_spillOne made
        · exact .pure (by rwa [append_nil])
      · rintro ⟨kept, e⟩ s₂ first
        refine .bind
          ((fares_property sound (decide_eq_true isMember) parts first (first.stays here)).blame
          fun blocks _ => blocks.low) fun ⟨after, place⟩ s₃ whole => .pure whole
    case h_6 isMember wrong =>
      have isSymbol := Symbol.eq_builtin_of_builtin? isMember
      exact .malformed fun _ => .unfit (Spot.unfit_of_not_pair isSymbol (.inl rfl) wrong)
    case h_7 isElement =>
      have isSymbol := Symbol.eq_builtin_of_builtin? isElement
      refine .bind
        ((fares_children sound isSymbol rfl (by decide) here).blame fun blocks _ => blocks.low)
        fun ⟨before, es⟩ s₁ made => ?_
      refine .join (P := fun (r : List Stmt × List Expr) s' =>
        Made (.values t.children) s (before ++ r.1) r.2 s' ∧ r.2.length = t.children.length) ?_ ?_
      · split
        · have all : Made (.values t.children) s before ([] ++ es) s₁ := made.1
          exact (fares_spillAll all).mono fun _ _ kept => ⟨kept.1, kept.2.trans made.2⟩
        · exact .pure (by rw [append_nil]; exact made)
      · rintro ⟨kept, es⟩ s₂ ⟨first, same⟩
        dsimp only at first same ⊢
        split
        case h_1 object index =>
          exact .pure (.composed (.children isElement rfl) first (.computed object index))
        case h_2 wrong =>
          have count : t.children.length ≠ 2 := same ▸ length_ne_two wrong
          exact .malformed fun _ => .unfit (by simp [Spot.isFit, isSymbol, takesOperands, count])
    case h_8 noMember noElement noVar noConst _ _ _ =>
      refine .malformed fun place => ?_
      rcases symbol_of_isPlace place with ⟨kind, isTag⟩ | ⟨op, isOp, listed⟩
      · refine absurd ?_ noTag
        rw [Tree.isTag, Info.isTag, ← Tree.symbol, isTag]
        rfl
      · have found : t.builtin? = some op := congrArg Symbol.builtin? isOp
        simp only [mem_cons, not_mem_nil, or_false] at listed
        rcases listed with rfl | rfl | rfl | rfl
        · obtain ⟨inner, rest, parts, -⟩ := exists_of_declaring place (.inl (decide_eq_true found))
          exact (noVar inner rest found parts).elim
        · obtain ⟨inner, rest, parts, -⟩ := exists_of_declaring place (.inr (decide_eq_true found))
          exact (noConst inner rest found parts).elim
        · exact (noMember found).elim
        · exact (noElement found).elim

theorem fares_logical (isOp : t.symbol = .builtin op) (isLogical : op = .and ∨ op = .or)
    (logical : LogicalOp) (here : s.aims = aims) :
    MakesValue (level + 1) ⟨sink, aims, t⟩ s (below.logical t logical) := by
  have takes : takesValues t.children op := by rcases isLogical with rfl | rfl <;> rfl
  have noAssign : op ≠ .assign := by rcases isLogical with rfl | rfl <;> decide
  have found : t.builtin? = some op := congrArg Symbol.builtin? isOp
  rw [Below.logical]
  split
  case h_1 left right parts =>
    have all : Spot.parts ⟨sink, aims, t⟩ = [⟨.one, aims, left⟩, ⟨.one, aims, right⟩] := by
      rw [Spot.parts_operator isOp takes noAssign, parts]
      rfl
    refine .bind ((fares_value sound left here).blame (.above all (.head _)))
      fun ⟨before, e⟩ s₁ first => ?_
    dsimp only
    split
    case isTrue pure =>
      refine .bind ((sound.build right (first.stays here) (by rintro ⟨⟩)
        (isExpression_of_isPure pure)).blame (.above all (.tail _ (.head _))))
        fun ⟨after, f⟩ s₂ second => ?_
      have values : Made (.values t.children) s (before ++ after) [e, f] s₂ := by
        rw [parts]
        exact first.moreValues second
      exact .pure (.composed (.children found takes) values (.logical logical _ _))
    · refine .next (fares_freshTemp s₁) ?_
      refine .bind ((fares_value (s := s₁.withTemp) sound right (first.stays here)).blame
        (.above all (.tail _ (.head _)))) fun ⟨inside, f⟩ s₃ second => ?_
      have isEither : t.is .and ∨ t.is .or := by
        rcases isLogical with rfl | rfl
        · exact .inl (decide_eq_true found)
        · exact .inr (decide_eq_true found)
      refine .pure (.lazily isEither parts first second ?_)
      cases logical with
      | and => exact .inl rfl
      | or => exact .inr rfl
  case h_2 wrong =>
    have count := length_ne_two wrong
    refine .malformed (.unfit ?_)
    rcases isLogical with rfl | rfl <;> simp [Spot.isFit, isOp, takesOperands, count]

theorem fares_callParts (isCall : t.symbol = .builtin .call) (here : s.aims = aims) :
    Fares s (below.callParts t) (Spot.Blocks (level + 1) ⟨sink, aims, t⟩) fun r s' =>
      Made (.values t.children) s r.1 (r.2.1 :: r.2.2) s' := by
  rw [callParts]
  refine .bind (fares_children sound isCall rfl (by decide) here) fun r s₁ made => ?_
  obtain ⟨stmts, es⟩ := r
  cases es with
  | nil =>
    refine .malformed (.unfit ?_)
    have none : t.children.length = 0 := made.2.symm
    simp [Spot.isFit, isCall, takesOperands, none]
  | cons callee arguments => exact .pure made.1

omit sound in
theorem fares_keyText (key : Tree) (s : GenState) :
    Fares s (keyText key) (isKey key = false) fun _ s' => s' = s := by
  unfold keyText
  split
  case h_4 => exact .malformed (by simp_all [isKey])
  all_goals exact .pure rfl

omit sound in
theorem fares_entries (ts : List Tree) (s : GenState) :
    Fares s (entries ts) (ts.all (isKey ∘ entryKey) = false) fun fields s' =>
      fields.map Prod.snd = ts.map entryValue ∧ s' = s := by
  induction ts with
  | nil => exact .pure ⟨rfl, rfl⟩
  | cons t ts ih =>
    have first : entries (t :: ts) = do
        return (← keyText (entryKey t), entryValue t) :: (← entries ts) := by
      rw [entries]
      unfold entryKey entryValue
      cases t.is .pair with
      | false => rfl
      | true => rcases t.children with _ | ⟨key, _ | ⟨value, _ | ⟨third, rest⟩⟩⟩ <;> rfl
    rw [first, all_cons, Function.comp_apply]
    refine .bind ((fares_keyText (entryKey t) s).blame fun no => by rw [no]; rfl) ?_
    rintro text s₁ rfl
    refine .bind (ih.blame fun no => by rw [no, Bool.and_false]) ?_
    rintro fields s₂ ⟨same, rfl⟩
    exact .pure ⟨by rw [map_cons, map_cons, same], rfl⟩

theorem fares_statements (dest : Dest)
    (each : ∀ job ∈ flows dest.sink ts, Spot.Blocks level ⟨job.2, aims, job.1⟩ → reason)
    (here : s.aims = aims) :
    Fares s (below.statements dest ts) reason fun a s' =>
      Made (.runs (lines dest ts)) s a [] s' := by
  induction ts generalizing s with
  | nil => exact .pure (.noRuns s)
  | cons t ts ih =>
    cases ts with
    | nil => exact (sound.lower t dest here).blame (each _ (.head _))
    | cons next rest =>
      obtain ⟨blamed, others⟩ := forall_mem_cons.mp each
      rw [statements, lines]
      refine .bind ((sound.lower t .discard here).blame blamed) fun first s₁ made => ?_
      refine .bind (ih others (made.stays here)) fun later s₂ there => ?_
      exact .pure (made.moreRuns there)

theorem fares_sequence (t : Tree) (dest : Dest)
    (each : ∀ job ∈ flows dest.sink t.children, Spot.Blocks level ⟨job.2, aims, job.1⟩ → reason)
    (here : s.aims = aims) :
    Fares s (below.sequence t dest) reason fun a s' =>
      Made (.hosted t.info (.runs (lines dest t.children))) s a [] s' :=
  fares_inHost
    ((fares_statements (s := s.enterHost) sound dest each here).mono fun _ _ made => made.hosted)

theorem fares_body (t : Tree) (dest : Dest) (here : s.aims = aims) :
    Makes level ⟨dest.sink, aims, t⟩ s (below.body t dest) (.body t dest) := by
  rw [Below.body]
  split
  case isTrue isBlock =>
    refine (fares_sequence sound t dest (fun job member blocks => ?_) here).mono
      fun _ _ made => made.bodyBlock isBlock
    exact (Spot.Blocks.above (Spot.parts_block (Info.symbol_of_isBlock isBlock))
      (mem_map_of_mem member) blocks).low
  case isFalse => exact (sound.lower t dest here).mono fun _ _ made => made.bodyLine

omit sound in
theorem functionDest_eq (code : Tree) :
    functionDest code = .ret ∨ functionDest code = .discard := by
  unfold functionDest
  exact ite_eq_or_eq _ _ _

theorem fares_function (isFunction : t.symbol = .builtin .fn) (s : GenState) :
    MakesValue (level + 1) ⟨sink, aims, t⟩ s (below.function t) := by
  rw [Below.function]
  split
  case h_1 params code parts =>
    refine .next ((fares_namesOf params s).blame fun no =>
      .unfit (by simp [Spot.isFit, isFunction, parts, no])) ?_
    refine .bind (fares_inFunction (fares_inHost ?_)) fun body s₁ made => .pure made
    refine ((fares_body sound code (functionDest code) rfl).mono fun body s₁ made => ?_).blame
      (.above (Spot.parts_function isFunction parts) (.head _))
    exact .function (Info.is_of_symbol isFunction) parts (functionDest_eq code)
      made.hosted
  case h_2 wrong =>
    exact .malformed (.unfit (Spot.unfit_of_not_pair isFunction (.inr rfl) wrong))

omit sound in
theorem fares_literal (isValue : t.symbol = .value) (s : GenState) :
    Fares s (literal t) (isLiteral t = false) fun e s' => Made (.values [t]) s [] [e] s' := by
  have made (value : Literal) : Made (.values [t]) s [] [.literal value] s :=
    .composed (.literal (.inl isValue)) (.noValues s) (.literal value)
  unfold literal
  split
  case h_5 => exact .malformed (by simp_all [isLiteral])
  all_goals exact .pure (made _)

omit sound in
theorem takesValues_of_binaryOp {binary : BinaryOp} (isBinary : binaryOp? op = some binary) :
    takesValues t.children op := by
  unfold takesValues
  split
  case h_9 => cases isBinary
  case h_10 => rw [isBinary]; rfl
  all_goals rfl

/-- The single value of a branch, which is written without statements. -/
theorem fares_singleValue {branch value : Tree} (single : singleValue? branch = some value)
    (pure : isPure value = true) (used : sink ≠ .dropped) (here : s.aims = aims) :
    Fares s (below.build value) (Spot.Blocks level ⟨sink, aims, branch⟩) fun r s' =>
      Made (.values [value]) s r.1 [r.2] s' :=
  (sound.build value here used (isExpression_of_isPure pure)).blame
    (.from (Spot.reaches_singleValue single))

theorem fares_conditional (isIf : t.symbol = .builtin .ifThen) (pure : isPure t = true)
    (used : sink ≠ .dropped) (here : s.aims = aims) :
    MakesValue (level + 1) ⟨sink, aims, t⟩ s (below.buildBuiltin t .ifThen) := by
  have found : t.is .ifThen = true := Info.is_of_symbol isIf
  obtain ⟨condition, branch, clause, other, more, consequent, alternate, parts, isElse, inside,
    isConditional, single, singleOther, pureTest, pureFirst, pureOther⟩ :=
      exists_conditional found pure
  have all : Spot.parts ⟨sink, aims, t⟩ =
      [⟨.one, aims, condition⟩, ⟨sink, aims, branch⟩, ⟨sink, aims, other⟩] := by
    simp [Spot.parts_choice isIf parts, isElse, inside]
  unfold buildBuiltin
  rw [isConditional]
  dsimp only
  refine .bind ((sound.build condition here (by rintro ⟨⟩) (isExpression_of_isPure pureTest)).blame
    (.above all (.head _))) fun ⟨first, test⟩ s₁ tested => ?_
  refine .bind ((fares_singleValue sound single pureFirst used (tested.stays here)).blame
    (.above all (.tail _ (.head _)))) fun ⟨second, e⟩ s₂ chosen => ?_
  refine .bind ((fares_singleValue sound singleOther pureOther used
    (chosen.stays (tested.stays here))).blame (.above all (.tail _ (.tail _ (.head _)))))
    fun ⟨third, f⟩ s₃ otherwise => ?_
  exact .pure (.composed (.conditional found isConditional)
    ((tested.moreValues chosen).moreValues otherwise) (.conditional test e f))

theorem fares_binary {binary : BinaryOp} (isOp : t.symbol = .builtin op)
    (isBinary : binaryOp? op = some binary) (here : s.aims = aims) :
    MakesValue (level + 1) ⟨sink, aims, t⟩ s (below.buildBuiltin t op) := by
  have takes := takesValues_of_binaryOp (t := t) isBinary
  have noAssign : op ≠ .assign := by
    rintro rfl
    cases isBinary
  have unfit (count : t.children.length ≠ 2) : Spot.isFit ⟨sink, aims, t⟩ = false := by
    cases op <;> cases isBinary <;> simp [Spot.isFit, isOp, takesOperands, count]
  unfold buildBuiltin
  split
  case h_23 =>
    rw [isBinary]
    refine .bind (fares_children sound isOp takes noAssign here) fun ⟨a, es⟩ s₁ made => ?_
    dsimp only at made ⊢
    split
    case h_1 _ left right pair =>
      cases pair
      exact .pure (.composed (.children (congrArg Symbol.builtin? isOp) takes) made.1
        (.binary binary left right))
    case h_2 wrong =>
      exact .malformed
        (.unfit (unfit (made.2 ▸ length_ne_two fun a b same => wrong _ a b (by rw [same]))))
  all_goals cases isBinary

omit sound in
theorem fares_declaration (isOp : t.symbol = .builtin op) (declares : op = .var ∨ op = .const)
    (used : sink ≠ .dropped) (s : GenState) :
    MakesValue (level + 1) ⟨sink, aims, t⟩ s (below.buildBuiltin t op) := by
  have found : t.is .var ∨ t.is .const := by
    rcases declares with rfl | rfl
    · exact .inl (Info.is_of_symbol isOp)
    · exact .inr (Info.is_of_symbol isOp)
  cases parts : t.children with
  | nil =>
    rcases declares with rfl | rfl <;> unfold buildBuiltin <;> rw [parts] <;>
      exact .malformed (.unfit (by simp [Spot.isFit, isOp, parts, used]))
  | cons inner rest =>
    have unfit (none : isNamed inner = false) : Spot.Blocks (level + 1) ⟨sink, aims, t⟩ :=
      .unfit (by rcases declares with rfl | rfl <;> simp [Spot.isFit, isOp, parts, none, used])
    have made := (fares_declared found parts s).blame unfit
    rcases declares with rfl | rfl <;> unfold buildBuiltin <;> rw [parts] <;> exact made

theorem fares_buildBuiltin (isOp : t.symbol = .builtin op) (written : IsWritten sink t)
    (here : s.aims = aims) :
    MakesValue (level + 1) ⟨sink, aims, t⟩ s (below.buildBuiltin t op) := by
  have found : t.builtin? = some op := congrArg Symbol.builtin? isOp
  cases isBinary : binaryOp? op with
  | some binary => exact fares_binary sound isOp isBinary here
  | none =>
    cases op
    case and => exact fares_logical sound isOp (.inl rfl) .and here
    case or => exact fares_logical sound isOp (.inr rfl) .or here
    case neg | not =>
      unfold buildBuiltin
      rcases parts : t.children with _ | ⟨operand, _ | ⟨second, rest⟩⟩
      case cons.nil =>
        have isPart : operand ∈ t.children := parts ▸ .head _
        refine .bind ((fares_value sound operand here).blame (.above
          (Spot.parts_operator isOp rfl (by decide)) (mem_map_of_mem isPart)))
            fun ⟨a, e⟩ s₁ made => ?_
        exact .pure (.composed (.children found rfl) (parts ▸ made) (.unary _ e))
      all_goals exact .malformed (.unfit (by simp [Spot.isFit, isOp, parts, takesOperands]))
    case member =>
      unfold buildBuiltin
      rcases parts : t.children with _ | ⟨object, _ | ⟨property, _ | ⟨third, rest⟩⟩⟩
      case cons.cons.nil =>
        refine .bind ((fares_value sound object here).blame
          (.above (Spot.parts_member isOp parts) (.head _))) fun ⟨before, e⟩ s₁ made => ?_
        exact .bind (fares_property sound (decide_eq_true found) parts made (made.stays here))
          fun ⟨after, f⟩ s₂ whole => .pure whole
      all_goals
        exact .malformed (.unfit (by simp [Spot.isFit, isOp, parts, takesOperands, binaryOp?]))
    case element =>
      refine .bind (fares_children sound isOp rfl (by decide) here) fun ⟨a, es⟩ s₁ made => ?_
      dsimp only at made ⊢
      split
      case h_1 _ object index pair =>
        cases pair
        exact .pure (.composed (.children found rfl) made.1 (.computed object index))
      case h_2 wrong =>
        have count : t.children.length ≠ 2 :=
          made.2 ▸ length_ne_two fun a b same => wrong _ a b (by rw [same])
        exact .malformed (.unfit (by simp [Spot.isFit, isOp, takesOperands, count]))
    case call =>
      refine .bind (fares_callParts sound isOp here) fun ⟨a, callee, arguments⟩ s₁ made => ?_
      exact .pure (.composed (.children found rfl) made (.call callee arguments))
    case new =>
      unfold buildBuiltin
      rcases parts : t.children with _ | ⟨operand, _ | ⟨second, rest⟩⟩
      case cons.nil =>
        have all : Spot.parts ⟨sink, aims, t⟩ = [⟨.one, aims, operand⟩] := by
          rw [Spot.parts_operator isOp rfl (by decide), parts]
          rfl
        dsimp only
        split
        case isTrue isCall =>
          refine .bind ((fares_callParts sound (Info.symbol_of_is isCall) here).blame fun blocks =>
            .above all (.head _) blocks.low) fun ⟨a, callee, arguments⟩ s₁ made => ?_
          exact .pure (.composed (.construction (decide_eq_true found) parts isCall) made
            (.new callee arguments))
        case isFalse =>
          refine .bind ((fares_value sound operand here).blame (.above all (.head _)))
            fun ⟨a, e⟩ s₁ made => ?_
          exact .pure (.composed (.children found rfl) (parts ▸ made) (.new e []))
      all_goals
        exact .malformed (.unfit (by simp [Spot.isFit, isOp, parts, takesOperands, binaryOp?]))
    case array =>
      refine .bind (fares_children sound isOp rfl (by decide) here) fun ⟨a, es⟩ s₁ made => ?_
      exact .pure (.composed (.children found rfl) made.1 (.array es))
    case object =>
      have all : Spot.parts ⟨sink, aims, t⟩ =
          (t.children.map entryValue).map fun value => ⟨.one, aims, value⟩ := by
        rw [Spot.parts_object isOp, map_map]
        rfl
      refine .bind ((fares_entries t.children s).blame fun no =>
        .unfit (by simp only [Spot.isFit, isOp, no, Bool.false_and])) ?_
      rintro fields s' ⟨values, rfl⟩
      have count : fields.length = t.children.length := by simpa using congrArg length values
      rw [values]
      refine .bind (fares_operands sound (fun _ member => .above all (mem_map_of_mem member)) here)
        fun ⟨a, es⟩ s₁ made => ?_
      refine .pure (.composed (.entries (decide_eq_true found)) made.1 ?_)
      have second : (((fields.map Prod.fst).zip es).map Prod.snd) = es := by
        refine map_snd_zip (Nat.le_of_eq ?_)
        rw [made.2, length_map, length_map, count]
      have composed := Expr.Composed.object ((fields.map Prod.fst).zip es)
      rwa [second] at composed
    case fn => exact fares_function sound isOp s
    case var => exact fares_declaration isOp (.inl rfl) (written.used (.inr (.inl isOp))) s
    case const => exact fares_declaration isOp (.inr rfl) (written.used (.inr (.inr isOp))) s
    case assign =>
      unfold buildBuiltin
      rcases parts : t.children with _ | ⟨left, _ | ⟨right, _ | ⟨third, rest⟩⟩⟩
      case cons.cons.nil =>
        have single : isSingleTarget left = true := by simpa [parts] using written.single isOp
        refine .bind ((fares_target sound left _ here).blame fun blocks => ?_)
          fun ⟨before, place⟩ s₁ first => ?_
        · cases place : isPlace left with
          | true => exact .above (Spot.parts_single isOp parts single) (.head _) (blocks place)
          | false => exact .unfit (by simp [Spot.isFit, isOp, parts, single, place])
        refine .bind ((fares_value sound right (first.stays here)).blame
          (.above (Spot.parts_single isOp parts single) (.tail _ (.head _))))
          fun ⟨after, e⟩ s₂ second => ?_
        exact .pure (.composed (.children found (written.single isOp))
          (parts ▸ first.moreValues second) (.assign place e))
      all_goals
        exact .malformed (.unfit (by simp [Spot.isFit, isOp, parts, takesOperands, binaryOp?]))
    case ifThen =>
      exact fares_conditional sound isOp (written.pure isOp) (written.used (.inl isOp)) here
    -- what is not part of an expression
    all_goals first
      | (cases isBinary; done)
      | (cases written.noStatement _ isOp; done)
      | exact .unsupported (.unfit (by simp [Spot.isFit, isOp, takesOperands, binaryOp?]))

theorem fares_expression (written : IsWritten sink t) (here : s.aims = aims) :
    MakesValue (level + 1) ⟨sink, aims, t⟩ s (below.expression t) := by
  let holds : List Stmt × Expr → GenState → Prop := fun r s' => Made (.values [t]) s r.1 [r.2] s'
  have placed (r : List Stmt × Expr) (s' : GenState) (made : holds r s') :
      Fares s' (pure (r.1, r.2.withSpan (spanOf t)))
        (Spot.Blocks (level + 1) ⟨sink, aims, t⟩) holds :=
    .pure (made.valuePlaced _)
  unfold expression
  split
  case h_1 isValue =>
    refine .bind ((fares_literal isValue s).blame fun no =>
      .unfit (by simp [Spot.isFit, isValue, no])) fun e s₁ made => ?_
    exact .bind (P := holds) (.pure made) placed
  case h_2 kind isTag =>
    refine .bind ((fares_tagName t s).blame fun no => .unfit (by simp [Spot.isFit, isTag, no])) ?_
    rintro name s' ⟨named, rfl⟩
    have tagged : t.isTag := by
      change (Symbol.tag? t.symbol).isSome
      rw [isTag]
      rfl
    exact .bind (P := holds) (.pure (.name s' tagged named)) placed
  case h_3 isNothing =>
    refine .bind (P := holds) (.pure ?_) placed
    exact .composed (.literal (.inr isNothing)) (.noValues s) (.literal .undefined)
  case h_4 op isOp => exact .bind (P := holds) (fares_buildBuiltin sound isOp written here) placed
  case h_5 noValue noTag noNothing noOp =>
    refine .bind (P := holds) (.unsupported (.unfit ?_)) placed
    have noBlock := written.noBlock
    cases isSymbol : t.symbol <;> simp_all [Spot.isFit]

omit sound in
/-- The expression of an operator or keyword gets the place of its node. -/
theorem ensures_expression_of_builtin {P Q : List Stmt × Expr → GenState → Prop}
    (isOp : t.symbol = .builtin op) (inside : Ensures s (below.buildBuiltin t op) P)
    (placed : ∀ a e s', P (a, e) s' → Q (a, e.withSpan (spanOf t)) s') :
    Ensures s (below.expression t) Q := by
  rw [Below.expression, isOp]
  exact inside.bind fun r s' made => .pure (placed r.1 r.2 s' made)

/-! ## Statements -/

omit sound in
theorem fares_emitted (t : Tree) (e : Expr) (dest : Dest) (s : GenState) :
    Fares s (emit t e dest) (dest.sink.admits 1 = false) fun b s' =>
      Delivered dest [e] b ∧ s' = s := by
  unfold emit
  split
  · exact .pure ⟨.discard e, rfl⟩
  · exact .pure ⟨.ret e, rfl⟩
  · exact .pure ⟨.into rfl, rfl⟩
  case h_4 names wrong =>
    refine .malformed (decide_eq_false fun one => ?_)
    obtain ⟨name, same⟩ := length_eq_one_iff.mp one
    exact wrong name same

omit sound in
theorem fares_emit {u : Tree} {e : Expr} {s₀ : GenState} {a : List Stmt} {dest : Dest}
    (made : Made (.values [t]) s₀ a [e] s) (handed : isHanded dest t = true) :
    Fares s (emit u e dest) (dest.sink.admits 1 = false) fun b s' =>
      Made (.run t dest) s₀ (a ++ b) [] s' := by
  refine (fares_emitted u e dest s).mono ?_
  rintro b s' ⟨delivered, rfl⟩
  exact made.delivered ⟨delivered, handed⟩

theorem fares_plain {dest : Dest} (handed : isHanded dest t = true)
    (written : IsWritten dest.sink t) (here : s.aims = aims) :
    Makes (level + 1) ⟨dest.sink, aims, t⟩ s (below.plain t dest) (.run t dest) := by
  refine .bind (fares_expression sound written here) fun ⟨a, e⟩ s₁ made => ?_
  exact .bind ((fares_emit made handed).blame (.of_not_admits written))
    fun b s₂ whole => .pure whole

end Below

end Offside.Lowering
