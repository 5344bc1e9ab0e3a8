import Offside.Compilation
import Offside.Proofs.Lowering.Derivations
import Offside.Proofs.Lowering.Growth

/-!
# Receivers of calls

The callee of a call can be a property of an object, which the call passes on to the function as
its receiver. The callee is the first of the operands of a call: if a later one needs statements,
the property is read before them into a temporary, and the call is one of the temporary. So a call
has its receiver exactly if all arguments are pure.
-/

namespace Offside

def Expr.isMember : Expr → Bool
  | .member _ _ _ => true
  | .located _ e => e.isMember
  | _ => false

theorem Expr.isMember_withSpan (span : Span) (e : Expr) :
    (e.withSpan span).isMember = e.isMember := by
  cases e <;> rfl

theorem Expr.isTrivial_of_isMember {e : Expr} (isMember : e.isMember = true) :
    e.isTrivial = false := by
  induction e using Expr.isMember.induct with
  | case1 => rfl
  | case2 span e ih => exact ih isMember
  | case3 e noMember noPlace =>
    rw [Expr.isMember.eq_3 e noMember noPlace] at isMember
    cases isMember

namespace Lowering

/-- Decides whether a node reads a property of an object. -/
def isAccess (t : Tree) : Bool :=
  t.is .member || t.is .element

theorem symbol_of_isAccess {t : Tree} (access : isAccess t = true) :
    t.symbol = .builtin .member ∨ t.symbol = .builtin .element := by
  obtain ⟨id, info, children⟩ := t
  rw [isAccess, Bool.or_eq_true] at access
  exact access.imp Tree.symbol_of_is Tree.symbol_of_is

theorem isExpression_of_isAccess {t : Tree} (access : isAccess t = true) :
    isExpression t = true := by
  have noIf (op : Builtin) (isOp : t.symbol = .builtin op) (other : op ≠ .ifThen) :
      t.is .ifThen = false := by
    rw [Tree.is, Info.is, show t.info.symbol = _ from isOp]
    exact decide_eq_false fun same => other (Option.some.inj same)
  rw [isExpression]
  rcases symbol_of_isAccess access with isOp | isOp
  · rw [noIf .member isOp (by decide), isOp]
    rfl
  · rw [noIf .element isOp (by decide), isOp]
    rfl

variable {s : GenState} {height : Nat}

namespace Below

variable {below : Below}

theorem ensures_isMember_property (object : Expr) (t : Tree) :
    Ensures s (below.property object t) fun r _ => r.2.isMember = true := by
  rw [Below.property]
  split
  · exact .pure rfl
  · exact .after fun r s' => .pure rfl

/-- An access becomes a property of an object. -/
theorem ensures_isMember {t : Tree} (access : isAccess t = true) :
    Ensures s (below.expression t) fun r _ => r.2.isMember = true := by
  have placed {op : Builtin} (isOp : t.symbol = .builtin op)
      (inside : Ensures s (below.buildBuiltin t op) fun r _ => r.2.isMember = true) :
      Ensures s (below.expression t) fun r _ => r.2.isMember = true :=
    ensures_expression_of_builtin isOp inside fun a e s' isMember =>
      (Expr.isMember_withSpan _ e).trans isMember
  rcases symbol_of_isAccess access with isMember | isElement
  · refine placed isMember ?_
    unfold buildBuiltin
    rcases t.children with _ | ⟨object, _ | ⟨property, _ | ⟨third, rest⟩⟩⟩
    case cons.cons.nil =>
      refine .after fun object s₁ => ?_
      exact (ensures_isMember_property _ _).bind fun r s₂ isMember => .pure isMember
    all_goals exact .malformed
  · refine placed isElement ?_
    rw [buildBuiltin]
    refine .after fun r s₁ => ?_
    split
    · exact .pure rfl
    · exact .malformed

end Below

/-- A property that is not the same everywhere is put into the next temporary. -/
theorem ensures_spill_member {e : Expr} (isMember : e.isMember = true) (s : GenState) :
    Ensures s (spill e) fun r s' =>
      r = ([.assign s.nextTemp e], .ident s.nextTemp) ∧ s' = s.withTemp := by
  rw [spill, Expr.isTrivial_of_isMember isMember]
  refine .bind (@fares_freshTemp True s).ensures ?_
  rintro temp s' ⟨rfl, rfl⟩
  exact .pure ⟨rfl, rfl⟩

/-- What becomes of the callee of a call, given the statements before the call. -/
def Receives (pure : Bool) (low high : Nat) (stmts : List Stmt) (callee : Expr) : Prop :=
  if pure then callee.isMember = true
  else ∃ access n, access.isMember = true ∧ low < n ∧ n ≤ high ∧ callee = .ident s!"$t{n}" ∧
    .assign s!"$t{n}" access ∈ stmts

theorem ensures_receiver {callee : Tree} (access : isAccess callee = true) (arguments : List Tree)
    (s : GenState) :
    Ensures s ((upTo height).operands (callee :: arguments)) fun r s' =>
      ∃ e args, r.2 = e :: args ∧ Receives (arguments.all isPure) s.temps s'.temps r.1 e := by
  have accessed : Ensures s ((upTo height).value callee) fun r s' =>
      r.2.isMember = true ∧ s.temps ≤ s'.temps := by
    refine .and ?_ ((Below.fares_value (sound_upTo height) callee rfl).ensures.mono fun _ _ made =>
      made.grows.temps)
    rw [Below.value, if_pos (isExpression_of_isAccess access)]
    cases height with
    | zero => exact .unsupported
    | succ height => exact Below.ensures_isMember access
  rw [Below.operands]
  refine accessed.bind ?_
  rintro ⟨before, e⟩ s₁ ⟨isMember, low⟩
  dsimp only at isMember
  cases pure : arguments.all isPure with
  | true =>
    refine .bind (P := fun r _ => r = ([], e)) (.pure rfl) ?_
    rintro - s₂ rfl
    exact .after fun r s₃ => .pure ⟨e, r.2, rfl, isMember⟩
  | false =>
    refine (ensures_spill_member isMember s₁).bind ?_
    rintro - s₂ ⟨rfl, rfl⟩
    refine .bind (Below.fares_operands (sound_upTo height) (fun _ _ _ => trivial) rfl).ensures
      fun r s₃ made => ?_
    refine .pure ⟨.ident s₁.nextTemp, r.2, rfl, e, s₁.temps + 1, isMember, ?_, ?_, rfl, ?_⟩
    · exact Nat.lt_succ_of_le low
    · exact made.1.grows.temps
    · simp [GenState.nextTemp]

theorem ensures_call {t callee : Tree} {arguments : List Tree}
    (isCall : t.symbol = .builtin .call) (parts : t.children = callee :: arguments)
    (access : isAccess callee = true) (s : GenState) :
    Ensures s ((upTo height).build t) fun r s' =>
      ∃ e args, r.2 = (Expr.call e args).withSpan (spanOf t) ∧
        Receives (arguments.all isPure) s.temps s'.temps r.1 e := by
  cases height with
  | zero => exact .unsupported
  | succ height =>
    refine Below.ensures_expression_of_builtin (P := fun r s' => ∃ e args,
      r.2 = .call e args ∧ Receives (arguments.all isPure) s.temps s'.temps r.1 e) isCall ?_ ?_
    · rw [Below.buildBuiltin, Below.callParts, parts]
      refine .bind (P := fun (r : List Stmt × Expr × List Expr) s' =>
        Receives (arguments.all isPure) s.temps s'.temps r.1 r.2.1) ?_ ?_
      · refine (ensures_receiver access arguments s).bind ?_
        rintro ⟨stmts, -⟩ s₁ ⟨e, args, rfl, receives⟩
        exact .pure receives
      · exact fun r s₁ receives => .pure ⟨r.2.1, r.2.2, rfl, receives⟩
    · rintro a - s' ⟨e, args, rfl, receives⟩
      exact ⟨e, args, rfl, receives⟩

theorem Receives.isMember_iff {pure : Bool} {low high : Nat} {stmts : List Stmt} {callee : Expr}
    (receives : Receives pure low high stmts callee) : callee.isMember = true ↔ pure = true := by
  unfold Receives at receives
  split at receives
  case isTrue isPure => exact ⟨fun _ => isPure, fun _ => receives⟩
  case isFalse impure =>
    obtain ⟨_, n, _, _, _, rfl, _⟩ := receives
    exact ⟨by rintro ⟨⟩, fun isPure => absurd isPure impure⟩

/-- A call in a place for statements is built like one in a place for a value. -/
theorem ensures_lower_call {t : Tree} (isCall : t.symbol = .builtin .call) (dest : Dest)
    (s : GenState) :
    Ensures s ((upTo height).lower t dest) fun a s' =>
      ∃ r b, (upTo height).build t s = .ok (r, s') ∧ Delivered dest [r.2] b ∧
        a = (r.1 ++ b).map (Stmt.withSpan (spanOf t)) := by
  cases height with
  | zero => exact .unsupported
  | succ height =>
    change Ensures s ((upTo height).node t dest) _
    rw [Below.node, isCall]
    refine .bind (P := fun a s' => ∃ r b, (upTo (height + 1)).build t s = .ok (r, s') ∧
      Delivered dest [r.2] b ∧ a = r.1 ++ b) ?_ ?_
    · change Ensures s ((upTo height).plain t dest) _
      rw [Below.plain]
      refine .bind (P := fun r s' => (upTo (height + 1)).build t s = .ok (r, s'))
        (fun r s' ran => ran) fun r s₁ built => ?_
      refine .bind (Below.fares_emitted t r.2 dest s₁).ensures ?_
      rintro b s₂ ⟨delivered, rfl⟩
      exact .pure ⟨r, b, built, delivered, rfl⟩
    · rintro - s' ⟨r, b, built, delivered, rfl⟩
      exact .pure ⟨r, b, built, delivered, rfl⟩

/--
A call of a property has the property as its callee exactly if its arguments are pure. Otherwise
the property is put into a temporary first, and the callee is the temporary: the function does not
get the object as its receiver. A call whose value goes to a destination is the same call.
-/
theorem receives_iff_pure {t callee : Tree} {arguments : List Tree}
    (isCall : t.symbol = .builtin .call) (parts : t.children = callee :: arguments)
    (access : isAccess callee = true) :
    (∀ r s', (upTo height).build t s = .ok (r, s') →
      ∃ e args, r.2 = (Expr.call e args).withSpan (spanOf t) ∧
        (e.isMember = true ↔ arguments.all isPure = true) ∧
        Receives (arguments.all isPure) s.temps s'.temps r.1 e) ∧
    ∀ dest a s', (upTo height).lower t dest s = .ok (a, s') →
      ∃ r b, (upTo height).build t s = .ok (r, s') ∧ Delivered dest [r.2] b ∧
        a = (r.1 ++ b).map (Stmt.withSpan (spanOf t)) := by
  refine ⟨fun r s' built => ?_, fun dest a s' lowered => ?_⟩
  · obtain ⟨e, args, same, receives⟩ := ensures_call isCall parts access s r s' built
    exact ⟨e, args, same, receives.isMember_iff, receives⟩
  · exact ensures_lower_call isCall dest s a s' lowered

/-- A call of the property `f` of `x` with a `do` as its argument. -/
def calling : Tree :=
  .node 0 (.new (.builtin .call) none default)
    [.node 1 (.new (.builtin .member) none default)
      [.node 2 (.new (.tag .external) (some (.name "x")) default) [],
        .node 3 (.new (.tag .external) (some (.name "f")) default) []],
      .node 4 (.new (.block .doBlock) none default)
        [.node 5 (.new .value (some (.bool true)) default) []]]

def called : (List Stmt × Expr) × GenState :=
  ((upTo 3).build calling .start).toOption.getD (([], default), .start)

theorem receives_calling :
    (upTo 3).build calling .start = .ok called ∧ ∃ e args,
      called.1.2 = (Expr.call e args).withSpan (spanOf calling) ∧ e.isMember = false := by
  have built : (upTo 3).build calling .start = .ok called := rfl
  obtain ⟨e, args, same, isMember, _⟩ := (receives_iff_pure rfl rfl rfl).1 _ _ built
  refine ⟨built, e, args, same, Bool.eq_false_iff.mpr fun member => ?_⟩
  exact absurd (isMember.mp member) (by decide)

end Lowering

def Expr.callee? : Expr → Option Expr
  | .call callee _ => some callee
  | .located _ e => e.callee?
  | _ => none

def Stmt.callee? : Stmt → Option Expr
  | .expr e => e.callee?
  | .located _ s => s.callee?
  | _ => none

/-- A property is called with an argument that needs statements. -/
def detaching : Compilation :=
  compile "main" "#external x\nx.f(do\n  1)".toList .standard ⟨true, false, true, none⟩

/-- The callee of the only call is a temporary. -/
theorem detached_detaching :
    (∃ t ∈ detaching.unit.tree.children, t.is .call ∧ t.children.head?.any Lowering.isAccess) ∧
      ∃ program ∈ detaching.program,
        (program.filterMap Stmt.callee?).map Expr.name? = [some "$t1"] := by
  decide +kernel

end Offside
