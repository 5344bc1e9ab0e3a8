import Offside.Compilation
import Offside.Proofs.Binding.Paths
import Offside.Proofs.Lowering.Derivations
import Offside.Proofs.Program.Paths

/-!
# Jumps that are passed

No path runs past the statements of a jump, but for a `give` whose target returns its value: there
the statements are those of the value alone, for the destination of the target. If there is no
value, or a path runs past its statements, it runs past the `give` as well.
-/

namespace Offside

open Stmt (CanEnd)

namespace Lowering

variable {below : Below} {t : Tree} {op : Builtin} {s : GenState} {a : List Stmt}

/-- The operators that are jumps of a function, a loop or a `do`. -/
def leaves : Builtin → Bool
  | .give | .nextRound | .leave | .ret => true
  | _ => false

theorem not_canEnd_behind {last : Stmt} (terminal : last.isTerminal = true) :
    ¬CanEnd (a ++ [last]) :=
  fun ends => Stmt.not_canEnd_of_isTerminal terminal (Stmt.canEnd_append.mp ends).2

/-- The statements of the value of a jump, if it has one. -/
theorem ensures_brought {ts : List Tree} {dest : Dest} {after : List Stmt → Gen (List Stmt)}
    {post : List Stmt → GenState → Prop} (bare : ts.head? = none → Ensures s (after []) post)
    (valued : ∀ value b s', ts.head? = some value → below.lower value dest s = .ok (b, s') →
      Ensures s' (after b) post) :
    Ensures s (match ts with
      | value :: _ => below.lower value dest >>= after
      | [] => pure [] >>= after) post := by
  cases ts with
  | nil =>
    rw [pure_bind]
    exact bare rfl
  | cons value rest =>
    refine .bind (P := fun b s' => below.lower value dest s = .ok (b, s')) (fun _ _ ran => ran) ?_
    exact fun b s' ran => valued value b s' rfl ran

/-- A path runs past a `give` in this case only. -/
structure Passed (below : Below) (t : Tree) (s : GenState) : Prop where
  returns : ∃ target, s.jumps.head? = some target ∧ target.results = .ret
  value : ∀ value, t.children.head? = some value →
    ∃ b s', below.lower value .ret s = .ok (b, s') ∧ CanEnd b

/-- What is known of the statements of a `give`. -/
structure Gives (below : Below) (t : Tree) (s : GenState) (a : List Stmt) : Prop where
  passed : CanEnd a ↔ Passed below t s
  leaves : ∀ target, s.jumps.head? = some target → target.results ≠ .ret →
    ∃ b, a = b ++ [.leave (some target.label)]

theorem ensures_give (t : Tree) (s : GenState) :
    Ensures s (below.jump t .give) fun a _ => Gives below t s a := by
  unfold Below.jump
  refine .bind (P := fun found s' => s = found ∧ s = s') ?_ ?_
  · intro _ _ ran
    cases ran
    exact ⟨rfl, rfl⟩
  rintro _ _ ⟨rfl, rfl⟩
  dsimp only
  split
  case h_1 => exact .malformed
  case h_2 target found =>
    replace found : s.jumps.head? = some target := found
    by_cases returns : target.results = .ret
    case pos =>
      have gives {a : List Stmt} (passed : CanEnd a ↔ ∀ value, t.children.head? = some value →
          ∃ b s', below.lower value .ret s = .ok (b, s') ∧ CanEnd b) : Gives below t s a := by
        refine ⟨passed.trans ⟨(⟨⟨target, found, returns⟩, ·⟩), Passed.value⟩, fun other same => ?_⟩
        cases found.symm.trans same
        exact absurd returns
      refine ensures_brought (fun none => ?_) fun value b s' isFirst lowered => ?_
      · rw [if_pos returns]
        refine .pure (gives ⟨fun _ value isFirst => ?_, fun _ => ⟨[], rfl, rfl⟩⟩)
        cases none.symm.trans isFirst
      · rw [if_pos returns]
        rw [returns] at lowered
        refine .pure (gives ⟨fun ends other same => ?_, fun each => ?_⟩)
        · cases isFirst.symm.trans same
          exact ⟨b, s', lowered, ends⟩
        · obtain ⟨b, s', again, ends⟩ := each value isFirst
          cases lowered.symm.trans again
          exact ends
    case neg =>
      have gives (b : List Stmt) : Gives below t s (b ++ [.leave (some target.label)]) := by
        refine ⟨iff_of_false (not_canEnd_behind rfl) fun passed => ?_, fun other same _ => ?_⟩
        · obtain ⟨other, same, returned⟩ := passed.returns
          cases found.symm.trans same
          exact returns returned
        · cases found.symm.trans same
          exact ⟨b, rfl⟩
      refine ensures_brought (fun _ => ?_) fun _ b _ _ _ => ?_
      · rw [if_neg returns]
        exact .after fun _ _ => .pure (gives [])
      · rw [if_neg returns]
        exact .after fun _ _ => .pure (gives b)

/-- A path never runs past another jump. -/
theorem ensures_leaves (isOp : t.symbol = .builtin op) (jumps : leaves op = true)
    (other : op ≠ .give) (dest : Dest) (s : GenState) :
    Ensures s (below.builtinStatements t op dest) fun a _ => ¬CanEnd a := by
  cases op
  case give => exact absurd rfl other
  case nextRound =>
    change Ensures s (below.jump t .nextRound) _
    unfold Below.jump
    refine .after fun found s₁ => ?_
    dsimp only
    split
    case h_1 => exact .malformed
    case h_2 =>
      refine ensures_brought (fun _ => ?_) fun _ _ _ _ _ => ?_
      all_goals exact .after fun _ _ => .pure (not_canEnd_behind rfl)
  case leave =>
    change Ensures s (below.jump t .leave) _
    unfold Below.jump
    refine .after fun found s₁ => ?_
    dsimp only
    split
    case h_1 => exact .malformed
    case h_2 => exact .after fun _ _ => .pure (Stmt.not_canEnd_of_isTerminal rfl)
  case ret =>
    unfold Below.builtinStatements
    dsimp only
    split
    case h_1 => exact .pure (Stmt.not_canEnd_of_isTerminal rfl)
    case h_2 => exact .after fun _ _ => .pure (not_canEnd_behind rfl)
  all_goals cases jumps

/-- The statements of a jump, before they get its place. -/
theorem ensures_jumped (isOp : t.symbol = .builtin op) (jumps : leaves op = true) (dest : Dest)
    (s : GenState) :
    Ensures s (below.node t dest) fun a _ => ∃ b, a = b.map (Stmt.withSpan (spanOf t)) ∧
      (CanEnd b ↔ op = .give ∧ Passed below t s) ∧ (op = .give → Gives below t s b) := by
  rw [Below.node, isOp]
  refine .bind (P := fun b _ => (CanEnd b ↔ op = .give ∧ Passed below t s) ∧
    (op = .give → Gives below t s b)) ?_ fun b _ stmts => .pure ⟨b, rfl, stmts⟩
  by_cases isGive : op = .give
  case pos =>
    subst isGive
    refine (ensures_give t s).mono fun b _ gives => ⟨?_, fun _ => gives⟩
    exact gives.passed.trans ⟨(⟨rfl, ·⟩), And.right⟩
  case neg =>
    refine (ensures_leaves isOp jumps isGive dest s).mono fun b _ stops => ⟨?_, (absurd · isGive)⟩
    exact iff_of_false stops fun passed => isGive passed.1

/-! ## Values that are returned -/

theorem ensures_returned_emit (u : Tree) (b : List Stmt) (e : Expr) (s : GenState) :
    Ensures s (emit u e .ret >>= fun c => pure (b ++ c)) fun a _ => ¬CanEnd a := by
  refine .bind (Below.fares_emitted u e .ret s).ensures ?_
  rintro c s' ⟨⟨⟩, _⟩
  exact .pure (not_canEnd_behind rfl)

theorem ensures_returned_assign (single : t.children.head?.any isSingleTarget = true)
    (s : GenState) :
    Ensures s (below.assign t .ret) fun a _ => ¬CanEnd a := by
  rw [Below.assign]
  split
  case h_1 left right parts =>
    rw [parts, List.head?_cons, Option.any_some] at single
    rw [single, Bool.not_true, if_neg Bool.false_ne_true]
    split
    case isTrue =>
      refine .after fun names s₁ => ?_
      split
      case h_1 => exact .malformed
      case h_2 name _ => exact .after fun stmts s₂ => ensures_returned_emit t stmts (.ident name) s₂
    case isFalse => exact .after fun r s₁ => ensures_returned_emit t r.1 r.2 s₁
  case h_2 => exact .malformed

/-- The value of an expression is returned. -/
theorem ensures_returned (expression : isExpression t = true) (s : GenState) :
    Ensures s (below.node t .ret) fun a _ => ¬CanEnd a := by
  have placed (a : List Stmt) (s' : GenState) (stops : ¬CanEnd a) :
      Ensures s' (pure (a.map (Stmt.withSpan (spanOf t)))) fun a _ => ¬CanEnd a :=
    .pure fun ends => stops (Stmt.canEnd_map_withSpan.mp ends)
  have plain : Ensures s (below.plain t .ret) fun a _ => ¬CanEnd a :=
    .after fun r s₁ => ensures_returned_emit t r.1 r.2 s₁
  rw [isExpression] at expression
  rw [Below.node]
  split at expression
  case isTrue isIf =>
    have isSymbol : t.symbol = _ := Info.symbol_of_is isIf
    rw [isSymbol]
    refine .bind ?_ placed
    change Ensures s (if _ then below.plain t .ret else _) _
    rw [if_pos (by rw [expression]; rfl)]
    exact plain
  case isFalse noIf =>
    cases isSymbol : t.symbol with
    | builtin op =>
      rw [isSymbol] at expression
      refine .bind ?_ placed
      cases op
      case assign => exact ensures_returned_assign expression s
      all_goals first | exact plain | cases expression
    | value | tag | nothing => exact .bind plain placed
    | _ =>
      rw [isSymbol] at expression
      cases expression

theorem not_passed_of_isExpression {value : Tree} {height : Nat}
    (isFirst : t.children.head? = some value) (expression : isExpression value = true) :
    ¬Passed (upTo height) t s := by
  intro passed
  obtain ⟨b, s', lowered, ends⟩ := passed.value value isFirst
  cases height with
  | zero => cases lowered
  | succ height => exact ensures_returned expression s b s' lowered ends

/--
A path runs past the statements of a jump exactly if the jump is a `give`, its target returns the
value, and there is no value or a path runs past its statements; the statements of an expression
are never passed. Where the target does not return the value, the last statement of the `give`
leaves by the label of the target.
-/
theorem passed_iff_returned {dest : Dest} {s' : GenState} {height : Nat}
    (isOp : t.symbol = .builtin op) (jumps : leaves op = true)
    (lowered : (upTo (height + 1)).lower t dest s = .ok (a, s')) :
    (CanEnd a ↔ op = .give ∧ Passed (upTo height) t s) ∧
    (∀ value, t.children.head? = some value → isExpression value = true → ¬CanEnd a) ∧
    ∀ target, op = .give → s.jumps.head? = some target → target.results ≠ .ret →
      ∃ b, a = (b ++ [.leave (some target.label)]).map (Stmt.withSpan (spanOf t)) := by
  obtain ⟨b, rfl, passed, gives⟩ := ensures_jumped isOp jumps dest s a s' lowered
  rw [Stmt.canEnd_map_withSpan]
  refine ⟨passed, fun value isFirst expression ends => ?_, fun target isGive found named => ?_⟩
  · exact not_passed_of_isExpression isFirst expression (passed.mp ends).2
  · obtain ⟨c, rfl⟩ := (gives isGive).leaves target found named
    exact ⟨c, rfl⟩

def giving : Tree :=
  .node 0 (.new (.builtin .give) none default) []

def returning : GenState :=
  { GenState.start with jumps := [⟨.doBlock, "do$1", .ret, [], false⟩] }

theorem passed_giving :
    (upTo 1).lower giving .discard returning = .ok ([], returning) ∧
      Passed (upTo 0) giving returning := by
  have lowered : (upTo 1).lower giving .discard returning = .ok ([], returning) := rfl
  have passed := (passed_iff_returned rfl rfl lowered).1.mp ⟨[], rfl, rfl⟩
  exact ⟨lowered, passed.2⟩

end Lowering

/-- The value of a `do` is returned, and a `give` in it has none. -/
def dropping : Compilation :=
  compile "main" "#external a\nvar f = fn ()\n  do\n    if a\n      give\n    1".toList .standard
    ⟨true, false, true, none⟩

/-- Decides whether the function that a program assigns goes on from an empty `if` to a `return`. -/
def goesOn : Program → Bool
  | [.decl _, .expr (.assign _ (.function _ [.block [.ifThen _ (.block []) none, .ret _]]))] =>
    true
  | _ => false

/-- The block of the `if` that holds the `give` is empty: the `return` behind the `if` runs next. -/
theorem passed_dropping :
    (∃ t ∈ dropping.unit.tree.subtree? [1, 1, 1, 0, 0, 1, 0], t.is .give) ∧
      ∃ program ∈ dropping.program, goesOn program.bare := by
  decide +kernel

end Offside
