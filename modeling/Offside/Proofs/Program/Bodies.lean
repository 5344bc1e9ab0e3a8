import Offside.Proofs.Program.Parts

/-!
# Lists of statements in a program

A program is a list of statements, and so is each block, each clause of a `try` and each body of a
function in it. The body of a function or of a handler stands together with the parameters.
-/

namespace Offside

open List

/-- A list of statements, with the parameters of the function or handler whose body it is. -/
structure Body where
  params : List String
  stmts : List Stmt

def Stmt.decl? : Stmt → Option (List String)
  | .decl names => some names
  | .located _ s => s.decl?
  | _ => none

namespace Body

def declarations (body : Body) : List (List String) :=
  body.stmts.filterMap Stmt.decl?

def declared (body : Body) : List String :=
  body.declarations.flatten

end Body

mutual

def Stmt.bodies : Stmt → List Body
  | .expr e => e.bodies
  | .block stmts => ⟨[], stmts⟩ :: Stmt.bodiesAll stmts
  | .ifThen test consequent alternate =>
    test.bodies ++ consequent.bodies ++ Stmt.bodiesAlternate alternate
  | .whileLoop test body => test.bodies ++ body.bodies
  | .labeled _ body => body.bodies
  | .ret value => Expr.bodiesValue value
  | .throw value => value.bodies
  | .tryBlock block handler finalizer =>
    ⟨[], block⟩ :: Stmt.bodiesAll block ++ Handler.bodiesHandler handler ++
      Stmt.bodiesFinalizer finalizer
  | .located _ s => s.bodies
  | .decl _ | .leave _ | .next _ => []

def Stmt.bodiesAll : List Stmt → List Body
  | [] => []
  | s :: rest => s.bodies ++ Stmt.bodiesAll rest

def Stmt.bodiesAlternate : Option Stmt → List Body
  | none => []
  | some s => s.bodies

def Stmt.bodiesFinalizer : Option (List Stmt) → List Body
  | none => []
  | some stmts => ⟨[], stmts⟩ :: Stmt.bodiesAll stmts

def Handler.bodiesHandler : Option Handler → List Body
  | none => []
  | some (.mk param stmts) => ⟨param.toList, stmts⟩ :: Stmt.bodiesAll stmts

def Expr.bodies : Expr → List Body
  | .literal _ | .ident _ => []
  | .function params stmts => ⟨params, stmts⟩ :: Stmt.bodiesAll stmts
  | .member object property _ => object.bodies ++ property.bodies
  | .call callee args | .new callee args => callee.bodies ++ Expr.bodiesAll args
  | .binary _ left right | .logical _ left right => left.bodies ++ right.bodies
  | .unary _ argument => argument.bodies
  | .assign target value => target.bodies ++ value.bodies
  | .conditional test consequent alternate =>
    test.bodies ++ consequent.bodies ++ alternate.bodies
  | .array items => Expr.bodiesAll items
  | .object entries => Expr.bodiesEntries entries
  | .located _ e => e.bodies

def Expr.bodiesAll : List Expr → List Body
  | [] => []
  | e :: rest => e.bodies ++ Expr.bodiesAll rest

def Expr.bodiesValue : Option Expr → List Body
  | none => []
  | some e => e.bodies

def Expr.bodiesEntries : List (String × Expr) → List Body
  | [] => []
  | (_, value) :: rest => value.bodies ++ Expr.bodiesEntries rest

end

def Program.bodies (program : Program) : List Body :=
  ⟨[], program⟩ :: Stmt.bodiesAll program

attribute [local simp] Stmt.bodies Stmt.bodiesAll Stmt.bodiesAlternate Stmt.bodiesFinalizer
  Handler.bodiesHandler Expr.bodies Expr.bodiesAll Expr.bodiesValue Expr.bodiesEntries

/-! ## Declarations of a list -/

namespace Stmt

theorem decl?_of_opens {s : Stmt} (quiet : s.opens = []) : s.decl? = none := by
  fun_induction Stmt.opens s with
  | case1 => cases quiet
  | case2 span s ih =>
    rw [decl?]
    exact ih quiet
  | case3 s noDecl noSpan =>
    unfold decl?
    split
    · exact (noDecl _ rfl).elim
    · exact (noSpan _ _ rfl).elim
    · rfl

theorem filterMap_decl? {a : List Stmt} (quiet : Quiet a) : a.filterMap decl? = [] :=
  filterMap_eq_nil_iff.mpr fun s member => decl?_of_opens (quiet s member)

end Stmt

/-! ## Properties of all lists -/

def Expr.Holds (P : Body → Prop) (es : List Expr) : Prop :=
  ∀ body ∈ Expr.bodiesAll es, P body

def Stmt.Holds (P : Body → Prop) (a : List Stmt) : Prop :=
  ∀ body ∈ Stmt.bodiesAll a, P body

section Holds

variable {P : Body → Prop} {a b : List Stmt} {s : Stmt} {e f : Expr} {es fs : List Expr}
  {name : String}

namespace Expr

theorem bodiesAll_append (es fs : List Expr) :
    bodiesAll (es ++ fs) = bodiesAll es ++ bodiesAll fs := by
  induction es with
  | nil => rw [nil_append, bodiesAll, nil_append]
  | cons e es ih => rw [cons_append, bodiesAll, bodiesAll, ih, append_assoc]

theorem bodiesEntries_eq (entries : List (String × Expr)) :
    bodiesEntries entries = bodiesAll (entries.map Prod.snd) := by
  induction entries with
  | nil => rw [bodiesEntries, map_nil, bodiesAll]
  | cons entry rest ih => rw [bodiesEntries, map_cons, bodiesAll, ih]

@[simp] theorem bodies_withSpan (span : Span) (e : Expr) : (e.withSpan span).bodies = e.bodies := by
  cases e <;> simp only [withSpan, bodies]

/-- The lists in an expression are those in the expressions of which it is composed. -/
theorem Composed.bodies_eq (composed : e.Composed es) : e.bodies = bodiesAll es := by
  cases composed with
  | object entries => rw [bodies, bodiesEntries_eq]
  | _ => simp

@[simp] theorem holds_nil : Holds P [] := by
  simp [Holds]

theorem holds_append : Holds P (es ++ fs) ↔ Holds P es ∧ Holds P fs := by
  rw [Holds, bodiesAll_append, forall_mem_append]
  rfl

theorem holds_cons : Holds P (e :: es) ↔ Holds P [e] ∧ Holds P es := by
  rw [← holds_append, singleton_append]

@[simp] theorem holds_ident : Holds P [.ident name] := by
  simp [Holds]

@[simp] theorem holds_literal {value : Literal} : Holds P [.literal value] := by
  simp [Holds]

@[simp] theorem holds_unary {op : UnaryOp} : Holds P [.unary op e] ↔ Holds P [e] := by
  simp [Holds]

@[simp] theorem holds_property : Holds P [.member e (.ident name) false] ↔ Holds P [e] := by
  simp [Holds]

@[simp] theorem holds_withSpan {span : Span} : Holds P [e.withSpan span] ↔ Holds P [e] := by
  simp [Holds]

theorem holds_idents (names : List String) : Holds P (names.map .ident) := by
  induction names with
  | nil => exact holds_nil
  | cons name names ih => exact holds_cons.mpr ⟨holds_ident, ih⟩

theorem holds_function {params : List String} :
    Holds P [.function params a] ↔ P ⟨params, a⟩ ∧ Stmt.Holds P a := by
  simp [Holds, Stmt.Holds]

theorem Holds.composed (composed : e.Composed es) (holds : Holds P es) : Holds P [e] := by
  rw [Holds, bodiesAll, bodiesAll, append_nil, composed.bodies_eq]
  exact holds

end Expr

namespace Stmt

theorem bodiesAll_append (a b : List Stmt) : bodiesAll (a ++ b) = bodiesAll a ++ bodiesAll b := by
  induction a with
  | nil => rw [nil_append, bodiesAll, nil_append]
  | cons s rest ih => rw [cons_append, bodiesAll, bodiesAll, ih, append_assoc]

@[simp] theorem bodies_withSpan (span : Span) (s : Stmt) : (s.withSpan span).bodies = s.bodies := by
  cases s <;> simp only [withSpan, bodies]

@[simp] theorem holds_nil : Holds P [] := by
  simp [Holds]

theorem holds_append : Holds P (a ++ b) ↔ Holds P a ∧ Holds P b := by
  rw [Holds, bodiesAll_append, forall_mem_append]
  rfl

theorem holds_cons : Holds P (s :: a) ↔ Holds P [s] ∧ Holds P a := by
  rw [← holds_append, singleton_append]

theorem Holds.map_withSpan (span : Span) (holds : Holds P a) : Holds P (a.map (withSpan span)) := by
  induction a with
  | nil => exact holds_nil
  | cons s rest ih =>
    have parts := holds_cons.mp holds
    rw [map_cons, holds_cons]
    refine ⟨?_, ih parts.2⟩
    simpa [Holds] using parts.1

@[simp] theorem holds_expr : Holds P [.expr e] ↔ Expr.Holds P [e] := by
  simp [Holds, Expr.Holds]

@[simp] theorem holds_decl {names : List String} : Holds P [.decl names] := by
  simp [Holds]

@[simp] theorem holds_assign : Holds P [.assign name e] ↔ Expr.Holds P [e] := by
  simp [Holds, Expr.Holds, assign]

@[simp] theorem holds_block : Holds P [.block a] ↔ P ⟨[], a⟩ ∧ Holds P a := by
  simp [Holds]

@[simp] theorem holds_ifThen : Holds P [.ifThen e s none] ↔ Expr.Holds P [e] ∧ Holds P [s] := by
  simp [Holds, Expr.Holds, or_imp, forall_and]

@[simp] theorem holds_ifElse {other : Stmt} :
    Holds P [.ifThen e s (some other)] ↔ Expr.Holds P [e] ∧ Holds P [s] ∧ Holds P [other] := by
  simp [Holds, Expr.Holds, or_imp, forall_and]

@[simp] theorem holds_whileLoop :
    Holds P [.whileLoop e s] ↔ Expr.Holds P [e] ∧ Holds P [s] := by
  simp [Holds, Expr.Holds, or_imp, forall_and]

@[simp] theorem holds_labeled {label : String} : Holds P [.labeled label s] ↔ Holds P [s] := by
  simp [Holds]

@[simp] theorem holds_leave {label : Option String} : Holds P [.leave label] := by
  simp [Holds]

@[simp] theorem holds_next {label : Option String} : Holds P [.next label] := by
  simp [Holds]

@[simp] theorem holds_ret : Holds P [.ret (some e)] ↔ Expr.Holds P [e] := by
  simp [Holds, Expr.Holds]

@[simp] theorem holds_retNone : Holds P [.ret none] := by
  simp [Holds]

@[simp] theorem holds_throw : Holds P [.throw e] ↔ Expr.Holds P [e] := by
  simp [Holds, Expr.Holds]

def HoldsHandler (P : Body → Prop) : Option Handler → Prop
  | none => True
  | some (.mk param body) => P ⟨param.toList, body⟩ ∧ Holds P body

def HoldsFinalizer (P : Body → Prop) : Option (List Stmt) → Prop
  | none => True
  | some body => P ⟨[], body⟩ ∧ Holds P body

@[simp] theorem holds_tryBlock {handler : Option Handler} {finalizer : Option (List Stmt)} :
    Holds P [.tryBlock a handler finalizer] ↔
      (P ⟨[], a⟩ ∧ Holds P a) ∧ HoldsHandler P handler ∧ HoldsFinalizer P finalizer := by
  rcases handler with _ | ⟨param, body⟩ <;> cases finalizer <;>
    simp [Holds, HoldsHandler, HoldsFinalizer, or_imp, forall_and, and_assoc]

end Stmt

end Holds

end Offside
