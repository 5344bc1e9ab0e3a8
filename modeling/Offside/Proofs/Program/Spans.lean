import Offside.Program

/-!
# Places in programs

The places of a program can be listed, and they can be replaced without a change of anything else.
Without its places a program has none, whatever they were.
-/

namespace Offside

open List

variable (f : Span → Span)

mutual

/-- The statement with other places. -/
def Stmt.mapSpan : Stmt → Stmt
  | .located span s => .located (f span) s.mapSpan
  | .expr e => .expr e.mapSpan
  | .block body => .block (Stmt.mapSpanAll body)
  | .ifThen test consequent alternate =>
    .ifThen test.mapSpan consequent.mapSpan (Stmt.mapSpanAlternate alternate)
  | .whileLoop test body => .whileLoop test.mapSpan body.mapSpan
  | .labeled label body => .labeled label body.mapSpan
  | .ret (some value) => .ret (some value.mapSpan)
  | .throw value => .throw value.mapSpan
  | .tryBlock block handler finalizer =>
    .tryBlock (Stmt.mapSpanAll block) (Handler.mapSpanHandler handler)
      (Stmt.mapSpanFinalizer finalizer)
  | s => s

def Stmt.mapSpanAll : List Stmt → List Stmt
  | [] => []
  | s :: rest => s.mapSpan :: Stmt.mapSpanAll rest

def Stmt.mapSpanAlternate : Option Stmt → Option Stmt
  | none => none
  | some s => some s.mapSpan

def Stmt.mapSpanFinalizer : Option (List Stmt) → Option (List Stmt)
  | none => none
  | some body => some (Stmt.mapSpanAll body)

def Handler.mapSpanHandler : Option Handler → Option Handler
  | none => none
  | some (.mk param body) => some (.mk param (Stmt.mapSpanAll body))

/-- The expression with other places. -/
def Expr.mapSpan : Expr → Expr
  | .located span e => .located (f span) e.mapSpan
  | .literal value => .literal value
  | .ident name => .ident name
  | .function params body => .function params (Stmt.mapSpanAll body)
  | .member object property computed => .member object.mapSpan property.mapSpan computed
  | .call callee args => .call callee.mapSpan (Expr.mapSpanAll args)
  | .new callee args => .new callee.mapSpan (Expr.mapSpanAll args)
  | .binary op left right => .binary op left.mapSpan right.mapSpan
  | .logical op left right => .logical op left.mapSpan right.mapSpan
  | .unary op argument => .unary op argument.mapSpan
  | .assign target value => .assign target.mapSpan value.mapSpan
  | .conditional test consequent alternate =>
    .conditional test.mapSpan consequent.mapSpan alternate.mapSpan
  | .array items => .array (Expr.mapSpanAll items)
  | .object entries => .object (Expr.mapSpanEntries entries)

def Expr.mapSpanAll : List Expr → List Expr
  | [] => []
  | e :: rest => e.mapSpan :: Expr.mapSpanAll rest

def Expr.mapSpanEntries : List (String × Expr) → List (String × Expr)
  | [] => []
  | (key, value) :: rest => (key, value.mapSpan) :: Expr.mapSpanEntries rest

end

mutual

def Stmt.spans : Stmt → List Span
  | .located span s => span :: s.spans
  | .expr e | .throw e | .ret (some e) => e.spans
  | .decl _ | .leave _ | .next _ | .ret none => []
  | .block body => Stmt.spansAll body
  | .ifThen test consequent none => test.spans ++ consequent.spans
  | .ifThen test consequent (some alternate) =>
    test.spans ++ consequent.spans ++ alternate.spans
  | .whileLoop test body => test.spans ++ body.spans
  | .labeled _ body => body.spans
  | .tryBlock block handler finalizer =>
    Stmt.spansAll block ++
      (match handler with
      | some (.mk _ body) => Stmt.spansAll body
      | none => []) ++
      match finalizer with
      | some body => Stmt.spansAll body
      | none => []

def Stmt.spansAll : List Stmt → List Span
  | [] => []
  | s :: rest => s.spans ++ Stmt.spansAll rest

def Expr.spans : Expr → List Span
  | .located span e => span :: e.spans
  | .literal _ | .ident _ => []
  | .function _ body => Stmt.spansAll body
  | .member left right _ | .binary _ left right | .logical _ left right | .assign left right =>
    left.spans ++ right.spans
  | .call callee args | .new callee args => callee.spans ++ Expr.spansAll args
  | .unary _ argument => argument.spans
  | .conditional test consequent alternate => test.spans ++ consequent.spans ++ alternate.spans
  | .array items => Expr.spansAll items
  | .object entries => Expr.spansEntries entries

def Expr.spansAll : List Expr → List Span
  | [] => []
  | e :: rest => e.spans ++ Expr.spansAll rest

def Expr.spansEntries : List (String × Expr) → List Span
  | [] => []
  | (_, value) :: rest => value.spans ++ Expr.spansEntries rest

end

/-! ## Programs without places -/

attribute [local simp] Stmt.bare Stmt.bareAll Stmt.bareAlternate Stmt.bareFinalizer
  Handler.bareHandler Expr.bare Expr.bareAll Expr.bareValue Expr.bareEntries Stmt.mapSpan
  Stmt.mapSpanAll Stmt.mapSpanAlternate Stmt.mapSpanFinalizer Handler.mapSpanHandler Expr.mapSpan
  Expr.mapSpanAll Expr.mapSpanEntries Stmt.spans Stmt.spansAll Expr.spans Expr.spansAll
  Expr.spansEntries

mutual

theorem Stmt.bare_mapSpan (s : Stmt) : (s.mapSpan f).bare = s.bare ∧ s.bare.spans = [] := by
  cases s with
  | ifThen test consequent alternate =>
    cases alternate <;> simp [Stmt.bare_mapSpan, Expr.bare_mapSpan]
  | ret value => cases value <;> simp [Expr.bare_mapSpan]
  | tryBlock block handler finalizer =>
    rcases handler with _ | ⟨param, body⟩ <;> cases finalizer <;> simp [Stmt.bare_mapSpanAll]
  | _ => simp [Stmt.bare_mapSpan, Stmt.bare_mapSpanAll, Expr.bare_mapSpan]

theorem Stmt.bare_mapSpanAll (body : List Stmt) :
    Stmt.bareAll (Stmt.mapSpanAll f body) = Stmt.bareAll body ∧
      Stmt.spansAll (Stmt.bareAll body) = [] := by
  cases body <;> simp [Stmt.bare_mapSpan, Stmt.bare_mapSpanAll]

theorem Expr.bare_mapSpan (e : Expr) : (e.mapSpan f).bare = e.bare ∧ e.bare.spans = [] := by
  cases e <;> simp [Expr.bare_mapSpan, Stmt.bare_mapSpanAll, Expr.bare_mapSpanAll,
    Expr.bare_mapSpanEntries]

theorem Expr.bare_mapSpanAll (es : List Expr) :
    Expr.bareAll (Expr.mapSpanAll f es) = Expr.bareAll es ∧
      Expr.spansAll (Expr.bareAll es) = [] := by
  cases es <;> simp [Expr.bare_mapSpan, Expr.bare_mapSpanAll]

theorem Expr.bare_mapSpanEntries (entries : List (String × Expr)) :
    Expr.bareEntries (Expr.mapSpanEntries f entries) = Expr.bareEntries entries ∧
      Expr.spansEntries (Expr.bareEntries entries) = [] := by
  rcases entries with _ | ⟨⟨key, value⟩, rest⟩ <;>
    simp [Expr.bare_mapSpan, Expr.bare_mapSpanEntries]

end

/-! ## Parts with other places -/

@[simp] theorem Stmt.mapSpanAll_eq_map (body : List Stmt) :
    Stmt.mapSpanAll f body = body.map (Stmt.mapSpan f) := by
  induction body with
  | nil => rfl
  | cons s rest ih => rw [Stmt.mapSpanAll, ih, map_cons]

@[simp] theorem Expr.mapSpanAll_eq_map (es : List Expr) :
    Expr.mapSpanAll f es = es.map (Expr.mapSpan f) := by
  induction es with
  | nil => rfl
  | cons e rest ih => rw [Expr.mapSpanAll, ih, map_cons]

@[simp] theorem Expr.mapSpanEntries_zip (keys : List String) (es : List Expr) :
    Expr.mapSpanEntries f (keys.zip es) = keys.zip (es.map (Expr.mapSpan f)) := by
  induction keys generalizing es with
  | nil => rfl
  | cons key keys ih => cases es <;> simp [ih]

@[simp] theorem Expr.isTrivial_mapSpan (e : Expr) : (e.mapSpan f).isTrivial = e.isTrivial := by
  cases e with
  | located span e => simpa [isTrivial] using isTrivial_mapSpan e
  | _ => simp [isTrivial]

@[simp] theorem Stmt.isTerminal_mapSpan (s : Stmt) : (s.mapSpan f).isTerminal = s.isTerminal := by
  cases s with
  | located span s => simpa [isTerminal] using isTerminal_mapSpan s
  | ret value => cases value <;> simp [isTerminal]
  | _ => simp [isTerminal]

@[simp] theorem Expr.mapSpan_withSpan (span : Span) (e : Expr) :
    (e.withSpan span).mapSpan f = (e.mapSpan f).withSpan (f span) := by
  cases e <;> simp [withSpan]

@[simp] theorem Stmt.mapSpan_withSpan (span : Span) (s : Stmt) :
    (s.withSpan span).mapSpan f = (s.mapSpan f).withSpan (f span) := by
  cases s with
  | ret value => cases value <;> simp [withSpan]
  | _ => simp [withSpan]

end Offside
