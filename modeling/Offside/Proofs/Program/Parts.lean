import Offside.Program
import Mathlib.Data.List.Basic

/-!
# Parts of a program

The names, declarations, labels and jumps of a program, each with what stands around it. A
declaration stands around what follows it in its list; it belongs to the list as a whole all the
same, so both are noted.
-/

namespace Offside

open List

/-- What stands around a part of a program. -/
inductive Enclosure where
  /-- A list of statements that declares some names. -/
  | list (names : List String)
  /-- A declaration in front of the part, in a list around it. -/
  | behind (names : List String)
  /-- A statement with a label, and whether it is a loop. -/
  | labeled (label : String) (loop : Bool)
  /-- The body of a loop. -/
  | round
  | function (params : List String)
  | handler (param : Option String)
deriving DecidableEq

/-- A part of a program that means something by what stands around it. -/
inductive Part where
  /-- A name whose value is asked for. -/
  | use (name : String)
  /-- A name that is assigned to. -/
  | target (name : String)
  /-- The name of a property. -/
  | property (name : String)
  | decl (names : List String)
  /-- The parameters of a function or of a handler. -/
  | params (names : List String)
  | label (label : String)
  | leave (label : Option String)
  | next (label : Option String)
deriving DecidableEq

/-- A part of a program with what stands around it, the innermost first. -/
structure Site where
  around : List Enclosure
  part : Part
deriving DecidableEq

def Expr.name? : Expr → Option String
  | .ident name => some name
  | .located _ e => e.name?
  | _ => none

namespace Stmt

def isLoop : Stmt → Bool
  | .whileLoop _ _ => true
  | .located _ s => s.isLoop
  | _ => false

def declared : Stmt → List String
  | .decl names => names
  | .located _ s => s.declared
  | _ => []

/-- A declaration as what stands around the statements behind it. -/
def opens : Stmt → List Enclosure
  | .decl names => [.behind names]
  | .located _ s => s.opens
  | _ => []

def listed (body : List Stmt) : Enclosure :=
  .list (body.flatMap declared)

end Stmt

mutual

def Stmt.parts (cx : List Enclosure) : Stmt → List Site
  | .expr e => e.parts cx
  | .decl names => [⟨cx, .decl names⟩]
  | .block body => Stmt.partsAll (Stmt.listed body :: cx) body
  | .ifThen test consequent alternate =>
    test.parts cx ++ consequent.parts cx ++ Stmt.partsAlternate cx alternate
  | .whileLoop test body => test.parts cx ++ body.parts (.round :: cx)
  | .labeled label body => ⟨cx, .label label⟩ :: body.parts (.labeled label body.isLoop :: cx)
  | .leave label => [⟨cx, .leave label⟩]
  | .next label => [⟨cx, .next label⟩]
  | .ret value => Expr.partsValue cx value
  | .throw value => value.parts cx
  | .tryBlock block handler finalizer =>
    Stmt.partsAll (Stmt.listed block :: cx) block ++ Handler.partsHandler cx handler ++
      Stmt.partsFinalizer cx finalizer
  | .located _ s => s.parts cx

def Stmt.partsAll (cx : List Enclosure) : List Stmt → List Site
  | [] => []
  | s :: rest => s.parts cx ++ Stmt.partsAll (s.opens ++ cx) rest

def Stmt.partsAlternate (cx : List Enclosure) : Option Stmt → List Site
  | none => []
  | some s => s.parts cx

def Stmt.partsFinalizer (cx : List Enclosure) : Option (List Stmt) → List Site
  | none => []
  | some body => Stmt.partsAll (Stmt.listed body :: cx) body

def Handler.partsHandler (cx : List Enclosure) : Option Handler → List Site
  | none => []
  | some (.mk param body) =>
    ⟨cx, .params param.toList⟩ :: Stmt.partsAll (Stmt.listed body :: .handler param :: cx) body

def Expr.parts (cx : List Enclosure) : Expr → List Site
  | .literal _ => []
  | .ident name => [⟨cx, .use name⟩]
  | .function params body =>
    ⟨cx, .params params⟩ :: Stmt.partsAll (Stmt.listed body :: .function params :: cx) body
  | .member object property computed =>
    object.parts cx ++
      match computed, property.name? with
      | false, some name => [⟨cx, .property name⟩]
      | _, _ => property.parts cx
  | .call callee args | .new callee args => callee.parts cx ++ Expr.partsAll cx args
  | .binary _ left right | .logical _ left right => left.parts cx ++ right.parts cx
  | .unary _ argument => argument.parts cx
  | .assign target value =>
    (match target.name? with
      | some name => [⟨cx, .target name⟩]
      | none => target.parts cx) ++ value.parts cx
  | .conditional test consequent alternate =>
    test.parts cx ++ consequent.parts cx ++ alternate.parts cx
  | .array items => Expr.partsAll cx items
  | .object entries => Expr.partsEntries cx entries
  | .located _ e => e.parts cx

def Expr.partsAll (cx : List Enclosure) : List Expr → List Site
  | [] => []
  | e :: rest => e.parts cx ++ Expr.partsAll cx rest

def Expr.partsValue (cx : List Enclosure) : Option Expr → List Site
  | none => []
  | some e => e.parts cx

def Expr.partsEntries (cx : List Enclosure) : List (String × Expr) → List Site
  | [] => []
  | (_, value) :: rest => value.parts cx ++ Expr.partsEntries cx rest

end

attribute [local simp] Stmt.parts Stmt.partsAll Stmt.partsAlternate Stmt.partsFinalizer
  Handler.partsHandler Expr.parts Expr.partsAll Expr.partsValue Expr.partsEntries

def Program.parts (program : Program) : List Site :=
  Stmt.partsAll [Stmt.listed program] program

/-! ## Places of parts -/

theorem Expr.parts_of_name? {e : Expr} {name : String} (named : e.name? = some name)
    (cx : List Enclosure) : e.parts cx = [⟨cx, .use name⟩] := by
  fun_induction Expr.name? e with
  | case1 text =>
    cases named
    rw [Expr.parts]
  | case2 span e ih =>
    rw [Expr.parts]
    exact ih named
  | case3 => cases named

@[simp] theorem Expr.parts_withSpan (span : Span) (e : Expr) (cx : List Enclosure) :
    (e.withSpan span).parts cx = e.parts cx := by
  cases e <;> simp only [withSpan, parts]

theorem Expr.partsAll_append (cx : List Enclosure) (es fs : List Expr) :
    partsAll cx (es ++ fs) = partsAll cx es ++ partsAll cx fs := by
  induction es with
  | nil => rw [nil_append, partsAll, nil_append]
  | cons e es ih => rw [cons_append, partsAll, partsAll, ih, append_assoc]

theorem Expr.partsEntries_eq (cx : List Enclosure) (entries : List (String × Expr)) :
    partsEntries cx entries = partsAll cx (entries.map Prod.snd) := by
  induction entries with
  | nil => rw [partsEntries, map_nil, partsAll]
  | cons entry rest ih => rw [partsEntries, map_cons, partsAll, ih]

@[simp] theorem Expr.partsAll_singleton (cx : List Enclosure) (e : Expr) :
    partsAll cx [e] = e.parts cx := by
  rw [partsAll, partsAll, append_nil]

theorem Expr.partsAll_idents (cx : List Enclosure) (names : List String) :
    partsAll cx (names.map .ident) = names.map fun name => ⟨cx, .use name⟩ := by
  induction names with
  | nil => rw [map_nil, partsAll, map_nil]
  | cons name names ih => rw [map_cons, partsAll, parts, ih, map_cons, singleton_append]

/-! ## Parts of parts -/

def Part.plain : Part → Part
  | .target name => .use name
  | part => part

/-- A part where it stands, with no more said of a name than that it is there. -/
def Site.plain (site : Site) : Site :=
  ⟨site.around, site.part.plain⟩

/-- An expression whose value is computed from those of others, which it has in this order. -/
inductive Expr.Composed : Expr → List Expr → Prop
  | literal (value : Literal) : Composed (.literal value) []
  | computed (object property : Expr) : Composed (.member object property true) [object, property]
  | call (callee : Expr) (args : List Expr) : Composed (.call callee args) (callee :: args)
  | new (callee : Expr) (args : List Expr) : Composed (.new callee args) (callee :: args)
  | binary (op : BinaryOp) (left right : Expr) : Composed (.binary op left right) [left, right]
  | logical (op : LogicalOp) (left right : Expr) : Composed (.logical op left right) [left, right]
  | unary (op : UnaryOp) (argument : Expr) : Composed (.unary op argument) [argument]
  | assign (target value : Expr) : Composed (.assign target value) [target, value]
  | conditional (test consequent alternate : Expr) :
      Composed (.conditional test consequent alternate) [test, consequent, alternate]
  | array (items : List Expr) : Composed (.array items) items
  | object (entries : List (String × Expr)) : Composed (.object entries) (entries.map Prod.snd)

/-- The parts of an expression are those of the expressions of which it is composed. -/
theorem Expr.Composed.parts_eq {e : Expr} {es : List Expr} (composed : e.Composed es)
    (cx : List Enclosure) :
    (e.parts cx).map Site.plain = (Expr.partsAll cx es).map Site.plain := by
  cases composed with
  | assign target value =>
    cases named : target.name? with
    | none => simp [named]
    | some name =>
      simp [named, Expr.parts_of_name? named, Site.plain, Part.plain]
  | object entries => rw [Expr.parts, Expr.partsEntries_eq]
  | _ => simp

namespace Stmt

variable {cx : List Enclosure} {a b : List Stmt}

/-- Statements that declare nothing for the list in which they stand. -/
def Quiet (stmts : List Stmt) : Prop :=
  ∀ s ∈ stmts, s.opens = []

theorem Quiet.append (first : Quiet a) (second : Quiet b) : Quiet (a ++ b) :=
  forall_mem_append.mpr ⟨first, second⟩

@[simp] theorem opens_withSpan (span : Span) (s : Stmt) : (s.withSpan span).opens = s.opens := by
  cases s <;> rfl

@[simp] theorem parts_withSpan (span : Span) (s : Stmt) :
    (s.withSpan span).parts cx = s.parts cx := by
  cases s <;> simp only [withSpan, parts]

@[simp] theorem partsAll_singleton (s : Stmt) : partsAll cx [s] = s.parts cx := by
  rw [partsAll, partsAll, append_nil]

/-- The declarations of some statements as what stands around those behind them. -/
def opening : List Stmt → List Enclosure
  | [] => []
  | s :: rest => opening rest ++ s.opens

theorem opening_eq_nil (quiet : Quiet a) : opening a = [] := by
  induction a with
  | nil => rfl
  | cons s rest ih =>
    have quiet := forall_mem_cons.mp quiet
    rw [opening, ih quiet.2, quiet.1, append_nil]

theorem partsAll_append (a b : List Stmt) :
    partsAll cx (a ++ b) = partsAll cx a ++ partsAll (opening a ++ cx) b := by
  induction a generalizing cx with
  | nil => rw [nil_append, partsAll, opening, nil_append, nil_append]
  | cons s rest ih =>
    rw [cons_append, partsAll, partsAll, opening, ih, append_assoc, append_assoc]

theorem partsAll_map_withSpan (span : Span) :
    partsAll cx (a.map (withSpan span)) = partsAll cx a := by
  induction a generalizing cx with
  | nil => rfl
  | cons s rest ih => rw [map_cons, partsAll, partsAll, parts_withSpan, opens_withSpan, ih]

@[simp] theorem parts_assign (name : String) (e : Expr) :
    (assign name e).parts cx = ⟨cx, .target name⟩ :: e.parts cx := by
  rw [assign, parts, Expr.parts, Expr.name?, singleton_append]

end Stmt

/-! ## Properties of all parts -/

def Expr.Each (P : Site → Prop) (cx : List Enclosure) (es : List Expr) : Prop :=
  ∀ site ∈ Expr.partsAll cx es, P site

def Stmt.Each (P : Site → Prop) (cx : List Enclosure) (a : List Stmt) : Prop :=
  ∀ site ∈ Stmt.partsAll cx a, P site

section Each

variable {P : Site → Prop} {cx : List Enclosure} {a b : List Stmt} {s : Stmt} {e f : Expr}
  {es fs : List Expr} {name : String}

namespace Expr

@[simp] theorem each_nil : Each P cx [] := by
  simp [Each]

theorem each_append : Each P cx (es ++ fs) ↔ Each P cx es ∧ Each P cx fs := by
  rw [Each, partsAll_append, forall_mem_append]
  rfl

theorem each_cons : Each P cx (e :: es) ↔ Each P cx [e] ∧ Each P cx es := by
  rw [← each_append, singleton_append]

@[simp] theorem each_ident : Each P cx [.ident name] ↔ P ⟨cx, .use name⟩ := by
  simp [Each]

@[simp] theorem each_withSpan {span : Span} : Each P cx [e.withSpan span] ↔ Each P cx [e] := by
  simp [Each]

theorem each_idents {names : List String} :
    Each P cx (names.map .ident) ↔ ∀ name ∈ names, P ⟨cx, .use name⟩ := by
  simp [Each, partsAll_idents]

theorem each_property :
    Each P cx [.member e (.ident name) false] ↔ Each P cx [e] ∧ P ⟨cx, .property name⟩ := by
  simp [Each, name?, or_imp, forall_and]

@[simp] theorem each_unary {op : UnaryOp} : Each P cx [.unary op e] ↔ Each P cx [e] := by
  simp [Each]

@[simp] theorem each_literal {value : Literal} : Each P cx [.literal value] := by
  simp [Each]

theorem each_function {params : List String} :
    Each P cx [.function params a] ↔
      P ⟨cx, .params params⟩ ∧ Stmt.Each P (Stmt.listed a :: .function params :: cx) a := by
  simp [Each, Stmt.Each]

/-- A property that looks at a name in the same way wherever it stands. -/
theorem Each.composed (plain : ∀ site : Site, P site.plain ↔ P site) (composed : e.Composed es)
    (each : Each P cx es) : Each P cx [e] := by
  intro site member
  rw [partsAll_singleton] at member
  have found : site.plain ∈ (partsAll cx es).map Site.plain := by
    rw [← composed.parts_eq]
    exact mem_map_of_mem member
  obtain ⟨other, inside, same⟩ := mem_map.mp found
  exact (plain site).mp (same ▸ (plain other).mpr (each other inside))

end Expr

namespace Stmt

@[simp] theorem each_nil : Each P cx [] := by
  simp [Each]

theorem each_append (quiet : Quiet a) : Each P cx (a ++ b) ↔ Each P cx a ∧ Each P cx b := by
  rw [Each, partsAll_append, opening_eq_nil quiet, forall_mem_append]
  rfl

theorem each_cons (opens : s.opens = []) : Each P cx (s :: a) ↔ Each P cx [s] ∧ Each P cx a :=
  each_append (a := [s]) (by simpa [Quiet] using opens)

@[simp] theorem each_map_withSpan {span : Span} :
    Each P cx (a.map (withSpan span)) ↔ Each P cx a := by
  rw [Each, partsAll_map_withSpan, Each]

theorem each_decl {names : List String} :
    Each P cx (.decl names :: a) ↔ P ⟨cx, .decl names⟩ ∧ Each P (.behind names :: cx) a := by
  simp [Each, opens]

@[simp] theorem each_expr : Each P cx [.expr e] ↔ Expr.Each P cx [e] := by
  simp [Each, Expr.Each]

@[simp] theorem each_assign :
    Each P cx [.assign name e] ↔ P ⟨cx, .target name⟩ ∧ Expr.Each P cx [e] := by
  simp [Each, Expr.Each]

@[simp] theorem each_block : Each P cx [.block a] ↔ Each P (listed a :: cx) a := by
  simp [Each]

@[simp] theorem each_ifThen :
    Each P cx [.ifThen e s none] ↔ Expr.Each P cx [e] ∧ Each P cx [s] := by
  simp [Each, Expr.Each, or_imp, forall_and]

@[simp] theorem each_ifElse {other : Stmt} :
    Each P cx [.ifThen e s (some other)] ↔
      Expr.Each P cx [e] ∧ Each P cx [s] ∧ Each P cx [other] := by
  simp [Each, Expr.Each, or_imp, forall_and]

@[simp] theorem each_whileLoop :
    Each P cx [.whileLoop e s] ↔ Expr.Each P cx [e] ∧ Each P (.round :: cx) [s] := by
  simp [Each, Expr.Each, or_imp, forall_and]

@[simp] theorem each_labeled {label : String} :
    Each P cx [.labeled label s] ↔
      P ⟨cx, .label label⟩ ∧ Each P (.labeled label s.isLoop :: cx) [s] := by
  simp [Each]

@[simp] theorem each_leave {label : Option String} :
    Each P cx [.leave label] ↔ P ⟨cx, .leave label⟩ := by
  simp [Each]

@[simp] theorem each_next {label : Option String} :
    Each P cx [.next label] ↔ P ⟨cx, .next label⟩ := by
  simp [Each]

@[simp] theorem each_ret : Each P cx [.ret (some e)] ↔ Expr.Each P cx [e] := by
  simp [Each, Expr.Each]

@[simp] theorem each_retNone : Each P cx [.ret none] := by
  simp [Each]

@[simp] theorem each_throw : Each P cx [.throw e] ↔ Expr.Each P cx [e] := by
  simp [Each, Expr.Each]

def EachHandler (P : Site → Prop) (cx : List Enclosure) : Option Handler → Prop
  | none => True
  | some (.mk param body) =>
    P ⟨cx, .params param.toList⟩ ∧ Each P (listed body :: .handler param :: cx) body

def EachFinalizer (P : Site → Prop) (cx : List Enclosure) : Option (List Stmt) → Prop
  | none => True
  | some body => Each P (listed body :: cx) body

@[simp] theorem each_tryBlock {handler : Option Handler} {finalizer : Option (List Stmt)} :
    Each P cx [.tryBlock a handler finalizer] ↔
      Each P (listed a :: cx) a ∧ EachHandler P cx handler ∧ EachFinalizer P cx finalizer := by
  rcases handler with _ | ⟨param, body⟩ <;> cases finalizer <;>
    simp [Each, EachHandler, EachFinalizer, or_imp, forall_and, and_assoc]

end Stmt

end Each

end Offside
