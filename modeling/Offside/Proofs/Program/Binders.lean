import Offside.Proofs.Program.Scope
import Mathlib.Data.List.Count

/-!
# What a program declares

The names that are declared in a program and its labels, counted over the whole program. What
stands around a part does not matter here.
-/

namespace Offside

open List

/-- Something that a program introduces. -/
inductive Binder where
  /-- A name that a list of statements declares. -/
  | hoisted (name : String)
  /-- A parameter of a function or of a handler. -/
  | param (name : String)
  | label (text : String)
deriving DecidableEq

def Part.binders : Part → List Binder
  | .decl names => names.map .hoisted
  | .params names => names.map .param
  | .label text => [.label text]
  | _ => []

/-- What a part introduces, wherever it stands. -/
def Site.binders (site : Site) : List Binder :=
  site.part.binders

def Enclosure.binders : Enclosure → List Binder
  | .behind names => names.map .hoisted
  | .function params => params.map .param
  | .handler param => param.toList.map .param
  | .list _ | .labeled _ _ | .round => []

/-! ## Parts in their enclosures -/

/-- Parts by what stands around them; what an enclosure introduces, a part in front of it does. -/
inductive Spread : (List Enclosure → List Site) → Prop
  | nil : Spread fun _ => []
  | part (p : Part) : Spread fun cx => [⟨cx, p⟩]
  | append {f g} (first : Spread f) (rest : Spread g) : Spread fun cx => f cx ++ g cx
  | inside {f} (e : Enclosure) (free : e.binders = []) (parts : Spread f) :
      Spread fun cx => f (e :: cx)
  | bound {f} (p : Part) (e : Enclosure) (introduced : e.binders ⊆ p.binders) (parts : Spread f) :
      Spread fun cx => ⟨cx, p⟩ :: f (e :: cx)

/-- A statement opens nothing, or it is a declaration. -/
theorem Stmt.opens_eq (s : Stmt) :
    s.opens = [] ∨ ∃ names, s.opens = [.behind names] ∧ ∀ cx, s.parts cx = [⟨cx, .decl names⟩] := by
  induction s using Stmt.opens.induct with
  | case1 names => exact .inr ⟨names, rfl, fun cx => by rw [Stmt.parts]⟩
  | case2 span s ih => simpa only [Stmt.opens, Stmt.parts] using ih
  | case3 s noDecl noPlace => exact .inl (Stmt.opens.eq_3 s noDecl noPlace)

mutual

theorem Stmt.spread (s : Stmt) : Spread fun cx => s.parts cx := by
  cases s with
  | expr e => simpa only [Stmt.parts] using e.spread
  | decl | leave | next => simpa only [Stmt.parts] using .part _
  | block body => simpa only [Stmt.parts] using (Stmt.spreadAll body).inside _ rfl
  | ifThen test consequent alternate =>
    simpa only [Stmt.parts] using
      (test.spread.append consequent.spread).append (Stmt.spreadAlternate alternate)
  | whileLoop test body =>
    simpa only [Stmt.parts] using test.spread.append (body.spread.inside .round rfl)
  | labeled label body =>
    simpa only [Stmt.parts] using body.spread.bound (.label label) (.labeled label _)
      (nil_subset _)
  | ret value => simpa only [Stmt.parts] using Expr.spreadValue value
  | throw value => simpa only [Stmt.parts] using value.spread
  | tryBlock block handler finalizer =>
    simpa only [Stmt.parts] using (((Stmt.spreadAll block).inside _ rfl).append
      (Handler.spreadHandler handler)).append (Stmt.spreadFinalizer finalizer)
  | located _ s => simpa only [Stmt.parts] using s.spread

theorem Stmt.spreadAll (a : List Stmt) : Spread fun cx => Stmt.partsAll cx a := by
  cases a with
  | nil => simpa only [Stmt.partsAll] using .nil
  | cons s rest =>
    have others := Stmt.spreadAll rest
    rcases s.opens_eq with none | ⟨names, opens, same⟩
    · simpa only [Stmt.partsAll, none, nil_append] using s.spread.append others
    · simpa only [Stmt.partsAll, opens, same, singleton_append] using
        others.bound (.decl names) (.behind names) fun _ member => member

theorem Stmt.spreadAlternate (alternate : Option Stmt) :
    Spread fun cx => Stmt.partsAlternate cx alternate := by
  cases alternate with
  | none => simpa only [Stmt.partsAlternate] using .nil
  | some s => simpa only [Stmt.partsAlternate] using s.spread

theorem Stmt.spreadFinalizer (finalizer : Option (List Stmt)) :
    Spread fun cx => Stmt.partsFinalizer cx finalizer := by
  cases finalizer with
  | none => simpa only [Stmt.partsFinalizer] using .nil
  | some body => simpa only [Stmt.partsFinalizer] using (Stmt.spreadAll body).inside _ rfl

theorem Handler.spreadHandler (handler : Option Handler) :
    Spread fun cx => Handler.partsHandler cx handler := by
  match handler with
  | none => simpa only [Handler.partsHandler] using .nil
  | some (.mk param body) =>
    simpa only [Handler.partsHandler] using ((Stmt.spreadAll body).inside _ rfl).bound
      (.params param.toList) (.handler param) fun _ member => member

theorem Expr.spread (e : Expr) : Spread fun cx => e.parts cx := by
  cases e with
  | literal => simpa only [Expr.parts] using .nil
  | ident => simpa only [Expr.parts] using .part _
  | function params body =>
    simpa only [Expr.parts] using ((Stmt.spreadAll body).inside _ rfl).bound
      (.params params) (.function params) fun _ member => member
  | member object property computed =>
    have inProperty := property.spread
    simp only [Expr.parts]
    split
    · exact object.spread.append (.part _)
    · exact object.spread.append inProperty
  | call callee args | new callee args =>
    simpa only [Expr.parts] using callee.spread.append (Expr.spreadAll args)
  | binary _ left right | logical _ left right =>
    simpa only [Expr.parts] using left.spread.append right.spread
  | unary _ argument => simpa only [Expr.parts] using argument.spread
  | assign target value =>
    have inTarget := target.spread
    simp only [Expr.parts]
    split
    · exact .append (.part _) value.spread
    · exact inTarget.append value.spread
  | conditional test consequent alternate =>
    simpa only [Expr.parts] using (test.spread.append consequent.spread).append alternate.spread
  | array items => simpa only [Expr.parts] using Expr.spreadAll items
  | object entries => simpa only [Expr.parts] using Expr.spreadEntries entries
  | located _ e => simpa only [Expr.parts] using e.spread

theorem Expr.spreadAll (es : List Expr) : Spread fun cx => Expr.partsAll cx es := by
  cases es with
  | nil => simpa only [Expr.partsAll] using .nil
  | cons e rest => simpa only [Expr.partsAll] using e.spread.append (Expr.spreadAll rest)

theorem Expr.spreadValue (value : Option Expr) : Spread fun cx => Expr.partsValue cx value := by
  cases value with
  | none => simpa only [Expr.partsValue] using .nil
  | some e => simpa only [Expr.partsValue] using e.spread

theorem Expr.spreadEntries (entries : List (String × Expr)) :
    Spread fun cx => Expr.partsEntries cx entries := by
  match entries with
  | [] => simpa only [Expr.partsEntries] using .nil
  | (_, value) :: rest =>
    simpa only [Expr.partsEntries] using value.spread.append (Expr.spreadEntries rest)

end

/-- What stands around parts does not matter for what they are. -/
theorem Spread.map_part {f : List Enclosure → List Site} (spread : Spread f)
    (cx cx' : List Enclosure) : (f cx).map Site.part = (f cx').map Site.part := by
  induction spread generalizing cx cx' with
  | nil | part => rfl
  | append _ _ first rest => rw [map_append, map_append, first cx cx', rest cx cx']
  | inside e _ _ ih => exact ih _ _
  | bound p e _ _ ih => rw [map_cons, map_cons, ih (e :: cx) (e :: cx')]

/-! ## Counting -/

/-- How often some expressions introduce something. -/
def Expr.tally (b : Binder) (es : List Expr) : Nat :=
  ((Expr.partsAll [] es).flatMap Site.binders).count b

/-- How often statements introduce something. -/
def Stmt.tally (b : Binder) (a : List Stmt) : Nat :=
  ((Stmt.partsAll [] a).flatMap Site.binders).count b

variable {b : Binder} {a c : List Stmt} {s : Stmt} {e : Expr} {es fs : List Expr} {name : String}

namespace Expr

theorem count_partsAll (cx : List Enclosure) :
    ((partsAll cx es).flatMap Site.binders).count b = tally b es := by
  have same := congrArg (List.flatMap Part.binders) ((Expr.spreadAll es).map_part cx [])
  rw [flatMap_map, flatMap_map] at same
  exact congrArg (List.count b) same

theorem count_parts (cx : List Enclosure) :
    ((e.parts cx).flatMap Site.binders).count b = tally b [e] := by
  rw [← count_partsAll cx, partsAll_singleton]

@[simp] theorem tally_nil : tally b [] = 0 := by
  simp [tally, partsAll]

@[simp] theorem tally_append : tally b (es ++ fs) = tally b es + tally b fs := by
  simp [tally, partsAll_append]

theorem tally_cons : tally b (e :: es) = tally b [e] + tally b es := by
  rw [← tally_append, singleton_append]

@[simp] theorem tally_ident : tally b [.ident name] = 0 := by
  simp [tally, parts, Site.binders, Part.binders]

theorem tally_ident_cons : tally b (.ident name :: es) = tally b es := by
  rw [tally_cons, tally_ident, Nat.zero_add]

@[simp] theorem tally_idents {names : List String} : tally b (names.map .ident) = 0 := by
  induction names with
  | nil => exact tally_nil
  | cons name names ih => rw [map_cons, tally_ident_cons, ih]

@[simp] theorem tally_withSpan {span : Span} : tally b [e.withSpan span] = tally b [e] := by
  simp [tally]

@[simp] theorem tally_property : tally b [.member e (.ident name) false] = tally b [e] := by
  simp [tally, parts, name?, Site.binders, Part.binders]

@[simp] theorem tally_literal {value : Literal} : tally b [.literal value] = 0 := by
  simp [tally, parts]

@[simp] theorem tally_unary {op : UnaryOp} : tally b [.unary op e] = tally b [e] := by
  simp [tally, parts]

end Expr

namespace Stmt

theorem count_partsAll (cx : List Enclosure) :
    ((partsAll cx a).flatMap Site.binders).count b = tally b a := by
  have same := congrArg (List.flatMap Part.binders) ((Stmt.spreadAll a).map_part cx [])
  rw [flatMap_map, flatMap_map] at same
  exact congrArg (List.count b) same

theorem count_parts (cx : List Enclosure) :
    ((s.parts cx).flatMap Site.binders).count b = tally b [s] := by
  rw [← count_partsAll cx, partsAll_singleton]

@[simp] theorem tally_nil : tally b [] = 0 := by
  simp [tally, partsAll]

@[simp] theorem tally_append : tally b (a ++ c) = tally b a + tally b c := by
  rw [tally, partsAll_append, flatMap_append, count_append, count_partsAll, count_partsAll]

theorem tally_cons : tally b (s :: a) = tally b [s] + tally b a := by
  rw [← tally_append, singleton_append]

@[simp] theorem tally_map_withSpan {span : Span} : tally b (a.map (withSpan span)) = tally b a := by
  rw [tally, partsAll_map_withSpan, tally]

@[simp] theorem tally_decl {names : List String} :
    tally b [.decl names] = (names.map Binder.hoisted).count b := by
  simp [tally, parts, Site.binders, Part.binders]

@[simp] theorem tally_expr : tally b [.expr e] = Expr.tally b [e] := by
  simp [tally, parts, Expr.tally]

@[simp] theorem tally_assign : tally b [.assign name e] = Expr.tally b [e] := by
  simp [tally, Expr.tally, Site.binders, Part.binders]

@[simp] theorem tally_block : tally b [.block a] = tally b a := by
  rw [tally, partsAll_singleton, parts, count_partsAll]

@[simp] theorem tally_ifThen :
    tally b [.ifThen e s none] = Expr.tally b [e] + tally b [s] := by
  simp [tally, Expr.tally, parts, partsAlternate]

@[simp] theorem tally_ifElse {other : Stmt} :
    tally b [.ifThen e s (some other)] = Expr.tally b [e] + tally b [s] + tally b [other] := by
  simp [tally, Expr.tally, parts, partsAlternate, Nat.add_assoc]

@[simp] theorem tally_whileLoop :
    tally b [.whileLoop e s] = Expr.tally b [e] + tally b [s] := by
  rw [tally, partsAll_singleton, parts, flatMap_append, count_append, Expr.count_parts,
    count_parts]

@[simp] theorem tally_labeled {label : String} :
    tally b [.labeled label s] = [Binder.label label].count b + tally b [s] := by
  rw [tally, partsAll_singleton, parts, flatMap_cons, count_append, count_parts]
  rfl

@[simp] theorem tally_leave {label : Option String} : tally b [.leave label] = 0 := by
  simp [tally, parts, Site.binders, Part.binders]

@[simp] theorem tally_next {label : Option String} : tally b [.next label] = 0 := by
  simp [tally, parts, Site.binders, Part.binders]

@[simp] theorem tally_ret : tally b [.ret (some e)] = Expr.tally b [e] := by
  simp [tally, Expr.tally, parts, Expr.partsValue]

@[simp] theorem tally_retNone : tally b [.ret none] = 0 := by
  simp [tally, parts, Expr.partsValue]

@[simp] theorem tally_throw : tally b [.throw e] = Expr.tally b [e] := by
  simp [tally, Expr.tally, parts]

def tallyHandler (b : Binder) : Option Handler → Nat
  | none => 0
  | some (.mk param body) => (param.toList.map Binder.param).count b + tally b body

def tallyFinalizer (b : Binder) : Option (List Stmt) → Nat
  | none => 0
  | some body => tally b body

@[simp] theorem tally_tryBlock {handler : Option Handler} {finalizer : Option (List Stmt)} :
    tally b [.tryBlock a handler finalizer] =
      tally b a + tallyHandler b handler + tallyFinalizer b finalizer := by
  rw [tally, partsAll_singleton, parts, flatMap_append, flatMap_append,
    count_append, count_append, count_partsAll]
  congr 1
  · rcases handler with _ | ⟨param, body⟩
    · simp [Handler.partsHandler, tallyHandler]
    · rw [Handler.partsHandler, flatMap_cons, count_append, count_partsAll]
      rfl
  · cases finalizer with
    | none => simp [partsFinalizer, tallyFinalizer]
    | some body => rw [partsFinalizer, count_partsAll, tallyFinalizer]

end Stmt

@[simp] theorem Expr.tally_function {params : List String} :
    Expr.tally b [.function params a] = (params.map Binder.param).count b + Stmt.tally b a := by
  rw [tally, partsAll_singleton, parts, flatMap_cons, count_append, Stmt.count_partsAll]
  rfl

theorem Site.binders_plain (site : Site) : site.plain.binders = site.binders := by
  obtain ⟨cx, part⟩ := site
  cases part <;> rfl

theorem Expr.Composed.tally_eq (composed : e.Composed es) : Expr.tally b [e] = Expr.tally b es := by
  have same := congrArg (List.flatMap Site.binders) (composed.parts_eq [])
  simp only [flatMap_map, Site.binders_plain] at same
  rw [Expr.tally, partsAll_singleton]
  exact congrArg (List.count b) same

/-! ## Whole programs -/

def Part.label? : Part → Option String
  | .label text => some text
  | _ => none

def Part.declared : Part → List String
  | .decl names => names
  | _ => []

namespace Program

def labels (program : Program) : List String :=
  program.parts.filterMap fun site => site.part.label?

def declared (program : Program) : List String :=
  program.parts.flatMap fun site => site.part.declared

theorem count_labels (program : Program) (text : String) :
    program.labels.count text = Stmt.tally (.label text) program := by
  rw [← Stmt.count_partsAll [Stmt.listed program], labels, parts]
  induction Stmt.partsAll [Stmt.listed program] program with
  | nil => rfl
  | cons site sites ih =>
    rw [flatMap_cons, count_append, ← ih]
    obtain ⟨cx, part⟩ := site
    cases part with
    | label other => simp [Part.label?, Site.binders, Part.binders, count_cons, Nat.add_comm]
    | decl names | params names => simp [Part.label?, Site.binders, Part.binders, count_eq_zero]
    | _ => simp [Part.label?, Site.binders, Part.binders]

theorem count_declared (program : Program) (name : String) :
    program.declared.count name = Stmt.tally (.hoisted name) program := by
  rw [← Stmt.count_partsAll [Stmt.listed program], declared, parts]
  induction Stmt.partsAll [Stmt.listed program] program with
  | nil => rfl
  | cons site sites ih =>
    rw [flatMap_cons, flatMap_cons, count_append, count_append, ih,
      Nat.add_right_cancel_iff]
    obtain ⟨cx, part⟩ := site
    cases part with
    | decl names =>
      exact (count_map_of_injective names Binder.hoisted (fun _ _ => Binder.hoisted.inj)
        name).symm
    | params names => exact (count_eq_zero.mpr (by simp [Site.binders, Part.binders])).symm
    | _ => simp [Part.declared, Site.binders, Part.binders]

end Program

end Offside
