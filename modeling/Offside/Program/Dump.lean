import Offside.Number.Spelling
import Offside.Program
import Offside.Program.Layout
import Offside.Text.Quoted

/-!
# Dumps of programs

The text of a program that the command line prints: every constructor with its fields.
-/

namespace Offside

def Layout.string (s : String) : Layout :=
  .word (Text.quote s)

def Layout.strings (names : List String) : Layout :=
  .list (names.map .string)

def Loc.layout (loc : Loc) : Layout :=
  .word s!"Loc({loc.text})"

def Span.layout (span : Span) : Layout :=
  .record "SourceSpan"
    [("loc", span.loc.layout), ("origin", .optional (span.origin.map Loc.layout))]

def Literal.layout : Literal → Layout
  | .number x => .tuple "Number" [.word x.marked]
  | .str text => .tuple "Str" [.string text]
  | .bool b => .tuple "Bool" [.word (if b then "true" else "false")]
  | .null => .word "Null"
  | .undefined => .word "Undefined"

def BinaryOp.title : BinaryOp → String
  | .eq => "Eq"
  | .notEq => "NotEq"
  | .lt => "Lt"
  | .le => "Le"
  | .gt => "Gt"
  | .ge => "Ge"
  | .add => "Add"
  | .sub => "Sub"
  | .mul => "Mul"
  | .div => "Div"
  | .mod => "Mod"

def LogicalOp.title : LogicalOp → String
  | .and => "And"
  | .or => "Or"

def UnaryOp.title : UnaryOp → String
  | .neg => "Neg"
  | .not => "Not"

mutual

def Stmt.layout : Stmt → Layout
  | .expr e => .tuple "Expr" [e.layout]
  | .decl names => .tuple "VarDecl" [.strings names]
  | .block body => .tuple "Block" [.list (Stmt.layouts body)]
  | .ifThen test consequent alternate =>
    .record "If" [("test", test.layout), ("consequent", consequent.layout),
      ("alternate", .optional (Stmt.alternateLayout alternate))]
  | .whileLoop test body => .record "While" [("test", test.layout), ("body", body.layout)]
  | .labeled label body => .record "Labeled" [("label", .string label), ("body", body.layout)]
  | .leave label => .tuple "Break" [.optional (label.map .string)]
  | .next label => .tuple "Continue" [.optional (label.map .string)]
  | .ret value => .tuple "Return" [.optional (Expr.valueLayout value)]
  | .throw value => .tuple "Throw" [value.layout]
  | .tryBlock block handler finalizer =>
    .record "Try" [("block", .list (Stmt.layouts block)),
      ("handler", .optional (Handler.layout handler)),
      ("finalizer", .optional (Stmt.finalizerLayout finalizer))]
  | .located span s => .tuple "Located" [span.layout, s.layout]

def Stmt.layouts : List Stmt → List Layout
  | [] => []
  | s :: rest => s.layout :: Stmt.layouts rest

/-- The layout of the statement behind an `else`. -/
def Stmt.alternateLayout : Option Stmt → Option Layout
  | none => none
  | some s => some s.layout

def Stmt.finalizerLayout : Option (List Stmt) → Option Layout
  | none => none
  | some body => some (.list (Stmt.layouts body))

def Handler.layout : Option Handler → Option Layout
  | none => none
  | some (.mk param body) =>
    some (.record "CatchClause" [("param", .optional (param.map .string)),
      ("body", .list (Stmt.layouts body))])

def Expr.layout : Expr → Layout
  | .literal value => .tuple "Literal" [value.layout]
  | .ident name => .tuple "Ident" [.string name]
  | .function params body =>
    .record "Function" [("params", .strings params), ("body", .list (Stmt.layouts body))]
  | .member object property computed =>
    .record "Member" [("object", object.layout), ("property", property.layout),
      ("computed", .word (if computed then "true" else "false"))]
  | .call callee args =>
    .record "Call" [("callee", callee.layout), ("args", .list (Expr.layouts args))]
  | .new callee args =>
    .record "New" [("callee", callee.layout), ("args", .list (Expr.layouts args))]
  | .binary op left right =>
    .record "Binary" [("op", .word op.title), ("left", left.layout), ("right", right.layout)]
  | .logical op left right =>
    .record "Logical" [("op", .word op.title), ("left", left.layout), ("right", right.layout)]
  | .unary op argument =>
    .record "Unary" [("op", .word op.title), ("argument", argument.layout)]
  | .assign target value =>
    .record "Assign" [("target", target.layout), ("value", value.layout)]
  | .conditional test consequent alternate =>
    .record "Conditional" [("test", test.layout), ("consequent", consequent.layout),
      ("alternate", alternate.layout)]
  | .array items => .tuple "Array" [.list (Expr.layouts items)]
  | .object entries => .tuple "Object" [.list (Expr.entryLayouts entries)]
  | .located span e => .tuple "Located" [span.layout, e.layout]

def Expr.layouts : List Expr → List Layout
  | [] => []
  | e :: rest => e.layout :: Expr.layouts rest

def Expr.valueLayout : Option Expr → Option Layout
  | none => none
  | some e => some e.layout

def Expr.entryLayouts : List (String × Expr) → List Layout
  | [] => []
  | (key, value) :: rest => .tuple "" [.string key, value.layout] :: Expr.entryLayouts rest

end

def Program.dump (program : Program) : String :=
  (Layout.record "Program" [("body", .list (Stmt.layouts program))]).text

end Offside
