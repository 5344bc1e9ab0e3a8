import Offside.Symbol.Builtin
import Offside.Symbol.Kind
import Offside.Value

/-!
# Symbols

A symbol says what a node is: a block, a literal, an unread token, an operator, a macro or a
tag. A macro is a template of the source, a call of a function from outside, or one of the
routines that the host of the compiler provides.
-/

namespace Offside

abbrev NodeId := Nat

/-- What a macro does. -/
inductive MacroBody where
  /-- Copies a template of the unit with the arguments in its holes. -/
  | template (index : Nat)
  /-- Calls a function from outside with the operands. -/
  | call (callee : String)
  /-- Runs a routine of the host. -/
  | host (index : Nat)
deriving DecidableEq

/-- A macro with its name and its operands. -/
structure Macro where
  name : String
  arity : Arity
  body : MacroBody
deriving DecidableEq

/-- What a node is. -/
inductive Symbol where
  | block (kind : BlockKind)
  | value
  | keyword (literal : Value)
  | token (kind : TokenClass)
  | nothing
  | builtin (op : Builtin)
  | tag (kind : TagKind)
  | expander (m : Macro)
deriving DecidableEq

namespace Symbol

instance : Inhabited Symbol := ⟨.nothing⟩

def name : Symbol → String
  | .block kind => kind.name
  | .value => "<value>"
  | .keyword literal => literal.text
  | .token kind => kind.name
  | .nothing => "<none>"
  | .builtin op => op.name
  | .tag kind => kind.name
  | .expander m => m.name

def arity : Symbol → Arity
  | .block _ => .anyNumber
  | .builtin op => op.arity
  | .expander m => m.arity
  | _ => .none

def isOperator : Symbol → Bool
  | .builtin _ | .expander _ => true
  | _ => false

/-- How tightly a symbol binds. A macro binds like a call, or just looser if it leads. -/
def precedence : Symbol → Nat
  | .builtin op => op.precedence
  | .expander m => if m.arity.left then callPrecedence else callPrecedence - 1
  | _ => 0

def flags : Symbol → Flags
  | .builtin op => op.flags
  | .expander _ => { expands := true }
  | _ => {}

/-- Decides whether expansion rewrites a node with the symbol. -/
def isMacro (symbol : Symbol) : Bool :=
  symbol.flags.expands

def builtin? : Symbol → Option Builtin
  | .builtin op => some op
  | _ => none

def tag? : Symbol → Option TagKind
  | .tag kind => some kind
  | _ => none

def block? : Symbol → Option BlockKind
  | .block kind => some kind
  | _ => none

/-- Decides whether a symbol is that of the root, an indented block or a `do` block. -/
def isBlockLike : Symbol → Bool
  | .block kind => kind.opensScope
  | _ => false

end Symbol

end Offside
