import Offside.Tree

/-!
# Items of a line

Before the operators of a line are combined, each token and each block of the line is an item:
an operand, an operator with its symbol, or one of the brackets, which can follow an operand as
arguments or subscripts.
-/

namespace Offside

/-- What an item is to the items around it. -/
inductive Role where
  /-- A name, a literal or a `do` block. -/
  | operand
  | operator (symbol : Symbol)
  /-- What stood in parentheses; a tuple is spread out as arguments. -/
  | paren (spread : Bool)
  | square
  | curly
  /-- An indented block, which only a keyword takes. -/
  | block
deriving DecidableEq

/-- A part of a line. -/
structure Item where
  tree : Tree
  role : Role

namespace Item

/-- Decides whether an expression can start with an item. -/
def startsOperand (item : Item) : Bool :=
  match item.role with
  | .operator symbol =>
    !symbol.flags.dependentClause &&
      (!symbol.arity.left || (symbol.builtin?.bind Builtin.leadingForm?).isSome)
  | _ => true

/-- Decides whether an item can start an argument of what stands before it. -/
def startsArgument (item : Item) : Bool :=
  item.role ≠ .block && item.startsOperand

/-- Decides whether an item can be an operand on its own. Names of macros can. -/
def isAtom (item : Item) : Bool :=
  match item.role with
  | .block => false
  | .operator symbol => !symbol.flags.dependentClause
  | _ => true

def shown (item : Item) : String :=
  match item.role with
  | .operator symbol => "`" ++ item.tree.name?.getD symbol.name ++ "`"
  | .block => "an indented block"
  | _ => "`" ++ item.tree.text ++ "`"

end Item

end Offside
