import Offside.Diagnostic
import Offside.Symbol.Builtin

/-!
# Causes of diagnostics

What can be wrong with a unit, and the wording of each report. A pass names the cause and the
place; no pass writes a message of its own.
-/

namespace Offside.Diagnostic

def coded (code : Code) (loc : Loc) (remark : String) : Diagnostic :=
  new code (Label.new loc remark)

/-! ## Characters and tokens -/

def unrecognizedCharacter (loc : Loc) (c : Char) : Diagnostic :=
  (coded .unrecognizedCharacter loc "unrecognized character").withMessage
    s!"Unrecognized character `{c}`"

/-- A quoted string has no closing quote on its line. -/
def unterminatedString (loc : Loc) : Diagnostic :=
  coded .unterminatedString loc "string is not closed before the end of the line"

def unterminatedTriple (loc : Loc) : Diagnostic :=
  new .unterminatedString
    ((Label.new loc "this triple-quoted string is never closed").withWidth 3)

/-- A string has an escape that means nothing. -/
def malformedEscape (loc : Loc) : Diagnostic :=
  coded .malformedEscape loc "this string contains an invalid escape sequence"

/-- A line is indented by tabs of unknown width. -/
def tabIndentation (loc : Loc) : Diagnostic :=
  coded .tabIndentation loc "tab used for indentation"

/-- A token stands where no location reaches. -/
def locationOutOfRange (loc : Loc) (reason : LocError) : Diagnostic :=
  (coded .locationOutOfRange loc reason.message).withMessage
    s!"Source location out of range: {reason.message}"

/-! ## Blocks -/

/-- A closing bracket does not match the bracket that it closes. -/
def mismatchedClose (loc opened : Loc) (expected found : Char) : Diagnostic :=
  (coded .mismatchedClose loc s!"expected `{expected}`, found `{found}`").withLabel
    (Label.new opened "unclosed bracket opened here")

def misplacedClose (loc : Loc) (found : Char) : Diagnostic :=
  coded .misplacedClose loc s!"`{found}` does not close anything"

/-- A closing bracket stands outside of every block but the root. -/
def closingRoot (loc : Loc) : Diagnostic :=
  coded .closingRoot loc "the root block is closed only by the end of the input"

def unclosedBracket (loc : Loc) : Diagnostic :=
  coded .unclosedBracket loc "this bracket is never closed"

/-- A line starts in no column of a block around it. -/
def inconsistentDedent (loc : Loc) : Diagnostic :=
  coded .inconsistentDedent loc "this line does not line up with any enclosing block"

/-! ## Combination -/

/-- An operator is neither known nor made of known ones. -/
def unknownOperator (loc : Loc) (text : String) : Diagnostic :=
  (new .unknownOperator
    ((Label.new loc "not defined in this scope").withWidth text.length)).withMessage
    s!"Unknown operator `{text}`"

/-- An item does not belong to the expression before it. -/
def unexpected (loc : Loc) (what : String) : Diagnostic :=
  (coded .unexpectedToken loc "cannot be combined here").withMessage s!"Unexpected {what}"

/-- A clause follows nothing that takes it. -/
def unattachedClause (loc : Loc) (name : String) : Diagnostic :=
  (coded .unattachedClause loc "nothing before this accepts it").withMessage
    s!"`{name}` has nothing to attach to"

/-- The three ways in which a clause can be malformed. -/
inductive ClauseFault where
  | elseBody
  | catchParts
  | tryAlone
deriving DecidableEq

def ClauseFault.remark : ClauseFault → String
  | .elseBody => "`else` must be followed by `if` or an indented block"
  | .catchParts => "`catch` needs a name and a body"
  | .tryAlone => "`try` needs a `catch` or a `finally`"

def malformedClause (loc : Loc) (fault : ClauseFault) : Diagnostic :=
  coded .malformedClause loc fault.remark

/-- An entry of an object literal is no pair. -/
def malformedEntry (loc : Loc) : Diagnostic :=
  coded .malformedLiteral loc "expected `key: value`"

/-! ## Names -/

/-- A pair stands outside of an object literal. -/
def misplacedPair (loc : Loc) (origin : Option Loc) : Diagnostic :=
  ((coded .malformedLiteral loc "not inside `\x7b\x7d`").withMessage
    "`key: value` pairs are only valid in object literals").withOrigin origin

def undeclared (loc : Loc) (origin : Option Loc) (name : String) : Diagnostic :=
  ((coded .undeclaredIdentifier loc "not found in this scope").withMessage
    s!"Undeclared identifier `{name}`").withOrigin origin

/-- Adds the place of an earlier declaration, if there is one. -/
def withEarlier (d : Diagnostic) (earlier : Option Loc) (remark : String) : Diagnostic :=
  match earlier with
  | some loc => d.withLabel (Label.new loc remark)
  | none => d

/-- A name has two declarations in one scope. -/
def redeclared (loc : Loc) (origin : Option Loc) (name : String) (earlier : Option Loc) :
    Diagnostic :=
  (((coded .redeclaredIdentifier loc "declared again here").withMessage
    s!"Identifier `{name}` is already declared in this scope").withOrigin origin).withEarlier
    earlier "previously declared here"

def constantAssigned (loc : Loc) (origin : Option Loc) (name : String) (earlier : Option Loc) :
    Diagnostic :=
  (((coded .assignmentToConstant loc "cannot assign twice to a constant").withMessage
    s!"Cannot assign to constant `{name}`").withOrigin origin).withEarlier
    earlier "declared as a constant here"

def invalidTarget (loc : Loc) (origin : Option Loc) : Diagnostic :=
  (coded .invalidTarget loc "cannot be assigned to").withOrigin origin

/-- The ways in which a declaration can be malformed. -/
inductive DeclarationFault where
  | loopHead
  | notNames
  | notExternalName
deriving DecidableEq

def DeclarationFault.remark : DeclarationFault → String
  | .loopHead => "the head of `loop` must be `names = initial values`"
  | .notNames => "only names can be declared"
  | .notExternalName => "`#external` takes a name"

def invalidDeclaration (loc : Loc) (origin : Option Loc) (fault : DeclarationFault) :
    Diagnostic :=
  (coded .invalidDeclaration loc fault.remark).withOrigin origin

/-! ## Values -/

/-- A jump stands outside of what it could leave. -/
def jumpOutside (loc : Loc) (origin : Option Loc) (jump : Builtin) (target : String) :
    Diagnostic :=
  ((coded .jumpOutsideTarget loc s!"not inside {target}").withMessage
    s!"`{jump.name}` used outside of {target}").withOrigin origin

/-- A `return` stands outside of every function. -/
def returnOutside (loc : Loc) (origin : Option Loc) : Diagnostic :=
  (coded .returnOutsideFunction loc "not inside `fn`").withOrigin origin

/-- A node that produces nothing stands where values are needed. -/
def noValue (loc : Loc) (origin : Option Loc) : Diagnostic :=
  (coded .voidUsedAsValue loc "produces no value").withOrigin origin

/-- An `if` without `else` stands where values are needed. -/
def ifWithoutElse (loc : Loc) (origin : Option Loc) : Diagnostic :=
  ((coded .voidUsedAsValue loc "this `if` has no `else`").withMessage
    "`if` without `else` used as a value").withOrigin origin

/-- A jump leaves without the values that its target needs. -/
def jumpWithoutValue (loc : Loc) (origin : Option Loc) (jump : Builtin) (count : Nat) :
    Diagnostic :=
  ((coded .voidUsedAsValue loc "leaves without a value").withMessage
    s!"`{jump.name}` must provide {count} value(s)").withOrigin origin

/-- A node produces another number of values than is needed. -/
def wrongCount (loc : Loc) (origin : Option Loc) (wanted actual : Nat) : Diagnostic :=
  ((coded .wrongTupleArity loc s!"produces {actual} value(s)").withMessage
    s!"Expected {wanted} value(s) but found {actual}").withOrigin origin

/-- An operator has too few or too many operands. -/
def operandCount (loc : Loc) (origin : Option Loc) (op : Builtin) (found : Nat) : Diagnostic :=
  let least := op.arity.minOperands
  let most := op.arity.maxOperands
  let wanted := if least = most then s!"{least}" else s!"{least} to {most}"
  ((coded .operandCount loc s!"expects {wanted} operand(s)").withMessage
    s!"`{op.name}` takes {wanted} operand(s) but got {found}").withOrigin origin

/-! ## Macros -/

/-- The ways in which the definition of a macro can be malformed. -/
inductive DefinitionFault where
  | parts
  | name
  | parameter
  | parameters
  | emptyQuote
  | hole
deriving DecidableEq

def DefinitionFault.remark : DefinitionFault → String
  | .parts => "expected `#macro NAME PARAMS TEMPLATE`"
  | .name => "the macro name must be an identifier"
  | .parameter => "macro parameters must be identifiers"
  | .parameters => "expected a parameter name or a parenthesised list"
  | .emptyQuote => "`#quote` needs an operand"
  | .hole => "`#unquote` must name a parameter of this macro"

def malformedMacro (loc : Loc) (fault : DefinitionFault) : Diagnostic :=
  coded .malformedMacro loc fault.remark

/-- Where a virtual name is used although no template declares it. -/
inductive VirtualUse where
  | inTemplate
  | outsideTemplate
deriving DecidableEq

def VirtualUse.remark : VirtualUse → String
  | .inTemplate => "used before the template declares it"
  | .outsideTemplate => "backtick names are only valid inside macro templates"

def undeclaredVirtual (loc : Loc) (origin : Option Loc) (name : String) (place : VirtualUse) :
    Diagnostic :=
  ((coded .undeclaredVirtual loc place.remark).withMessage
    s!"Undeclared virtual identifier `{name}`").withOrigin origin

/-- A quotation stands outside of every template. -/
def misplacedQuote (loc : Loc) (origin : Option Loc) (op : Builtin) : Diagnostic :=
  ((coded .misplacedQuote loc "only valid inside a macro template").withMessage
    s!"Misplaced `{op.name}`").withOrigin origin

def macroFailed (loc : Loc) (message : String) : Diagnostic :=
  (coded .macroFailed loc "in this macro invocation").withMessage message

def macroArgumentCount (loc : Loc) (name : String) (expected found : Nat) : Diagnostic :=
  (coded .macroArgumentCount loc "in this macro invocation").withMessage
    s!"macro `{name}` expects {expected} argument(s), found {found}"

def macroCrashed (loc : Loc) (reason : String) : Diagnostic :=
  (coded .macroCrashed loc "in this macro invocation").withNote s!"panic: {reason}"

def expansionLimit (loc : Loc) (origin : Option Loc) (limit : Nat) : Diagnostic :=
  (coded .expansionLimit loc s!"still expanding after {limit} rounds").withOrigin origin

/-! ## The compiler itself -/

/-- No code can be generated for a node. -/
def internalError (loc : Loc) (message : String) : Diagnostic :=
  (coded .internalError loc "while generating code for this").withMessage message

end Offside.Diagnostic
