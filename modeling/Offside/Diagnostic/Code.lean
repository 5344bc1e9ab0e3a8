/-!
# Diagnostic codes

Every report has a code with a fixed level, a general message and an explanation. Codes from
E0000 are about characters and tokens, from E0100 about blocks and their combination, from E0200
about names and values, from E0300 about macros, and E0400 is about the compiler itself.
-/

namespace Offside

/-- How serious a report is. -/
inductive Level where
  | error
  | warning
deriving DecidableEq, Inhabited

/-- A kind of report. -/
structure Code where
  id : String
  level : Level
  /-- The message of a report that has none of its own. -/
  message : String
  explanation : String
deriving DecidableEq, Inhabited

namespace Code

def unrecognizedCharacter : Code :=
  { id := "E0000"
    level := .error
    message := "Unrecognized character"
    explanation := "The tokenizer met a character that cannot start any token. Scanning resumes " ++
      "right after it." }

def unterminatedString : Code :=
  { id := "E0001"
    level := .error
    message := "Unterminated string literal"
    explanation := "A quoted string reached the end of its line (or, for triple-quoted strings, " ++
      "the end of the input) without a closing quote." }

def malformedEscape : Code :=
  { id := "E0003"
    level := .error
    message := "Malformed escape sequence"
    explanation := "Supported escapes are \\n \\t \\r \\b \\f \\v \\0 \\\\ \\' \\\", \\xNN, " ++
      "\\uNNNN and octal \\NNN. The bad escape is replaced by U+FFFD." }

def tabIndentation : Code :=
  { id := "E0005"
    level := .error
    message := "Tab character in indentation"
    explanation := "Indentation is measured in columns. Tabs are only accepted when a tab size " ++
      "is configured." }

def locationOutOfRange : Code :=
  { id := "E0007"
    level := .error
    message := "Source location out of range"
    explanation := "Locations are packed into 32 bits: at most 64 sources, 65535 lines and 1023 " ++
      "columns can be addressed." }

def misplacedClose : Code :=
  { id := "E0101"
    level := .error
    message := "Misplaced closing bracket"
    explanation := "A closing bracket appeared where no bracket is open. It is ignored." }

def closingRoot : Code :=
  { id := "E0102"
    level := .error
    message := "Attempt to close the root block"
    explanation := "A closing bracket escaped every open block. The root block can only be " ++
      "closed by the end of the input." }

def mismatchedClose : Code :=
  { id := "E0103"
    level := .error
    message := "Mismatched closing bracket"
    explanation := "The closing bracket does not match the innermost open bracket. The open " ++
      "bracket is closed anyway." }

/-- Unindent does not match any outer indentation level. -/
def inconsistentDedent : Code :=
  { id := "E0104"
    level := .error
    message := "Unindent does not match any outer indentation level"
    explanation := "After an unindent the line must start at the column of an enclosing block." }

def unclosedBracket : Code :=
  { id := "E0105"
    level := .error
    message := "Unclosed bracket"
    explanation := "The input ended while a bracket was still open." }

def unknownOperator : Code :=
  { id := "E0106"
    level := .error
    message := "Unknown operator"
    explanation := "The operator is not defined in the current scope and cannot be split into " ++
      "known operators." }

def unexpectedToken : Code :=
  { id := "E0107"
    level := .error
    message := "Unexpected token"
    explanation := "The token cannot be combined with the expression before it." }

/-- Dependent clause has nothing to attach to. -/
def unattachedClause : Code :=
  { id := "E0108"
    level := .error
    message := "Dependent clause has nothing to attach to"
    explanation := "Clauses such as `else`, `catch` and `finally` must follow the construct " ++
      "that accepts them, and each may appear at most once." }

def malformedClause : Code :=
  { id := "E0109"
    level := .error
    message := "Malformed clause"
    explanation := "An `else` must be followed by an `if` or a block, a `catch` needs a name " ++
      "and a body, and a `try` needs a `catch` or a `finally`." }

def malformedLiteral : Code :=
  { id := "E0110"
    level := .error
    message := "Malformed object literal"
    explanation := "Every entry of an object literal must be a `key: value` pair whose key is a " ++
      "name or a string." }

def undeclaredIdentifier : Code :=
  { id := "E0200"
    level := .error
    message := "Undeclared identifier"
    explanation := "The name was not declared in this scope or any enclosing scope. Declare it " ++
      "with `var` or `const`, or mark it `#external`." }

def redeclaredIdentifier : Code :=
  { id := "E0201"
    level := .error
    message := "Redeclared identifier"
    explanation := "A name can be declared only once per scope." }

def assignmentToConstant : Code :=
  { id := "E0202"
    level := .error
    message := "Assignment to a constant"
    explanation := "The name was declared with `const` and cannot be assigned after its " ++
      "declaration." }

def invalidTarget : Code :=
  { id := "E0203"
    level := .error
    message := "Invalid assignment target"
    explanation := "Only names, member accesses, element accesses and tuples of those can be " ++
      "assigned." }

def jumpOutsideTarget : Code :=
  { id := "E0204"
    level := .error
    message := "Jump statement outside of its target"
    explanation := "`give` and `end` must be inside a `do` block or a `loop`; `next` must be " ++
      "inside a `loop`." }

def returnOutsideFunction : Code :=
  { id := "E0205"
    level := .error
    message := "`return` outside of a function"
    explanation := "`return` is only meaningful inside an `fn` body." }

def voidUsedAsValue : Code :=
  { id := "E0206"
    level := .error
    message := "Void used as value"
    explanation := "The expression produces no value but its context requires one." }

def wrongTupleArity : Code :=
  { id := "E0207"
    level := .error
    message := "Wrong tuple arity"
    explanation := "The number of values produced does not match the number of values expected." }

def operandCount : Code :=
  { id := "E0208"
    level := .error
    message := "Wrong number of operands"
    explanation := "The operator or keyword received fewer or more operands than it accepts." }

def invalidDeclaration : Code :=
  { id := "E0209"
    level := .error
    message := "Invalid declaration"
    explanation := "Only names, or tuples of names, can be declared." }

def macroFailed : Code :=
  { id := "E0300"
    level := .error
    message := "Macro expansion failed"
    explanation := "The macro's expansion routine reported an error. Expansion of this node " ++
      "stopped; the rest of the unit is still expanded." }

def macroCrashed : Code :=
  { id := "E0301"
    level := .error
    message := "Macro expansion routine crashed"
    explanation := "A native expansion routine panicked. The panic was contained and reported." }

def malformedMacro : Code :=
  { id := "E0302"
    level := .error
    message := "Malformed macro definition"
    explanation := "Use `#macro NAME PARAMS TEMPLATE`, where PARAMS is a name or a " ++
      "parenthesised list of names." }

def undeclaredVirtual : Code :=
  { id := "E0303"
    level := .error
    message := "Undeclared virtual identifier"
    explanation := "A backtick name inside a macro template is used before the template " ++
      "declares it." }

def misplacedQuote : Code :=
  { id := "E0304"
    level := .error
    message := "Misplaced quotation"
    explanation := "`#quote` is only valid as a macro template and `#unquote` only inside one." }

def expansionLimit : Code :=
  { id := "E0305"
    level := .error
    message := "Macro expansion limit reached"
    explanation := "A node kept expanding into another macro invocation. This usually means a " ++
      "macro expands into itself." }

def macroArgumentCount : Code :=
  { id := "E0306"
    level := .error
    message := "Wrong number of macro arguments"
    explanation := "The invocation passes a different number of arguments than the macro " ++
      "declares parameters." }

def internalError : Code :=
  { id := "E0400"
    level := .error
    message := "Internal compiler error"
    explanation := "The compiler reached a state it considers impossible. Please report it." }

def all : List Code :=
  [unrecognizedCharacter, unterminatedString, malformedEscape, tabIndentation,
   locationOutOfRange, misplacedClose, closingRoot, mismatchedClose, inconsistentDedent,
   unclosedBracket, unknownOperator, unexpectedToken, unattachedClause, malformedClause,
   malformedLiteral, undeclaredIdentifier, redeclaredIdentifier, assignmentToConstant,
   invalidTarget, jumpOutsideTarget, returnOutsideFunction, voidUsedAsValue, wrongTupleArity,
   operandCount, invalidDeclaration, macroFailed, macroCrashed, malformedMacro,
   undeclaredVirtual, misplacedQuote, expansionLimit, macroArgumentCount, internalError]

end Code

end Offside
