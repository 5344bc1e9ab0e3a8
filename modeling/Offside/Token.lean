import Offside.Location
import Offside.Number.Spelling

/-!
# Tokens

The tokens of a source come in lines. Keywords are plain words here; only `do` is a token of its
own, because it opens a block.
-/

namespace Offside

/-- What a token is. -/
inductive TokenKind where
  | ident (name : String)
  /-- A word behind a backtick. -/
  | virtualIdent (name : String)
  | operator (text : String)
  /-- A word behind a hash sign, which belongs to the text. -/
  | hashOperator (text : String)
  | number (x : Binary64)
  | str (text : String)
  | openBracket (c : Char)
  | closeBracket (c : Char)
  | comma
  | doWord
deriving DecidableEq

namespace TokenKind

def shown : TokenKind → String
  | .ident name => s!"identifier `{name}`"
  | .virtualIdent name => s!"virtual identifier `` `{name} ``"
  | .operator text | .hashOperator text => s!"operator `{text}`"
  | .number x => s!"number `{x.plain}`"
  | .str _ => "a string literal"
  | .openBracket c | .closeBracket c => s!"`{c}`"
  | .comma => "`,`"
  | .doWord => "`do`"

end TokenKind

/-- A token at its place. -/
structure Token where
  kind : TokenKind
  loc : Loc
  /-- The number of characters to mark in a report. -/
  width : Nat
deriving DecidableEq

/-- The tokens of a line, of which there is at least one, and the column where the line starts. -/
structure TokenLine where
  indent : Nat
  line : Nat
  tokens : List Token
deriving DecidableEq

end Offside
