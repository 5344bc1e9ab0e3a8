/-!
# Kinds of blocks, tokens and tags

Blocks group the tokens of a source. Token classes tell unread tokens apart. A tag is a name in
the tree; its kind says whether it declares, whether what it names is constant, and whether it
is a virtual name of a template or a name from outside.
-/

namespace Offside

/-- What groups the nodes below a block. -/
inductive BlockKind where
  | root
  | paren
  | square
  | curly
  | block
  | doBlock
  | line
  | comma
deriving DecidableEq, Inhabited

namespace BlockKind

def all : List BlockKind :=
  [.root, .paren, .square, .curly, .block, .doBlock, .line, .comma]

def name : BlockKind → String
  | .root => "<root>"
  | .paren => "<paren>"
  | .square => "<square>"
  | .curly => "<curly>"
  | .block => "<block>"
  | .doBlock => "<do>"
  | .line => "<line>"
  | .comma => "<comma>"

def ofOpen? (c : Char) : Option BlockKind :=
  if c = '(' then some .paren
  else if c = '[' then some .square
  else if c = '\x7b' then some .curly
  else none

def close? : BlockKind → Option Char
  | .paren => some ')'
  | .square => some ']'
  | .curly => some '\x7d'
  | _ => none

def isBracket : BlockKind → Bool
  | .paren | .square | .curly => true
  | _ => false

/-- The root, indented blocks and `do` blocks open a scope. -/
def opensScope : BlockKind → Bool
  | .root | .block | .doBlock => true
  | _ => false

end BlockKind

/-- The class of a token that has not been read yet. -/
inductive TokenClass where
  | identifier
  | virtualIdentifier
  | operator
  | hashOperator
  | number
  | str
deriving DecidableEq, Inhabited

namespace TokenClass

def all : List TokenClass :=
  [.identifier, .virtualIdentifier, .operator, .hashOperator, .number, .str]

def name : TokenClass → String
  | .identifier => "<identifier>"
  | .virtualIdentifier => "<virtualidentifier>"
  | .operator => "<operator>"
  | .hashOperator => "<hashoperator>"
  | .number => "<number>"
  | .str => "<str>"

end TokenClass

/-- What a tag does with its name. -/
inductive TagKind where
  /-- A name of the source. -/
  | concrete (declaration constant : Bool)
  /-- A name of a template that is renamed at each expansion. -/
  | virtual (declaration constant : Bool)
  /-- A name that needs no declaration. -/
  | external
deriving DecidableEq, Inhabited

namespace TagKind

def use : TagKind := .concrete false false

def all : List TagKind :=
  [.concrete false false, .concrete false true, .concrete true false, .concrete true true,
   .virtual false false, .virtual false true, .virtual true false, .virtual true true, .external]

def isVirtual : TagKind → Bool
  | .virtual _ _ => true
  | _ => false

def isDeclaration : TagKind → Bool
  | .concrete declaration _ | .virtual declaration _ => declaration
  | .external => false

def isConstant : TagKind → Bool
  | .concrete _ constant | .virtual _ constant => constant
  | .external => false

def toConstant : TagKind → TagKind
  | .concrete declaration _ => .concrete declaration true
  | .virtual declaration _ => .virtual declaration true
  | .external => .external

def toDeclaration : TagKind → TagKind
  | .concrete _ constant => .concrete true constant
  | .virtual _ constant => .virtual true constant
  | .external => .external

def toVirtual : TagKind → TagKind
  | .concrete declaration constant | .virtual declaration constant =>
    .virtual declaration constant
  | .external => .external

def toExternal : TagKind → TagKind
  | _ => .external

def toConcrete : TagKind → TagKind
  | .concrete declaration constant | .virtual declaration constant =>
    .concrete declaration constant
  | .external => .external

def name : TagKind → String
  | .concrete false false => "tag"
  | .concrete false true => "const-tag"
  | .concrete true false => "tag-decl"
  | .concrete true true => "const-tag-decl"
  | .virtual false false => "virtual-tag"
  | .virtual false true => "virtual-const-tag"
  | .virtual true false => "virtual-tag-decl"
  | .virtual true true => "virtual-const-tag-decl"
  | .external => "external-tag"

end TagKind

end Offside
