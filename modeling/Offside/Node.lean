import Offside.Location
import Offside.Scope
import Offside.Symbol

/-!
# Nodes

What a node of a tree holds besides its place in the tree: its symbol, its value, its location,
and what the passes found out about it.
-/

namespace Offside

/-- A declared name. -/
structure Declaration where
  name : String
  /-- The tag that declares it; names from outside have none. -/
  tag : Option NodeId
  loc : Option Loc
  assignable : Bool
  /-- Whether the name is declared at the top of its host. -/
  hoisted : Bool
deriving DecidableEq

namespace Declaration

def fromOutside (name : String) : Declaration :=
  { name, tag := none, loc := none, assignable := true, hoisted := false }

end Declaration

/-- What a node holds. -/
structure Info where
  symbol : Symbol
  value : Option Value
  loc : Loc
  /-- Where the macro was invoked that the node comes from. -/
  origin : Option Loc
  /-- The names that are declared at the top of the node. -/
  decls : Option (Table Declaration)
  keyScope : Option ScopeId
  varScope : Option ScopeId
  binding : Option Declaration
  resolved : Bool
  /-- The number of values that the node produces. -/
  count : Option Nat
deriving DecidableEq, Inhabited

namespace Info

def new (symbol : Symbol) (value : Option Value) (loc : Loc) : Info :=
  { symbol, value, loc, origin := none, decls := none, keyScope := none, varScope := none,
    binding := none, resolved := false, count := none }

def name? (info : Info) : Option String :=
  info.value.bind Value.name?

/-- The place in the source from which a node comes, seen from outside of all macros. -/
def expansionSite (info : Info) : Loc :=
  info.origin.getD info.loc

/-- Decides whether a node is a given builtin. -/
def is (info : Info) (op : Builtin) : Bool :=
  info.symbol.builtin? = some op

/-- Decides whether a node is a given block. -/
def isBlock (info : Info) (kind : BlockKind) : Bool :=
  info.symbol.block? = some kind

def isTag (info : Info) : Bool :=
  info.symbol.tag?.isSome

/-- The names that are declared at the top of a node, in order. -/
def declaredNames (info : Info) : List String :=
  match info.decls with
  | some table => table.names
  | none => []

/-- How a node is shown without its children. -/
def head (info : Info) : String :=
  match info.symbol with
  | .builtin op => op.name
  | .block kind => kind.name
  | symbol =>
    if symbol.tag?.any TagKind.isVirtual then "`" ++ info.name?.getD "?"
    else
      match info.value with
      | some value => value.text
      | none => symbol.name

end Info

end Offside
