import Offside.Table

/-!
# Nested scopes

Scopes are the layers of one growing list. Every layer but the first extends an earlier layer,
and below the first layer lies a base table that is never written. A name is looked up from a
layer outwards, and in the base table last.
-/

namespace Offside

abbrev ScopeId := Nat

/-- The names of one scope and the scope around it. -/
structure Layer (α : Type) where
  parent : Option ScopeId
  entries : Table α
deriving Inhabited

/-- All scopes of a unit over one base table. -/
structure Scopes (α : Type) where
  base : Table α
  layers : Array (Layer α)

namespace Scopes

variable {α : Type}

/-- The scopes with the outermost layer alone. -/
def start (base : Table α) : Scopes α :=
  ⟨base, #[⟨none, .empty⟩]⟩

def root : ScopeId := 0

def size (scopes : Scopes α) : Nat :=
  scopes.layers.size

def parent (scopes : Scopes α) (scope : ScopeId) : Option ScopeId :=
  scopes.layers[scope]?.bind Layer.parent

/-- A new layer around which `scope` lies. -/
def extend (scopes : Scopes α) (scope : ScopeId) : ScopeId × Scopes α :=
  (scopes.size, { scopes with layers := scopes.layers.push ⟨some scope, .empty⟩ })

/-- The value of a name in one layer alone. -/
def getLocal? (scopes : Scopes α) (scope : ScopeId) (name : String) : Option α :=
  scopes.layers[scope]?.bind (·.entries.get? name)

/-- Writes a name in one layer, over an older value. -/
def insert (scopes : Scopes α) (scope : ScopeId) (name : String) (value : α) : Scopes α :=
  { scopes with
    layers := scopes.layers.modify scope fun layer =>
      { layer with entries := layer.entries.insert name value } }

/-- Writes a new name in one layer; a name that the layer has keeps its value. -/
def define (scopes : Scopes α) (scope : ScopeId) (name : String) (value : α) :
    Except α (Scopes α) :=
  match scopes.getLocal? scope name with
  | some existing => .error existing
  | none => .ok (scopes.insert scope name value)

/-- The layers from a scope outwards, at most `count` of them. -/
def chainWithin (scopes : Scopes α) : Nat → ScopeId → List ScopeId
  | 0, _ => []
  | count + 1, scope =>
    match scopes.parent scope with
    | some outer => scope :: chainWithin scopes count outer
    | none => [scope]

/-- The layers from a scope outwards. A layer comes after the one that it extends. -/
def chain (scopes : Scopes α) (scope : ScopeId) : List ScopeId :=
  scopes.chainWithin (scope + 1) scope

def getLayered? (scopes : Scopes α) (scope : ScopeId) (name : String) : Option α :=
  (scopes.chain scope).findSome? fun layer => scopes.getLocal? layer name

def get? (scopes : Scopes α) (scope : ScopeId) (name : String) : Option α :=
  (scopes.getLayered? scope name).or (scopes.base.get? name)

/-- Decides whether a name as seen from a scope is that of the base table. -/
def isFromBase (scopes : Scopes α) (scope : ScopeId) (name : String) : Bool :=
  (scopes.getLayered? scope name).isNone && scopes.base.contains name

end Scopes

end Offside
