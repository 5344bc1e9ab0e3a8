import Offside.Diagnostic.Cause
import Offside.Tree

/-!
# Renaming of virtual names

A virtual name of a template gets a new name at each expansion. New names have a dollar sign in
them, which no name of a source has. A virtual name that is used before the template declares it
is reported and stays.
-/

namespace Offside

/-- A supply of new names. -/
structure NameSupply where
  /-- The number of names that have been given out. -/
  issued : Nat
deriving DecidableEq

namespace NameSupply

def start : NameSupply := ⟨0⟩

def fresh (names : NameSupply) (base : String) : String × NameSupply :=
  (s!"{base}${names.issued + 1}", ⟨names.issued + 1⟩)

end NameSupply

/-- Renaming of one expansion. -/
structure Renaming where
  /-- The new name of each virtual name that has been declared. -/
  renamed : Table String
  names : NameSupply
  faults : Array Diagnostic

namespace Renaming

/-- The new name of a virtual name; its first declaration makes one. -/
def newName? (r : Renaming) (kind : TagKind) (name : String) : Option String × Renaming :=
  match r.renamed.get? name with
  | some new => (some new, r)
  | none =>
    if kind.isDeclaration then
      let (new, names) := r.names.fresh name
      (some new, { r with renamed := r.renamed.insert name new, names })
    else (none, r)

def node (r : Renaming) (info : Info) : Info × Renaming :=
  match info.symbol.tag?.filter TagKind.isVirtual, info.name? with
  | some kind, some name =>
    match r.newName? kind name with
    | (some new, r) =>
      ({ info with symbol := .tag kind.toConcrete, value := some (.name new) }, r)
    | (none, r) =>
      let fault := Diagnostic.undeclaredVirtual info.loc info.origin name .inTemplate
      (info, { r with faults := r.faults.push fault })
  | _, _ => (info, r)

mutual

/-- Renames the virtual names of a tree, parents first. -/
def tree : Tree → Renaming → Tree × Renaming
  | .node id info children, r =>
    let (info, r) := r.node info
    let (children, r) := trees children r
    (.node id info children, r)

/-- Renames the virtual names of some trees, from left to right. -/
def trees : List Tree → Renaming → List Tree × Renaming
  | [], r => ([], r)
  | t :: ts, r =>
    let (t, r) := tree t r
    let (ts, r) := trees ts r
    (t :: ts, r)

end

end Renaming

end Offside
