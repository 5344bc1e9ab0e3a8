import Offside.Tree

/-!
# The environment of a unit

An environment gives a unit its operators and keywords, the macros that the host provides, and
the names that are declared outside of the source.
-/

namespace Offside

/-- Why a macro refuses an invocation. -/
inductive MacroError where
  | message (text : String)
  | argumentCount (name : String) (expected found : Nat)
deriving DecidableEq

/-- What an invocation of a macro comes to. -/
inductive Outcome where
  | unchanged
  /-- The invocation disappears. -/
  | delete
  /-- The invocation becomes `result`; if that comes too late, `remains` is what is left of it. -/
  | replace (remains result : Tree)
  | fail (reason : MacroError)
  /-- The routine broke down, with a reason if it gave one. -/
  | crash (reason : Option String)

/-- A routine that the host of the compiler provides for a macro. -/
structure HostRoutine where
  /-- How the routine is named in the notes of a report. -/
  describe : Option String
  expand : Tree → Supply Outcome

/-- The macros and the names that a unit starts with. -/
structure Environment where
  provided : Table Macro
  globals : Table Declaration
  routines : Array HostRoutine

namespace Environment

def standard : Environment := ⟨.empty, .empty, #[]⟩

def withMacro (env : Environment) (name : String) (arity : Arity) (body : MacroBody) :
    Environment :=
  { env with provided := env.provided.insert name ⟨name, arity, body⟩ }

/-- The environment with one more macro that runs a routine of the host. -/
def withRoutine (env : Environment) (name : String) (arity : Arity) (routine : HostRoutine) :
    Environment :=
  { env.withMacro name arity (.host env.routines.size) with
    routines := env.routines.push routine }

def withGlobal (env : Environment) (name : String) : Environment :=
  { env with globals := env.globals.insert name (.fromOutside name) }

/-- The spellings of the language; those of the prelude only if asked for. -/
def spellings (prelude : Bool) : List (String × Symbol) :=
  let operators := Builtin.all.flatMap fun op =>
    if op.isPrelude && !prelude then [] else op.spellings.map fun text => (text, .builtin op)
  operators ++
    [("true", .keyword (.bool true)), ("false", .keyword (.bool false)),
     ("null", .keyword .null)]

def macros (env : Environment) : Table Symbol :=
  ⟨env.provided.entries.map fun entry => (entry.1, .expander entry.2)⟩

/-- What every spelling means at the start of a unit. -/
def rootKeys (env : Environment) (prelude : Bool) : Table Symbol :=
  env.macros.entries.foldl (fun table entry => table.insert entry.1 entry.2)
    (.ofList (spellings prelude))

/-- How a macro that the host provides is named in the notes of a report. -/
def describe (env : Environment) (m : Macro) : Option String :=
  match m.body with
  | .template _ => none
  | .call callee => some s!"native macro calling `{callee}`"
  | .host index => env.routines[index]?.bind HostRoutine.describe

end Environment

end Offside
