import Offside.Diagnostic.Code
import Offside.Location

/-!
# Diagnostics

A diagnostic is a coded report about a place in a source. Its first label is the place itself;
further labels, notes and the place from which the code was expanded explain it.
-/

namespace Offside

/-- A marked stretch of source with a remark. -/
structure Label where
  loc : Loc
  /-- The number of marked characters, at least one. -/
  width : Nat
  message : String
deriving DecidableEq, Inhabited

namespace Label

def new (loc : Loc) (message : String) : Label :=
  ⟨loc, 1, message⟩

def withWidth (label : Label) (width : Nat) : Label :=
  { label with width := max width 1 }

end Label

/-- A report about a place in a source. -/
structure Diagnostic where
  code : Code
  message : String
  primary : Label
  secondary : List Label
  notes : List String
  /-- Where the macro was written that the code comes from. -/
  origin : Option Loc
deriving DecidableEq, Inhabited

/-- Why a diagnostic cannot have a code. -/
inductive LevelMismatch where
  | notAnError
  | notAWarning
deriving DecidableEq

namespace LevelMismatch

def message : LevelMismatch → String
  | .notAnError => "Tried to create an error diagnostic with a non-error code."
  | .notAWarning => "Tried to create a warning diagnostic with a non-warning code."

end LevelMismatch

namespace Diagnostic

/-- The report with the general message of its code. -/
def new (code : Code) (primary : Label) : Diagnostic :=
  { code, message := code.message, primary, secondary := [], notes := [], origin := none }

def error (code : Code) (primary : Label) : Except LevelMismatch Diagnostic :=
  if code.level = .error then .ok (new code primary) else .error .notAnError

def warning (code : Code) (primary : Label) : Except LevelMismatch Diagnostic :=
  if code.level = .warning then .ok (new code primary) else .error .notAWarning

/-- The same report with a message of its own. -/
def withMessage (d : Diagnostic) (message : String) : Diagnostic :=
  { d with message }

/-- The same report with one more label. -/
def withLabel (d : Diagnostic) (label : Label) : Diagnostic :=
  { d with secondary := d.secondary ++ [label] }

/-- The same report with one more note. -/
def withNote (d : Diagnostic) (note : String) : Diagnostic :=
  { d with notes := d.notes ++ [note] }

/-- The same report about code from an expansion. -/
def withOrigin (d : Diagnostic) (origin : Option Loc) : Diagnostic :=
  { d with origin }

def level (d : Diagnostic) : Level :=
  d.code.level

def loc (d : Diagnostic) : Loc :=
  d.primary.loc

def labels (d : Diagnostic) : List Label :=
  d.primary :: d.secondary

/-- The place of the expansion, if it is not the place of the report. -/
def expandedFrom (d : Diagnostic) : Option Loc :=
  d.origin.filter (· ≠ d.loc)

end Diagnostic

/-- The reports of a unit, in the order in which they were made. -/
abbrev Diagnostics := Array Diagnostic

namespace Diagnostics

def hasErrors (ds : Diagnostics) : Bool :=
  ds.any fun d => d.level = .error

end Diagnostics

end Offside
