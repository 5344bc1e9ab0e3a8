/-!
# Source locations

A location is one 32-bit word: six bits for the source, sixteen for the line and ten for the
column, so that locations are ordered like the triples they stand for. Lines count from one and
columns from zero. A table of sources gives every name a fixed number.
-/

namespace Offside

abbrev SourceId := Fin 64

/-- There is a first source. The zero is written out, since imports may bring another one. -/
instance SourceId.neZero : @NeZero Nat Zero.ofOfNat0 64 :=
  ⟨by decide⟩

/-- A source, a line and a column in one word. -/
structure Loc where
  raw : UInt32
deriving DecidableEq, Inhabited

/-- Why a source or a location cannot be numbered. -/
inductive LocError where
  | tooManySources
  | lineOverflow (line : Nat)
  | columnOverflow (column : Nat)
deriving DecidableEq

namespace Loc

def maxLine : Nat := 65535

def maxColumn : Nat := 1023

def pack (source : SourceId) (line column : Nat) : Loc :=
  ⟨UInt32.ofNat ((source.val * 65536 + line) * 1024 + column)⟩

/-- A location, if the line and the column fit; the line is looked at first. -/
def make (source : SourceId) (line column : Nat) : Except LocError Loc :=
  if maxLine < line then .error (.lineOverflow line)
  else if maxColumn < column then .error (.columnOverflow column)
  else .ok (pack source line column)

/-- The location nearest to fields that may not fit. -/
def clamped (source : SourceId) (line column : Nat) : Loc :=
  pack source (min line maxLine) (min column maxColumn)

def source (loc : Loc) : SourceId :=
  ⟨loc.raw.toNat / 67108864, by have := loc.raw.toNat_lt; omega⟩

def line (loc : Loc) : Nat :=
  loc.raw.toNat / 1024 % 65536

def column (loc : Loc) : Nat :=
  loc.raw.toNat % 1024

/-- The fields with colons between them. -/
def text (loc : Loc) : String :=
  s!"{loc.source.val}:{loc.line}:{loc.column}"

end Loc

namespace LocError

def message : LocError → String
  | .tooManySources => "too many source files: at most 64 can be registered"
  | .lineOverflow line =>
    s!"line {line} exceeds the maximum encodable line {Loc.maxLine}"
  | .columnOverflow column =>
    s!"column {column} exceeds the maximum encodable column {Loc.maxColumn}"

end LocError

/-- A stretch of source: its first location and the one behind its last. -/
structure LocRange where
  start : Loc
  stop : Loc
deriving DecidableEq, Inhabited

namespace LocRange

def point (loc : Loc) : LocRange := ⟨loc, loc⟩

end LocRange

/-- A location with the name of its source. -/
structure Position where
  source : String
  line : Nat
  column : Nat
deriving DecidableEq

namespace Position

/-- Shown positions count columns from one. -/
def text (p : Position) : String :=
  s!"{p.source}:{p.line}:{p.column + 1}"

end Position

/-- The names of the sources, in the order of their numbers. -/
structure SourceTable where
  names : List String
deriving DecidableEq

namespace SourceTable

def empty : SourceTable := ⟨[]⟩

def size (table : SourceTable) : Nat :=
  table.names.length

/-- The number of a name and the table that holds it; a known name keeps its number. -/
def add (table : SourceTable) (name : String) : Except LocError (SourceId × SourceTable) :=
  let index := table.names.findIdx (· = name)
  if index < table.size then
    if h : index < 64 then .ok (⟨index, h⟩, table) else .error .tooManySources
  else if h : table.size < 64 then .ok (⟨table.size, h⟩, ⟨table.names ++ [name]⟩)
  else .error .tooManySources

def name (table : SourceTable) (source : SourceId) : String :=
  table.names[source.val]?.getD "<unknown>"

def position (table : SourceTable) (loc : Loc) : Position :=
  ⟨table.name loc.source, loc.line, loc.column⟩

end SourceTable

end Offside
