import Offside.Diagnostic
import Offside.Text.Lines

/-!
# Printed reports

Without the text of the source a diagnostic is printed with its positions alone. With the text
it has a heading, the place as a reader of the text counts lines and columns, and its notes;
a report none of whose labels lies in the text is its heading alone.
-/

namespace Offside

/-- A stretch of characters of a text. -/
structure CharRange where
  start : Nat
  stop : Nat
deriving DecidableEq

namespace CharRange

/--
Finds a line among the lines of a text, of which the first starts at `offset`; `skip` lines
stand before it. A column behind the end of the line stands at its end.
-/
def inLines : List (List Char) → Nat → Nat → Nat → Nat → CharRange
  | [], _, offset, _, _ => ⟨offset, offset⟩
  | line :: _, 0, offset, column, width =>
    let start := offset + min column line.length
    ⟨start, start + width⟩
  | line :: rest, skip + 1, offset, column, width =>
    inLines rest skip (offset + line.length + 1) column width

def ofLabel (text : List Char) (label : Label) : CharRange :=
  inLines (Text.splitLines text) (max label.loc.line 1 - 1) 0 label.loc.column label.width

/-- Decides whether a stretch lies in a text of `length` characters. -/
def isVisible (range : CharRange) (length : Nat) : Bool :=
  range.start ≤ length && (range.stop ≤ range.start || range.stop - 1 ≤ length)

end CharRange

namespace Level

def word : Level → String
  | .error => "error"
  | .warning => "warning"

def title : Level → String
  | .error => "Error"
  | .warning => "Warning"

end Level

namespace Diagnostic

/-- The lines of a report without the text of the source. -/
def plainLines (d : Diagnostic) (sources : SourceTable) : List String :=
  let heading :=
    s!"{(sources.position d.loc).text}: {d.level.word}[{d.code.id}]: {d.message}"
  let labels := d.secondary.map fun label =>
    s!"  {(sources.position label.loc).text}: note: {label.message}"
  let origin := d.expandedFrom.toList.map fun loc =>
    s!"  {(sources.position loc).text}: note: expanded from here"
  let notes := d.notes.map fun note => s!"  = {note}"
  heading :: (labels ++ origin ++ notes)

def ranges (d : Diagnostic) (text : List Char) : List CharRange :=
  let origin := d.expandedFrom.toList.map fun loc => Label.new loc "expanded from here"
  (d.labels ++ origin).map (CharRange.ofLabel text)

def sourceLines (d : Diagnostic) (sources : SourceTable) (text : List Char) : List String :=
  let heading := s!"[{d.code.id}] {d.level.title}: {d.message}"
  if (d.ranges text).any (·.isVisible text.length) then
    let start := (CharRange.ofLabel text d.primary).start
    let name := sources.name d.loc.source
    let place :=
      if text.length < start then s!"at {name}:?:?"
      else
        let (line, column) := Text.lineColumn text start 0 0
        s!"at {name}:{line + 1}:{column + 1}"
    let notes := (d.notes.filter (· ≠ "")).map fun note => s!"note {note}"
    heading :: place :: notes
  else [heading]

end Diagnostic

namespace Diagnostics

/-- The lines of all reports. A message of several lines takes several lines. -/
def print (ds : Diagnostics) (sources : SourceTable) (text : Option (List Char)) :
    List String :=
  ds.toList.flatMap fun d =>
    match text with
    | some text => d.sourceLines sources text
    | none =>
      (d.plainLines sources).flatMap fun line => (Text.splitLines line.toList).map String.ofList

end Diagnostics

end Offside
