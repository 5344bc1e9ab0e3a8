/-!
# Layouts

A layout is a word, or parts between an opening and a closing text. Each part stands on lines of
its own, four blanks deeper than what is around it, and ends in a comma.
-/

namespace Offside

/-- A text with nested parts, each part behind a label. -/
inductive Layout where
  | word (text : String)
  | group (opening : String) (parts : List (String × Layout)) (closing : String)

namespace Layout

def tuple (name : String) (parts : List Layout) : Layout :=
  .group (name ++ "(") (parts.map fun part => ("", part)) ")"

/-- A name with labeled parts in braces. -/
def record (name : String) (fields : List (String × Layout)) : Layout :=
  .group (name ++ " \x7b") (fields.map fun field => (field.1 ++ ": ", field.2)) "\x7d"

def list (parts : List Layout) : Layout :=
  .group "[" (parts.map fun part => ("", part)) "]"

def optional : Option Layout → Layout
  | none => .word "None"
  | some part => .tuple "Some" [part]

def margin (depth : Nat) : String :=
  String.ofList (List.replicate (4 * depth) ' ')

mutual

/-- Writes a layout behind a text; `depth` is that of the line on which it starts. -/
def write (depth : Nat) : Layout → String → String
  | .word text, out => out ++ text
  | .group opening [] closing, out => out ++ opening ++ closing
  | .group opening (part :: rest) closing, out =>
    writeParts (depth + 1) (part :: rest) (out ++ opening ++ "\n") ++ margin depth ++ closing

/-- Writes parts behind a text, each on lines of its own. -/
def writeParts (depth : Nat) : List (String × Layout) → String → String
  | [], out => out
  | (label, part) :: rest, out =>
    writeParts depth rest (write depth part (out ++ margin depth ++ label) ++ ",\n")

end

def text (layout : Layout) : String :=
  layout.write 0 ""

end Layout

end Offside
