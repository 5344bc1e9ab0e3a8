/-!
# Lines of a text

Two readings of "line" occur. Source lines end at a line feed. The lines that a reader of a
report counts end at any of the usual line terminators, a carriage return with its line feed
counting once; a terminator belongs to the line that it ends, and no line follows the last one.
-/

namespace Offside.Text

/-- Splits a text at its line feeds; the line feeds are dropped. -/
def splitLines (text : List Char) : List (List Char) :=
  text.splitOn '\n'

/-- Decides whether a character has the property White_Space. -/
def isBlank (c : Char) : Bool :=
  let n := c.toNat
  (9 ≤ n && n ≤ 13) || n = 0x20 || n = 0x85 || n = 0xa0 || n = 0x1680 ||
    (0x2000 ≤ n && n ≤ 0x200a) || n = 0x2028 || n = 0x2029 || n = 0x202f || n = 0x205f ||
    n = 0x3000

/-- A text without the blanks at its two ends. -/
def trimBlanks (text : List Char) : List Char :=
  ((text.dropWhile isBlank).reverse.dropWhile isBlank).reverse

/--
The source line with a given number, counted from zero, without a carriage return at its end.
What follows the last line feed is a line only if it is not empty.
-/
def sourceLine? (text : List Char) (index : Nat) : Option (List Char) :=
  let lines := splitLines text
  match lines[index]? with
  | none => none
  | some line =>
    if index + 1 = lines.length then
      if line.isEmpty then none else some line
    else if line.getLast? = some '\r' then some line.dropLast
    else some line

/-- Decides whether a character ends a line for a reader of a report. -/
def endsLine (c : Char) : Bool :=
  let n := c.toNat
  (0x0a ≤ n && n ≤ 0x0d) || n = 0x85 || n = 0x2028 || n = 0x2029

/--
The line and the column of a character offset, both counted from zero, where `line` and
`column` are those of the start of the text. An offset behind a final line end stands on the
last line.
-/
def lineColumn : List Char → Nat → Nat → Nat → Nat × Nat
  | _, 0, line, column => (line, column)
  | [], _ + 1, line, column => (line, column)
  | c :: rest, offset + 1, line, column =>
    let joined := c = '\r' && rest.head? = some '\n'
    if endsLine c && !joined && !rest.isEmpty then lineColumn rest offset (line + 1) 0
    else lineColumn rest offset line (column + 1)

end Offside.Text
