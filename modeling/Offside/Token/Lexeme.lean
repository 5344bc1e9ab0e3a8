import Offside.Text.Word

/-!
# Lexemes

A stretch of one line is cut into lexemes from left to right. The first character decides what a
lexeme is, and each lexeme is as long as it can be. Blanks and comments are lexemes too, so the
lexemes of a stretch, put together, are the stretch.
-/

namespace Offside

/-- What a lexeme is. -/
inductive LexemeKind where
  | blank
  | comment
  | doWord
  | word
  | virtualWord
  | hashWord
  /-- A numeral with its digits before the point, behind it, and its exponent. -/
  | number (whole fraction : List Char) (exponent : Option (Bool × List Char))
  | operator
  /-- A string between two equal quotes on one line. -/
  | quoted (content : List Char)
  /-- A string between triple quotes that ends in the stretch. -/
  | tripled (content : List Char)
  /-- A string behind triple quotes that does not end in the stretch. -/
  | tripleOpen (content : List Char)
  /-- A quote without a partner; it takes the rest of the stretch. -/
  | loneQuote
  | openBracket
  | closeBracket
  | comma
  | unknown
deriving DecidableEq

/-- A lexeme with its characters. -/
structure Lexeme where
  kind : LexemeKind
  text : List Char
deriving DecidableEq

namespace Lexeme

def isSpace (c : Char) : Bool :=
  c = ' ' || c = '\t' || c = '\r' || c = '\x0c'

def isOperatorChar (c : Char) : Bool :=
  "+-*/%=<>!&|:.@^~?".toList.contains c

/-- The characters up to the next unescaped quote, and those behind it. -/
def upToQuote (quote : Char) : List Char → Option (List Char × List Char)
  | [] => none
  | '\\' :: c :: rest =>
    if c = '\n' then none
    else (upToQuote quote rest).map fun (content, after) => ('\\' :: c :: content, after)
  | c :: rest =>
    if c = quote then some ([], rest)
    else if c = '\\' || c = '\n' then none
    else (upToQuote quote rest).map fun (content, after) => (c :: content, after)

/-- The characters up to the next three double quotes, and those behind them. -/
def upToTriple : List Char → Option (List Char × List Char)
  | [] => none
  | c :: rest =>
    if c = '"' && rest.take 2 = ['"', '"'] then some ([], rest.drop 2)
    else (upToTriple rest).map fun (content, after) => (c :: content, after)

/-- The digits behind the point of a numeral; without a digit there is no fraction. -/
def fraction (rest : List Char) : List Char × List Char :=
  match rest with
  | '.' :: after =>
    let digits := after.takeWhile Char.isDigit
    if digits.isEmpty then ([], rest) else (digits, after.dropWhile Char.isDigit)
  | _ => ([], rest)

def sign : List Char → List Char × List Char
  | '-' :: after => (['-'], after)
  | '+' :: after => (['+'], after)
  | after => ([], after)

/-- The exponent of a numeral: its sign and digits, its characters, and what follows. -/
def exponent (rest : List Char) : Option (Bool × List Char) × List Char × List Char :=
  match rest with
  | c :: after =>
    let (mark, after) := sign after
    let digits := after.takeWhile Char.isDigit
    if (c = 'e' || c = 'E') && !digits.isEmpty then
      (some (mark = ['-'], digits), c :: mark ++ digits, after.dropWhile Char.isDigit)
    else (none, [], rest)
  | [] => (none, [], [])

/-- The numeral that starts with the digit `c`, and the characters behind it. -/
def numeral (c : Char) (rest : List Char) : Lexeme × List Char :=
  let whole := c :: rest.takeWhile Char.isDigit
  let (places, rest) := fraction (rest.dropWhile Char.isDigit)
  let (power, powerText, rest) := exponent rest
  let point := if places.isEmpty then [] else ['.']
  (⟨.number whole places power, whole ++ point ++ places ++ powerText⟩, rest)

/-- The lexeme that starts with `c` and goes on as long as the characters allow. -/
def run (kind : LexemeKind) (c : Char) (p : Char → Bool) (rest : List Char) :
    Lexeme × List Char :=
  (⟨kind, c :: rest.takeWhile p⟩, rest.dropWhile p)

/-- The string that starts with three double quotes, of which the rest follows the first. -/
def triple (rest : List Char) : Lexeme × List Char :=
  let marks := ['"', '"', '"']
  match upToTriple (rest.drop 2) with
  | some (content, behind) => (⟨.tripled content, marks ++ content ++ marks⟩, behind)
  | none => (⟨.tripleOpen (rest.drop 2), marks ++ rest.drop 2⟩, [])

def string (c : Char) (rest : List Char) : Lexeme × List Char :=
  match upToQuote c rest with
  | some (content, behind) => (⟨.quoted content, c :: content ++ [c]⟩, behind)
  | none => (⟨.loneQuote, c :: rest⟩, [])

/-- A word, or the word `do` if nothing that looks like a part of a word follows it. -/
def wordKind (word rest : List Char) : LexemeKind :=
  if word = ['d', 'o'] && !rest.head?.any Text.looksLikeWordPart then .doWord else .word

def word (c : Char) (rest : List Char) : Lexeme × List Char :=
  let text := c :: rest.takeWhile Text.isWordPart
  let behind := rest.dropWhile Text.isWordPart
  (⟨wordKind text behind, text⟩, behind)

/-- The lexeme that starts with `c`, and the characters behind it. -/
def next (c : Char) (rest : List Char) : Lexeme × List Char :=
  let beforeWord := rest.head?.any Text.isWordStart
  if isSpace c then run .blank c isSpace rest
  else if c = ';' then run .comment c (· ≠ '\n') rest
  else if Text.isWordStart c then word c rest
  else if c = '\x60' && beforeWord then run .virtualWord c Text.isWordPart rest
  else if c = '#' && beforeWord then run .hashWord c Text.isWordPart rest
  else if c.isDigit then numeral c rest
  else if isOperatorChar c then run .operator c isOperatorChar rest
  else if c = '"' && rest.take 2 = ['"', '"'] then triple rest
  else if c = '"' || c = '\'' then string c rest
  else if c = '(' || c = '[' || c = '\x7b' then (⟨.openBracket, [c]⟩, rest)
  else if c = ')' || c = ']' || c = '\x7d' then (⟨.closeBracket, [c]⟩, rest)
  else if c = ',' then (⟨.comma, [c]⟩, rest)
  else (⟨.unknown, [c]⟩, rest)

/-- The first lexemes of a stretch, at most `count` of them. -/
def splitWithin : Nat → List Char → List Lexeme
  | 0, _ => []
  | _ + 1, [] => []
  | count + 1, c :: rest =>
    let (lexeme, behind) := next c rest
    lexeme :: splitWithin count behind

/-- The lexemes of a stretch. No lexeme is empty, so there are at most as many as characters. -/
def split (stretch : List Char) : List Lexeme :=
  splitWithin stretch.length stretch

end Lexeme

end Offside
