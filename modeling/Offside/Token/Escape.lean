/-!
# Escapes in strings

A backslash and the characters behind it stand for one character: a named control character, a
quote or a backslash, two or four digits in base sixteen, or up to three digits in base eight.
-/

namespace Offside.Escape

/-- The value of a digit in base eight. -/
def octalDigit? (c : Char) : Option Nat :=
  if '0' ≤ c ∧ c ≤ '7' then some (c.toNat - '0'.toNat) else none

/-- The value of a digit in base sixteen, in either case. -/
def hexDigit? (c : Char) : Option Nat :=
  if '0' ≤ c ∧ c ≤ '9' then some (c.toNat - '0'.toNat)
  else if 'a' ≤ c ∧ c ≤ 'f' then some (c.toNat - 'a'.toNat + 10)
  else if 'A' ≤ c ∧ c ≤ 'F' then some (c.toNat - 'A'.toNat + 10)
  else none

/-- The character with a code point; surrogates have none. -/
def charOf? (code : Nat) : Option Char :=
  if h : code.isValidChar then some (Char.ofNatAux code h) else none

/-- Reads exactly `count` digits in base sixteen; the digits before a fault are used up. -/
def hexCode : Nat → Nat → List Char → Option Nat × List Char
  | 0, code, rest => (some code, rest)
  | _ + 1, _, [] => (none, [])
  | count + 1, code, c :: rest =>
    match hexDigit? c with
    | some digit => hexCode count (code * 16 + digit) rest
    | none => (none, c :: rest)

/-- Reads at most `count` more digits in base eight. -/
def octalCode : Nat → Nat → List Char → Nat × List Char
  | 0, code, rest => (code, rest)
  | _ + 1, code, [] => (code, [])
  | count + 1, code, c :: rest =>
    match octalDigit? c with
    | some digit => octalCode count (code * 8 + digit) rest
    | none => (code, c :: rest)

def named? (c : Char) : Option Char :=
  if c = 'n' then some '\n'
  else if c = 't' then some '\t'
  else if c = 'r' then some '\r'
  else if c = 'b' then some '\x08'
  else if c = 'f' then some '\x0c'
  else if c = 'v' then some '\x0b'
  else if c = '\\' || c = '\'' || c = '"' then some c
  else none

/-- The character of the escape behind a backslash, if it has one, and what follows. -/
def decode (c : Char) (rest : List Char) : Option Char × List Char :=
  match named? c with
  | some meant => (some meant, rest)
  | none =>
    if c = 'x' then let (code, behind) := hexCode 2 0 rest; (code.bind charOf?, behind)
    else if c = 'u' then let (code, behind) := hexCode 4 0 rest; (code.bind charOf?, behind)
    else
      match octalDigit? c with
      | some digit => let (code, behind) := octalCode 2 digit rest; (charOf? code, behind)
      | none => (none, rest)

/-- The characters of a string, at most `count` of them; a malformed escape has none. -/
def readWithin : Nat → List Char → List (Option Char)
  | 0, _ => []
  | _ + 1, [] => []
  | count + 1, c :: rest =>
    if c = '\\' then
      match rest with
      | [] => [none]
      | kind :: behind =>
        let (meant, behind) := decode kind behind
        meant :: readWithin count behind
    else some c :: readWithin count rest

/-- The characters that the content of a quoted string stands for. -/
def read (content : List Char) : List (Option Char) :=
  readWithin content.length content

/-- The text of a quoted string, in which a malformed escape leaves the replacement character. -/
def text (content : List Char) : String :=
  String.ofList ((read content).map (·.getD '�'))

/-- The number of malformed escapes in a quoted string. -/
def faults (content : List Char) : Nat :=
  (read content).countP (·.isNone)

end Offside.Escape
