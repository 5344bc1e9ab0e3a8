import Offside.Text.Printable

/-!
# Quoted text

A text is written between double quotes. Double quotes, backslashes, the three usual blanks and
the null character have escapes of two characters; every other character that is not printable,
or that would attach to the character before it, is written by its code point.
-/

namespace Offside.Text

/-- The digits of a code point in base sixteen. -/
def hexDigits (n : Nat) : String :=
  String.ofList (Nat.toDigits 16 n)

/-- One character between double quotes. -/
def escapeChar (c : Char) : String :=
  if c = '"' then "\\\""
  else if c = '\\' then "\\\\"
  else if c = '\n' then "\\n"
  else if c = '\r' then "\\r"
  else if c = '\t' then "\\t"
  else if c.toNat = 0 then "\\0"
  else if isExtending c || !isPrintable c then "\\u\x7b" ++ hexDigits c.toNat ++ "\x7d"
  else String.singleton c

def quote (s : String) : String :=
  s.toList.foldl (fun out c => out ++ escapeChar c) "\"" ++ "\""

end Offside.Text
