import Offside.Number.Spelling
import Offside.Text.Quoted

/-!
# Values

The literal or the name that a node carries.
-/

namespace Offside

/-- A literal, or the source text of a name or an operator. -/
inductive Value where
  | number (x : Binary64)
  | str (text : String)
  | bool (b : Bool)
  | null
  | name (text : String)
deriving DecidableEq

namespace Value

def ofKeyword? (word : String) : Option Value :=
  if word = "true" then some (.bool true)
  else if word = "false" then some (.bool false)
  else if word = "null" then some .null
  else none

def text : Value → String
  | .number x => x.plain
  | .str s => Text.quote s
  | .bool true => "true"
  | .bool false => "false"
  | .null => "null"
  | .name s => s

def name? : Value → Option String
  | .name s => some s
  | _ => none

end Value

end Offside
