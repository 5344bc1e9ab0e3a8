/-!
# Tables of names

A table maps names to values and keeps its entries in the order in which the names were first
written. Writing a name again replaces its value in place.
-/

namespace Offside

/-- Values under names, in the order in which the names came. -/
structure Table (α : Type) where
  entries : List (String × α)
deriving DecidableEq, Inhabited

namespace Table

variable {α : Type}

def empty : Table α := ⟨[]⟩

/-- The value of the first entry with a name. -/
def find : List (String × α) → String → Option α
  | [], _ => none
  | (key, value) :: rest, name => if key = name then some value else find rest name

/-- Replaces the value of a name in place, or adds an entry at the end. -/
def put : List (String × α) → String → α → List (String × α)
  | [], name, value => [(name, value)]
  | (key, old) :: rest, name, value =>
    if key = name then (key, value) :: rest else (key, old) :: put rest name value

def get? (table : Table α) (name : String) : Option α :=
  find table.entries name

def contains (table : Table α) (name : String) : Bool :=
  (table.get? name).isSome

def insert (table : Table α) (name : String) (value : α) : Table α :=
  ⟨put table.entries name value⟩

def names (table : Table α) : List String :=
  table.entries.map Prod.fst

def values (table : Table α) : List α :=
  table.entries.map Prod.snd

def size (table : Table α) : Nat :=
  table.entries.length

def ofList (entries : List (String × α)) : Table α :=
  entries.foldl (fun table entry => table.insert entry.1 entry.2) empty

def isEmpty (table : Table α) : Bool :=
  table.entries.isEmpty

theorem find_put (entries : List (String × α)) (name other : String) (value : α) :
    find (put entries name value) other =
      if name = other then some value else find entries other := by
  induction entries with
  | nil => simp [put, find]
  | cons entry rest ih =>
    obtain ⟨key, old⟩ := entry
    by_cases same : key = name
    · subst same
      by_cases hit : key = other <;> simp [put, find, hit]
    · by_cases hit : key = other
      · subst hit
        have apart : name ≠ key := fun h => same h.symm
        simp [put, find, same, apart]
      · simp [put, find, same, hit, ih]

@[simp] theorem get?_insert (table : Table α) (name other : String) (value : α) :
    (table.insert name value).get? other =
      if name = other then some value else table.get? other :=
  find_put table.entries name other value

end Table

end Offside
