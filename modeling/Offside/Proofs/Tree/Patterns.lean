import Offside.Tree

/-!
# Patterns

What declares names is a name or a tuple of such trees.
-/

namespace Offside.Tree

mutual

/-- Decides whether a tree is a name, or a tuple of such trees. -/
def isPattern : Tree → Bool
  | .node _ info children =>
    match info.symbol with
    | .tag _ => info.name?.isSome
    | .builtin .tuple => arePatterns children
    | _ => false

def arePatterns : List Tree → Bool
  | [] => true
  | t :: ts => isPattern t && arePatterns ts

end

theorem arePatterns_iff {ts : List Tree} :
    arePatterns ts = true ↔ ∀ t ∈ ts, t.isPattern = true := by
  induction ts with
  | nil => simp [arePatterns]
  | cons t ts ih => simp [arePatterns, ih]

end Offside.Tree
