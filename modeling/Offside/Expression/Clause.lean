import Offside.Diagnostic.Cause
import Offside.Tree

/-!
# Dependent clauses

The clauses `else`, `catch` and `finally` belong to an `if` or a `try`. They follow it on its
line or on a line of their own, each at most once, and `catch` before `finally`.
-/

namespace Offside.Clause

def isTaken (owner : Symbol) (children : List Tree) (clause : Builtin) : Bool :=
  match owner.builtin? with
  | none => false
  | some op =>
    let clauses := op.arity.dependents
    let present := (children.filterMap Tree.builtin?).filter (· ∈ clauses)
    clause ∈ clauses &&
      (if clause = .catchClause then present.isEmpty else clause ∉ present)

mutual

/--
Puts a clause behind the nearest node that takes it, from a node down along the last children.
Indented blocks and `do` blocks are not entered.
-/
def attach (clause : Tree) (op : Builtin) : Tree → Option Tree
  | .node id info children =>
    if isTaken info.symbol children op then some (.node id info (children ++ [clause]))
    else (attachLast clause op children).map (.node id info)

/-- Puts a clause below the last of some trees. -/
def attachLast (clause : Tree) (op : Builtin) : List Tree → Option (List Tree)
  | [] => none
  | [last] => if last.isBlockLike then none else (attach clause op last).map ([·])
  | first :: next :: rest => (attachLast clause op (next :: rest)).map (first :: ·)

end

/-- What is wrong with a clause or its owner, given what the node stands in. -/
def fault? (parent : Option Builtin) (t : Tree) : Option Diagnostic :=
  match t.builtin? with
  | some .elseClause =>
    if parent ≠ some .ifThen then some (.unattachedClause t.loc t.symbol.name)
    else
      match t.children with
      | [body] =>
        if body.is .ifThen || body.isBlock .block then none
        else some (.malformedClause t.loc .elseBody)
      | _ => some (.malformedClause t.loc .elseBody)
  | some .catchClause =>
    if parent ≠ some .tryBlock then some (.unattachedClause t.loc t.symbol.name)
    else
      match t.children with
      | [name, _] => if name.isTag then none else some (.malformedClause t.loc .catchParts)
      | _ => some (.malformedClause t.loc .catchParts)
  | some .finallyClause =>
    if parent ≠ some .tryBlock then some (.unattachedClause t.loc t.symbol.name) else none
  | some .tryBlock =>
    if t.children.any fun c => c.is .catchClause || c.is .finallyClause then none
    else some (.malformedClause t.loc .tryAlone)
  | _ => none

mutual

/-- The faults of all clauses of a statement: a node before its children, the last child first. -/
def faults (parent : Option Builtin) : Tree → Diagnostics → Diagnostics
  | .node id info children, ds =>
    let ds := match fault? parent (.node id info children) with
      | some d => ds.push d
      | none => ds
    faultsOfAll info.symbol.builtin? children ds

/-- The faults below a node. Blocks have been looked at before. -/
def faultsOfAll (parent : Option Builtin) : List Tree → Diagnostics → Diagnostics
  | [], ds => ds
  | t :: ts, ds =>
    let ds := faultsOfAll parent ts ds
    if t.isBlockLike then ds else faults parent t ds

end

end Offside.Clause
