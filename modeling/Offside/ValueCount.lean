import Offside.Diagnostic.Cause
import Offside.Tree

/-!
# Numbers of values

Every node is checked against the number of values that is needed where it stands; a statement
may produce any number, because its values are dropped. The number that a node produces is noted
on it. Jumps must have a target around them and bring the values that it needs.
-/

namespace Offside

/-- What jumps can leave, seen from where a node stands. -/
structure JumpContext where
  /-- The values that the nearest `do` or `loop` needs, if there is one. -/
  leave : Option (Option Nat)
  /-- The number of variables of the nearest `loop`, if there is one. -/
  nextRound : Option Nat
  inFunction : Bool
deriving DecidableEq

/-- Outside of all loops, `do` blocks and functions. -/
def JumpContext.outermost : JumpContext := ⟨none, none, false⟩

abbrev Check := StateM Diagnostics

namespace Check

def report (d : Diagnostic) : Check Unit :=
  modify fun ds => ds.push d

/-- Compares the number of values that a node produces with what is needed. -/
def require (info : Info) (expected : Option Nat) (actual : Nat) : Check Nat := do
  match expected with
  | none => return actual
  | some wanted =>
    if wanted ≠ actual then
      if actual = 0 then report (.noValue info.loc info.origin)
      else report (.wrongCount info.loc info.origin wanted actual)
    return actual

/-- Decides whether an operator has as many operands as it takes; clauses do not count. -/
def hasOperands (info : Info) (op : Builtin) (children : List Tree) : Check Bool := do
  let arity := op.arity
  let count := (children.filter fun c => !c.symbol.flags.dependentClause).length
  if arity.sequence || (arity.minOperands ≤ count && count ≤ arity.maxOperands) then return true
  report (.operandCount info.loc info.origin op count)
  return false

/-- The number of values that a target takes. -/
def width (target : Tree) : Nat :=
  let inner := match target.builtin? with
    | some .var | some .const => (target.child? 0).getD target
    | _ => target
  if inner.is .tuple then inner.children.length else 1

def noted (id : NodeId) (info : Info) (count : Nat) (children : List Tree) : Nat × Tree :=
  (count, .node id { info with count := some count } children)

/-- Compares the number of values that a node produces with what is needed, and notes it. -/
def yields (id : NodeId) (info : Info) (expected : Option Nat) (actual : Nat)
    (children : List Tree) : Check (Nat × Tree) := do
  return noted id info (← require info expected actual) children

/-- The number of values of a construct that can end in several ways. -/
def common (expected : Option Nat) (counts : List Nat) : Nat :=
  match expected, counts with
  | some n, _ => n
  | none, first :: second :: rest => if (second :: rest).all (· = first) then first else 0
  | none, _ => 0

def reportJump (info : Info) (jump : Builtin) (target : String) : Check Unit :=
  report (.jumpOutside info.loc info.origin jump target)

/-- The values that the operand of a jump must produce; `none` if it is not to be checked. -/
def jumpOperand (info : Info) (jump : Builtin) (operands : List Tree) (cx : JumpContext) :
    Check (Option (Option Nat)) := do
  match jump with
  | .give | .leave =>
    match cx.leave with
    | none =>
      reportJump info jump "`do` or `loop`"
      return none
    | some wanted =>
      match operands, wanted with
      | [], some (n + 1) => report (.jumpWithoutValue info.loc info.origin jump (n + 1))
      | _, _ => pure ()
      return some wanted
  | .nextRound =>
    match cx.nextRound with
    | none =>
      reportJump info jump "`loop`"
      return none
    | some loopVars => return some (some loopVars)
  | .ret =>
    if cx.inFunction then return some (some 1)
    else
      report (.returnOutside info.loc info.origin)
      return none
  | _ => return some (some 1)

/-- What is wanted of a node. -/
inductive Use where
  /-- Values in some number, or in any number. -/
  | produce (expected : Option Nat)
  | receive
  /-- To be an entry of an object literal. -/
  | entry
deriving DecidableEq

/-- What a node has to produce in some use, unless it is only assigned to. -/
def demand? : Use → Symbol → Option (Option Nat)
  | .produce expected, _ => some expected
  | .entry, _ => some (some 1)
  | .receive, .builtin .member | .receive, .builtin .element => some (some 1)
  | .receive, _ => none

mutual

/-- Checks a tree; the result is the number of values with the noted tree. -/
def tree (use : Use) (cx : JumpContext) : Tree → Check (Nat × Tree)
  | .node id info children => do
      match use, info.symbol, children with
      | .entry, .builtin .pair, key :: value :: rest =>
        let (count, value) ← tree (.produce (some 1)) cx value
        return (count, .node id info (key :: value :: rest))
      | use, symbol, children =>
      match demand? use symbol with
      | none =>
        match symbol, children with
        | .builtin .tuple, elements =>
          let elements ← trees .receive cx elements
          return noted id info elements.length elements
        | _, children => return noted id info (width (.node id info children)) children
      | some expected =>
      match symbol, children with
      | .block .root, children => return noted id info 0 (← trees (.produce none) cx children)
      | .block kind, children =>
        let inner := if kind = .doBlock then { cx with leave := some expected } else cx
        match ← statements expected inner children with
        | (none, children) => yields id info expected 0 children
        | (some count, children) => return noted id info (expected.getD count) children
      | .expander _, children => return noted id info (expected.getD 0) children
      | .builtin op, children =>
        if !(← hasOperands info op children) then
          return noted id info (expected.getD 0) children
        match op, children with
        | .assign, [left, right] =>
          let count := width left
          let (_, left) ← tree .receive cx left
          let (_, right) ← tree (.produce (some count)) cx right
          yields id info expected count [left, right]
        -- a clause among the operands: nothing below is checked
        | .assign, children => return noted id info (expected.getD 0) children
        | .tuple, children =>
          let children ← trees (.produce (some 1)) cx children
          yields id info expected children.length children
        | .member, object :: rest =>
          let (_, object) ← tree (.produce (some 1)) cx object
          yields id info expected 1 (object :: rest)
        | .object, children => yields id info expected 1 (← trees .entry cx children)
        | .var, target :: rest => yields id info expected (width target) (target :: rest)
        | .const, target :: rest => yields id info expected (width target) (target :: rest)
        | .external, children => yields id info expected 0 children
        | .fn, params :: body :: rest =>
          let (_, body) ← tree (.produce none)
            { JumpContext.outermost with inFunction := true } body
          yields id info expected 1 (params :: body :: rest)
        | .ifThen, condition :: branch :: rest =>
          let (_, condition) ← tree (.produce (some 1)) cx condition
          if !(branch :: rest).any (·.is .elseClause) && expected.any (0 < ·) then
            report (.ifWithoutElse info.loc info.origin)
            let (_, branch) ← tree (.produce none) cx branch
            return noted id info (expected.getD 0) (condition :: branch :: rest)
          let (first, checked) ← tree (.produce expected) cx branch
          if branch.is .elseClause then
            let (second, checked) ← tree (.produce expected) cx branch
            return noted id info (common expected [first, second]) (condition :: checked :: rest)
          let (others, rest) ← alternative expected cx rest
          return noted id info (common expected (first :: others)) (condition :: checked :: rest)
        | .whileLoop, [condition, body] =>
          let (_, condition) ← tree (.produce (some 1)) cx condition
          let (_, body) ← tree (.produce none) cx body
          yields id info expected 0 [condition, body]
        | .whileLoop, children => yields id info expected 0 children
        | .loop, [body] =>
          let inner := { cx with leave := some expected, nextRound := some 0 }
          let (_, body) ← tree (.produce none) inner body
          return noted id info (expected.getD 0) [body]
        | .loop, [head, body] =>
          let loopVars := ((head.child? 0).map width).getD 0
          let inner := { cx with leave := some expected, nextRound := some loopVars }
          let (_, head) ← tree (.produce none) cx head
          let (_, body) ← tree (.produce none) inner body
          return noted id info (expected.getD 0) [head, body]
        | .loop, children => return noted id info (expected.getD 0) children
        | .tryBlock, children =>
          let (counts, children) ← clauses expected cx children
          return noted id info (common expected counts) children
        | .elseClause, body :: rest =>
          let (count, body) ← tree (.produce expected) cx body
          return noted id info count (body :: rest)
        | .finallyClause, body :: rest =>
          let (count, body) ← tree (.produce expected) cx body
          return noted id info count (body :: rest)
        | .catchClause, param :: body :: rest =>
          let (count, body) ← tree (.produce expected) cx body
          return noted id info count (param :: body :: rest)
        | op, [] =>
          if !op.flags.jump then yields id info expected 1 []
          else
            let _ ← jumpOperand info op [] cx
            return noted id info (expected.getD 0) []
        | op, value :: rest =>
          if !op.flags.jump then
            yields id info expected 1 (← trees (.produce (some 1)) cx (value :: rest))
          else
            match ← jumpOperand info op (value :: rest) cx with
            | none => return noted id info (expected.getD 0) (value :: rest)
            | some wanted =>
              let (_, value) ← tree (.produce wanted) cx value
              return noted id info (expected.getD 0) (value :: rest)
      | _, children => yields id info expected 1 children

def trees (use : Use) (cx : JumpContext) : List Tree → Check (List Tree)
  | [] => return []
  | t :: ts => do
      let (_, t) ← tree use cx t
      return t :: (← trees use cx ts)

/-- Checks statements; the values of the last one, if there is one, count. -/
def statements (expected : Option Nat) (cx : JumpContext) :
    List Tree → Check (Option Nat × List Tree)
  | [] => return (none, [])
  | [last] => do
      let (count, last) ← tree (.produce expected) cx last
      return (some count, [last])
  | t :: next :: ts => do
      let (_, t) ← tree (.produce none) cx t
      let (count, ts) ← statements expected cx (next :: ts)
      return (count, t :: ts)

/-- Checks the first `else` among some trees. -/
def alternative (expected : Option Nat) (cx : JumpContext) :
    List Tree → Check (List Nat × List Tree)
  | [] => return ([], [])
  | t :: ts => do
      if t.is .elseClause then
        let (count, t) ← tree (.produce expected) cx t
        return ([count], t :: ts)
      else
        let (counts, ts) ← alternative expected cx ts
        return (counts, t :: ts)

/-- Checks the parts of a `try`; the values of a `finally` are dropped. -/
def clauses (expected : Option Nat) (cx : JumpContext) :
    List Tree → Check (List Nat × List Tree)
  | [] => return ([], [])
  | t :: ts => do
      if t.is .finallyClause then
        let (_, t) ← tree (.produce none) cx t
        let (counts, ts) ← clauses expected cx ts
        return (counts, t :: ts)
      else
        let (count, t) ← tree (.produce expected) cx t
        let (counts, ts) ← clauses expected cx ts
        return (count :: counts, t :: ts)

end

def root (t : Tree) : Check Tree := do
  let (_, t) ← tree (.produce none) .outermost t
  return t

end Check

end Offside
