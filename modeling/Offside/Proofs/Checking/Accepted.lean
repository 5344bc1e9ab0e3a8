import Offside.Proofs.Lowering.Source

/-!
# Trees that pass the check

A tree is accepted for a use if each of its nodes has the operands that it takes, produces as many
values as are needed where it stands, and each jump in it has its target.
-/

namespace Offside

namespace Check

/-- As many values are produced as are needed. -/
def Meets (expected : Option Nat) (actual : Nat) : Prop :=
  ∀ wanted, expected = some wanted → wanted = actual

/-- The number of values that is needed of each line of a block. -/
def lines (expected : Option Nat) : List Tree → List (Tree × Option Nat)
  | [] => []
  | [last] => [(last, expected)]
  | t :: next :: ts => (t, none) :: lines expected (next :: ts)

/-- Operators that take one value of each operand and produce one. -/
def isSimple : Builtin → Bool
  | .assign | .tuple | .member | .object | .var | .const | .external | .fn | .ifThen | .whileLoop
  | .loop | .tryBlock | .elseClause | .finallyClause | .catchClause | .give | .nextRound | .leave
  | .ret | .throw => false
  | _ => true

/-- As many operands as an operator takes; clauses do not count. -/
def Operands (op : Builtin) (children : List Tree) : Prop :=
  op.arity.sequence = true ∨
    op.arity.minOperands ≤ (children.filter fun c => !c.symbol.isClause).length ∧
      (children.filter fun c => !c.symbol.isClause).length ≤ op.arity.maxOperands

variable (strict : Prop)

/--
A tree can be used in some way, inside of what jumps can leave. Strictly, what has no value stands
only where none is needed.
-/
inductive Accepts : Use → JumpContext → Tree → Prop
  -- values
  | leaf {expected cx t}
      (isLeaf : t.symbol = .value ∨ ∃ kind, t.symbol = .tag kind) (one : Meets expected 1) :
      Accepts (.produce expected) cx t
  | operator {expected cx t op}
      (isOp : t.symbol = .builtin op) (simple : isSimple op = true)
      (takes : Operands op t.children) (one : Meets expected 1)
      (operands : ∀ child ∈ t.children, Accepts (.produce (some 1)) cx child) :
      Accepts (.produce expected) cx t
  | member {expected cx t object property}
      (isMember : t.symbol = .builtin .member) (parts : t.children = [object, property])
      (one : Meets expected 1) (inner : Accepts (.produce (some 1)) cx object) :
      Accepts (.produce expected) cx t
  | object {expected cx t}
      (isObject : t.symbol = .builtin .object) (one : Meets expected 1)
      (entries : ∀ entry ∈ t.children, Accepts .entry cx entry) : Accepts (.produce expected) cx t
  | function {expected cx t params code}
      (isFunction : t.symbol = .builtin .fn) (parts : t.children = [params, code])
      (one : Meets expected 1)
      (inner : Accepts (.produce none) { JumpContext.outermost with inFunction := true } code) :
      Accepts (.produce expected) cx t
  | tuple {expected cx t} (isTuple : t.symbol = .builtin .tuple)
      (count : Meets expected t.children.length)
      (elements : ∀ child ∈ t.children, Accepts (.produce (some 1)) cx child) :
      Accepts (.produce expected) cx t
  -- declarations and assignments
  | declaration {expected cx t inner op}
      (isOp : t.symbol = .builtin op) (declares : op = .var ∨ op = .const)
      (parts : t.children = [inner]) (count : Meets expected (width inner)) :
      Accepts (.produce expected) cx t
  | external {expected cx t}
      (isExternal : t.symbol = .builtin .external) (valueless : strict → Meets expected 0) :
      Accepts (.produce expected) cx t
  | assign {expected cx t left right}
      (isAssign : t.symbol = .builtin .assign) (parts : t.children = [left, right])
      (count : Meets expected (width left)) (target : Accepts .receive cx left)
      (value : Accepts (.produce (some (width left))) cx right) : Accepts (.produce expected) cx t
  -- blocks
  | root {expected cx t} (isRoot : t.symbol = .block .root)
      (lines : ∀ line ∈ t.children, Accepts (.produce none) cx line) :
      Accepts (.produce expected) cx t
  | block {expected cx t} (isBlock : t.symbol = .block .block)
      (filled : strict → t.children = [] → Meets expected 0)
      (lines : ∀ job ∈ lines expected t.children, Accepts (.produce job.2) cx job.1) :
      Accepts (.produce expected) cx t
  | doBlock {expected cx t} (isDo : t.symbol = .block .doBlock)
      (filled : strict → t.children = [] → Meets expected 0)
      (lines : ∀ job ∈ lines expected t.children,
        Accepts (.produce job.2) { cx with leave := some expected } job.1) :
      Accepts (.produce expected) cx t
  -- choices, loops and handlers
  | choice {expected cx t condition branch rest}
      (isIf : t.symbol = .builtin .ifThen) (parts : t.children = condition :: branch :: rest)
      (complete : strict → expected.any (0 < ·) = true →
        (rest.find? (·.is .elseClause)).isSome = true)
      (filled : ∀ clause, rest.find? (·.is .elseClause) = some clause →
        ∃ code, clause.children = [code])
      (test : Accepts (.produce (some 1)) cx condition)
      (consequent : Accepts (.produce expected) cx branch)
      (others : ∀ clause code, rest.find? (·.is .elseClause) = some clause →
        clause.children = [code] → Accepts (.produce expected) cx code) :
      Accepts (.produce expected) cx t
  | whileLoop {expected cx t condition code}
      (isWhile : t.symbol = .builtin .whileLoop) (parts : t.children = [condition, code])
      (valueless : strict → Meets expected 0)
      (test : Accepts (.produce (some 1)) cx condition) (inner : Accepts (.produce none) cx code) :
      Accepts (.produce expected) cx t
  | endless {expected cx t code}
      (isLoop : t.symbol = .builtin .loop) (parts : t.children = [code])
      (inner : Accepts (.produce none)
        { cx with leave := some expected, nextRound := some 0 } code) :
      Accepts (.produce expected) cx t
  | loop {expected cx t head code}
      (isLoop : t.symbol = .builtin .loop) (parts : t.children = [head, code])
      (first : Accepts (.produce none) cx head)
      (inner : Accepts (.produce none)
        { cx with leave := some expected, nextRound := some (((head.child? 0).map width).getD 0) }
        code) :
      Accepts (.produce expected) cx t
  | tryBlock {expected cx t code clauses}
      (isTry : t.symbol = .builtin .tryBlock) (parts : t.children = code :: clauses)
      (shapes : ∀ clause ∈ clauses,
        clause.symbol = .builtin .catchClause ∧ (∃ param body, clause.children = [param, body]) ∨
        clause.symbol = .builtin .finallyClause ∧ ∃ body, clause.children = [body])
      (inner : Accepts (.produce expected) cx code)
      (handlers : ∀ clause ∈ clauses, ∀ param body, clause.children = [param, body] →
        Accepts (.produce expected) cx body)
      (finalizers : ∀ clause ∈ clauses, ∀ body, clause.children = [body] →
        Accepts (.produce none) cx body) :
      Accepts (.produce expected) cx t
  -- jumps
  | give {expected wanted cx t}
      (isGive : t.symbol = .builtin .give) (nearest : cx.leave = some wanted)
      (brings : strict → t.children = [] → wanted.any (0 < ·) = false)
      (values : ∀ value, t.children.head? = some value → Accepts (.produce wanted) cx value) :
      Accepts (.produce expected) cx t
  | nextRound {expected cx t count}
      (isNext : t.symbol = .builtin .nextRound) (nearest : cx.nextRound = some count)
      (values : ∀ value, t.children.head? = some value → Accepts (.produce (some count)) cx value) :
      Accepts (.produce expected) cx t
  | leave {expected wanted cx t}
      (isLeave : t.symbol = .builtin .leave) (nearest : cx.leave = some wanted)
      (brings : strict → t.children = [] → wanted.any (0 < ·) = false) :
      Accepts (.produce expected) cx t
  | ret {expected cx t} (isReturn : t.symbol = .builtin .ret)
      (values : ∀ value, t.children.head? = some value → Accepts (.produce (some 1)) cx value) :
      Accepts (.produce expected) cx t
  | throw {expected cx t value}
      (isThrow : t.symbol = .builtin .throw) (parts : t.children = [value])
      (inner : Accepts (.produce (some 1)) cx value) : Accepts (.produce expected) cx t
  -- what the check does not look into
  | invocation {expected cx t m}
      (isMacro : t.symbol = .expander m) : Accepts (.produce expected) cx t
  | stray {expected cx t} (isClause : t.symbol.isClause = true) :
      Accepts (.produce expected) cx t
  -- targets
  | targets {cx t} (isTuple : t.symbol = .builtin .tuple)
      (elements : ∀ child ∈ t.children, Accepts .receive cx child) : Accepts .receive cx t
  | place {cx t op} (isOp : t.symbol = .builtin op)
      (computed : op = .member ∨ op = .element) (value : Accepts (.produce (some 1)) cx t) :
      Accepts .receive cx t
  | given {cx t}
      (other : ∀ op ∈ [Builtin.tuple, .member, .element], t.symbol ≠ .builtin op) :
      Accepts .receive cx t
  -- entries
  | pair {cx t key value} (isPair : t.symbol = .builtin .pair)
      (parts : t.children = [key, value]) (inner : Accepts (.produce (some 1)) cx value) :
      Accepts .entry cx t
  | bare {cx t} (noPair : t.symbol ≠ .builtin .pair)
      (value : Accepts (.produce (some 1)) cx t) : Accepts .entry cx t

end Check

end Offside
