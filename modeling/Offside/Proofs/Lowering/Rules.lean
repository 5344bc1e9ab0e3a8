import Offside.Lowering
import Offside.Proofs.Contents.Everywhere
import Offside.Proofs.Program.Parts
import Mathlib.Data.Option.Basic

/-!
# Rules of generation

What generation can make of a tree, as a relation between the state before, the statements and
expressions, and the state behind. A rule says what is made of a node from what is made of its
parts; it leaves open when generation chooses it. So a property of all that the rules can make is
a property of every program.
-/

namespace Offside

theorem Tree.symbol_of_is {id : NodeId} {info : Info} {children : List Tree} {op : Builtin}
    (isOp : (node id info children).is op = true) : info.symbol = .builtin op :=
  Info.symbol_of_is isOp

mutual

/-- The names of a declaration or a target, in order. -/
def Tree.spelled : Tree → List String
  | .node _ info children =>
    match info.symbol, children with
    | .tag _, _ => info.name?.toList
    | .builtin .var, inner :: _ | .builtin .const, inner :: _ => inner.spelled
    | .builtin .tuple, elements => Tree.spelledAll elements
    | _, _ => []

def Tree.spelledAll : List Tree → List String
  | [] => []
  | t :: ts => t.spelled ++ Tree.spelledAll ts

end

namespace Lowering

namespace GenState

def nextTemp (s : GenState) : String :=
  s!"$t{s.temps + 1}"

/-- The state in which one more temporary has been given out. -/
def withTemp (s : GenState) : GenState :=
  { s with temps := s.temps + 1, hosts := s.hosts.modifyHead (·.push s.nextTemp) }

def nextTemps (s : GenState) : Nat → List String
  | 0 => []
  | count + 1 => s.nextTemp :: s.withTemp.nextTemps count

/-- The state in which some more temporaries have been given out. -/
def withTemps (s : GenState) : Nat → GenState
  | 0 => s
  | count + 1 => s.withTemp.withTemps count

def nextLabel (s : GenState) : JumpKind → String
  | .doBlock => s!"do${s.labels + 1}"
  | .loop => s!"loop${s.labels + 1}"

def enter (s : GenState) (target : JumpTarget) : GenState :=
  { s with jumps := target :: s.jumps }

def exit (s : GenState) : GenState :=
  { s with jumps := s.jumps.tail }

def withLabel (s : GenState) : GenState :=
  { s with labels := s.labels + 1 }

def enterHost (s : GenState) : GenState :=
  { s with hosts := #[] :: s.hosts }

def exitHost (s : GenState) : GenState :=
  { s with hosts := s.hosts.tail }

def frame (s : GenState) : List String :=
  (s.hosts.headD #[]).toList

def mark (s : GenState) (label : String) : GenState :=
  { s with
    jumps := s.jumps.map fun t => if t.label = label then { t with used := true } else t }

end GenState

/-! ## Statements -/

def declaring (names : List String) (body : List Stmt) : List Stmt :=
  match names with
  | [] => body
  | names => .decl names :: body

def assigns (names : List String) (es : List Expr) : List Stmt :=
  (names.zip es).map fun pair => .assign pair.1 pair.2

def marked (label : String) (used : Bool) (body : List Stmt) : List Stmt :=
  if used then [.labeled label (.block body)] else [.block body]

/-- The statements of a loop, behind which the loop is left. -/
def leaving (label : String) (body : List Stmt) : List Stmt :=
  if body.getLast?.any Stmt.isTerminal then body else body ++ [.leave (some label)]

def endlessly (label : String) (body : List Stmt) : Stmt :=
  .labeled label (.whileLoop (.literal (.bool true)) (.block (leaving label body)))

/-- A loop behind the declaration and the first assignments of its variables. -/
def looping (label : String) (names : List String) (start body : List Stmt) : List Stmt :=
  match declaring names start with
  | [] => [endlessly label body]
  | start => [.block (start ++ [endlessly label body])]

/-- The statements that hand values to a destination. The values of names may be dropped. -/
inductive Delivered : Dest → List Expr → List Stmt → Prop
  | discard (e : Expr) : Delivered .discard [e] [.expr e]
  | dropped (names : List String) : Delivered .discard (names.map .ident) []
  | ret (e : Expr) : Delivered .ret [e] [.ret (some e)]
  | into {names : List String} {es : List Expr} (fits : names.length = es.length) :
      Delivered (.into names) es (assigns names es)

/-! ## Parts of a node -/

def entryValue (t : Tree) : Tree :=
  match t.is .pair, t.children with
  | true, [_, value] => value
  | _, _ => t

def isNamed (t : Tree) : Bool :=
  t.isTag && t.name?.isSome

/-- Operators whose operands are all computed, and computed as values. -/
def takesValues (children : List Tree) : Builtin → Bool
  | .and | .or | .neg | .not | .element | .call | .new | .array => true
  | .assign => children.head?.any isSingleTarget
  | op => (binaryOp? op).isSome

/-- The nodes from whose values the value of a node is computed. -/
inductive Operands : Tree → List Tree → Prop
  | literal {t} (plain : t.symbol = .value ∨ t.symbol = .nothing) : Operands t []
  | children {t op} (isOp : t.builtin? = some op) (takes : takesValues t.children op) :
      Operands t t.children
  | construction {t call} (isNew : t.is .new) (only : t.children = [call])
      (isCall : call.is .call) : Operands t call.children
  | entries {t} (isObject : t.is .object) : Operands t (t.children.map entryValue)
  | property {t object property} (isMember : t.is .member)
      (parts : t.children = [object, property]) (computed : isNamed property = false) :
      Operands t [object, property]
  | conditional {t condition consequent alternate} (isIf : t.is .ifThen)
      (parts : conditional? t = some (condition, consequent, alternate)) :
      Operands t [condition, consequent, alternate]

theorem exists_of_conditional {t condition consequent alternate : Tree}
    (parts : conditional? t = some (condition, consequent, alternate)) :
    ∃ branch clause other, t.children = [condition, branch, clause] ∧ clause.is .elseClause ∧
      singleValue? branch = some consequent ∧ clause.child? 0 = some other ∧
      singleValue? other = some alternate ∧
      (isPure condition && isPure consequent && isPure alternate) = true := by
  unfold conditional? at parts
  split at parts
  case h_1 first branch clause inside =>
    simp only [Option.bind_eq_bind, Option.bind_eq_some_iff, Option.guard_eq_some'] at parts
    obtain ⟨_, isElse, _, single, _, ⟨other, found, singleOther⟩, _, pure, same⟩ := parts
    cases same
    exact ⟨branch, clause, other, inside, isElse, single, found, singleOther, pure⟩
  case h_2 => cases parts

/-- The targets of an assignment to several of them. -/
inductive Elements : Tree → List Tree → Prop
  | tuple {t : Tree} (isTuple : t.is .tuple) : Elements t t.children
  | declared {t inner : Tree} {rest : List Tree} (declares : t.is .var ∨ t.is .const)
      (parts : t.children = inner :: rest) (isTuple : inner.is .tuple) : Elements t inner.children

/-! ### What a node is opened to -/

end Lowering

namespace Tree

/-- Operators and keywords that neither declare names nor leave a part out. -/
def isOpen : Builtin → Bool
  | .var | .const | .member | .fn | .catchClause | .loop | .pair | .external => false
  | _ => true

theorem eq_of_not_isOpen {op : Builtin} (isClosed : isOpen op = false) :
    op = .var ∨ op = .const ∨ op = .member ∨ op = .fn ∨ op = .catchClause ∨ op = .loop ∨
      op = .pair ∨ op = .external := by
  revert isClosed
  cases op <;> decide

end Tree

namespace Lowering

/-- A node and those parts of it, in order, that hold all that generation looks at. -/
inductive Opens : Tree → List Tree → Prop
  | literal {t} (plain : t.symbol = .value ∨ t.symbol = .nothing) : Opens t []
  | parts {t op} (isOp : t.is op) (simple : Tree.isOpen op) : Opens t t.children
  | entry {t key value} (isPair : t.is .pair) (same : t.children = [key, value]) : Opens t [value]
  | line {t line} (isBlock : t.isBlock .block) (same : t.children = [line])
      (bare : t.info.declaredNames = []) : Opens t [line]
  | member {t object property} (isMember : t.is .member) (same : t.children = [object, property])
      (computed : isNamed property = false) : Opens t [object, property]
  | other {t other} (isElse : t.is .elseClause) (found : t.child? 0 = some other) : Opens t [other]
  | pattern {t inner rest} (declares : t.is .var ∨ t.is .const)
      (same : t.children = inner :: rest) :
      Opens t [inner]

/-- Some nodes, and what is there once some of them have been opened. -/
inductive Unfolds : List Tree → List Tree → Prop
  | nil : Unfolds [] []
  | keep (t : Tree) {ts us : List Tree} (rest : Unfolds ts us) : Unfolds (t :: ts) (t :: us)
  | opened {t : Tree} {parts ts us : List Tree} (opens : Opens t parts)
      (rest : Unfolds (parts ++ ts) us) : Unfolds (t :: ts) us

namespace Unfolds

variable {t : Tree} {parts ts us : List Tree}

theorem refl (ts : List Tree) : Unfolds ts ts := by
  induction ts with
  | nil => exact .nil
  | cons t ts ih => exact .keep t ih

theorem of_opens (opens : Opens t parts) (rest : Unfolds parts us) : Unfolds [t] us :=
  .opened opens (by rwa [List.append_nil])

/-- What a node has passes to all that it is opened to. -/
theorem all {P : Tree → Prop} (unfolds : Unfolds ts us)
    (step : ∀ {t parts}, P t → Opens t parts → ∀ part ∈ parts, P part) (all : ∀ t ∈ ts, P t) :
    ∀ u ∈ us, P u := by
  induction unfolds with
  | nil => exact all
  | keep t _ ih =>
    rw [List.forall_mem_cons] at all ⊢
    exact ⟨all.1, ih all.2⟩
  | opened opens _ ih =>
    rw [List.forall_mem_cons] at all
    exact ih (List.forall_mem_append.mpr ⟨step all.1 opens, all.2⟩)

theorem entryValue (rest : Unfolds ts us) : Unfolds (t :: ts) (entryValue t :: us) := by
  unfold Lowering.entryValue
  split
  case h_1 key value isPair same => exact .opened (.entry isPair same) (.keep value rest)
  case h_2 => exact .keep t rest

theorem singleValue {value : Tree} (single : singleValue? t = some value) (rest : Unfolds ts us) :
    Unfolds (t :: ts) (value :: us) := by
  unfold singleValue? at single
  split at single
  case h_1 line isBlock same =>
    split at single
    case isTrue => cases single
    case isFalse noDecls =>
      cases single
      have bare : t.info.declaredNames = [] := by simpa [hasDeclarations] using noDecls
      exact .opened (.line (decide_eq_true (congrArg Symbol.block? isBlock)) same bare)
        (.keep value rest)
  case h_2 => cases single
  case h_3 =>
    cases single
    exact .keep t rest

end Unfolds

theorem Operands.unfolds {t : Tree} {ts : List Tree} (operands : Operands t ts) :
    Unfolds [t] ts := by
  cases operands with
  | literal plain => exact .of_opens (.literal plain) .nil
  | @children op isOp takes =>
    refine .of_opens (.parts (decide_eq_true isOp) ?_) (.refl _)
    cases op <;> first | rfl | cases takes
  | construction isNew only isCall =>
    refine .of_opens (.parts isNew rfl) ?_
    rw [only]
    exact .of_opens (.parts isCall rfl) (.refl _)
  | entries isObject =>
    refine .of_opens (.parts isObject rfl) ?_
    induction t.children with
    | nil => exact .nil
    | cons entry rest ih => exact ih.entryValue
  | property isMember same computed => exact .of_opens (.member isMember same computed) (.refl _)
  | conditional isIf parts =>
    obtain ⟨branch, clause, other, inside, isElse, single, found, singleOther, _⟩ :=
      exists_of_conditional parts
    refine .of_opens (.parts isIf rfl) ?_
    rw [inside]
    refine .keep _ (.singleValue single (.of_opens (.other isElse found) ?_))
    exact .singleValue singleOther .nil

theorem Elements.unfolds {t : Tree} {ts : List Tree} (elements : Elements t ts) :
    Unfolds [t] ts := by
  cases elements with
  | tuple isTuple => exact .of_opens (.parts isTuple rfl) (.refl _)
  | declared declares same isTuple =>
    exact .of_opens (.pattern declares same) (.of_opens (.parts isTuple rfl) (.refl _))

/-! ### Targets and lines -/

/-- The targets of an assignment to several of them; any other target is alone. -/
def targets (left : Tree) : List Tree :=
  match left.builtin?, left.children with
  | some .tuple, elements => elements
  | some .var, inner :: _ | some .const, inner :: _ => inner.children
  | _, _ => [left]

/-- The number of values that are assigned to a target. -/
def received (left : Tree) : Nat :=
  if isSingleTarget left then 1 else (targets left).length

def TakesNames (t : Tree) : Prop :=
  t.isTag ∨ t.is .var ∨ t.is .const ∨ t.is .tuple ∧ ∀ element ∈ t.children, element.isTag

theorem Elements.takesNames {t : Tree} {ts : List Tree} (several : Elements t ts)
    (tags : ∀ element ∈ ts, element.isTag) : TakesNames t := by
  cases several with
  | tuple isTuple => exact .inr (.inr (.inr ⟨isTuple, tags⟩))
  | declared declares => exact .inr (declares.imp_right .inl)

/-- The lines of a block with their destinations: the last one has that of the block. -/
def lines (dest : Dest) : List Tree → List (Tree × Dest)
  | [] => []
  | [last] => [(last, dest)]
  | t :: next :: ts => (t, .discard) :: lines dest (next :: ts)

/-- Decides whether the values of a node are computed first and then handed to a destination. -/
def isHanded (dest : Dest) (t : Tree) : Bool :=
  match t.symbol with
  | .builtin .tuple => dest ≠ .discard
  | .builtin .ifThen => isPure t
  | .block _ | .builtin .whileLoop | .builtin .loop | .builtin .tryBlock | .builtin .external =>
    false
  | symbol => !symbol.flags.jump

/-! ## Rules -/

/-- What has to be generated. -/
inductive Task where
  /-- The values of some nodes. -/
  | values (trees : List Tree)
  /-- Some nodes, one behind the other, each for its destination. -/
  | runs (jobs : List (Tree × Dest))
  /-- A branch or a body. -/
  | body (t : Tree) (dest : Dest)
  /-- What stands behind an `else`. -/
  | other (t : Tree) (dest : Dest)
  /-- A host around something. -/
  | hosted (host : Info) (inner : Task)
  /-- Assignments of temporaries to targets. -/
  | targets (pairs : List (Tree × String))
  /-- A `try` with some of its clauses. -/
  | tried (code : Tree) (dest : Dest) (clauses : List Tree)

abbrev Task.run (t : Tree) (dest : Dest) : Task := .runs [(t, dest)]

/-- What can be generated for a task in a state, and the state behind it. -/
inductive Made : Task → GenState → List Stmt → List Expr → GenState → Prop
  -- values
  | noValues (s : GenState) : Made (.values []) s [] [] s
  | moreValues {ts us s s₁ s₂ a b es fs}
      (first : Made (.values ts) s a es s₁) (rest : Made (.values us) s₁ b fs s₂) :
      Made (.values (ts ++ us)) s (a ++ b) (es ++ fs) s₂
  | spilled {ts s s₁ a es fs e}
      (values : Made (.values ts) s a (es ++ e :: fs) s₁) :
      Made (.values ts) s (a ++ [.assign s₁.nextTemp e]) (es ++ .ident s₁.nextTemp :: fs)
        s₁.withTemp
  | valuePlaced {t s s₁ a e} (span : Span)
      (value : Made (.values [t]) s a [e] s₁) : Made (.values [t]) s a [e.withSpan span] s₁
  | through {t s s₁ a} (noExpression : isExpression t = false)
      (run : Made (.run t (.into [s.nextTemp])) s.withTemp a [] s₁) :
      Made (.values [t]) s a [.ident s.nextTemp] s₁
  | name {t name} (s : GenState) (isTag : t.isTag) (named : t.name? = some name) :
      Made (.values [t]) s [] [.ident name] s
  | declared {t inner rest name} (s : GenState)
      (declares : t.is .var ∨ t.is .const) (parts : t.children = inner :: rest)
      (named : inner.name? = some name) : Made (.values [t]) s [] [.ident name] s
  | composed {t ts s s₁ a es e} (operands : Operands t ts) (values : Made (.values ts) s a es s₁)
      (composed : e.Composed es) : Made (.values [t]) s a [e] s₁
  | property {t object property name s s₁ a e}
      (isMember : t.is .member) (parts : t.children = [object, property])
      (isTag : property.isTag) (named : property.name? = some name)
      (value : Made (.values [object]) s a [e] s₁) :
      Made (.values [t]) s a [.member e (.ident name) false] s₁
  | lazily {t left right s s₁ s₂ a b e f test}
      (isLogical : t.is .and ∨ t.is .or) (parts : t.children = [left, right])
      (first : Made (.values [left]) s a [e] s₁)
      (second : Made (.values [right]) s₁.withTemp b [f] s₂)
      (tests : test = .ident s₁.nextTemp ∨ test = .unary .not (.ident s₁.nextTemp)) :
      Made (.values [t]) s
        (a ++ [.assign s₁.nextTemp e,
          .ifThen test (.block (b ++ [.assign s₁.nextTemp f])) none])
        [.ident s₁.nextTemp] s₂
  | function {t params code dest s s₁ body}
      (isFunction : t.is .fn) (parts : t.children = [params, code])
      (returns : dest = .ret ∨ dest = .discard)
      (inner : Made (.hosted t.info (.body code dest)) { s with jumps := [] } body [] s₁) :
      Made (.values [t]) s [] [.function params.spelled body] { s₁ with jumps := s.jumps }
  | elements {t s s₁ a es} (isTuple : t.is .tuple)
      (values : Made (.values t.children) s a es s₁) : Made (.values [t]) s a es s₁
  | assigned {t left right names s s₁ a}
      (isAssign : t.is .assign) (parts : t.children = [left, right])
      (takes : TakesNames left ∧ names.length = received left)
      (spelled : ∀ name ∈ names, name ∈ left.spelled)
      (run : Made (.run right (.into names)) s a [] s₁) :
      Made (.values [t]) s a (names.map .ident) s₁
  | assignedThrough {t left right elements s s₁ s₂ a b}
      (isAssign : t.is .assign) (parts : t.children = [left, right])
      (several : Elements left elements)
      (run : Made (.run right (.into (s.nextTemps elements.length)))
        (s.withTemps elements.length) a [] s₁)
      (copies : Made (.targets (elements.zip (s.nextTemps elements.length))) s₁ b [] s₂) :
      Made (.values [t]) s (a ++ b) ((s.nextTemps elements.length).map .ident) s₂
  | noTargets (s : GenState) : Made (.targets []) s [] [] s
  | moreTargets {t temp pairs s s₁ s₂ a b place} (target : Made (.values [t]) s a [place] s₁)
      (rest : Made (.targets pairs) s₁ b [] s₂) :
      Made (.targets ((t, temp) :: pairs)) s (a ++ .expr (.assign place (.ident temp)) :: b) [] s₂
  -- statements
  | noRuns (s : GenState) : Made (.runs []) s [] [] s
  | moreRuns {job jobs s s₁ s₂ a b}
      (first : Made (.runs [job]) s a [] s₁) (rest : Made (.runs jobs) s₁ b [] s₂) :
      Made (.runs (job :: jobs)) s (a ++ b) [] s₂
  | placed {t dest s s₁ a} (span : Span)
      (run : Made (.run t dest) s a [] s₁) :
      Made (.run t dest) s (a.map (Stmt.withSpan span)) [] s₁
  | delivered {t dest s s₁ a b es}
      (values : Made (.values [t]) s a es s₁) (delivered : Delivered dest es b ∧ isHanded dest t) :
      Made (.run t dest) s (a ++ b) [] s₁
  | silent {t} (dest : Dest) (s : GenState)
      (isSilent : t.is .external ∨ dest = .discard ∧ (t.is .var ∨ t.is .const)) :
      Made (.run t dest) s [] [] s
  | dropped {t s s₁ a} (isTuple : t.is .tuple)
      (runs : Made (.runs (t.children.map (·, .discard))) s a [] s₁) :
      Made (.run t .discard) s a [] s₁
  | alone {t element name s s₁ a} (isTuple : t.is .tuple)
      (only : t.children = [element]) (run : Made (.run element (.into [name])) s a [] s₁) :
      Made (.run t (.into [name])) s a [] s₁
  | returned {t value rest dest s s₁ a e}
      (isReturn : t.is .ret) (parts : t.children = value :: rest)
      (value : Made (.values [value]) s a [e] s₁) :
      Made (.run t dest) s (a ++ [.ret (some e)]) [] s₁
  | returnedNothing {t} (dest : Dest) (s : GenState) (isReturn : t.is .ret)
      (parts : t.children = []) : Made (.run t dest) s [.ret none] [] s
  | thrown {t value rest dest s s₁ a e} (isThrow : t.is .throw) (parts : t.children = value :: rest)
      (value : Made (.values [value]) s a [e] s₁) : Made (.run t dest) s (a ++ [.throw e]) [] s₁
  | block {t dest s s₁ a} (isBlock : t.isBlock .block)
      (inner : Made (.hosted t.info (.runs (lines dest t.children))) s a [] s₁) :
      Made (.run t dest) s [.block a] [] s₁
  | hosted {host inner s s₁ a}
      (inside : Made inner s.enterHost a [] s₁) :
      Made (.hosted host inner) s (declaring (host.declaredNames ++ s₁.frame) a) [] s₁.exitHost
  | bodyBlock {t dest s s₁ a} (isBlock : t.isBlock .block)
      (inner : Made (.hosted t.info (.runs (lines dest t.children))) s a [] s₁) :
      Made (.body t dest) s a [] s₁
  | bodyLine {t dest s s₁ a}
      (run : Made (.run t dest) s a [] s₁) : Made (.body t dest) s a [] s₁
  -- choices and loops
  | chosen {t condition branch rest dest s s₁ s₂ a b test} (isIf : t.is .ifThen)
      (parts : t.children = condition :: branch :: rest)
      (noElse : rest.find? (·.is .elseClause) = none)
      (first : Made (.values [condition]) s a [test] s₁)
      (second : Made (.body branch dest) s₁ b [] s₂) :
      Made (.run t dest) s (a ++ [.ifThen test (.block b) none]) [] s₂
  | chosenElse {t condition branch clause inner rest more dest s s₁ s₂ s₃ a b test alternate}
      (isIf : t.is .ifThen)
      (parts : t.children = condition :: branch :: rest)
      (found : rest.find? (·.is .elseClause) = some clause)
      (inside : clause.children = inner :: more)
      (first : Made (.values [condition]) s a [test] s₁)
      (second : Made (.body branch dest) s₁ b [] s₂)
      (third : Made (.other inner dest) s₂ [alternate] [] s₃) :
      Made (.run t dest) s (a ++ [.ifThen test (.block b) (some alternate)]) [] s₃
  | otherBlock {t dest s s₁ a}
      (body : Made (.body t dest) s a [] s₁) : Made (.other t dest) s [.block a] [] s₁
  | otherOnly {t dest s s₁ only}
      (run : Made (.run t dest) s [only] [] s₁) : Made (.other t dest) s [only] [] s₁
  | whilst {t condition code dest s s₁ s₂ a b test}
      (isWhile : t.is .whileLoop) (parts : t.children = [condition, code])
      (first : Made (.values [condition]) s a [test] s₁)
      (second : Made (.body code .discard) s₁ b [] s₂) :
      Made (.run t dest) s (a ++ [.whileLoop test (.block b)]) [] s₂
  | whilstTrue {t condition code dest s s₁ s₂ a b test}
      (isWhile : t.is .whileLoop) (parts : t.children = [condition, code])
      (first : Made (.values [condition]) s a [test] s₁)
      (second : Made (.body code .discard) s₁ b [] s₂) :
      Made (.run t dest) s
        [.whileLoop (.literal (.bool true))
          (.block (a ++ [.ifThen (.unary .not test) (.leave none) none] ++ b))] [] s₂
  | doBlock {t dest s s₁ a} (isDo : t.isBlock .doBlock)
      (inner : Made (.hosted t.info (.runs (lines dest t.children)))
        (s.withLabel.enter ⟨.doBlock, s.nextLabel .doBlock, dest, [], false⟩) a [] s₁) :
      Made (.run t dest) s
        (marked (s.nextLabel .doBlock) (s₁.jumps.head?.any JumpTarget.used) a) [] s₁.exit
  | endless {t code dest s s₁ a} (isLoop : t.is .loop)
      (parts : t.children = [code])
      (inner : Made (.body code .discard)
        (s.withLabel.enter ⟨.loop, s.nextLabel .loop, dest, [], false⟩) a [] s₁) :
      Made (.run t dest) s (looping (s.nextLabel .loop) t.info.declaredNames [] a) [] s₁.exit
  | started {t head names init code dest s s₁ s₂ a b}
      (isLoop : t.is .loop) (parts : t.children = [head, code])
      (starts : head.children = [names, init])
      (first : Made (.run init (.into names.spelled)) s.withLabel a [] s₁)
      (inner : Made (.body code .discard)
        (s₁.enter ⟨.loop, s.nextLabel .loop, dest, names.spelled, false⟩) b [] s₂) :
      Made (.run t dest) s (looping (s.nextLabel .loop) t.info.declaredNames a b) [] s₂.exit
  | startedOutside {t head names init code dest s s₁ s₂ a b}
      (isLoop : t.is .loop) (parts : t.children = [head, code])
      (starts : head.children = [names, init])
      (first : Made (.run init (.into (s.withLabel.nextTemps names.spelled.length)))
        (s.withLabel.withTemps names.spelled.length) a [] s₁)
      (inner : Made (.body code .discard)
        (s₁.enter ⟨.loop, s.nextLabel .loop, dest, names.spelled, false⟩) b [] s₂) :
      Made (.run t dest) s
        (a ++ looping (s.nextLabel .loop) t.info.declaredNames
          (assigns names.spelled ((s.withLabel.nextTemps names.spelled.length).map .ident)) b)
        [] s₂.exit
  -- clauses
  | tried {t code clauses dest s s₁ a}
      (isTry : t.is .tryBlock) (parts : t.children = code :: clauses)
      (whole : Made (.tried code dest clauses) s a [] s₁) : Made (.run t dest) s a [] s₁
  | tryCode {code dest s s₁ a}
      (body : Made (.body code dest) s a [] s₁) :
      Made (.tried code dest []) s [.tryBlock a none none] [] s₁
  | tryCatch {code clause param inner clauses dest s s₁ s₂ a b handler finalizer name}
      (isCatch : clause.is .catchClause)
      (parts : clause.children = [param, inner]) (spelled : param.spelled = name.toList)
      (before : Made (.tried code dest clauses) s [.tryBlock a handler finalizer] [] s₁)
      (body : Made (.hosted clause.info (.body inner dest)) s₁ b [] s₂) :
      Made (.tried code dest (clauses ++ [clause])) s
        [.tryBlock a (some (.mk name b)) finalizer] [] s₂
  | tryFinally {code clause inner clauses dest s s₁ s₂ a b handler finalizer}
      (isFinally : clause.is .finallyClause)
      (parts : clause.children = [inner])
      (before : Made (.tried code dest clauses) s [.tryBlock a handler finalizer] [] s₁)
      (body : Made (.body inner .discard) s₁ b [] s₂) :
      Made (.tried code dest (clauses ++ [clause])) s
        [.tryBlock a handler (some b)] [] s₂
  -- jumps
  | given {t target outer dest s s₁ a} (isGive : t.is .give) (nearest : s.jumps = target :: outer)
      (values : Made (.runs ((t.children.take 1).map (·, target.results))) s a [] s₁) :
      Made (.run t dest) s (a ++ [.leave (some target.label)]) [] (s₁.mark target.label)
  | givenBack {t target outer dest s s₁ a}
      (isGive : t.is .give) (nearest : s.jumps = target :: outer)
      (returns : target.results = .ret)
      (values : Made (.runs ((t.children.take 1).map (·, .ret))) s a [] s₁) :
      Made (.run t dest) s a [] s₁
  | next {t target inner dest s s₁ a}
      (isNext : t.is .nextRound) (nearest : s.jumps.find? (·.kind = .loop) = some target)
      (takes : inner = if target.loopVars.isEmpty then .discard else .into target.loopVars)
      (values : Made (.runs ((t.children.take 1).map (·, inner))) s a [] s₁) :
      Made (.run t dest) s (a ++ [.next (some target.label)]) [] (s₁.mark target.label)
  | left {t target outer} (dest : Dest) (s : GenState)
      (isLeave : t.is .leave) (nearest : s.jumps = target :: outer) :
      Made (.run t dest) s [.leave (some target.label)] [] (s.mark target.label)

end Lowering

end Offside
