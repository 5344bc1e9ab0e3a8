import Mathlib.Logic.Relation
import Offside.Proofs.Lowering.Growth
import Offside.Proofs.Tree.Height
import Offside.Proofs.Tree.Patterns

/-!
# Spots

A spot is a tree together with where its values go and with the targets of jumps around it, as
generation comes to it. Of the state of generation only the targets of jumps decide whether
generation ends, and of a destination only how many values it takes. A spot blocks generation if it
does not fit, or one of its parts blocks it.
-/

namespace Offside

open List

namespace Tree

abbrev Under (inner outer : Tree) : Prop :=
  Relation.TransGen (fun child t : Tree => child ∈ t.children) inner outer

theorem Under.height_lt {inner outer : Tree} (under : Under inner outer) :
    inner.height < outer.height := by
  induction under with
  | single member => exact height_lt_of_mem member
  | tail _ member ih => exact Nat.lt_trans ih (height_lt_of_mem member)

end Tree

namespace Lowering

open Offside.Tree (Under)

/-! ## Sinks and aims -/

/-- Where values go, without the names. -/
inductive Sink where
  | dropped
  /-- So many values are assigned to names. -/
  | into (count : Nat)
  | returned
deriving DecidableEq

abbrev Sink.one : Sink := .into 1

/-- Decides whether a sink takes so many values. -/
def Sink.admits (count : Nat) : Sink → Bool
  | .into wanted => wanted = count
  | _ => true

def Dest.sink : Dest → Sink
  | .discard => .dropped
  | .into names => .into names.length
  | .ret => .returned

/-- What a jump has to know of its target. -/
structure Aim where
  kind : JumpKind
  results : Sink
  /-- The number of variables that `next` assigns. -/
  loopVars : Nat
deriving DecidableEq

def Aim.round (aim : Aim) : Sink :=
  if aim.loopVars = 0 then .dropped else .into aim.loopVars

def JumpTarget.aim (target : JumpTarget) : Aim :=
  ⟨target.kind, target.results.sink, target.loopVars.length⟩

/-- What jumps have to know of the targets around them, the innermost one first. -/
def GenState.aims (s : GenState) : List Aim :=
  s.jumps.map JumpTarget.aim

/-! ## Parts of a node -/

/-- Decides whether a node can be assigned a single value. -/
def isPlace (t : Tree) : Bool :=
  isNamed t || (t.is .var || t.is .const) && t.children.head?.any isNamed || t.is .member ||
    t.is .element

def entryKey (t : Tree) : Tree :=
  match t.is .pair, t.children with
  | true, [key, _] => key
  | _, _ => t

def isKey (t : Tree) : Bool :=
  match t.info.value with
  | some (.name _) | some (.str _) | some (.number _) => true
  | _ => false

def isLiteral (t : Tree) : Bool :=
  match t.info.value with
  | some (.number _) | some (.str _) | some (.bool _) | some .null => true
  | _ => false

/-- The lines of a block with their sinks: the last one has that of the block. -/
def flows (sink : Sink) : List Tree → List (Tree × Sink)
  | [] => []
  | [last] => [(last, sink)]
  | t :: next :: ts => (t, .dropped) :: flows sink (next :: ts)

/-- Where the value of the last statement of a function goes. -/
def functionSink (code : Tree) : Sink :=
  (Below.functionDest code).sink

/-- Decides whether an operator computes its value from so many operands. -/
def takesOperands (op : Builtin) (count : Nat) : Bool :=
  match op with
  | .and | .or | .element => count = 2
  | .neg | .not => count = 1
  | .call => 0 < count
  | .array => true
  | op => (binaryOp? op).isSome && count = 2

/-- Decides whether a node is a handler of at most one name, or a finalizer. -/
def isTryClause (clause : Tree) : Bool :=
  match clause.builtin?, clause.children with
  | some .catchClause, [param, _] => param.isPattern && param.spelled.length ≤ 1
  | some .finallyClause, [_] => true
  | _, _ => false

def computed? (t : Tree) : Option Tree :=
  match t.symbol, t.children with
  | .builtin .member, [_, property] => if isNamed property then none else some property
  | _, _ => none

/-- The body of a clause of a `try`. The values of a handler go where those of the `try` go. -/
def clauseBody? (sink : Sink) (clause : Tree) : Option (Sink × Tree) :=
  match clause.children with
  | [_, body] => some (sink, body)
  | [body] => some (.dropped, body)
  | _ => none

/-- A tree where generation comes to it. -/
structure Spot where
  /-- Where the values of the tree go. -/
  sink : Sink
  /-- What jumps can leave, the innermost one first. -/
  aims : List Aim
  tree : Tree

namespace Spot

def parts (spot : Spot) : List Spot :=
  let part (sink : Sink) (t : Tree) : Spot := ⟨sink, spot.aims, t⟩
  let inside (aim : Aim) (sink : Sink) (t : Tree) : Spot := ⟨sink, aim :: spot.aims, t⟩
  match spot.tree.symbol, spot.tree.children with
  | .block .doBlock, lines =>
    (flows spot.sink lines).map fun job => inside ⟨.doBlock, spot.sink, 0⟩ job.2 job.1
  | .block _, lines => (flows spot.sink lines).map fun job => part job.2 job.1
  | .builtin .member, [object, _] =>
    part .one object :: (computed? spot.tree).toList.map (part .one)
  | .builtin .object, entries => entries.map fun entry => part .one (entryValue entry)
  | .builtin .fn, [_, code] => [⟨functionSink code, [], code⟩]
  | .builtin .var, _ | .builtin .const, _ | .builtin .external, _ => []
  | .builtin .assign, [left, right] =>
    if isSingleTarget left then [part .one left, part .one right]
    else part (.into (targets left).length) right :: (targets left).map (part .one)
  | .builtin .tuple, elements =>
    elements.map (part (if spot.sink = .dropped then .dropped else .one))
  | .builtin .ifThen, condition :: branch :: rest =>
    part .one condition :: part spot.sink branch ::
      ((rest.find? (·.is .elseClause)).bind (·.children.head?)).toList.map (part spot.sink)
  | .builtin .whileLoop, [condition, code] => [part .one condition, part .dropped code]
  | .builtin .loop, [code] => [inside ⟨.loop, spot.sink, 0⟩ .dropped code]
  | .builtin .loop, [.node _ _ [names, init], code] =>
    let count := names.spelled.length
    [part (.into count) init, inside ⟨.loop, spot.sink, count⟩ .dropped code]
  | .builtin .tryBlock, code :: clauses =>
    part spot.sink code ::
      (clauses.filterMap (clauseBody? spot.sink)).map fun job => part job.1 job.2
  | .builtin .give, value :: _ => spot.aims.head?.toList.map fun aim => part aim.results value
  | .builtin .nextRound, value :: _ =>
    (spot.aims.find? (·.kind = .loop)).toList.map fun aim => part aim.round value
  | .builtin .ret, value :: _ | .builtin .throw, value :: _ => [part .one value]
  | .builtin _, children => children.map (part .one)
  | _, _ => []

/--
Decides whether generation can do with a node what it has to do at a spot, but for the parts of the
node.
-/
def isFit (spot : Spot) : Bool :=
  match spot.tree.symbol, spot.tree.children with
  -- values
  | .value, _ => isLiteral spot.tree && spot.sink.admits 1
  | .tag _, _ => spot.tree.name?.isSome && spot.sink.admits 1
  | .nothing, _ => spot.sink.admits 1
  | .builtin .object, entries => entries.all (isKey ∘ entryKey) && spot.sink.admits 1
  | .builtin .fn, [params, _] => params.isPattern && spot.sink.admits 1
  | .builtin .member, [_, _] | .builtin .new, [_] => spot.sink.admits 1
  -- declarations and assignments
  | .builtin .var, names | .builtin .const, names =>
    spot.sink = .dropped || names.head?.any isNamed && spot.sink.admits 1
  | .builtin .assign, [left, _] =>
    if isSingleTarget left then isPlace left && spot.sink.admits 1
    else (targets left).all isPlace && spot.sink.admits (targets left).length &&
      spot.sink ≠ .returned
  | .builtin .tuple, elements => spot.sink.admits elements.length && spot.sink ≠ .returned
  -- blocks, choices, loops and handlers
  | .block .block, _ | .block .doBlock, _ | .builtin .external, _ => true
  | .builtin .ifThen, _ :: _ :: rest =>
    (rest.find? (·.is .elseClause)).all (!·.children.isEmpty)
  | .builtin .whileLoop, [_, _] | .builtin .loop, [_] => true
  | .builtin .loop, [.node _ _ [names, _], _] => names.isPattern
  | .builtin .tryBlock, _ :: clauses => clauses.all isTryClause
  -- jumps
  | .builtin .give, _ | .builtin .leave, _ => !spot.aims.isEmpty
  | .builtin .nextRound, _ => spot.aims.any (·.kind = .loop)
  | .builtin .ret, _ | .builtin .throw, _ :: _ => true
  -- operators
  | .builtin op, children => takesOperands op children.length && spot.sink.admits 1
  | _, _ => false

/-- Generation comes from one spot to another one, perhaps through others. -/
def Reaches (spot other : Spot) : Prop :=
  Relation.ReflTransGen (fun outer inner : Spot => inner ∈ outer.parts) spot other

/-- Generation comes to no spot that does not fit. -/
def IsClear (spot : Spot) : Prop :=
  ∀ other, spot.Reaches other → other.isFit = true

/-- Generation cannot end at a spot, with levels enough for its tree. -/
def Blocks (level : Nat) (spot : Spot) : Prop :=
  spot.tree.height ≤ level → ¬spot.IsClear

variable {spot other part : Spot}

theorem Reaches.refl (spot : Spot) : spot.Reaches spot :=
  Relation.ReflTransGen.refl

theorem Reaches.head (member : part ∈ spot.parts) (reaches : part.Reaches other) :
    spot.Reaches other :=
  Relation.ReflTransGen.head member reaches

theorem mem_of_flows {sink : Sink} {ts : List Tree} {job : Tree × Sink}
    (member : job ∈ flows sink ts) :
    job.1 ∈ ts := by
  induction ts with
  | nil => cases member
  | cons t ts ih =>
    cases ts with
    | nil =>
      cases mem_singleton.mp member
      exact mem_singleton_self t
    | cons next rest =>
      rcases mem_cons.mp member with rfl | later
      · exact .head _
      · exact mem_cons_of_mem t (ih later)

/-! ### Parts of the constructs -/

section Constructs

variable {sink : Sink} {aims : List Aim} {t condition code left right : Tree} {op : Builtin}
  {rest : List Tree}

theorem parts_root (isRoot : t.symbol = .block .root) :
    parts ⟨sink, aims, t⟩ = (flows sink t.children).map fun job => ⟨job.2, aims, job.1⟩ := by
  simp only [parts, isRoot]

theorem parts_block (isBlock : t.symbol = .block .block) :
    parts ⟨sink, aims, t⟩ = (flows sink t.children).map fun job => ⟨job.2, aims, job.1⟩ := by
  simp only [parts, isBlock]

theorem parts_doBlock (isDo : t.symbol = .block .doBlock) :
    parts ⟨sink, aims, t⟩ = (flows sink t.children).map fun job =>
      ⟨job.2, ⟨.doBlock, sink, 0⟩ :: aims, job.1⟩ := by
  simp only [parts, isDo]

/-- The operands of a node. -/
theorem parts_operator (isOp : t.symbol = .builtin op) (takes : takesValues t.children op = true)
    (noAssign : op ≠ .assign) :
    parts ⟨sink, aims, t⟩ = t.children.map fun child => ⟨.one, aims, child⟩ := by
  unfold parts
  dsimp only
  rw [isOp]
  cases op
  case assign => exact absurd rfl noAssign
  all_goals first | rfl | cases takes

theorem parts_member {object property : Tree} (isMember : t.symbol = .builtin .member)
    (inside : t.children = [object, property]) :
    parts ⟨sink, aims, t⟩ =
      ⟨.one, aims, object⟩ :: (computed? t).toList.map fun child => ⟨.one, aims, child⟩ := by
  simp only [parts, isMember, inside]

theorem parts_object (isObject : t.symbol = .builtin .object) :
    parts ⟨sink, aims, t⟩ = t.children.map fun entry => ⟨.one, aims, entryValue entry⟩ := by
  simp only [parts, isObject]

theorem parts_function {params : Tree} (isFunction : t.symbol = .builtin .fn)
    (inside : t.children = [params, code]) :
    parts ⟨sink, aims, t⟩ = [⟨functionSink code, [], code⟩] := by
  simp only [parts, isFunction, inside]

theorem parts_tuple (isTuple : t.symbol = .builtin .tuple) :
    parts ⟨sink, aims, t⟩ = t.children.map fun element =>
      ⟨if sink = .dropped then .dropped else .one, aims, element⟩ := by
  simp only [parts, isTuple]

theorem parts_single (isAssign : t.symbol = .builtin .assign) (inside : t.children = [left, right])
    (single : isSingleTarget left = true) :
    parts ⟨sink, aims, t⟩ = [⟨.one, aims, left⟩, ⟨.one, aims, right⟩] := by
  simp only [parts, isAssign, inside, single, if_true]

theorem parts_several (isAssign : t.symbol = .builtin .assign) (inside : t.children = [left, right])
    (several : isSingleTarget left = false) :
    parts ⟨sink, aims, t⟩ = ⟨.into (targets left).length, aims, right⟩ ::
      (targets left).map fun target => ⟨.one, aims, target⟩ := by
  simp only [parts, isAssign, inside, several, Bool.false_eq_true, if_false]

theorem parts_choice {branch : Tree} (isIf : t.symbol = .builtin .ifThen)
    (inside : t.children = condition :: branch :: rest) :
    parts ⟨sink, aims, t⟩ = ⟨.one, aims, condition⟩ :: ⟨sink, aims, branch⟩ ::
      ((rest.find? (·.is .elseClause)).bind (·.children.head?)).toList.map
        fun other => ⟨sink, aims, other⟩ := by
  simp only [parts, isIf, inside]

theorem parts_whileLoop (isWhile : t.symbol = .builtin .whileLoop)
    (inside : t.children = [condition, code]) :
    parts ⟨sink, aims, t⟩ = [⟨.one, aims, condition⟩, ⟨.dropped, aims, code⟩] := by
  simp only [parts, isWhile, inside]

theorem parts_endless (isLoop : t.symbol = .builtin .loop) (inside : t.children = [code]) :
    parts ⟨sink, aims, t⟩ = [⟨.dropped, ⟨.loop, sink, 0⟩ :: aims, code⟩] := by
  simp only [parts, isLoop, inside]

theorem parts_loop {id : NodeId} {info : Info} {names init : Tree}
    (isLoop : t.symbol = .builtin .loop)
    (inside : t.children = [.node id info [names, init], code]) :
    parts ⟨sink, aims, t⟩ = [⟨.into names.spelled.length, aims, init⟩,
      ⟨.dropped, ⟨.loop, sink, names.spelled.length⟩ :: aims, code⟩] := by
  simp only [parts, isLoop, inside]

theorem parts_tryBlock (isTry : t.symbol = .builtin .tryBlock)
    (inside : t.children = code :: rest) :
    parts ⟨sink, aims, t⟩ = ⟨sink, aims, code⟩ ::
      (rest.filterMap (clauseBody? sink)).map fun job => ⟨job.1, aims, job.2⟩ := by
  simp only [parts, isTry, inside]

theorem parts_give {aim : Aim} {value : Tree} (isGive : t.symbol = .builtin .give)
    (inside : t.children = value :: rest) (nearest : aims.head? = some aim) :
    parts ⟨sink, aims, t⟩ = [⟨aim.results, aims, value⟩] := by
  simp only [parts, isGive, inside, nearest, Option.toList_some, map_cons, map_nil]

theorem parts_nextRound {aim : Aim} {value : Tree} (isNext : t.symbol = .builtin .nextRound)
    (inside : t.children = value :: rest) (nearest : aims.find? (·.kind = .loop) = some aim) :
    parts ⟨sink, aims, t⟩ = [⟨aim.round, aims, value⟩] := by
  simp only [parts, isNext, inside, nearest, Option.toList_some, map_cons, map_nil]

/-- The value that a function returns or that is thrown. -/
theorem parts_result {value : Tree} (isOp : t.symbol = .builtin op) (ends : op = .ret ∨ op = .throw)
    (inside : t.children = value :: rest) : parts ⟨sink, aims, t⟩ = [⟨.one, aims, value⟩] := by
  rcases ends with rfl | rfl <;> simp only [parts, isOp, inside]

end Constructs

/-! ### Parts stand inside -/

theorem under_entryValue {entry t : Tree} (member : entry ∈ t.children) :
    Under (entryValue entry) t := by
  unfold entryValue
  split
  case h_1 value _ inside =>
    have isChild : value ∈ entry.children := by
      rw [inside]
      exact .tail _ (mem_singleton_self value)
    exact .tail (.single isChild) member
  case h_2 => exact .single member

theorem under_targets {left t target : Tree} (isChild : left ∈ t.children)
    (member : target ∈ targets left) : Under target t := by
  unfold targets at member
  split at member
  case h_1 => exact .tail (.single member) isChild
  case h_2 inner _ _ inside | h_3 inner _ _ inside =>
    have isInner : inner ∈ left.children := inside ▸ mem_cons_self
    exact .tail (.tail (.single member) isInner) isChild
  case h_4 =>
    cases mem_singleton.mp member
    exact .single isChild

theorem mem_of_computed? {t property : Tree} (found : computed? t = some property) :
    property ∈ t.children := by
  unfold computed? at found
  split at found
  case h_1 other _ inside =>
    split at found
    · cases found
    · cases found
      rw [inside]
      exact .tail _ (mem_singleton_self _)
  case h_2 => cases found

theorem mem_of_clauseBody? {sink : Sink} {clause : Tree} {job : Sink × Tree}
    (found : clauseBody? sink clause = some job) : job.2 ∈ clause.children := by
  unfold clauseBody? at found
  split at found
  case h_1 inside =>
    cases found
    rw [inside]
    exact .tail _ (mem_singleton_self _)
  case h_2 inside =>
    cases found
    rw [inside]
    exact mem_singleton_self _
  case h_3 => cases found

/-- What generation comes to next stands inside of the tree. -/
theorem under_of_mem_parts (member : part ∈ spot.parts) : Under part.tree spot.tree := by
  have first {t : Tree} {rest : List Tree} (inside : spot.tree.children = t :: rest) :
      Under t spot.tree :=
    .single (inside ▸ mem_cons_self)
  have second {t u : Tree} {rest : List Tree} (inside : spot.tree.children = t :: u :: rest) :
      Under u spot.tree :=
    .single (inside ▸ mem_cons_of_mem _ (.head _))
  unfold parts at member
  dsimp only at member
  split at member
  case h_1 | h_2 =>
    obtain ⟨job, flowing, rfl⟩ := mem_map.mp member
    exact .single (mem_of_flows flowing)
  case h_3 inside =>
    rcases mem_cons.mp member with rfl | isProperty
    · exact first inside
    · obtain ⟨property, found, rfl⟩ := mem_map.mp isProperty
      exact .single (mem_of_computed? (Option.mem_toList.mp found))
  case h_4 =>
    obtain ⟨entry, isEntry, rfl⟩ := mem_map.mp member
    exact under_entryValue isEntry
  case h_5 inside =>
    cases mem_singleton.mp member
    exact second inside
  case h_6 | h_7 | h_8 => cases member
  case h_9 left right _ inside =>
    split at member
    · rcases mem_pair.mp member with rfl | rfl
      · exact first inside
      · exact second inside
    · rcases mem_cons.mp member with rfl | isTarget
      · exact second inside
      · obtain ⟨target, listed, rfl⟩ := mem_map.mp isTarget
        exact under_targets (inside ▸ mem_cons_self) listed
  case h_11 rest _ inside =>
    rcases mem_cons.mp member with rfl | member
    · exact first inside
    rcases mem_cons.mp member with rfl | member
    · exact second inside
    obtain ⟨code, found, rfl⟩ := mem_map.mp member
    obtain ⟨clause, isElse, isFirst⟩ := Option.bind_eq_some_iff.mp (Option.mem_toList.mp found)
    have isClause : clause ∈ spot.tree.children := by
      rw [inside]
      exact .tail _ (.tail _ (mem_of_find?_eq_some isElse))
    exact .tail (.single (mem_of_head? isFirst)) isClause
  case h_12 inside =>
    rcases mem_pair.mp member with rfl | rfl
    · exact first inside
    · exact second inside
  case h_13 inside =>
    cases mem_singleton.mp member
    exact first inside
  case h_14 inside =>
    rcases mem_pair.mp member with rfl | rfl
    · have isInit {id : NodeId} {info : Info} {names init : Tree} :
          init ∈ (Tree.node id info [names, init]).children :=
        mem_cons_of_mem _ (mem_singleton_self _)
      exact .trans (.single isInit) (first inside)
    · exact second inside
  case h_15 code clauses _ inside =>
    rcases mem_cons.mp member with rfl | member
    · exact first inside
    obtain ⟨job, isBody, rfl⟩ := mem_map.mp member
    obtain ⟨clause, listed, found⟩ := mem_filterMap.mp isBody
    exact .tail (.single (mem_of_clauseBody? found)) (inside ▸ mem_cons_of_mem _ listed)
  case h_16 inside | h_17 inside =>
    obtain ⟨aim, _, rfl⟩ := mem_map.mp member
    exact first inside
  case h_18 inside | h_19 inside =>
    cases mem_singleton.mp member
    exact first inside
  case h_10 | h_20 =>
    obtain ⟨child, isChild, rfl⟩ := mem_map.mp member
    exact .single isChild
  case h_21 => cases member

/-! ### Spots that block -/

theorem IsClear.below (clear : spot.IsClear) (member : part ∈ spot.parts) : part.IsClear :=
  fun other reaches => clear other (.head member reaches)

variable {level : Nat}

theorem Blocks.unfit (unfit : spot.isFit = false) : spot.Blocks level := by
  intro _ clear
  rw [clear spot (.refl spot)] at unfit
  cases unfit

theorem Blocks.above {parts : List Spot} (all : spot.parts = parts) (isPart : part ∈ parts)
    (blocks : part.Blocks level) : spot.Blocks (level + 1) := by
  intro enough clear
  have member : part ∈ spot.parts := all ▸ isPart
  have lower := (under_of_mem_parts member).height_lt
  exact blocks (Nat.le_of_lt_succ (Nat.lt_of_lt_of_le lower enough)) (clear.below member)

theorem Blocks.low (blocks : spot.Blocks (level + 1)) : spot.Blocks level :=
  fun enough => blocks (Nat.le_succ_of_le enough)

theorem Reaches.height_le (reaches : spot.Reaches other) :
    other.tree.height ≤ spot.tree.height := by
  induction reaches with
  | refl => exact Nat.le_refl _
  | tail _ member ih => exact Nat.le_trans (Nat.le_of_lt (under_of_mem_parts member).height_lt) ih

theorem Blocks.from (reaches : spot.Reaches other) (blocks : other.Blocks level) :
    spot.Blocks level :=
  fun enough clear => blocks (Nat.le_trans reaches.height_le enough) fun last onward =>
    clear last (reaches.trans onward)

end Spot

end Lowering

end Offside
