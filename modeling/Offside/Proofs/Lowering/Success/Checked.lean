import Offside.Proofs.Checking.Passing
import Offside.Proofs.Lowering.Derivations
import Offside.Proofs.Lowering.Success.Gaps
import Offside.Proofs.Macro.Completeness

/-!
# Trees that pass the check fit

A tree that is accepted by the check and can be bound fits the spot where it stands, and so does
every tree that generation comes to from there, if there is no gap. Each construct has a lemma that
says so of its spot, and that its parts have been accepted for what is done with them.
-/

namespace Offside

open List Offside.Tree

/-- The law of expressions without macros. -/
structure Info.Finished (admitted : String → Prop) (info : Info) (below : List Symbol) : Prop
    extends info.Formed admitted below where
  expanded : info.Expanded below

namespace Lowering

open Check (Accepts Meets Use)
open Offside.Tree (Bindable)

variable {op : Builtin} {code : Tree}

variable {strict : Prop} {admitted : String → Prop} {sink : Sink} {aims : List Aim} {t : Tree}
  {expected : Option Nat} {cx : JumpContext}

theorem is_eq (isOp : t.symbol = .builtin op) (other : Builtin) :
    t.is other = decide (op = other) := by
  rw [is, Info.is, ← symbol, isOp]
  exact decide_eq_decide.mpr (Option.some_inj)

theorem builtin?_eq (isOp : t.symbol = .builtin op) : t.builtin? = some op := by
  rw [builtin?, isOp]
  rfl

/-! ## Sinks and targets of jumps -/

theorem Sink.Takes.admits {count : Nat} (takes : sink.Takes expected)
    (meets : Meets expected count) :
    sink.admits count = true := by
  cases sink with
  | into wanted => exact decide_eq_true (meets wanted takes)
  | _ => rfl

theorem takes_round (aim : Aim) : aim.round.Takes (some aim.loopVars) := by
  unfold Aim.round
  split
  · trivial
  · rfl

theorem takes_functionSink (code : Tree) (expected : Option Nat) :
    (functionSink code).Takes expected := by
  unfold functionSink
  rcases Below.functionDest_eq code with isReturn | isDropped
  · rw [isReturn]
    trivial
  · rw [isDropped]
    trivial

theorem follows_outermost (aims : List Aim) (inFunction : Bool) :
    Follows { JumpContext.outermost with inFunction } aims := by
  constructor
  · exact nofun
  · exact nofun

theorem Follows.enterDo (follows : Follows cx aims) (takes : sink.Takes expected) :
    Follows { cx with leave := some expected } (⟨.doBlock, sink, 0⟩ :: aims) := by
  constructor
  · rintro wanted ⟨⟩
    exact ⟨_, rfl, takes⟩
  · intro count known
    obtain ⟨aim, found, same⟩ := follows.nextRound count known
    exact ⟨aim, found, same⟩

theorem Follows.enterLoop (takes : sink.Takes expected) (count : Nat) :
    Follows { cx with leave := some expected, nextRound := some count }
      (⟨.loop, sink, count⟩ :: aims) := by
  constructor
  · rintro wanted ⟨⟩
    exact ⟨_, rfl, takes⟩
  · rintro other ⟨⟩
    exact ⟨_, rfl, rfl⟩

/-- The lines of a block bring what their sinks take. -/
theorem exists_line {ts : List Tree} {job : Tree × Sink} (takes : sink.Takes expected)
    (member : job ∈ flows sink ts) :
    ∃ wanted, (job.1, wanted) ∈ Check.lines expected ts ∧ job.2.Takes wanted := by
  induction ts with
  | nil => cases member
  | cons first rest ih =>
    cases rest with
    | nil =>
      cases mem_singleton.mp member
      exact ⟨expected, mem_singleton_self _, takes⟩
    | cons next others =>
      rcases mem_cons.mp member with rfl | later
      · exact ⟨none, .head _, trivial⟩
      · obtain ⟨wanted, listed, enough⟩ := ih later
        exact ⟨wanted, .tail _ listed, enough⟩

/-! ## Spots with their parts -/

/-- A spot whose tree is accepted for what is expected there, or is a name that gets a value. -/
inductive Spot.Ready (strict : Prop) : Spot → Prop
  | value {sink : Sink} {aims : List Aim} {t : Tree} {expected : Option Nat} {cx : JumpContext}
      (accepts : Accepts strict (.produce expected) cx t) (bindable : t.Bindable .value)
      (takes : sink.Takes expected)
      (follows : Follows cx aims) : Ready strict ⟨sink, aims, t⟩
  | name {aims : List Aim} {t : Tree} (isName : t.isTag ∨ t.is .var ∨ t.is .const)
      (place : isPlace t = true) : Ready strict ⟨.one, aims, t⟩

/-- A spot that fits and has ready parts. -/
structure Spot.Passes (strict : Prop) (spot : Spot) : Prop where
  fit : spot.isFit = true
  ready : ∀ part ∈ spot.parts, part.Ready strict

theorem Spot.Passes.intro {spot : Spot} {parts : List Spot} (all : spot.parts = parts)
    (fit : spot.isFit = true) (ready : ∀ part ∈ parts, part.Ready strict) : spot.Passes strict :=
  ⟨fit, all ▸ ready⟩

theorem Spot.Regular.noClause (regular : Regular strict ⟨sink, aims, t⟩) :
    t.symbol.isClause = false := by
  have noGap := regular.noGap
  unfold isGap at noGap
  cases isSymbol : t.symbol with
  | builtin op =>
    rw [isSymbol] at noGap
    cases op
    case elseClause | catchClause | finallyClause => cases noGap
    all_goals rfl
  | _ => rfl

theorem isNamed_of_tag {kind : TagKind} (finished : t.Obeys (Info.Finished admitted))
    (isTag : t.symbol = .tag kind) : isNamed t = true := by
  have carries := finished.root.carries
  change t.symbol.Carries admitted t.info.value at carries
  rw [isTag] at carries
  obtain ⟨name, isName, _⟩ := Symbol.exists_name_of_carries carries
  have named : t.name? = some name := by
    rw [name?, Info.name?, isName]
    rfl
  rw [isNamed, named, Tree.isTag, Info.isTag, ← Tree.symbol, isTag]
  rfl

/-! ## Expressions -/

theorem passes_leaf (finished : t.Obeys (Info.Finished admitted)) (one : sink.admits 1 = true)
    (isLeaf : t.symbol = .value ∨ ∃ kind, t.symbol = .tag kind) :
    Spot.Passes strict ⟨sink, aims, t⟩ := by
  rcases isLeaf with isValue | ⟨kind, isTag⟩
  · have carries := finished.root.carries
    change t.symbol.Carries admitted t.info.value at carries
    rw [isValue] at carries
    refine .intro (by simp [Spot.parts, isValue]) ?_ (forall_mem_nil _)
    simp only [Spot.isFit, isValue, one, Bool.and_true]
    unfold isLiteral
    generalize t.info.value = held at carries ⊢
    rcases held with _ | (_ | _ | _ | _ | _) <;> first | rfl | cases carries
  · have named := isNamed_of_tag finished isTag
    rw [isNamed, Bool.and_eq_true] at named
    refine .intro (by simp [Spot.parts, isTag]) ?_ (forall_mem_nil _)
    simp only [Spot.isFit, isTag, named.2, one, Bool.and_self]

/-- Operators that are no macros have as many operands as generation takes. -/
theorem takesOperands_of_simple {count : Nat} (simple : Check.isSimple op = true)
    (plain : (Symbol.builtin op).isMacro = false) (other : op ≠ .pair ∧ op ≠ .new)
    (few : op.arity.sequence = true ∨
      op.arity.minOperands ≤ count ∧ count ≤ op.arity.maxOperands)
        (callee : op = .call → count ≠ 0) :
    takesOperands op count = true := by
  have exactly {number : Nat} (limited : op.arity.sequence = false)
      (least : op.arity.minOperands = number) (most : op.arity.maxOperands = number) :
      decide (count = number) = true := by
    rw [limited, least, most] at few
    exact decide_eq_true (Nat.le_antisymm (few.resolve_left nofun).2 (few.resolve_left nofun).1)
  cases op
  case pair => exact absurd rfl other.1
  case new => exact absurd rfl other.2
  case call => exact decide_eq_true (Nat.pos_of_ne_zero (callee rfl))
  case array => rfl
  case defMacro | quote | unquote | atSign => cases plain
  all_goals first | exact exactly rfl rfl rfl | cases simple

theorem Spot.parts_simple (isOp : t.symbol = .builtin op) (simple : Check.isSimple op = true) :
    (Spot.mk sink aims t).parts = t.children.map fun child => ⟨.one, aims, child⟩ := by
  unfold parts
  dsimp only
  rw [isOp]
  cases op
  all_goals first | rfl | cases simple

theorem Spot.isFit_simple (isOp : t.symbol = .builtin op) (simple : Check.isSimple op = true)
    (noNew : op ≠ .new) :
    Spot.isFit ⟨sink, aims, t⟩ = (takesOperands op t.children.length && sink.admits 1) := by
  unfold isFit
  dsimp only
  rw [isOp]
  cases op
  case new => exact absurd rfl noNew
  all_goals first | rfl | cases simple

section Values

variable (bindable : t.Bindable .value)
include bindable

theorem passes_function {params : Tree} (one : sink.admits 1 = true)
    (isFunction : t.symbol = .builtin .fn) (parts : t.children = [params, code])
    (inner : Accepts strict (.produce none) { JumpContext.outermost with inFunction := true }
      code) :
    Spot.Passes strict ⟨sink, aims, t⟩ := by
  obtain ⟨pattern, bound⟩ := bindable.scope (.inl isFunction) parts
  refine .intro (Spot.parts_function isFunction parts)
    (by simp [Spot.isFit, isFunction, parts, pattern, one]) (forall_mem_singleton.mpr ?_)
  exact .value inner bound (takes_functionSink code none) (follows_outermost [] true)

variable (follows : Follows cx aims) (one : sink.admits 1 = true)
  (regular : Spot.Regular strict ⟨sink, aims, t⟩)
include follows one regular

/-- An operator that is not an invocation any more. -/
theorem passes_simple (finished : t.Obeys (Info.Finished admitted))
    (others : ∀ part ∈ Spot.parts ⟨sink, aims, t⟩, part.Regular strict)
    (isOp : t.symbol = .builtin op) (simple : Check.isSimple op = true)
    (takes : Check.Operands op t.children)
    (operands : ∀ child ∈ t.children, Accepts strict (.produce (some 1)) cx child) :
    Spot.Passes strict ⟨sink, aims, t⟩ := by
  have noPair : op ≠ .pair := by
    rintro rfl
    exact bindable.not_pair isOp
  -- clauses are gaps, so that all children count as operands
  have all : t.children.filter (fun child => !child.symbol.isClause) = t.children := by
    refine filter_eq_self.mpr fun child member => ?_
    rw [Spot.parts_simple isOp simple] at others
    rw [(others _ (mem_map_of_mem member)).noClause]
    rfl
  rw [Check.Operands, all] at takes
  refine .intro (Spot.parts_simple isOp simple) ?_ fun part isPart => ?_
  · by_cases isNew : op = .new
    · subst isNew
      obtain ⟨enough, few⟩ := takes.resolve_left (by rintro ⟨⟩)
      obtain ⟨operand, only⟩ := length_eq_one_iff.mp (Nat.le_antisymm few enough)
      simp only [Spot.isFit, isOp, only, one]
    · rw [Spot.isFit_simple isOp simple isNew, one, Bool.and_true]
      refine takesOperands_of_simple simple ?_ ⟨noPair, isNew⟩ takes ?_
      · have expanded := finished.root.expanded
        cases isMacro : (Symbol.builtin op).isMacro with
        | false => rfl
        | true =>
          change t.symbol.isMacro = true → t.symbol = _ ∧ _ = _ at expanded
          obtain ⟨isAt, none⟩ := expanded (isOp ▸ isMacro)
          rw [isOp] at isAt
          cases isAt
          rw [map_eq_nil_iff.mp none] at takes
          exact absurd takes (by decide)
      · rintro rfl none
        have noGap := regular.noGap
        simp only [Spot.isGap, isOp, eq_nil_of_length_eq_zero none] at noGap
        cases noGap
  · obtain ⟨child, member, rfl⟩ := mem_map.mp isPart
    have plain : bindsChildren t.symbol = true := by
      rw [isOp]
      cases op
      case pair => exact absurd rfl noPair
      all_goals first | rfl | cases simple
    exact .value (operands child member) (bindable.children plain child member) rfl follows

theorem passes_member {object property : Tree} (isMember : t.symbol = .builtin .member)
    (parts : t.children = [object, property])
    (inner : Accepts strict (.produce (some 1)) cx object) :
    Spot.Passes strict ⟨sink, aims, t⟩ := by
  refine .intro (Spot.parts_member isMember parts) (by simp only [Spot.isFit, isMember, parts, one])
    (forall_mem_cons.mpr ⟨.value inner (bindable.member isMember parts) rfl follows, ?_⟩)
  intro part isPart
  obtain ⟨property, found, rfl⟩ := mem_map.mp isPart
  obtain ⟨bound, other, agrees, accepts⟩ := regular.computed property (Option.mem_toList.mp found)
  exact .value accepts bound rfl agrees

theorem passes_object (isObject : t.symbol = .builtin .object)
    (entries : ∀ entry ∈ t.children, Accepts strict .entry cx entry) :
    Spot.Passes strict ⟨sink, aims, t⟩ := by
  have noGap := regular.noGap
  simp only [Spot.isGap, isObject, Bool.not_eq_eq_eq_not, Bool.not_false] at noGap
  refine .intro (Spot.parts_object isObject)
    (by simp only [Spot.isFit, isObject, noGap, one, Bool.and_self])
    fun part isPart => ?_
  obtain ⟨entry, member, rfl⟩ := mem_map.mp isPart
  have bound := bindable.entries isObject entry member
  cases entries entry member with
  | @pair _ _ key value isPair inside accepts =>
    have same : entryValue entry = value := by
      unfold entryValue
      rw [is_eq isPair, inside]
      rfl
    rw [same]
    exact .value accepts (bound.pair isPair inside) rfl follows
  | bare noPair accepts =>
    have same : entryValue entry = entry := by
      have noPair : entry.is .pair = false :=
        decide_eq_false fun isPair => noPair (Symbol.eq_builtin_of_builtin? isPair)
      unfold entryValue
      rw [noPair]
    rw [same]
    exact .value accepts (bound.bare noPair) rfl follows

omit one in
theorem passes_tuple (takes : sink.Takes expected) (isTuple : t.symbol = .builtin .tuple)
    (count : Meets expected t.children.length)
    (elements : ∀ child ∈ t.children, Accepts strict (.produce (some 1)) cx child) :
    Spot.Passes strict ⟨sink, aims, t⟩ := by
  have noGap := regular.noGap
  simp only [Spot.isGap, isTuple, decide_eq_false_iff_not] at noGap
  refine .intro (Spot.parts_tuple isTuple)
    (by simp [Spot.isFit, isTuple, takes.admits count, noGap])
    fun part isPart => ?_
  obtain ⟨child, member, rfl⟩ := mem_map.mp isPart
  refine .value (elements child member) (bindable.children (isTuple ▸ rfl) child member) ?_ follows
  split <;> trivial

end Values

/-! ## Targets -/

theorem width_of_tag {kind : TagKind} (isTag : t.symbol = .tag kind) : Check.width t = 1 := by
  replace isTag : t.info.symbol = .tag kind := isTag
  simp [Check.width, is, Info.is, builtin?, symbol, isTag, Symbol.builtin?]

theorem ne_tuple_of_isPlace (place : isPlace t = true) : t.symbol ≠ .builtin .tuple := by
  intro isTuple
  rcases symbol_of_isPlace place with ⟨kind, isTag⟩ | ⟨op, isOp, member⟩
  · cases isTuple.symm.trans isTag
  · cases isTuple.symm.trans isOp
    exact absurd member (by decide)

/-- A pattern without parts is a name. -/
theorem isNamed_of_pattern (pattern : t.isPattern = true) (noTuple : t.symbol ≠ .builtin .tuple) :
    isNamed t = true := by
  obtain ⟨id, info, children⟩ := t
  change info.symbol ≠ _ at noTuple
  unfold isPattern at pattern
  split at pattern
  case h_1 isTag =>
    rw [isNamed, Tree.isTag, Info.isTag, Tree.info, isTag]
    exact pattern
  case h_2 isTuple => exact absurd isTuple noTuple
  case h_3 => cases pattern

/-- A target is a tuple or a declaration, or it is alone and can be assigned to. -/
theorem target_cases (finished : t.Obeys (Info.Finished admitted)) (bindable : t.Bindable .target) :
    t.symbol = .builtin .tuple ∨ (t.symbol = .builtin .var ∨ t.symbol = .builtin .const) ∨
      isSingleTarget t = true ∧ isPlace t = true ∧ Check.width t = 1 := by
  by_cases isTuple : t.symbol = .builtin .tuple
  · exact .inl isTuple
  rcases bindable.single isTuple with ⟨kind, isTag⟩ | ⟨assignable, _⟩
  · refine .inr (.inr ⟨?_, ?_, width_of_tag isTag⟩)
    · simp [isSingleTarget, builtin?, isTag, Symbol.builtin?]
    · simp [isPlace, isNamed_of_tag finished isTag]
  · cases isSymbol : t.symbol with
    | builtin op =>
      rw [isSymbol] at assignable
      cases op
      case var | const => exact .inr (.inl (by simp))
      case member | element =>
        refine .inr (.inr ?_)
        simp [isSingleTarget, isPlace, Check.width, is_eq isSymbol, builtin?_eq isSymbol]
      all_goals cases assignable
    | _ =>
      rw [isSymbol] at assignable
      cases assignable

/-- What can be assigned to is a name, or a value that has been looked at. -/
theorem ready_target (place : isPlace t = true) (bindable : t.Bindable .target)
    (accepts : Accepts strict .receive cx t) (follows : Follows cx aims) :
    Spot.Ready strict ⟨.one, aims, t⟩ := by
  rcases symbol_of_isPlace place with ⟨kind, isTag⟩ | ⟨op, isOp, member⟩
  · refine .name (.inl ?_) place
    rw [Tree.isTag, Info.isTag, ← Tree.symbol, isTag]
    rfl
  · have value (other : op ∈ [Builtin.tuple, .member, .element]) :
        Spot.Ready strict ⟨.one, aims, t⟩ := by
      rcases bindable.single (ne_tuple_of_isPlace place) with ⟨kind, isTag⟩ | ⟨_, bound⟩
      · cases isOp.symm.trans isTag
      cases accepts with
      | targets isTuple => exact absurd isTuple (ne_tuple_of_isPlace place)
      | place _ _ accepts => exact .value accepts bound rfl follows
      | given others => exact absurd isOp (others op other)
    simp only [mem_cons, not_mem_nil, or_false] at member
    rcases member with rfl | rfl | rfl | rfl
    · exact .name (.inr (.inl (is_eq isOp .var))) place
    · exact .name (.inr (.inr (is_eq isOp .const))) place
    · exact value (by decide)
    · exact value (by decide)

/-- The elements of a tuple that is assigned to. -/
theorem ready_elements (isTuple : t.symbol = .builtin .tuple) (bindable : t.Bindable .target)
    (accepts : Accepts strict .receive cx t) (follows : Follows cx aims)
    (places : ∀ element ∈ t.children, isPlace element = true) :
    ∀ element ∈ t.children, Spot.Ready strict ⟨.one, aims, element⟩ := by
  intro element member
  cases accepts with
  | targets _ inner =>
    exact ready_target (places element member) (bindable.elements isTuple element member)
      (inner element member) follows
  | place isOther others =>
    cases isTuple.symm.trans isOther
    rcases others with other | other <;> cases other
  | given others => exact absurd isTuple (others .tuple (by decide))

/-- A target is alone and can be assigned to, or its elements get the values one by one. -/
theorem ready_targets (finished : t.Obeys (Info.Finished admitted)) (bindable : t.Bindable .target)
    (accepts : Accepts strict .receive cx t) (follows : Follows cx aims) :
    isSingleTarget t = true ∧ isPlace t = true ∧ Check.width t = 1 ∨
      isSingleTarget t = false ∧ ((∀ element ∈ targets t, isPlace element = true) →
        Check.width t = (targets t).length ∧
          ∀ element ∈ targets t, Spot.Ready strict ⟨.one, aims, element⟩) := by
  rcases target_cases finished bindable with isTuple | declares | alone
  · have same : targets t = t.children := by simp [targets, builtin?_eq isTuple]
    rw [same]
    refine .inr ⟨by simp [isSingleTarget, builtin?_eq isTuple], fun places => ?_⟩
    exact ⟨by simp [Check.width, builtin?_eq isTuple, is_eq isTuple],
      ready_elements isTuple bindable accepts follows places⟩
  · cases parts : t.children with
    | nil =>
      obtain ⟨several, alone⟩ : isSingleTarget t = false ∧ targets t = [t] := by
        rcases declares with isOp | isOp
        all_goals simp [isSingleTarget, targets, builtin?_eq isOp, child?, parts]
      refine .inr ⟨several, fun places => ?_⟩
      obtain ⟨inner, rest, some, _⟩ := exists_of_declaring (places t (alone ▸ mem_singleton_self t))
        (declares.imp (is_eq · .var) (is_eq · .const))
      cases parts.symm.trans some
    | cons inner rest =>
      obtain ⟨single, same, width⟩ :
        isSingleTarget t = !inner.is .tuple ∧ targets t = inner.children ∧
          Check.width t = if inner.is .tuple then inner.children.length else 1 := by
        rcases declares with isOp | isOp
        all_goals simp [isSingleTarget, targets, Check.width, builtin?_eq isOp, child?, parts]
      have patterns := bindable.names declares
      rw [parts, arePatterns, Bool.and_eq_true] at patterns
      by_cases isTuple : inner.symbol = .builtin .tuple
      · rw [is_eq isTuple] at single width
        rw [same]
        refine .inr ⟨single, fun places => ⟨width, fun element member => ?_⟩⟩
        rw [eq_node isTuple rfl] at patterns
        have pattern := arePatterns_iff.mp patterns.1 element member
        have named := isNamed_of_pattern pattern (ne_tuple_of_isPlace (places element member))
        exact .name (.inl (Bool.and_eq_true _ _ |>.mp named).1) (places element member)
      · have other : inner.is .tuple = false :=
          decide_eq_false fun isOp => isTuple (Symbol.eq_builtin_of_builtin? isOp)
        rw [other] at single width
        refine .inl ⟨single, ?_, width⟩
        have named := isNamed_of_pattern patterns.1 isTuple
        rcases declares with isOp | isOp <;> simp [isPlace, is_eq isOp, parts, named]
  · exact .inl alone

/-! ## Heads of loops -/

theorem exists_of_isLoopHead (isHead : t.isLoopHead = true) :
    t.symbol = .builtin .assign ∧ ∃ names init, t.children = [names, init] ∧
      names.isPattern = true := by
  unfold isLoopHead at isHead
  split at isHead
  case h_1 names init isAssign inside =>
    exact ⟨Info.symbol_of_is isAssign, names, init, inside, isHead⟩
  case h_2 => cases isHead

/-- The value of an assignment that is accepted. -/
theorem accepts_value {left right : Tree} (accepts : Accepts strict (.produce expected) cx t)
    (isAssign : t.symbol = .builtin .assign) (parts : t.children = [left, right]) :
    Accepts strict (.produce (some (Check.width left))) cx right := by
  cases accepts with
  | assign _ inside _ _ value =>
    cases parts.symm.trans inside
    exact value
  | leaf isLeaf =>
    rw [isAssign] at isLeaf
    rcases isLeaf with isValue | ⟨_, isTag⟩
    · cases isValue
    · cases isTag
  | operator isOp simple =>
    cases isAssign.symm.trans isOp
    cases simple
  | declaration isOp declares =>
    cases isAssign.symm.trans isOp
    rcases declares with isOp | isOp
    all_goals cases isOp
  | stray isClause =>
    rw [isAssign] at isClause
    cases isClause
  | _ isOther => cases isAssign.symm.trans isOther

/-! ## Declarations and assignments -/

theorem passes_declaration {inner : Tree} (regular : Spot.Regular strict ⟨sink, aims, t⟩)
    (takes : sink.Takes expected) (isOp : t.symbol = .builtin op)
    (declares : op = .var ∨ op = .const)
    (parts : t.children = [inner]) (count : Meets expected (Check.width inner)) :
    Spot.Passes strict ⟨sink, aims, t⟩ := by
  have none : Spot.parts ⟨sink, aims, t⟩ = [] := by
    rcases declares with rfl | rfl <;> simp [Spot.parts, isOp]
  refine .intro none ?_ (forall_mem_nil _)
  by_cases dropped : sink = .dropped
  · rcases declares with rfl | rfl <;> simp [Spot.isFit, isOp, dropped]
  · have noGap := regular.noGap
    have named : isNamed inner = true := by
      rcases declares with rfl | rfl <;> simpa [Spot.isGap, isOp, parts, dropped] using noGap
    obtain ⟨kind, isTag⟩ := Info.exists_tag (Bool.and_eq_true _ _ |>.mp named).1
    rw [width_of_tag isTag] at count
    rcases declares with rfl | rfl <;> simp [Spot.isFit, isOp, parts, named, takes.admits count]

section Constructs

variable (bindable : t.Bindable .value)
include bindable

theorem passes_endless (takes : sink.Takes expected)
    (isLoop : t.symbol = .builtin .loop) (parts : t.children = [code])
    (inner : Accepts strict (.produce none)
      { cx with leave := some expected, nextRound := some 0 } code) :
    Spot.Passes strict ⟨sink, aims, t⟩ :=
  .intro (Spot.parts_endless isLoop parts) (by simp only [Spot.isFit, isLoop, parts])
    (forall_mem_singleton.mpr
      (.value inner (bindable.endless isLoop parts) trivial (.enterLoop takes 0)))

variable (follows : Follows cx aims)
include follows

section

variable (takes : sink.Takes expected)
include takes

theorem passes_assign {left right : Tree} (finished : t.Obeys (Info.Finished admitted))
    (regular : Spot.Regular strict ⟨sink, aims, t⟩) (isAssign : t.symbol = .builtin .assign)
    (parts : t.children = [left, right]) (count : Meets expected (Check.width left))
    (target : Accepts strict .receive cx left)
    (value : Accepts strict (.produce (some (Check.width left))) cx right) :
    Spot.Passes strict ⟨sink, aims, t⟩ := by
  obtain ⟨first, second⟩ := bindable.assign isAssign parts
  have inLeft := obeyAll_iff.mp finished.children left
    (show left ∈ t.children from parts ▸ mem_cons_self)
  rcases ready_targets inLeft first target follows with ⟨single, place, width⟩ | ⟨several, elements⟩
  · rw [width] at count value
    refine .intro (Spot.parts_single isAssign parts single)
      (by simp [Spot.isFit, isAssign, parts, single, place, takes.admits count]) ?_
    rw [forall_mem_cons, forall_mem_singleton]
    exact ⟨ready_target place first target follows, .value value second rfl follows⟩
  · have noGap := regular.noGap
    simp only [Spot.isGap, isAssign, parts, several, Bool.not_false, Bool.true_and,
      Bool.or_eq_false_iff, decide_eq_false_iff_not, Bool.not_eq_eq_eq_not] at noGap
    obtain ⟨used, places⟩ := noGap
    obtain ⟨width, ready⟩ := elements (all_eq_true.mp places)
    rw [width] at count value
    refine .intro (Spot.parts_several isAssign parts several) ?_ ?_
    · simp only [Spot.isFit, isAssign, parts, several, places, takes.admits count]
      simpa using used
    · exact forall_mem_cons.mpr ⟨.value value second rfl follows, forall_mem_map.mpr ready⟩

/-! ## Blocks -/

omit follows in
/-- A block, inside of which jumps may have other targets. -/
theorem passes_block {kind : BlockKind} {inner : JumpContext} {around : List Aim}
    (isBlock : t.symbol = .block kind) (fit : Spot.isFit ⟨sink, aims, t⟩ = true)
    (all : Spot.parts ⟨sink, aims, t⟩ =
      (flows sink t.children).map fun job => ⟨job.2, around, job.1⟩)
    (follows : Follows inner around)
    (lines : ∀ job ∈ Check.lines expected t.children, Accepts strict (.produce job.2) inner job.1) :
    Spot.Passes strict ⟨sink, aims, t⟩ := by
  refine .intro all fit fun part isPart => ?_
  obtain ⟨job, member, rfl⟩ := mem_map.mp isPart
  obtain ⟨wanted, listed, enough⟩ := exists_line takes member
  exact .value (lines _ listed)
    (bindable.children (isBlock ▸ rfl) _ (Spot.mem_of_flows member)) enough
    follows

/-! ## Choices, loops and handlers -/

theorem passes_branches {condition branch : Tree} {rest : List Tree}
    (isIf : t.symbol = .builtin .ifThen) (parts : t.children = condition :: branch :: rest)
    (filled : ∀ clause, rest.find? (·.is .elseClause) = some clause →
      ∃ code, clause.children = [code]) (test : Accepts strict (.produce (some 1)) cx condition)
    (consequent : Accepts strict (.produce expected) cx branch)
    (others : ∀ clause code, rest.find? (·.is .elseClause) = some clause →
      clause.children = [code] → Accepts strict (.produce expected) cx code) :
    Spot.Passes strict ⟨sink, aims, t⟩ := by
  have bound := bindable.children (isIf ▸ rfl)
  rw [parts, forall_mem_cons, forall_mem_cons] at bound
  obtain ⟨boundTest, boundBranch, boundClauses⟩ := bound
  refine .intro (Spot.parts_choice isIf parts) ?_ ?_
  · simp only [Spot.isFit, isIf, parts]
    cases found : rest.find? (·.is .elseClause) with
    | none => rfl
    | some clause =>
      obtain ⟨code, inside⟩ := filled clause found
      rw [Option.all_some, inside]
      rfl
  rw [forall_mem_cons, forall_mem_cons]
  refine ⟨.value test boundTest rfl follows, .value consequent boundBranch takes follows,
    fun part isPart => ?_⟩
  obtain ⟨inner, isInner, rfl⟩ := mem_map.mp isPart
  obtain ⟨clause, found, isFirst⟩ := Option.bind_eq_some_iff.mp (Option.mem_toList.mp isInner)
  obtain ⟨code, inside⟩ := filled clause found
  rw [inside] at isFirst
  cases isFirst
  have isClause := List.find?_some found
  have isElse : clause.symbol = .builtin .elseClause := Info.symbol_of_is isClause
  have bound := (boundClauses clause (mem_of_find?_eq_some found)).children (isElse ▸ rfl) inner
    (inside ▸ mem_cons_self)
  exact .value (others clause inner found inside) bound takes follows

end

theorem passes_whileLoop {condition : Tree}
    (isWhile : t.symbol = .builtin .whileLoop) (parts : t.children = [condition, code])
    (test : Accepts strict (.produce (some 1)) cx condition)
    (inner : Accepts strict (.produce none) cx code) :
    Spot.Passes strict ⟨sink, aims, t⟩ := by
  have bound := bindable.children (isWhile ▸ rfl)
  rw [parts, forall_mem_cons, forall_mem_singleton] at bound
  refine .intro (Spot.parts_whileLoop isWhile parts) (by simp only [Spot.isFit, isWhile, parts]) ?_
  rw [forall_mem_cons, forall_mem_singleton]
  exact ⟨.value test bound.1 rfl follows, .value inner bound.2 trivial follows⟩

theorem passes_loop {head : Tree} (regular : Spot.Regular strict ⟨sink, aims, t⟩)
    (takes : sink.Takes expected)
    (isLoop : t.symbol = .builtin .loop) (parts : t.children = [head, code])
    (first : Accepts strict (.produce none) cx head)
    (inner : Accepts strict (.produce none) { cx with
      leave := some expected
      nextRound := some (((head.child? 0).map Check.width).getD 0) } code) :
    Spot.Passes strict ⟨sink, aims, t⟩ := by
  obtain ⟨isHead, boundHead, bound⟩ := bindable.loop isLoop parts
  obtain ⟨isAssign, names, init, starts, pattern⟩ := exists_of_isLoopHead isHead
  have value := accepts_value first isAssign starts
  have vars : ((head.child? 0).map Check.width).getD 0 = Check.width names := by
    rw [child?, starts]
    rfl
  obtain ⟨id, info, children⟩ := head
  cases starts
  have width : names.spelled.length = Check.width names := by
    have noGap := regular.noGap
    simp only [Spot.isGap, isLoop, parts] at noGap
    exact of_not_not (of_decide_eq_false noGap)
  rw [vars, ← width] at inner
  rw [← width] at value
  refine .intro (Spot.parts_loop isLoop parts)
    (by simp only [Spot.isFit, isLoop, parts, pattern]) ?_
  rw [forall_mem_cons, forall_mem_singleton]
  exact ⟨.value value (boundHead.assign isAssign rfl).2 rfl follows,
    .value inner bound trivial (.enterLoop takes _)⟩

theorem passes_tryBlock {clauses : List Tree} (regular : Spot.Regular strict ⟨sink, aims, t⟩)
    (takes : sink.Takes expected)
    (isTry : t.symbol = .builtin .tryBlock) (parts : t.children = code :: clauses)
    (shapes : ∀ clause ∈ clauses,
      clause.symbol = .builtin .catchClause ∧ (∃ param body, clause.children = [param, body]) ∨
      clause.symbol = .builtin .finallyClause ∧ ∃ body, clause.children = [body])
    (inner : Accepts strict (.produce expected) cx code)
    (handlers : ∀ clause ∈ clauses, ∀ param body, clause.children = [param, body] →
      Accepts strict (.produce expected) cx body)
    (finalizers : ∀ clause ∈ clauses, ∀ body, clause.children = [body] →
      Accepts strict (.produce none) cx body) : Spot.Passes strict ⟨sink, aims, t⟩ := by
  have bound := bindable.children (isTry ▸ rfl)
  rw [parts, forall_mem_cons] at bound
  obtain ⟨boundCode, boundClauses⟩ := bound
  have noGap := regular.noGap
  simp only [Spot.isGap, isTry, parts, any_eq_false] at noGap
  have each (clause : Tree) (member : clause ∈ clauses) : isTryClause clause = true ∧
      ∀ job, clauseBody? sink clause = some job → Spot.Ready strict ⟨job.1, aims, job.2⟩ := by
    have bound := boundClauses clause member
    rcases shapes clause member with ⟨isCatch, param, body, inside⟩ | ⟨isFinally, body, inside⟩
    · have ⟨pattern, bound⟩ := bound.scope (.inr isCatch) inside
      have few := noGap clause member
      simp only [is_eq isCatch, inside, head?_cons] at few
      refine ⟨by simpa [isTryClause, builtin?_eq isCatch, inside, pattern] using few, ?_⟩
      rw [clauseBody?, inside]
      rintro _ ⟨⟩
      exact .value (handlers clause member param body inside) bound takes follows
    · refine ⟨by simp [isTryClause, builtin?_eq isFinally, inside], ?_⟩
      rw [clauseBody?, inside]
      rintro _ ⟨⟩
      exact .value (finalizers clause member body inside)
        (bound.children (isFinally ▸ rfl) body (inside ▸ mem_singleton_self _)) trivial follows
  refine .intro (Spot.parts_tryBlock isTry parts) ?_ ?_
  · simp only [Spot.isFit, isTry, parts]
    exact all_eq_true.mpr fun clause member => (each clause member).1
  · refine forall_mem_cons.mpr ⟨.value inner boundCode takes follows, fun part isPart => ?_⟩
    obtain ⟨job, isBody, rfl⟩ := mem_map.mp isPart
    obtain ⟨clause, member, found⟩ := mem_filterMap.mp isBody
    exact (each clause member).2 job found

/-! ## Jumps -/

/-- A jump with the value that it brings, if there is one. -/
theorem passes_jump {taken : Sink} {wanted : Option Nat} (plain : bindsChildren t.symbol = true)
    (fit : Spot.isFit ⟨sink, aims, t⟩ = true) (takes : taken.Takes wanted)
    (all : Spot.parts ⟨sink, aims, t⟩ =
      t.children.head?.toList.map fun value => ⟨taken, aims, value⟩)
    (values : ∀ value, t.children.head? = some value → Accepts strict (.produce wanted) cx value) :
    Spot.Passes strict ⟨sink, aims, t⟩ := by
  refine .intro all fit fun part isPart => ?_
  obtain ⟨value, isValue, rfl⟩ := mem_map.mp isPart
  have isFirst := Option.mem_toList.mp isValue
  exact .value (values value isFirst) (bindable.children plain value (mem_of_head? isFirst)) takes
    follows

theorem passes_give {wanted : Option Nat} (isGive : t.symbol = .builtin .give)
    (nearest : cx.leave = some wanted)
    (values : ∀ value, t.children.head? = some value → Accepts strict (.produce wanted) cx value) :
    Spot.Passes strict ⟨sink, aims, t⟩ := by
  obtain ⟨aim, found, takes⟩ := follows.leave wanted nearest
  obtain ⟨outer, same⟩ := head?_eq_some_iff.mp found
  refine passes_jump bindable follows (isGive ▸ rfl) (by simp [Spot.isFit, isGive, same]) takes ?_
    values
  cases parts : t.children <;> simp [Spot.parts, isGive, parts, found]

theorem passes_nextRound {count : Nat}
    (isNext : t.symbol = .builtin .nextRound) (nearest : cx.nextRound = some count)
    (values : ∀ value, t.children.head? = some value →
      Accepts strict (.produce (some count)) cx value) :
    Spot.Passes strict ⟨sink, aims, t⟩ := by
  obtain ⟨aim, found, rfl⟩ := follows.nextRound count nearest
  refine passes_jump bindable follows (isNext ▸ rfl) ?_ (takes_round aim) ?_ values
  · have isLoop := find?_some found
    simp only [Spot.isFit, isNext]
    exact any_eq_true.mpr ⟨aim, mem_of_find?_eq_some found, isLoop⟩
  · cases parts : t.children <;> simp [Spot.parts, isNext, parts, found]

end Constructs

theorem children_of_leave (finished : t.Obeys (Info.Finished admitted))
    (isLeave : t.symbol = .builtin .leave) : t.children = [] := by
  have few := finished.root.arranges.length_le isLeave rfl rfl
  exact map_eq_nil_iff.mp (eq_nil_of_length_eq_zero (Nat.le_zero.mp few))

/-- What is left has no value. -/
theorem passes_leave {wanted : Option Nat} (finished : t.Obeys (Info.Finished admitted))
    (follows : Follows cx aims) (isLeave : t.symbol = .builtin .leave)
    (nearest : cx.leave = some wanted) : Spot.Passes strict ⟨sink, aims, t⟩ := by
  obtain ⟨aim, found, _⟩ := follows.leave wanted nearest
  obtain ⟨outer, same⟩ := head?_eq_some_iff.mp found
  have none := children_of_leave finished isLeave
  exact .intro (by simp [Spot.parts, isLeave, none]) (by simp [Spot.isFit, isLeave, same])
    (forall_mem_nil _)

/-- A name that gets a value. -/
theorem passes_name (isName : t.isTag ∨ t.is .var ∨ t.is .const) (place : isPlace t = true) :
    Spot.Passes strict ⟨.one, aims, t⟩ := by
  rcases isName with isTag | declares
  · have named := isNamed_of_isPlace place isTag
    obtain ⟨kind, isSymbol⟩ := Info.exists_tag isTag
    replace isSymbol : t.symbol = .tag kind := isSymbol
    rw [isNamed, Bool.and_eq_true] at named
    exact .intro (by simp [Spot.parts, isSymbol])
      (by simp [Spot.isFit, isSymbol, named.2, Sink.admits])
      (forall_mem_nil _)
  · obtain ⟨inner, rest, parts, named⟩ := exists_of_declaring place declares
    rcases declares with isOp | isOp
    all_goals
      have isSymbol : t.symbol = _ := Info.symbol_of_is isOp
      exact .intro (by simp [Spot.parts, isSymbol])
        (by simp [Spot.isFit, isSymbol, parts, named, Sink.admits]) (forall_mem_nil _)

/-! ## All trees -/

/-- What is ready passes, unless it is a gap or has one as a part. -/
theorem passes_of_ready {spot : Spot} (finished : spot.tree.Obeys (Info.Finished admitted))
    (ready : spot.Ready strict) (regular : spot.Regular strict)
    (others : ∀ part ∈ spot.parts, part.Regular strict) : spot.Passes strict := by
  cases ready with
  | name isName place => exact passes_name isName place
  | @value sink aims t expected cx accepts bindable takes follows =>
    cases accepts with
    | leaf isLeaf one => exact passes_leaf finished (takes.admits one) isLeaf
    | operator isOp simple enough one operands =>
      exact passes_simple bindable follows (takes.admits one) regular finished others isOp
        simple enough
        operands
    | member isMember parts one inner =>
      exact passes_member bindable follows (takes.admits one) regular isMember parts inner
    | object isObject one entries =>
      exact passes_object bindable follows (takes.admits one) regular isObject entries
    | function isFunction parts one inner =>
      exact passes_function bindable (takes.admits one) isFunction parts inner
    | tuple isTuple count elements =>
      exact passes_tuple bindable follows regular takes isTuple count elements
    | declaration isOp declares parts count =>
      exact passes_declaration regular takes isOp declares parts count
    | external isExternal _ =>
      exact .intro (by simp [Spot.parts, isExternal]) (by simp [Spot.isFit, isExternal])
        (forall_mem_nil _)
    | assign isAssign parts count target value =>
      exact passes_assign bindable follows takes finished regular isAssign parts count target value
    | root isRoot =>
      have noGap := regular.noGap
      simp only [Spot.isGap, isRoot] at noGap
      cases noGap
    | block isBlock _ lines =>
      exact passes_block bindable takes isBlock (by simp only [Spot.isFit, isBlock])
        (Spot.parts_block isBlock) follows lines
    | doBlock isDo _ lines =>
      exact passes_block bindable takes isDo (by simp only [Spot.isFit, isDo])
        (Spot.parts_doBlock isDo)
        (follows.enterDo takes) lines
    | choice isIf parts _ filled test consequent others =>
      exact passes_branches bindable follows takes isIf parts filled test consequent others
    | whileLoop isWhile parts _ test inner =>
      exact passes_whileLoop bindable follows isWhile parts test inner
    | endless isLoop parts inner => exact passes_endless bindable takes isLoop parts inner
    | loop isLoop parts first inner =>
      exact passes_loop bindable follows regular takes isLoop parts first inner
    | tryBlock isTry parts shapes inner handlers finalizers =>
      exact passes_tryBlock bindable follows regular takes isTry parts shapes inner
        handlers finalizers
    | give isGive nearest _ values => exact passes_give bindable follows isGive nearest values
    | nextRound isNext nearest values =>
      exact passes_nextRound bindable follows isNext nearest values
    | leave isLeave nearest _ => exact passes_leave finished follows isLeave nearest
    | ret isReturn values =>
      refine passes_jump bindable follows (isReturn ▸ rfl) (by simp [Spot.isFit, isReturn])
        (show Sink.one.Takes (some 1) from rfl) ?_ values
      cases parts : t.children <;> simp [Spot.parts, isReturn, parts]
    | throw isThrow parts inner =>
      refine passes_jump bindable follows (isThrow ▸ rfl) (by simp [Spot.isFit, isThrow, parts])
        (show Sink.one.Takes (some 1) from rfl) ?_ ?_
      · simp [Spot.parts, isThrow, parts]
      · rw [parts]
        rintro _ ⟨⟩
        exact inner
    | @invocation _ _ _ m isMacro =>
      have expanded := finished.root.expanded
      change Symbol.isMacro (Tree.symbol _) = true → Tree.symbol _ = _ ∧ _ at expanded
      rw [isMacro] at expanded
      cases (expanded rfl).1
    | stray isClause =>
      rw [regular.noClause] at isClause
      cases isClause

/-- What generation comes to from a ready spot is ready and passes, if there is no gap. -/
theorem ready_of_reaches {spot other : Spot} (finished : spot.tree.Obeys (Info.Finished admitted))
    (ready : spot.Ready strict) (regular : ∀ other, spot.Reaches other → other.Regular strict)
    (reaches : spot.Reaches other) :
    other.tree.Obeys (Info.Finished admitted) ∧ other.Ready strict ∧ other.Passes strict := by
  have passes {other : Spot} (reaches : spot.Reaches other)
      (finished : other.tree.Obeys (Info.Finished admitted)) (ready : other.Ready strict) :
      other.Passes strict :=
    passes_of_ready finished ready (regular other reaches) fun part isPart =>
      regular part (reaches.tail isPart)
  obtain ⟨finished, ready⟩ : other.tree.Obeys (Info.Finished admitted) ∧ other.Ready strict := by
    induction reaches with
    | refl => exact ⟨finished, ready⟩
    | tail before member ih =>
      exact ⟨(Spot.under_of_mem_parts member).obeys ih.1, (passes before ih.1 ih.2).ready _ member⟩
  exact ⟨finished, ready, passes reaches finished ready⟩

end Lowering

end Offside
