import Offside.Proofs.Lowering.Departure
import Offside.Proofs.Lowering.Payment
import Offside.Proofs.Lowering.Success.Compilation

/-!
# Values that are delivered

A path that runs to the end of the statements of a node has assigned every name that the values of
the node go to, and a path that leaves a `do` or `loop` has assigned the names of its values. This
holds of all that passes the check but for leaks: a `loop` whose body has an end, and a `give` that
returns the value of a function from where a value is asked for.
-/

namespace Offside

namespace Lowering

open List
open Stmt (CanEnd RunsAll runsAll_singleton)

/-! ## Leaks -/

/-- Decides whether values are asked for. -/
def Sink.asks : Sink → Bool
  | .into (_ + 1) => true
  | _ => false

theorem Dest.names_eq_nil {dest : Dest} (asks : dest.sink.asks = false) : dest.names = [] := by
  rcases dest with _ | (_ | _) | _
  case into.cons => cases asks
  all_goals rfl

/-- Decides whether the last line of a body is a jump. -/
def closes (code : Tree) : Bool :=
  if code.isBlock .block then code.children.getLast?.any (·.symbol.flags.jump)
  else code.symbol.flags.jump

namespace Spot

/-- Decides whether a node has no value at a spot that asks for one. -/
def isVoid (spot : Spot) : Bool :=
  match spot.tree.symbol, spot.tree.children with
  | .builtin .ifThen, _ :: _ :: rest => spot.sink.asks && (rest.find? (·.is .elseClause)).isNone
  | .builtin .whileLoop, _ | .builtin .external, _ | .block _, [] => spot.sink.asks
  | .builtin .give, [] | .builtin .leave, _ => spot.aims.head?.any (·.results.asks)
  | _, _ => false

/-- Decides whether a node may have no value at a spot that asks for one, and passes the check. -/
def isLeak (spot : Spot) : Bool :=
  match spot.tree.symbol with
  | .builtin .loop => spot.sink.asks && !spot.tree.children.getLast?.any closes
  | .builtin .give => spot.sink.asks && spot.aims.head?.any (·.results = .returned)
  | _ => false

/-- Generation comes to no spot that asks for a value in vain. -/
def Tight (spot : Spot) : Prop :=
  ∀ other, spot.Reaches other → other.isVoid = false ∧ other.isLeak = false

end Spot

open Spot (Tight)

variable {sink : Sink} {aims : List Aim} {t value : Tree} {ts : List Tree}

theorem Spot.Tight.part {spot part : Spot} {parts : List Spot} (tight : spot.Tight)
    (all : spot.parts = parts) (member : part ∈ parts) : part.Tight :=
  fun other reaches => tight other (.head (all ▸ member) reaches)

theorem Spot.Tight.each {spot : Spot} {parts : List Spot} (tight : spot.Tight)
    (all : spot.parts = parts) : ∀ part ∈ parts, part.Tight :=
  fun _ member => tight.part all member

theorem Spot.Tight.here {spot : Spot} (tight : spot.Tight) :
    spot.isVoid = false ∧ spot.isLeak = false :=
  tight spot (.refl spot)

/-- A node whose values are computed; what is no expression goes through a temporary. -/
structure Valued (aims : List Aim) (t : Tree) : Prop where
  somewhere : ∃ sink, Tight ⟨sink, aims, t⟩
  temporary : isExpression t = false → Tight ⟨.one, aims, t⟩

theorem Valued.of_one (tight : Tight ⟨.one, aims, t⟩) : Valued aims t :=
  ⟨⟨_, tight⟩, fun _ => tight⟩

/-- A node that is no expression and is handed to a destination may go through a temporary. -/
theorem Spot.Tight.handed {dest : Dest} (tight : Tight ⟨dest.sink, aims, t⟩)
    (handed : isHanded dest t = true) : Valued aims t := by
  refine ⟨⟨_, tight⟩, fun noExpression other reaches => ?_⟩
  have same : Spot.parts ⟨.one, aims, t⟩ = Spot.parts ⟨dest.sink, aims, t⟩ ∧
      isVoid ⟨.one, aims, t⟩ = false ∧ isLeak ⟨.one, aims, t⟩ = false := by
    unfold Spot.parts isVoid isLeak
    cases isSymbol : t.symbol with
    | builtin op =>
      unfold isHanded at handed
      unfold isExpression at noExpression
      rw [isSymbol] at handed noExpression
      cases op
      case tuple => cases dest <;> simp_all [Dest.sink]
      case ifThen => simp_all [is_eq isSymbol]
      case assign | member | fn =>
        rcases t.children with _ | ⟨_, _ | ⟨_, _ | _⟩⟩
        all_goals exact ⟨rfl, rfl, rfl⟩
      all_goals first | exact ⟨rfl, rfl, rfl⟩ | cases handed
    | block kind => simp [isHanded, isSymbol] at handed
    | _ => simp
  rcases Relation.ReflTransGen.cases_head reaches with rfl | ⟨part, member, onward⟩
  · exact same.2
  · exact tight.part rfl (same.1 ▸ member) other onward

theorem Spot.Tight.singleValue (tight : Tight ⟨sink, aims, t⟩)
    (single : singleValue? t = some value) : Tight ⟨sink, aims, value⟩ := by
  unfold singleValue? at single
  split at single
  case h_1 line isBlock only =>
    split at single
    case isTrue => cases single
    case isFalse =>
      cases single
      refine tight.part (parts_block isBlock) ?_
      rw [only]
      exact mem_singleton_self _
  case h_2 => cases single
  case h_3 =>
    cases single
    exact tight

/-- The operands of a node are computed. -/
theorem Operands.valued (operands : Operands t ts) (valued : Valued aims t) :
    ∀ u ∈ ts, Valued aims u := by
  obtain ⟨sink, tight⟩ := valued.somewhere
  cases operands with
  | literal => exact forall_mem_nil _
  | @children op isOp takes =>
    have isSymbol : t.symbol = .builtin op := Symbol.eq_builtin_of_builtin? isOp
    refine fun child member => .of_one (tight.part rfl ?_)
    by_cases isAssign : op = .assign
    case pos =>
      subst isAssign
      simp only [Spot.parts, isSymbol]
      split <;> simp_all [takesValues]
    case neg =>
      rw [Spot.parts_operator isSymbol takes isAssign]
      exact mem_map_of_mem member
  | @construction call isNew only isCall =>
    have inner : Tight ⟨.one, aims, call⟩ := by
      refine tight.part (Spot.parts_operator (Info.symbol_of_is isNew) rfl (by rintro ⟨⟩)) ?_
      rw [only]
      exact mem_singleton_self _
    exact fun child member => .of_one
      (inner.part (Spot.parts_operator (Info.symbol_of_is isCall) rfl (by rintro ⟨⟩))
        (mem_map_of_mem member))
  | entries isObject =>
    refine forall_mem_map.mpr fun entry member => .of_one ?_
    exact tight.part (Spot.parts_object (Info.symbol_of_is isObject))
      (mem_map.mpr ⟨entry, member, rfl⟩)
  | @property object property isMember parts computed =>
    have all : Spot.parts ⟨sink, aims, t⟩ = [⟨.one, aims, object⟩, ⟨.one, aims, property⟩] := by
      simp [Spot.parts, computed?, Tree.symbol, Info.symbol_of_is isMember, parts, computed]
    rw [forall_mem_cons, forall_mem_singleton]
    exact ⟨.of_one (tight.part all (.head _)), .of_one (tight.part all (.tail _ (.head _)))⟩
  | conditional isIf parts =>
    obtain ⟨branch, clause, other, inside, isElse, single, found, singleOther, pure⟩ :=
      exists_of_conditional parts
    rw [Bool.and_eq_true, Bool.and_eq_true] at pure
    have all : Spot.parts ⟨sink, aims, t⟩ = _ :=
      Spot.parts_choice (Info.symbol_of_is isIf) inside
    have plain {u : Tree} (tight : Tight ⟨sink, aims, u⟩) (pure : isPure u = true) :
        Valued aims u :=
      ⟨⟨sink, tight⟩, fun no => absurd (isExpression_of_isPure pure) (no ▸ Bool.false_ne_true)⟩
    rw [forall_mem_cons, forall_mem_cons, forall_mem_singleton]
    refine ⟨.of_one (tight.part all (.head _)), plain ?_ pure.1.2, plain ?_ pure.2⟩
    · exact (tight.part all (.tail _ (.head _))).singleValue single
    · refine Spot.Tight.singleValue (tight.part all (.tail _ (.tail _ ?_))) singleOther
      rw [find?_singleton, isElse, if_pos rfl, Option.bind_some, head?_eq_getElem?]
      exact mem_map.mpr ⟨other, Option.mem_toList.mpr found, rfl⟩

/-! ## Tasks -/

namespace Task

/-- The names that are assigned behind a task. -/
def owed : Task → List String
  | .values _ | .targets _ => []
  | .runs jobs => jobs.flatMap fun job => job.2.names
  | .body _ dest | .other _ dest | .tried _ dest _ => dest.names
  | .hosted _ inner => inner.owed

/-- Generation comes from a task to no spot that asks for a value in vain. -/
def Tight (aims : List Aim) : Task → Prop
  | .values ts => ∀ t ∈ ts, Valued aims t
  | .runs jobs => ∀ job ∈ jobs, Spot.Tight ⟨job.2.sink, aims, job.1⟩
  | .body t dest | .other t dest => Spot.Tight ⟨dest.sink, aims, t⟩
  | .hosted _ inner => inner.Tight aims
  | .targets pairs => ∀ pair ∈ pairs, Valued aims pair.1
  | .tried code dest clauses => Spot.Tight ⟨dest.sink, aims, code⟩ ∧
      ∀ clause ∈ clauses, ∀ job, clauseBody? dest.sink clause = some job →
        Spot.Tight ⟨job.1, aims, job.2⟩

/-- What is made of a task pays; the parts of a `try` do so one by one. -/
def Pays (jumps : List JumpTarget) : Task → List Stmt → Prop
  | .tried _ dest _, a => ∃ block handler finalizer, a = [.tryBlock block handler finalizer] ∧
      Lowering.Pays jumps dest.names block ∧
      (∀ param body, handler = some (.mk param body) → Lowering.Pays jumps dest.names body) ∧
      ∀ body, finalizer = some body → Lowering.Pays jumps [] body
  | task, a => Lowering.Pays jumps task.owed a

theorem Pays.whole {jumps : List JumpTarget} {task : Task} {a : List Stmt}
    (pays : task.Pays jumps a) : Lowering.Pays jumps task.owed a := by
  cases task with
  | tried =>
    obtain ⟨_, _, _, rfl, pays, handles, finishes⟩ := pays
    exact pays.tryBlock handles finishes
  | _ => exact pays

end Task

/-! ## Bodies that end with a jump -/

/-- Tasks that end with a jump. -/
def Task.Stops : Task → Prop
  | .runs jobs => ∃ job ∈ jobs.getLast?, closes job.1 = true
  | .body t _ => closes t = true
  | .hosted _ inner => inner.Stops
  | _ => False

theorem closes_eq {symbol : Symbol} (isSymbol : t.symbol = symbol)
    (noBlock : symbol ≠ .block .block) : closes t = symbol.flags.jump := by
  rw [closes, if_neg fun isBlock => noBlock ?_, isSymbol]
  exact isSymbol.symm.trans (Info.symbol_of_isBlock isBlock)

theorem closes_of_is {op : Builtin} (isOp : t.is op = true) : closes t = op.flags.jump :=
  closes_eq (Info.symbol_of_is isOp) (by rintro ⟨⟩)

theorem not_closes_of_isHanded {dest : Dest} (handed : isHanded dest t = true) :
    closes t = false := by
  unfold isHanded at handed
  cases isSymbol : t.symbol with
  | builtin op =>
    rw [isSymbol] at handed
    rw [closes_eq isSymbol (by rintro ⟨⟩)]
    cases op <;> first | rfl | cases handed
  | block kind =>
    rw [isSymbol] at handed
    cases handed
  | _ => rw [closes_eq isSymbol (by rintro ⟨⟩)]; rfl

theorem getLast?_lines (dest : Dest) (ts : List Tree) :
    (lines dest ts).getLast? = ts.getLast?.map (·, dest) := by
  induction ts using lines.induct with
  | case1 | case2 => rfl
  | case3 t next ts ih =>
    rw [lines, getLast?_cons_cons, ← ih]
    cases ts <;> rfl

theorem stops_lines {host : Info} {dest : Dest} (isBlock : t.isBlock .block = true)
    (closed : closes t = true) : (Task.hosted host (.runs (lines dest t.children))).Stops := by
  rw [closes, if_pos isBlock, Option.any_eq_true] at closed
  obtain ⟨last, isLast, jumps⟩ := closed
  refine ⟨(last, dest), by rw [getLast?_lines, isLast]; rfl, ?_⟩
  rw [closes_eq rfl]
  · exact jumps
  · intro isBlock
    rw [isBlock] at jumps
    cases jumps

/-- What ends with a jump is never passed, where no value is returned by the jump. -/
theorem Made.stops {task : Task} {s s' : GenState} {a : List Stmt} {es : List Expr}
    (made : Made task s a es s') (stops : task.Stops)
    (named : ∀ target ∈ s.jumps.head?, target.results ≠ .ret) : ¬CanEnd a := by
  have only {t : Tree} {dest : Dest} (stops : (Task.run t dest).Stops) : closes t = true := by
    obtain ⟨_, ⟨⟩, closed⟩ := stops
    exact closed
  have never {t : Tree} {dest : Dest} {op : Builtin} (isOp : t.is op = true)
      (noJump : op.flags.jump = false) : ¬(Task.run t dest).Stops := by
    intro stops
    rw [← closes_of_is isOp, only stops] at noJump
    cases noJump
  induction made with
  | noRuns =>
    obtain ⟨_, ⟨⟩, _⟩ := stops
  | @moreRuns job jobs s s₁ s₂ a b first rest ihFirst ihRest =>
    rw [Stmt.canEnd_append]
    rintro ⟨ends, goesOn⟩
    cases jobs with
    | nil => exact ihFirst stops named ends
    | cons next jobs =>
      refine ihRest stops ?_ goesOn
      have kept := first.grows.jumps
      generalize s.jumps = before, s₁.jumps = after at named kept
      cases kept with
      | nil => rintro _ ⟨⟩
      | cons here =>
        rintro _ ⟨⟩
        rw [here.results]
        exact named _ rfl
  | placed _ _ ih =>
    rw [Stmt.canEnd_map_withSpan]
    exact ih stops named
  | delivered _ delivered =>
    cases (not_closes_of_isHanded delivered.2).symm.trans (only stops)
  | returned | thrown | given | next => exact not_canEnd_behind rfl
  | returnedNothing | left => exact Stmt.not_canEnd_of_isTerminal rfl
  | givenBack _ nearest returns => exact absurd returns (named _ (by rw [nearest]; rfl))
  | silent _ _ isSilent =>
    rcases isSilent with isOp | ⟨_, isOp | isOp⟩ <;> exact absurd stops (never isOp rfl)
  | block isBlock _ ih =>
    rintro ⟨trace, runs⟩
    rcases runsAll_singleton.mp runs with ⟨_, ⟨⟩⟩ | inside
    exact ih (stops_lines isBlock (only stops)) named ⟨trace, inside⟩
  | bodyBlock isBlock _ ih => exact ih (stops_lines isBlock stops) named
  | bodyLine _ ih => exact ih ⟨_, rfl, stops⟩ named
  | @hosted host _ _ s₁ a _ ih =>
    unfold declaring
    split
    · exact ih stops named
    · exact fun ends => ih stops named (Stmt.canEnd_append (a := [_]).mp ends).2
  | doBlock isDo =>
    have closed := only stops
    rw [closes_eq (Info.symbol_of_isBlock isDo) (by rintro ⟨⟩)] at closed
    cases closed
  | dropped isOp | alone isOp | chosen isOp | chosenElse isOp | whilst isOp | whilstTrue isOp
  | endless isOp | started isOp | startedOutside isOp | tried isOp =>
    exact absurd stops (never isOp rfl)
  -- values, targets, clauses and what stands behind an `else` do not count
  | _ => exact stops.elim

/-! ## All tasks -/

theorem tight_lines {dest : Dest}
    (each : ∀ job ∈ flows dest.sink ts, Tight ⟨job.2, aims, job.1⟩) :
    (Task.runs (lines dest ts)).Tight aims := by
  induction ts using lines.induct with
  | case1 => exact forall_mem_nil _
  | case2 => exact forall_mem_singleton.mpr (each _ (.head _))
  | case3 t next ts ih =>
    obtain ⟨first, rest⟩ := forall_mem_cons.mp each
    exact forall_mem_cons.mpr ⟨first, ih rest⟩

/-- The lines of a block bring what is asked of it. -/
theorem Spot.Tight.lines {dest : Dest} {kind : BlockKind} {around : List Aim}
    (tight : Tight ⟨dest.sink, aims, t⟩) (isBlock : t.symbol = .block kind)
    (all : Spot.parts ⟨dest.sink, aims, t⟩ =
      (flows dest.sink t.children).map fun job => ⟨job.2, around, job.1⟩) :
    (Task.runs (lines dest t.children)).Tight around ∧
      dest.names ⊆ (Task.runs (lines dest t.children)).owed := by
  refine ⟨tight_lines fun job member => tight.part all (mem_map_of_mem member), ?_⟩
  cases last : t.children.getLast? with
  | none =>
    have void := tight.here.1
    simp only [isVoid, isBlock, getLast?_eq_none_iff.mp last] at void
    rw [Dest.names_eq_nil void]
    exact nil_subset _
  | some u =>
    have isLast : (u, dest) ∈ Lowering.lines dest t.children :=
      mem_of_getLast? (by rw [getLast?_lines, last]; rfl)
    exact fun name named => mem_flatMap.mpr ⟨_, isLast, named⟩

theorem tight_run {dest : Dest} :
    (Task.run t dest).Tight aims ↔ Spot.Tight ⟨dest.sink, aims, t⟩ :=
  forall_mem_singleton

theorem pays_run {jumps : List JumpTarget} {dest : Dest} {a : List Stmt} :
    (Task.run t dest).Pays jumps a ↔ Lowering.Pays jumps dest.names a := by
  change Lowering.Pays jumps (dest.names ++ []) a ↔ _
  rw [append_nil]

/-- The value of an assignment is asked of its right side. -/
theorem Spot.Tight.right {left right : Tree} (tight : Tight ⟨sink, aims, t⟩)
    (isAssign : t.is .assign = true) (parts : t.children = [left, right]) :
    Tight ⟨.into (received left), aims, right⟩ := by
  have isSymbol : t.symbol = _ := Info.symbol_of_is isAssign
  unfold received
  split
  case isTrue single =>
    exact tight.part (Spot.parts_single isSymbol parts single) (.tail _ (.head _))
  case isFalse several =>
    exact tight.part (Spot.parts_several isSymbol parts (Bool.eq_false_iff.mpr several)) (.head _)

theorem Elements.not_isSingleTarget {left : Tree} (several : Elements left ts) :
    isSingleTarget left = false := by
  unfold isSingleTarget
  cases several with
  | tuple isTuple => rw [show left.builtin? = _ from of_decide_eq_true isTuple]
  | declared declares parts isTuple =>
    rcases declares with isOp | isOp <;>
      simp [show left.builtin? = _ from of_decide_eq_true isOp, Tree.child?, parts, isTuple]

theorem Spot.Tight.elements {left right : Tree} (tight : Tight ⟨sink, aims, t⟩)
    (isAssign : t.is .assign = true) (parts : t.children = [left, right])
    (several : Elements left ts) :
    Tight ⟨.into ts.length, aims, right⟩ ∧ ∀ element ∈ ts, Tight ⟨.one, aims, element⟩ := by
  have all : Spot.parts ⟨sink, aims, t⟩ = _ :=
    parts_several (Info.symbol_of_is isAssign) parts several.not_isSingleTarget
  rw [Below.targets_of_elements several] at all
  exact ⟨tight.part all (.head _), fun element member =>
    tight.part all (.tail _ (mem_map.mpr ⟨element, member, rfl⟩))⟩

theorem Spot.Tight.no_names {dest : Dest} {op : Builtin} (tight : Tight ⟨dest.sink, aims, t⟩)
    (isOp : t.is op = true) (silent : op = .whileLoop ∨ op = .external) : dest.names = [] := by
  have void := tight.here.1
  refine Dest.names_eq_nil ?_
  rcases silent with rfl | rfl <;>
    simpa only [isVoid, Tree.symbol, Info.symbol_of_is isOp] using void

theorem Grows.nearest {s s₁ : GenState} {target : JumpTarget} {outer : List JumpTarget}
    (grows : Grows s s₁) (nearest : s.jumps = target :: outer) :
    ∃ behind, s₁.jumps = behind :: s₁.exit.jumps ∧ target.Kept behind := by
  have jumps := grows.jumps
  rw [nearest, forall₂_cons_left_iff] at jumps
  obtain ⟨behind, rest, kept, _, same⟩ := jumps
  exact ⟨behind, by rw [GenState.exit, same, tail_cons], kept⟩

theorem Spot.Tight.closed {dest : Dest} {code : Tree} (tight : Tight ⟨dest.sink, aims, t⟩)
    (isLoop : t.is .loop = true) (last : t.children.getLast? = some code) :
    dest.names = [] ∨ closes code = true := by
  have leak := tight.here.2
  simp only [isLeak, Tree.symbol, Info.symbol_of_is isLoop, last, Option.any_some,
    Bool.and_eq_false_iff, Bool.not_eq_false'] at leak
  exact leak.imp_left Dest.names_eq_nil

/-- The operand of a jump is computed for what the jump assigns. -/
theorem Spot.Tight.operand {dest : Dest} (tight : Tight ⟨sink, aims, t⟩)
    (all : ∀ value rest, t.children = value :: rest →
      Spot.parts ⟨sink, aims, t⟩ = [⟨dest.sink, aims, value⟩]) :
    (Task.runs ((t.children.take 1).map (·, dest))).Tight aims := by
  cases inside : t.children with
  | nil => exact forall_mem_nil _
  | cons value rest => exact forall_mem_singleton.mpr (tight.part (all value rest inside) (.head _))

/-- A `loop` that has no values or ends with a jump. -/
theorem Pays.loop {s s₁ : GenState} {code : Tree} {dest : Dest} {label : String}
    {loopVars : List String} {start a : List Stmt}
    (made : Made (.body code .discard) (s.enter ⟨.loop, label, dest, loopVars, false⟩) a [] s₁)
    (pays : Pays s₁.jumps [] a) (first : Pays s₁.exit.jumps [] start)
    (closed : dest.names = [] ∨ closes code = true) (declared : List String) :
    Pays s₁.exit.jumps dest.names (Lowering.looping label declared start a) := by
  obtain ⟨behind, same, kept⟩ := made.grows.nearest rfl
  rw [same] at pays
  have closed : behind.results.names = [] ∨ ¬CanEnd a := by
    rw [kept.results]
    by_cases named : dest.names = []
    · exact .inl named
    · refine .inr (made.stops (closed.resolve_left named) ?_)
      rintro _ ⟨⟩ rfl
      exact named rfl
  have whole := looping first pays closed declared
  rwa [kept.results, kept.label] at whole

/-- What is made of a task pays, if generation comes to no spot that asks for a value in vain. -/
theorem Made.pays {task : Task} {s s' : GenState} {a : List Stmt} {es : List Expr}
    (made : Made task s a es s') (tight : task.Tight s.aims) : task.Pays s'.jumps a := by
  induction made with
  | noValues | name | declared | noTargets | noRuns | function => exact Pays.nil
  | moreValues first rest ihFirst ihRest =>
    obtain ⟨here, there⟩ := forall_mem_append.mp tight
    exact ((ihFirst here).kept rest.grows.jumps).append (ihRest (first.stays rfl ▸ there))
  | spilled _ ih => exact (ih tight).append ((Pays.expr _).mono (nil_subset _))
  | valuePlaced _ _ ih => exact ih tight
  | through noExpression _ ih =>
    have only := forall_mem_singleton.mp tight
    exact (ih (tight_run.mpr (only.temporary noExpression))).mono (nil_subset _)
  | composed operands _ _ ih => exact ih (operands.valued (forall_mem_singleton.mp tight))
  | property isMember parts _ _ _ ih =>
    obtain ⟨_, inner⟩ := (forall_mem_singleton.mp tight).somewhere
    refine ih (forall_mem_singleton.mpr (.of_one ?_))
    exact inner.part (Spot.parts_member (Info.symbol_of_is isMember) parts) (.head _)
  | @lazily t _ _ _ s₁ _ _ _ e f _ isLogical parts first second _ ihFirst ihSecond =>
    have operands : Operands t t.children := by
      rcases isLogical with isOp | isOp <;> exact .children (of_decide_eq_true isOp) rfl
    have each := operands.valued (forall_mem_singleton.mp tight)
    rw [parts, forall_mem_cons, forall_mem_singleton] at each
    have inside := (ihSecond (first.stays rfl ▸ forall_mem_singleton.mpr each.2)).append
      ((Pays.expr (.assign (.ident s₁.nextTemp) f)).mono (nil_subset _))
    exact ((ihFirst (forall_mem_singleton.mpr each.1)).kept second.grows.jumps).append
      (.append ((Pays.expr _).mono (nil_subset _)) inside.block.ifThen)
  | elements isTuple _ ih =>
    have isSymbol := Info.symbol_of_is isTuple
    have inner := (forall_mem_singleton.mp tight).temporary
      (by simp [isExpression, is_eq isSymbol, Tree.symbol, isSymbol, isForm, binaryOp?])
    exact ih fun element member => .of_one (inner.part (Spot.parts_tuple isSymbol)
      (mem_map.mpr ⟨element, member, rfl⟩))
  | assigned isAssign parts takes _ _ ih =>
    obtain ⟨_, inner⟩ := (forall_mem_singleton.mp tight).somewhere
    refine (ih (tight_run.mpr ?_)).mono (nil_subset _)
    rw [Dest.sink, takes.2]
    exact inner.right isAssign parts
  | assignedThrough isAssign parts several run copies ihRun ihCopies =>
    obtain ⟨_, inner⟩ := (forall_mem_singleton.mp tight).somewhere
    obtain ⟨right, each⟩ := inner.elements isAssign parts several
    have before := ihRun (tight_run.mpr (by
      rwa [Dest.sink, length_nextTemps, GenState.aims_withTemps]))
    refine ((before.kept copies.grows.jumps).mono (nil_subset _)).append (ihCopies ?_)
    rw [run.stays (GenState.aims_withTemps _ _)]
    exact fun pair member => .of_one (each _ (of_mem_zip member).1)
  | moreTargets target rest ihFirst ihRest =>
    obtain ⟨here, there⟩ := forall_mem_cons.mp tight
    exact ((ihFirst (forall_mem_singleton.mpr here)).kept rest.grows.jumps).append
      (.append ((Pays.expr _).mono (nil_subset _)) (ihRest (target.stays rfl ▸ there)))
  | moreRuns first rest ihFirst ihRest =>
    obtain ⟨here, there⟩ := forall_mem_cons.mp tight
    have before := pays_run.mp (ihFirst (tight_run.mpr here))
    exact (before.kept rest.grows.jumps).append (ihRest (first.stays rfl ▸ there))
  | placed span _ ih => exact (ih tight).placed span
  | delivered values delivered ih =>
    obtain ⟨delivered, handed⟩ := delivered
    have before := ih (forall_mem_singleton.mpr ((tight_run.mp tight).handed handed))
    refine pays_run.mpr (before.append ?_)
    cases delivered with
    | discard e => exact (Pays.expr e).mono (nil_subset _)
    | dropped => exact Pays.nil
    | ret e => exact .stop fun _ _ runs => .inl runs.2
    | into fits => exact Pays.assigns fits
  | silent dest s isSilent =>
    rcases isSilent with isOp | ⟨rfl, _⟩
    · rw [pays_run, (tight_run.mp tight).no_names isOp (.inr rfl)]
      exact Pays.nil
    · exact Pays.nil
  | dropped isTuple _ ih =>
    have each := (tight_run.mp tight).each (Spot.parts_tuple (Info.symbol_of_is isTuple))
    refine (ih (forall_mem_map.mpr fun element member => ?_)).mono (nil_subset _)
    exact each _ (mem_map.mpr ⟨element, member, rfl⟩)
  | alone isTuple only _ ih =>
    have each := (tight_run.mp tight).each (Spot.parts_tuple (Info.symbol_of_is isTuple))
    rw [only] at each
    exact ih (tight_run.mpr (each _ (.head _)))
  | returned isOp parts _ ih | thrown isOp parts _ ih =>
    have value := (tight_run.mp tight).part
      (Spot.parts_result (Info.symbol_of_is isOp) (by decide) parts) (.head _)
    refine (ih (forall_mem_singleton.mpr (.of_one value))).append (.stop fun _ _ runs => ?_)
    first | exact .inl runs.2 | exact .inr (.inl runs.2)
  | returnedNothing => exact .stop fun _ _ runs => .inl runs.2
  | block isBlock _ ih =>
    have isSymbol := Info.symbol_of_isBlock isBlock
    obtain ⟨each, enough⟩ :=
      (tight_run.mp tight).lines isSymbol (Spot.parts_block isSymbol)
    exact pays_run.mpr (((ih each).mono enough).block)
  | hosted _ ih => exact (ih tight).whole.declaring _
  | bodyBlock isBlock _ ih =>
    have isSymbol := Info.symbol_of_isBlock isBlock
    obtain ⟨each, enough⟩ := Spot.Tight.lines tight isSymbol (Spot.parts_block isSymbol)
    exact (ih each).mono enough
  | bodyLine _ ih | otherOnly _ ih => exact pays_run.mp (ih (tight_run.mpr tight))
  | otherBlock _ ih => exact (ih tight).block
  -- choices and loops
  | chosen isIf parts noElse first second ihFirst ihSecond =>
    have inner := tight_run.mp tight
    have each := inner.each (Spot.parts_choice (Info.symbol_of_is isIf) parts)
    have void := inner.here.1
    simp only [Spot.isVoid, Tree.symbol, Info.symbol_of_is isIf, parts, noElse, Option.isNone_none,
      Bool.and_true] at void
    have before := ihFirst (forall_mem_singleton.mpr (.of_one (each _ (.head _))))
    have inside := ihSecond (first.stays rfl ▸ each _ (.tail _ (.head _)))
    rw [pays_run, Dest.names_eq_nil void]
    exact (before.kept second.grows.jumps).append (inside.mono (nil_subset _)).block.ifThen
  | chosenElse isIf parts found inside first second third ihFirst ihSecond ihThird =>
    have each := (tight_run.mp tight).each
      (Spot.parts_choice (Info.symbol_of_is isIf) parts)
    have before := ihFirst (forall_mem_singleton.mpr (.of_one (each _ (.head _))))
    have branch := ihSecond (first.stays rfl ▸ each _ (.tail _ (.head _)))
    have alternate := ihThird (second.stays (first.stays rfl) ▸
      each _ (.tail _ (.tail _ (by rw [found, Option.bind_some, inside]; exact .head _))))
    exact pays_run.mpr ((before.kept (second.grows.trans third.grows).jumps).append
      ((branch.kept third.grows.jumps).block.ifElse alternate))
  | whilst isWhile parts first second ihFirst ihSecond
  | whilstTrue isWhile parts first second ihFirst ihSecond =>
    have inner := tight_run.mp tight
    have each := inner.each (Spot.parts_whileLoop (Info.symbol_of_is isWhile) parts)
    have before := (ihFirst (forall_mem_singleton.mpr (.of_one (each _ (.head _))))).kept
      second.grows.jumps
    have inside := ihSecond (first.stays rfl ▸ each _ (.tail _ (.head _)))
    rw [pays_run, inner.no_names isWhile (.inl rfl)]
    first
    | exact before.append (.whileLoop fun trace exit runs => .inr (inside trace exit runs))
    | exact before.guarded inside
  | @doBlock _ _ _ s₁ _ isDo made ih =>
    have isSymbol := Info.symbol_of_isBlock isDo
    obtain ⟨each, enough⟩ :=
      (tight_run.mp tight).lines isSymbol (Spot.parts_doBlock isSymbol)
    obtain ⟨behind, same, kept⟩ := made.grows.nearest rfl
    have inside := (ih each).mono enough
    rw [same] at inside
    have whole : Pays s₁.exit.jumps behind.results.names _ :=
      .marked (by rw [kept.results]; exact inside)
    rw [kept.results, kept.label] at whole
    rw [pays_run, same]
    exact whole
  | endless isLoop parts made ih =>
    have inner := tight_run.mp tight
    have inside := ih (inner.part (Spot.parts_endless (Info.symbol_of_is isLoop) parts) (.head _))
    exact pays_run.mpr
      (.loop made inside Pays.nil (inner.closed isLoop (by rw [parts]; rfl)) _)
  | @started _ head _ _ _ _ _ _ _ _ _ isLoop parts starts first made ihFirst ihInner =>
    obtain ⟨_, _, _⟩ := head
    cases starts
    have inner := tight_run.mp tight
    have each := inner.each (Spot.parts_loop (Info.symbol_of_is isLoop) parts)
    have before := ihFirst (tight_run.mpr (each _ (.head _)))
    have inside := ihInner (by
      rw [GenState.aims, GenState.enter, map_cons, ← GenState.aims, first.stays rfl]
      exact each _ (.tail _ (.head _)))
    exact pays_run.mpr (.loop made inside
      ((before.kept made.grows.exit.jumps).mono (nil_subset _))
      (inner.closed isLoop (by rw [parts]; rfl)) _)
  | @startedOutside _ head names _ _ _ s _ s₂ _ _ isLoop parts starts first made ihFirst ihInner =>
    obtain ⟨_, _, _⟩ := head
    cases starts
    have inner := tight_run.mp tight
    have each := inner.each (Spot.parts_loop (Info.symbol_of_is isLoop) parts)
    have before := ihFirst (tight_run.mpr (by
      rw [Dest.sink, length_nextTemps, GenState.aims_withTemps]
      exact each _ (.head _)))
    have inside := ihInner (by
      rw [GenState.aims, GenState.enter, map_cons, ← GenState.aims,
        first.stays (GenState.aims_withTemps _ _)]
      exact each _ (.tail _ (.head _)))
    have copies : Pays s₂.exit.jumps names.spelled (assigns names.spelled
        ((s.withLabel.nextTemps names.spelled.length).map .ident)) :=
      .assigns (by rw [length_map, length_nextTemps])
    have round := Pays.loop made inside (copies.mono (nil_subset _))
      (inner.closed isLoop (by rw [parts]; rfl))
    exact pays_run.mpr (((before.kept made.grows.exit.jumps).append (round _)).mono
      (subset_append_right _ _))
  -- clauses
  | tried isTry parts _ ih =>
    have each := (tight_run.mp tight).each
      (Spot.parts_tryBlock (Info.symbol_of_is isTry) parts)
    refine pays_run.mpr (ih ⟨each _ (.head _), fun clause member job found => ?_⟩).whole
    exact each _ (.tail _ (mem_map.mpr ⟨job, mem_filterMap.mpr ⟨clause, member, found⟩, rfl⟩))
  | tryCode _ ih => exact ⟨_, none, none, rfl, ih tight.1, by rintro _ _ ⟨⟩, by rintro _ ⟨⟩⟩
  | @tryCatch _ _ _ inner _ dest _ _ _ _ _ _ _ _ _ parts _ before body ihBefore ihBody =>
    obtain ⟨first, last⟩ := forall_mem_append.mp tight.2
    obtain ⟨_, _, _, ⟨⟩, pays, _, finishes⟩ := ihBefore ⟨tight.1, first⟩
    have handles := ihBody (before.stays rfl ▸ forall_mem_singleton.mp last (dest.sink, inner)
      (by rw [clauseBody?, parts]))
    refine ⟨_, _, _, rfl, pays.kept body.grows.jumps, ?_, fun code same => ?_⟩
    · rintro _ _ ⟨⟩
      exact handles
    · exact (finishes code same).kept body.grows.jumps
  | @tryFinally _ _ inner _ _ _ _ _ _ _ _ _ _ parts before body ihBefore ihBody =>
    obtain ⟨first, last⟩ := forall_mem_append.mp tight.2
    obtain ⟨_, _, _, ⟨⟩, pays, handles, _⟩ := ihBefore ⟨tight.1, first⟩
    have finishes := ihBody (before.stays rfl ▸ forall_mem_singleton.mp last (.dropped, inner)
      (by rw [clauseBody?, parts]))
    refine ⟨_, _, _, rfl, pays.kept body.grows.jumps, fun param code same => ?_, ?_⟩
    · exact (handles param code same).kept body.grows.jumps
    · rintro _ ⟨⟩
      exact finishes
  -- jumps
  | @given t target _ _ s s₁ _ isGive nearest values ih =>
    have inner := tight_run.mp tight
    have aims : s.aims.head? = some target.aim := by rw [GenState.aims, nearest]; rfl
    have before := ih (inner.operand fun value rest inside =>
      Spot.parts_give (Info.symbol_of_is isGive) inside aims)
    obtain ⟨behind, same, kept⟩ := values.grows.nearest nearest
    rw [pays_run, ← kept.label]
    refine .left same (before.mono ?_)
    rw [kept.results]
    cases inside : t.children with
    | nil =>
      have void := inner.here.1
      simp only [Spot.isVoid, Tree.symbol, Info.symbol_of_is isGive, inside, aims,
        Option.any_some] at void
      rw [Dest.names_eq_nil void]
      exact nil_subset _
    | cons value rest => exact subset_append_left _ _
  | @givenBack _ target _ _ s _ _ isGive nearest returns values ih =>
    have inner := tight_run.mp tight
    have aims : s.aims.head? = some target.aim := by rw [GenState.aims, nearest]; rfl
    have leak := inner.here.2
    simp only [Spot.isLeak, Tree.symbol, Info.symbol_of_is isGive, aims, Option.any_some,
      JumpTarget.aim, returns, Dest.sink, decide_true, Bool.and_true] at leak
    have before := ih (inner.operand fun value rest inside => by
      rw [Spot.parts_give (Info.symbol_of_is isGive) inside aims, JumpTarget.aim, returns])
    rw [pays_run, Dest.names_eq_nil leak]
    exact before.mono (nil_subset _)
  | @next _ target _ _ s s₁ _ isNext nearest takes values ih =>
    have aims : s.aims.find? (·.kind = .loop) = some target.aim := by
      rw [GenState.aims, find?_map]
      exact congrArg (Option.map JumpTarget.aim) nearest
    have before := ih ((tight_run.mp tight).operand fun value rest parts => by
      rw [takes, Below.JumpTarget.sink_round]
      exact Spot.parts_nextRound (Info.symbol_of_is isNext) parts aims)
    refine pays_run.mpr (((before.kept (Grows.mark s₁ target.label).jumps).append
      (.stop fun _ _ runs => ?_)).mono (subset_append_right _ _))
    exact .inr (.inr ⟨_, runs.2⟩)
  | @left _ _ _ _ _ isLeave nearest =>
    have void := (tight_run.mp tight).here.1
    simp only [Spot.isVoid, Tree.symbol, Info.symbol_of_is isLeave, GenState.aims, nearest,
      map_cons, head?_cons, Option.any_some, JumpTarget.aim] at void
    refine pays_run.mpr (.left (a := []) nearest ?_)
    rw [Dest.names_eq_nil void]
    exact Pays.nil

/-! ## What passes the check -/

/-- What is accepted strictly has a value where one is asked for. -/
theorem not_isVoid_of_ready {spot : Spot} {admitted : String → Prop} (ready : spot.Ready True)
    (finished : spot.tree.Obeys (Info.Finished admitted)) (regular : spot.Regular True) :
    spot.isVoid = false := by
  cases ready with
  | name isName place =>
    rcases symbol_of_isPlace place with ⟨kind, isTag⟩ | ⟨op, isOp, member⟩
    · simp [Spot.isVoid, isTag]
    · simp only [mem_cons, not_mem_nil, or_false] at member
      rcases member with rfl | rfl | rfl | rfl <;> simp [Spot.isVoid, isOp]
  | @value sink aims t expected cx accepts bindable takes follows =>
    have unasked {sink : Sink} {wanted : Option Nat} (takes : sink.Takes wanted)
        (none : wanted.any (0 < ·) = false) : sink.asks = false := by
      rcases sink with _ | (_ | count) | _
      case into.succ => cases (show wanted = _ from takes) ▸ none
      all_goals rfl
    have valueless (meets : Check.Meets expected 0) : sink.asks = false := by
      refine unasked takes ?_
      rcases expected with _ | wanted
      · rfl
      · cases meets wanted rfl
        rfl
    have targetless {wanted : Option Nat} (nearest : cx.leave = some wanted)
        (none : wanted.any (0 < ·) = false) : aims.head?.any (·.results.asks) = false := by
      obtain ⟨aim, found, takes⟩ := follows.leave wanted nearest
      rw [found]
      exact unasked takes none
    unfold Spot.isVoid
    dsimp only
    cases accepts with
    | leaf isLeaf =>
      rcases isLeaf with isValue | ⟨_, isTag⟩
      · rw [isValue]
      · rw [isTag]
    | @operator _ _ _ op isOp simple =>
      rw [isOp]
      cases op <;> first | rfl | cases simple
    | declaration isOp declares =>
      rw [isOp]
      rcases declares with rfl | rfl <;> rfl
    | external isOp none | whileLoop isOp _ none =>
      rw [isOp]
      exact valueless (none trivial)
    | root isRoot =>
      have noGap := regular.noGap
      simp only [Spot.isGap, isRoot] at noGap
      cases noGap
    | block isBlock filled | doBlock isBlock filled =>
      rw [isBlock]
      cases inside : t.children with
      | nil => exact valueless (filled trivial inside)
      | cons line rest => rfl
    | choice isIf parts complete =>
      rw [isIf, parts]
      cases asked : expected.any (0 < ·) with
      | false => simp [unasked takes asked]
      | true => simp [← Option.not_isSome, complete trivial asked]
    | give isGive nearest none =>
      rw [isGive]
      cases inside : t.children with
      | nil => exact targetless nearest (none trivial inside)
      | cons value rest => rfl
    | leave isLeave nearest none =>
      rw [isLeave]
      exact targetless nearest (none trivial (children_of_leave finished isLeave))
    | invocation isMacro => rw [isMacro]
    | stray isClause =>
      rw [regular.noClause] at isClause
      cases isClause
    | _ isOp => rw [isOp]

/-- Generation of a whole unit comes to no gap and to no leak. -/
def Sealed (t : Tree) : Prop :=
  ∀ line ∈ (Spot.mk .dropped [] t).parts, ∀ spot, line.Reaches spot →
    spot.Regular True ∧ spot.isLeak = false

end Lowering

namespace SourceUnit

open List
open Lowering (Sealed Spot Pays upTo)

/--
If no step up to the check reports anything and generation comes to no gap and no leak, all that is
made for some names at a spot that generation comes to pays: a path to its end has assigned the
names, and a path out of the `do` or `loop` around it those of the `do` or `loop`.
-/
theorem pays_of_silent {env : Environment} (calls : env.CallsOnly) (settings : Scan.Settings)
    (text : List Char) (prelude trace : Bool) (kept : Option (List Char))
    (silent : ∀ unit ∈ steps settings text env prelude trace kept, unit.diagnostics = #[]) :
    let checked :=
      ((((read settings text).combine env prelude).expand env trace kept).bind env).check
    Sealed checked.tree → ∀ line ∈ (Spot.mk .dropped [] checked.tree).parts, ∀ spot,
      line.Reaches spot → ∀ names height s a s', spot.sink = .into names.length →
        s.aims = spot.aims → (upTo height).lower spot.tree (.into names) s = .ok (a, s') →
          Pays s'.jumps names a := by
  intro checked isSealed line isLine spot reaches names height s a s' asks here lowered
  obtain ⟨finished, ready⟩ :=
    (ready_of_silent calls settings text prelude trace kept silent).2 line isLine
  have tight : spot.Tight := by
    intro other onward
    obtain ⟨finished, ready, _⟩ := Lowering.ready_of_reaches finished ready
      (fun other reaches => (isSealed line isLine other reaches).1) (reaches.trans onward)
    obtain ⟨regular, noLeak⟩ := isSealed line isLine other (reaches.trans onward)
    exact ⟨Lowering.not_isVoid_of_ready ready finished regular, noLeak⟩
  have made := ((Lowering.sound_upTo height).lower _ (.into names) here).ensures a s' lowered
  refine Lowering.pays_run.mp (made.pays (Lowering.tight_run.mpr ?_))
  rw [here, Lowering.Dest.sink, ← asks]
  exact tight

/-- A source that gives a name its value by jumps out of a `do` and a `loop`, or by a handler. -/
def givingText : List Char :=
  ("#external a\nvar x = do\n  if a\n    give 1\n  try\n    loop\n      if a\n        give 2\n" ++
    "      next\n  catch e\n    3").toList

theorem pays_givingText :
    let checked := ((((read ⟨0, none⟩ givingText).combine .standard true).expand .standard false
      none).bind .standard).check
    (∀ unit ∈ steps ⟨0, none⟩ givingText .standard true false none, unit.diagnostics = #[]) ∧
      Sealed checked.tree ∧ ∃ line ∈ (Spot.mk .dropped [] checked.tree).parts, ∃ spot ∈ line.parts,
        spot.tree.isBlock .doBlock = true ∧ ∃ a s',
          (upTo 12).lower spot.tree (.into ["x"]) .start = .ok (a, s') ∧ Pays s'.jumps ["x"] a := by
  intro checked
  obtain ⟨silent, plain, found⟩ :
      (∀ unit ∈ steps ⟨0, none⟩ givingText .standard true false none, unit.diagnostics = #[]) ∧
        (Spot.mk .dropped [] checked.tree).parts.all
          (Spot.allWithin (fun spot => spot.isPlain && !spot.isLeak) 12) = true ∧
        ∃ line ∈ (Spot.mk .dropped [] checked.tree).parts, ∃ spot ∈ line.parts,
          (spot.tree.isBlock .doBlock && spot.sink = .into 1 && spot.aims = [] &&
            ((upTo 12).lower spot.tree (.into ["x"]) .start).toOption.isSome) = true := by
    decide +kernel
  have isSealed : Sealed checked.tree := by
    intro line member spot reaches
    have here := reaches.of_allWithin (all_eq_true.mp plain line member)
    rw [Bool.and_eq_true, Bool.not_eq_true'] at here
    exact ⟨Spot.regular_of_isPlain here.1, here.2⟩
  obtain ⟨line, isLine, spot, isPart, found⟩ := found
  simp only [Bool.and_eq_true, decide_eq_true_eq] at found
  obtain ⟨⟨⟨isDo, sink⟩, aims⟩, result⟩ := found
  refine ⟨silent, isSealed, line, isLine, spot, isPart, isDo, ?_⟩
  cases lowered : (upTo 12).lower spot.tree (.into ["x"]) .start with
  | error e =>
    rw [lowered] at result
    cases result
  | ok r =>
    exact ⟨r.1, r.2, rfl, pays_of_silent .standard ⟨0, none⟩ givingText true false none silent
      isSealed line isLine spot (.single isPart) ["x"] 12 .start r.1 r.2 sink aims.symm lowered⟩

end SourceUnit

/-- The value of a `loop` whose body has an end is assigned. -/
def leaking : Compilation :=
  compile "main" "var x = loop\n  1".toList .standard ⟨true, false, true, none⟩

/-- Decides whether a program is a loop that is left behind an expression. -/
def isLeft : Program → Bool
  | [.decl _, .located _ (.labeled label (.whileLoop _
      (.block [.located _ (.expr e), .leave (some other)])))] => label = other && e.assigned = []
  | _ => false

theorem runsAll_of_isLeft {program : Program} (isLeft : isLeft program = true) :
    Stmt.RunsAll program [] .normal := by
  unfold Offside.isLeft at isLeft
  split at isLeft
  · rw [Bool.and_eq_true, decide_eq_true_eq, decide_eq_true_eq] at isLeft
    obtain ⟨rfl, none⟩ := isLeft
    refine .inr (.inr ⟨[], [], rfl, ⟨rfl, rfl⟩, Stmt.runsAll_singleton.mpr (.inr (.inr ⟨?_, rfl⟩))⟩)
    refine .away (.inr (.inr ⟨[], [], rfl, ⟨none.symm, rfl⟩, ?_⟩)) rfl (by rintro ⟨⟩)
    exact Stmt.runsAll_singleton.mpr (.inr ⟨rfl, rfl⟩)
  · cases isLeft

/-- A path comes to the end and has not assigned `x`, nor anything else. -/
theorem unpaid_leaking :
    ∃ program ∈ leaking.program, program.declared = ["x"] ∧ Stmt.RunsAll program [] .normal := by
  have found : ∃ program ∈ leaking.program, program.declared = ["x"] ∧ isLeft program = true := by
    decide +kernel
  obtain ⟨program, made, declared, isLeft⟩ := found
  exact ⟨program, made, declared, runsAll_of_isLeft isLeft⟩

end Offside
