import Offside.Lowering
import Offside.Proofs.Binding.Checked
import Offside.Proofs.Program.Spans
import Offside.Proofs.Tree.Preorder

/-!
# Generation from other places

Generation takes the places of nodes into the program and does nothing else with them: from a tree
with other places it makes the same program with other places. So trees that differ in nothing but
places have programs that differ in nothing but places.
-/

namespace Offside

open List

/-! ## Trees -/

/-- The contents of a node at another place. -/
def Info.mapSpan (f : Span → Span) (info : Info) : Info :=
  { info with
    loc := (f ⟨info.loc, info.origin⟩).loc
    origin := (f ⟨info.loc, info.origin⟩).origin }

theorem Info.symbol_mapSpan (f : Span → Span) (info : Info) :
    (info.mapSpan f).symbol = info.symbol :=
  rfl

theorem Info.declaredNames_mapSpan (f : Span → Span) (info : Info) :
    (info.mapSpan f).declaredNames = info.declaredNames :=
  rfl

@[simp] theorem Info.is_mapSpan (f : Span → Span) (info : Info) (op : Builtin) :
    (info.mapSpan f).is op = info.is op :=
  rfl

/-- The tree with other places. -/
def Tree.mapSpan (f : Span → Span) (t : Tree) : Tree :=
  t.mapInfo (Info.mapSpan f)

namespace Tree

variable (f : Span → Span) (t : Tree)

theorem mapSpan_node (id : NodeId) (info : Info) (children : List Tree) :
    mapSpan f (.node id info children) =
      .node id (info.mapSpan f) (children.map (mapSpan f)) := by
  rw [mapSpan, mapInfo_node]
  rfl

@[simp] theorem info_mapSpan : (t.mapSpan f).info = t.info.mapSpan f := by
  obtain ⟨id, info, children⟩ := t
  rw [mapSpan_node]
  rfl

@[simp] theorem children_mapSpan : (t.mapSpan f).children = t.children.map (mapSpan f) := by
  obtain ⟨id, info, children⟩ := t
  rw [mapSpan_node]
  rfl

/-- What is read from contents without a look at their place. -/
theorem read_mapSpan {α : Type} (read : Info → α)
    (blind : ∀ info, read (info.mapSpan f) = read info) :
    read (t.mapSpan f).info = read t.info := by
  rw [info_mapSpan, blind]

@[simp] theorem symbol_mapSpan : (t.mapSpan f).symbol = t.symbol :=
  read_mapSpan f t Info.symbol fun _ => rfl

@[simp] theorem name?_mapSpan : (t.mapSpan f).name? = t.name? :=
  read_mapSpan f t Info.name? fun _ => rfl

@[simp] theorem builtin?_mapSpan : (t.mapSpan f).builtin? = t.builtin? :=
  congrArg Symbol.builtin? (symbol_mapSpan f t)

@[simp] theorem isTag_mapSpan : (t.mapSpan f).isTag = t.isTag :=
  read_mapSpan f t Info.isTag fun _ => rfl

@[simp] theorem is_mapSpan (op : Builtin) : (t.mapSpan f).is op = t.is op :=
  read_mapSpan f t (Info.is · op) fun _ => rfl

@[simp] theorem isBlock_mapSpan (kind : BlockKind) : (t.mapSpan f).isBlock kind = t.isBlock kind :=
  read_mapSpan f t (Info.isBlock · kind) fun _ => rfl

mutual

theorem height_mapSpan (t : Tree) : (t.mapSpan f).height = t.height := by
  obtain ⟨id, info, children⟩ := t
  rw [mapSpan_node, height, height, heightOfAll_mapSpan children]

theorem heightOfAll_mapSpan (ts : List Tree) :
    heightOfAll (ts.map (mapSpan f)) = heightOfAll ts := by
  cases ts with
  | nil => rfl
  | cons t ts => rw [map_cons, heightOfAll, heightOfAll, height_mapSpan t, heightOfAll_mapSpan ts]

end

mutual

theorem nodes_mapSpan (t : Tree) :
    (t.mapSpan f).nodes = t.nodes.map fun node => (node.1, node.2.mapSpan f) := by
  obtain ⟨id, info, children⟩ := t
  rw [mapSpan_node, nodes_node, nodes_node, nodesAll_mapSpan children, map_cons]

theorem nodesAll_mapSpan (ts : List Tree) :
    nodesAll (ts.map (mapSpan f)) = (nodesAll ts).map fun node => (node.1, node.2.mapSpan f) := by
  cases ts with
  | nil => simp
  | cons t ts => simp [nodes_mapSpan t, nodesAll_mapSpan ts]

end

end Tree

namespace Lowering

/-! ## Computations -/

section Computations

variable {α β : Type}

/-- What is generated, without the reasons of failures. -/
def seen (x : Gen α) : StateT GenState Option α :=
  fun s => (x s).toOption

def stuck : StateT GenState Option α :=
  fun _ => none

@[simp] theorem map_stuck (g : α → β) : g <$> (stuck : StateT GenState Option α) = stuck :=
  rfl

@[simp] theorem stuck_bind (next : α → StateT GenState Option β) : stuck >>= next = stuck :=
  rfl

theorem map_ite (c : Prop) [Decidable c] (g : α → β) (x y : StateT GenState Option α) :
    g <$> (if c then x else y) = if c then g <$> x else g <$> y :=
  apply_ite ..

@[simp] theorem seen_pure (a : α) : seen (pure a) = pure a :=
  rfl

@[simp] theorem seen_bind (x : Gen α) (next : α → Gen β) :
    seen (x >>= next) = seen x >>= fun a => seen (next a) := by
  funext s
  change (x s >>= fun p => next p.1 p.2).toOption =
    (x s).toOption >>= fun p => (next p.1 p.2).toOption
  cases x s <;> rfl

@[simp] theorem seen_map (g : α → β) (x : Gen α) : seen (g <$> x) = g <$> seen x := by
  simp only [← bind_pure_comp, seen_bind, seen_pure]

@[simp] theorem seen_malformed (t : Tree) (fault : Fault) :
    seen (malformed t fault : Gen α) = stuck :=
  rfl

@[simp] theorem seen_unsupported (t : Tree) : seen (unsupported t : Gen α) = stuck :=
  rfl

@[simp] theorem seen_ite (c : Prop) [Decidable c] (x y : Gen α) :
    seen (if c then x else y) = if c then seen x else seen y :=
  apply_ite ..

@[simp] theorem freshTemps_map {g : α → β} (as : List α) :
    freshTemps (as.map g) = freshTemps as := by
  induction as with
  | nil => rfl
  | cons a as ih => rw [map_cons, freshTemps, freshTemps, ih]

theorem seen_inTarget {x y : Gen α} {g : α → α} (same : seen x = g <$> seen y)
    (target : JumpTarget) :
    seen (inTarget target x) = Prod.map g id <$> seen (inTarget target y) := by
  simp [inTarget, same]

theorem seen_inFunction {x y : Gen α} {g : α → α} (same : seen x = g <$> seen y) :
    seen (inFunction x) = g <$> seen (inFunction y) := by
  simp [inFunction, same]

end Computations

variable {f : Span → Span}

/-! ## Nodes -/

@[simp] theorem hasDeclarations_mapSpan (info : Info) :
    hasDeclarations (info.mapSpan f) = hasDeclarations info :=
  rfl

theorem isSingleTarget_mapSpan (t : Tree) : isSingleTarget (t.mapSpan f) = isSingleTarget t := by
  simp [isSingleTarget, Tree.child?, Option.any_map]

theorem isForm_mapSpan (symbol : Symbol) (ts : List Tree) :
    isForm symbol (ts.map (Tree.mapSpan f)) = isForm symbol ts := by
  simp [isForm, Option.any_map, isSingleTarget_mapSpan]

theorem arePureIn_mapSpan {place : Place} {ts : List Tree}
    (each : ∀ t ∈ ts, isPureIn place (t.mapSpan f) = isPureIn place t) :
    arePureIn place (ts.map (Tree.mapSpan f)) = arePureIn place ts := by
  induction ts with
  | nil => rfl
  | cons t ts ih =>
    obtain ⟨first, rest⟩ := forall_mem_cons.mp each
    rw [map_cons, arePureIn, arePureIn, first, ih rest]

/-- Purity looks at the symbols of nodes and at the numbers of their parts. -/
theorem isPureIn_mapSpan (place : Place) (t : Tree) :
    isPureIn place (t.mapSpan f) = isPureIn place t := by
  obtain ⟨id, info, children⟩ := t
  have each : ∀ child ∈ children, ∀ place,
      isPureIn place (child.mapSpan f) = isPureIn place child :=
    fun child member place => isPureIn_mapSpan place child
  have all (place : Place) := arePureIn_mapSpan fun child member => each child member place
  have form := isForm_mapSpan (f := f) info.symbol children
  rw [Tree.mapSpan_node]
  unfold isPureIn
  rw [Info.symbol_mapSpan]
  -- the match is on the place, the symbol and the first children
  by_cases isIf : info.symbol = .builtin .ifThen
  · have deeper : ∀ child ∈ children, ∀ u ∈ child.children, ∀ place,
        isPureIn place (u.mapSpan f) = isPureIn place u :=
      fun child member u inside place => isPureIn_mapSpan place u
    clear all form
    rcases children with _ | ⟨a, _ | ⟨b, _ | ⟨⟨_, clause, _ | ⟨c, _⟩⟩, _ | _⟩⟩⟩ <;> cases place <;>
      simp_all [Tree.mapSpan_node, Tree.children]
  by_cases isPair : place = .entry ∧ info.symbol = .builtin .pair
  · obtain ⟨rfl, isPair⟩ := isPair
    rcases children with _ | ⟨key, _ | ⟨value, rest⟩⟩ <;> simp_all
  · rcases children with _ | ⟨a, _ | ⟨b, _ | ⟨c, rest⟩⟩⟩ <;>
      split <;> simp_all <;> split <;> simp_all
termination_by t.height
decreasing_by
  · exact Tree.height_lt_of_mem member
  · exact (Tree.height_lt_of_mem inside).trans (Tree.height_lt_of_mem member)

@[simp] theorem isPure_mapSpan (t : Tree) : isPure (t.mapSpan f) = isPure t :=
  isPureIn_mapSpan .value t

@[simp] theorem isExpression_mapSpan (t : Tree) : isExpression (t.mapSpan f) = isExpression t := by
  simp [isExpression, isForm_mapSpan]

theorem singleValue_mapSpan (t : Tree) :
    singleValue? (t.mapSpan f) = (singleValue? t).map (Tree.mapSpan f) := by
  rw [singleValue?, singleValue?, Tree.symbol_mapSpan, Tree.children_mapSpan, Tree.info_mapSpan]
  rcases t.children with _ | ⟨line, _ | _⟩ <;> cases t.symbol with
  | block kind => cases kind <;> simp <;> split <;> simp_all
  | _ => rfl

theorem conditional_mapSpan (t : Tree) :
    conditional? (t.mapSpan f) = (conditional? t).map
      (Prod.map (Tree.mapSpan f) (Prod.map (Tree.mapSpan f) (Tree.mapSpan f))) := by
  rw [conditional?, conditional?, Tree.children_mapSpan]
  rcases t.children with _ | ⟨line, _ | ⟨branch, _ | ⟨clause, _ | _⟩⟩⟩ <;>
    simp [singleValue_mapSpan, Tree.child?]
  cases clause.children[0]? <;> simp [singleValue_mapSpan, Option.bind_map]

theorem functionDest_mapSpan (t : Tree) :
    Below.functionDest (t.mapSpan f) = Below.functionDest t := by
  rw [Below.functionDest, Below.functionDest, Tree.isBlock_mapSpan, Tree.children_mapSpan]
  cases t.isBlock .block <;> simp [Option.any_map, Info.mapSpan]

@[simp] theorem mentions_mapSpan (names : List String) (t : Tree) :
    mentions names (t.mapSpan f) = mentions names t := by
  rw [mentions, mentions, Tree.nodes_mapSpan, any_map]
  rfl

@[simp] theorem spanOf_mapSpan (t : Tree) : spanOf (t.mapSpan f) = f (spanOf t) := by
  rw [spanOf, Tree.loc, Tree.info_mapSpan]
  rfl

/-! ## Expressions -/

/-- What is computed from a tree with other places is the same but for places. -/
abbrev Carries {α : Type} (f : Span → Span) (move : α → α) (x : Tree → Gen α) : Prop :=
  ∀ t, seen (x (t.mapSpan f)) = move <$> seen (x t)

abbrev moveAll (f : Span → Span) : List Stmt → List Stmt :=
  map (Stmt.mapSpan f)

abbrev moveValue (f : Span → Span) : List Stmt × Expr → List Stmt × Expr :=
  Prod.map (moveAll f) (Expr.mapSpan f)

abbrev moveValues (f : Span → Span) : List Stmt × List Expr → List Stmt × List Expr :=
  Prod.map (moveAll f) (map (Expr.mapSpan f))

attribute [local simp] Function.comp_def map_ite Stmt.mapSpanAlternate Stmt.mapSpan Expr.mapSpan
  Stmt.assign isSingleTarget_mapSpan

@[simp] theorem seen_tagName (t : Tree) : seen (tagName (t.mapSpan f)) = seen (tagName t) := by
  rw [tagName, tagName, Tree.name?_mapSpan]
  cases t.name? <;> rfl

mutual

@[simp] theorem seen_namesOf (t : Tree) : seen (namesOf (t.mapSpan f)) = seen (namesOf t) := by
  obtain ⟨id, info, children⟩ := t
  have tag : seen (tagName (Tree.mapSpan f (.node id info children))) = _ := seen_tagName _
  have rest := seen_namesOfAll children
  rw [Tree.mapSpan_node] at tag ⊢
  unfold namesOf
  rw [Info.symbol_mapSpan]
  cases children with
  | nil => split <;> simp_all
  | cons t ts =>
    have first := seen_namesOf t
    rw [map_cons] at tag rest ⊢
    split <;> simp_all

theorem seen_namesOfAll (ts : List Tree) :
    seen (namesOfAll (ts.map (Tree.mapSpan f))) = seen (namesOfAll ts) := by
  cases ts with
  | nil => rfl
  | cons t ts => simp [namesOfAll, seen_namesOf t, seen_namesOfAll ts]

end

theorem seen_inHost {x y : Gen (List Stmt)} (same : seen x = moveAll f <$> seen y) (host : Info) :
    seen (inHost (host.mapSpan f) x) = moveAll f <$> seen (inHost host y) := by
  simp only [inHost, seen_bind, same, map_bind, bind_map_left]
  refine bind_congr fun _ => bind_congr fun body => bind_congr fun temps => ?_
  rw [Info.declaredNames_mapSpan]
  cases host.declaredNames ++ temps.toList <;> simp

@[simp] theorem seen_emit (t : Tree) (e : Expr) (dest : Dest) :
    seen (emit (t.mapSpan f) (e.mapSpan f) dest) = moveAll f <$> seen (emit t e dest) := by
  unfold emit
  split <;> simp

@[simp] theorem seen_spill (e : Expr) :
    seen (spill (e.mapSpan f)) = moveValue f <$> seen (spill e) := by
  simp [spill]

@[simp] theorem seen_spillAll (es : List Expr) :
    seen (spillAll (es.map (Expr.mapSpan f))) = moveValues f <$> seen (spillAll es) := by
  induction es with
  | nil => rfl
  | cons e es ih => simp [spillAll, ih]

@[simp] theorem seen_keyText (t : Tree) :
    seen (Below.keyText (t.mapSpan f)) = seen (Below.keyText t) := by
  simp only [Below.keyText, Tree.info_mapSpan, Info.mapSpan]
  split <;> rfl

theorem seen_entries (ts : List Tree) :
    seen (Below.entries (ts.map (Tree.mapSpan f))) =
      map (Prod.map id (Tree.mapSpan f)) <$> seen (Below.entries ts) := by
  induction ts with
  | nil => rfl
  | cons t ts ih =>
    simp only [map_cons, Below.entries, Tree.is_mapSpan, Tree.children_mapSpan]
    cases t.is .pair <;> rcases t.children with _ | ⟨key, _ | ⟨value, _ | _⟩⟩ <;> simp [ih]

theorem seen_literal (t : Tree) :
    seen (Below.literal (t.mapSpan f)) = Expr.mapSpan f <$> seen (Below.literal t) := by
  simp only [Below.literal, Tree.info_mapSpan, Info.mapSpan]
  split <;> simp

/-- Generation that takes places into the program and does nothing else with them. -/
structure Below.Natural (f : Span → Span) (below : Below) : Prop where
  lower : ∀ dest, Carries f (moveAll f) (below.lower · dest)
  build : Carries f (moveValue f) below.build
  branch : ∀ dest, Carries f (moveAll f) (below.branch · dest)

namespace Below.Natural

variable {below : Below} (natural : below.Natural f)
include natural

theorem value : Carries f (moveValue f) below.value := by
  intro t
  simp [Below.value, natural.build _, natural.lower _ _]

theorem operands (ts : List Tree) :
    seen (below.operands (ts.map (Tree.mapSpan f))) =
      moveValues f <$> seen (below.operands ts) := by
  induction ts with
  | nil => rfl
  | cons t ts ih => simp [Below.operands, natural.value _, ih]

theorem statements (dest : Dest) (ts : List Tree) :
    seen (below.statements dest (ts.map (Tree.mapSpan f))) =
      moveAll f <$> seen (below.statements dest ts) := by
  fun_induction Below.statements below dest ts with
  | case1 => rfl
  | case2 t => exact natural.lower dest t
  | case3 t next ts ih =>
    rw [map_cons] at ih
    simp [Below.statements, natural.lower _ _, ih]

theorem sequence (dest : Dest) : Carries f (moveAll f) (below.sequence · dest) := by
  intro t
  simp [Below.sequence, seen_inHost (natural.statements dest t.children)]

theorem body (dest : Dest) : Carries f (moveAll f) (below.body · dest) := by
  intro t
  simp [Below.body, natural.lower _ _, natural.sequence _ _]

theorem property (object : Expr) (t : Tree) :
    seen (below.property (object.mapSpan f) (t.mapSpan f)) =
      moveValue f <$> seen (below.property object t) := by
  simp only [Below.property, Tree.isTag_mapSpan, Tree.name?_mapSpan]
  split <;> simp [natural.value _]

theorem target (keep : Bool) : Carries f (moveValue f) (below.target · keep) := by
  intro t
  simp only [Below.target, Tree.isTag_mapSpan, Tree.builtin?_mapSpan, Tree.children_mapSpan]
  split
  · simp
  cases t.builtin? with
  | none => rfl
  | some op =>
    cases op with
    | var | const => rcases t.children with _ | ⟨inner, rest⟩ <;> simp
    | member =>
      rcases t.children with _ | ⟨object, _ | ⟨name, _ | _⟩⟩ <;>
        simp [natural.value _, natural.property]
    | element =>
      simp only [natural.operands, seen_bind, bind_map_left, map_bind]
      refine bind_congr fun a => ?_
      split
      · simp
        refine bind_congr fun b => ?_
        obtain ⟨stmts, _ | ⟨left, _ | ⟨right, _ | _⟩⟩⟩ := b <;> simp
      · obtain ⟨stmts, _ | ⟨left, _ | ⟨right, _ | _⟩⟩⟩ := a <;> simp
    | _ => rfl

theorem logical (op : LogicalOp) : Carries f (moveValue f) (below.logical · op) := by
  intro t
  simp only [Below.logical, Tree.children_mapSpan]
  rcases t.children with _ | ⟨left, _ | ⟨right, _ | _⟩⟩ <;> cases op <;>
    simp [natural.value _, natural.build _]

theorem callParts :
    Carries f (Prod.map (moveAll f) (Prod.map (Expr.mapSpan f) (map (Expr.mapSpan f))))
      below.callParts := by
  intro t
  simp only [Below.callParts, Tree.children_mapSpan, natural.operands, seen_bind, bind_map_left,
    map_bind]
  refine bind_congr fun a => ?_
  obtain ⟨stmts, _ | ⟨callee, arguments⟩⟩ := a <;> simp

theorem function : Carries f (moveValue f) below.function := by
  intro t
  simp only [Below.function, Tree.children_mapSpan, Tree.info_mapSpan]
  rcases t.children with _ | ⟨params, _ | ⟨code, _ | _⟩⟩
  case cons.cons.nil =>
    have inner := seen_inFunction (seen_inHost (natural.body (functionDest code) code) t.info)
    simp [functionDest_mapSpan, inner]
  all_goals rfl

theorem pairwise {t u : Tree} (make : Expr → Expr → Expr)
    (made : ∀ left right, (make left right).mapSpan f = make (left.mapSpan f) (right.mapSpan f))
    (fault : Fault) (parts : List Tree) :
    seen (do
      match ← below.operands (parts.map (Tree.mapSpan f)) with
      | (stmts, [left, right]) => return (stmts, make left right)
      | _ => malformed t fault) = moveValue f <$> seen (do
      match ← below.operands parts with
      | (stmts, [left, right]) => return (stmts, make left right)
      | _ => malformed u fault) := by
  simp only [natural.operands, seen_bind, bind_map_left, map_bind]
  refine bind_congr fun a => ?_
  obtain ⟨stmts, _ | ⟨left, _ | ⟨right, _ | _⟩⟩⟩ := a <;> simp [made]

theorem buildBuiltin (op : Builtin) : Carries f (moveValue f) (below.buildBuiltin · op) := by
  intro t
  simp only [Below.buildBuiltin, Tree.children_mapSpan]
  cases op with
  | and => exact natural.logical .and t
  | or => exact natural.logical .or t
  | neg | not => rcases t.children with _ | ⟨operand, _ | _⟩ <;> simp [natural.value _]
  | member =>
    rcases t.children with _ | ⟨object, _ | ⟨name, _ | _⟩⟩ <;>
      simp [natural.value _, natural.property]
  | element => exact natural.pairwise (.member · · true) (fun _ _ => rfl) .objectAndIndex _
  | call => simp [natural.callParts _]
  | new =>
    rcases t.children with _ | ⟨operand, _ | _⟩ <;> simp [natural.value _, natural.callParts _]
  | array => simp [natural.operands]
  | object =>
    simp only [seen_bind, seen_entries, bind_map_left, map_bind]
    refine bind_congr fun fields => ?_
    have values : map Prod.snd (map (Prod.map id (Tree.mapSpan f)) fields) =
        map (Tree.mapSpan f) (map Prod.snd fields) := by simp
    rw [values, natural.operands]
    simp
  | fn => exact natural.function t
  | var | const => rcases t.children with _ | ⟨inner, rest⟩ <;> simp
  | assign =>
    rcases t.children with _ | ⟨left, _ | ⟨right, _ | _⟩⟩ <;>
      simp [natural.value _, natural.target _ _]
  | ifThen =>
    rw [conditional_mapSpan]
    rcases conditional? t with _ | ⟨condition, consequent, alternate⟩ <;> simp [natural.build _]
  | eq | notEq | lt | le | gt | ge | add | sub | mul | div | mod =>
    exact natural.pairwise (.binary _) (fun _ _ => rfl) .twoOperands _
  | _ => rfl

theorem expression : Carries f (moveValue f) below.expression := by
  intro t
  simp only [Below.expression, Tree.symbol_mapSpan]
  cases t.symbol <;> simp [natural.buildBuiltin _ _, seen_literal]

/-! ## Statements -/

theorem choice (dest : Dest) : Carries f (moveAll f) (below.choice · dest) := by
  intro t
  simp only [Below.choice, Tree.children_mapSpan]
  rcases t.children with _ | ⟨condition, _ | ⟨branch, rest⟩⟩ <;>
    simp [natural.value _, natural.body _ _]
  refine bind_congr fun a => bind_congr fun b => ?_
  rcases rest.find? _ with _ | clause
  · simp
  rcases inside : clause.children with _ | ⟨inner, more⟩ <;>
    simp [inside, natural.body _ _, natural.branch _ _]
  split
  · refine bind_congr fun c => ?_
    rcases c with _ | ⟨only, _ | _⟩ <;> simp
  · simp

theorem whileLoop : Carries f (moveAll f) below.whileLoop := by
  intro t
  simp only [Below.whileLoop, Tree.children_mapSpan]
  rcases t.children with _ | ⟨condition, _ | ⟨code, _ | _⟩⟩ <;>
    simp [natural.value _, natural.body _ _, natural.build _]

theorem doBlock (dest : Dest) : Carries f (moveAll f) (below.doBlock · dest) := by
  intro t
  simp [Below.doBlock, seen_inTarget (natural.sequence dest t)]

theorem loopHead :
    Carries f (Prod.map id (Prod.map (moveAll f) (moveAll f))) below.loopHead := by
  intro t
  simp only [Below.loopHead, Tree.children_mapSpan]
  rcases t.children with _ | ⟨names, _ | ⟨init, _ | _⟩⟩ <;> simp [natural.lower _ _]

theorem loop (dest : Dest) : Carries f (moveAll f) (below.loop · dest) := by
  intro t
  simp only [Below.loop, Tree.children_mapSpan, Tree.info_mapSpan, Info.declaredNames_mapSpan]
  have round (label : String) (names : List String) (code : Tree) :=
    seen_inTarget (natural.body .discard code) ⟨.loop, label, dest, names, false⟩
  rcases t.children with _ | ⟨code, _ | ⟨second, _ | _⟩⟩ <;> simp [natural.loopHead _, round]
  · refine bind_congr fun label => bind_congr fun body => ?_
    cases t.info.declaredNames <;> simp [Option.any_map] <;> split <;> simp
  · refine bind_congr fun label => bind_congr fun start => bind_congr fun body => ?_
    cases t.info.declaredNames <;> cases start.2.2 <;> simp [Option.any_map] <;> split <;> simp

theorem tryClauses (dest : Dest) (clauses : List Tree) (handler : Option Handler)
    (finalizer : Option (List Stmt)) :
    seen (below.tryClauses dest (clauses.map (Tree.mapSpan f)) (Handler.mapSpanHandler f handler)
        (Stmt.mapSpanFinalizer f finalizer)) =
      Prod.map (Handler.mapSpanHandler f) (Stmt.mapSpanFinalizer f) <$>
        seen (below.tryClauses dest clauses handler finalizer) := by
  induction clauses generalizing handler finalizer with
  | nil => rfl
  | cons clause clauses ih =>
    simp only [map_cons, Below.tryClauses, Tree.builtin?_mapSpan, Tree.children_mapSpan,
      Tree.info_mapSpan]
    cases clause.builtin? with
    | none => rfl
    | some op =>
      cases op with
      | catchClause =>
        rcases clause.children with _ | ⟨param, _ | ⟨code, _ | _⟩⟩
        case cons.cons.nil =>
          simp
          refine bind_congr fun names => ?_
          rcases names with _ | ⟨name, _ | _⟩ <;>
            simp [seen_inHost (natural.body dest code), ← ih, Handler.mapSpanHandler]
        all_goals rfl
      | finallyClause =>
        rcases clause.children with _ | ⟨code, _ | _⟩ <;>
          simp [natural.body _ _, ← ih, Stmt.mapSpanFinalizer]
      | _ => rfl

theorem tryBlock (dest : Dest) : Carries f (moveAll f) (below.tryBlock · dest) := by
  intro t
  have clauses (ts : List Tree) := natural.tryClauses dest ts none none
  simp only [Handler.mapSpanHandler, Stmt.mapSpanFinalizer] at clauses
  simp only [Below.tryBlock, Tree.children_mapSpan]
  cases t.children <;> simp [natural.body _ _, clauses]

theorem discardAll (ts : List Tree) :
    seen (below.discardAll (ts.map (Tree.mapSpan f))) =
      moveAll f <$> seen (below.discardAll ts) := by
  induction ts with
  | nil => rfl
  | cons t ts ih => simp [Below.discardAll, natural.lower _ _, ih]

theorem keepAll (ts : List Tree) :
    seen (below.keepAll (ts.map (Tree.mapSpan f))) = moveValues f <$> seen (below.keepAll ts) := by
  induction ts with
  | nil => rfl
  | cons t ts ih => simp [Below.keepAll, natural.value _, ih]

theorem tuple (dest : Dest) : Carries f (moveAll f) (below.tuple · dest) := by
  intro t
  simp only [Below.tuple, Tree.children_mapSpan]
  cases dest with
  | discard => exact natural.discardAll t.children
  | ret => rfl
  | into names =>
    rcases names with _ | ⟨name, _ | _⟩ <;> rcases t.children with _ | ⟨element, _ | _⟩ <;>
      simp [natural.lower _ _]
    · simp [Below.keepAll]
    · rw [← map_cons, ← map_cons, natural.keepAll]
      simp [zip_map_right]

theorem assignAll (ts : List Tree) (temps : List String) :
    seen (below.assignAll ((ts.map (Tree.mapSpan f)).zip temps)) =
      moveAll f <$> seen (below.assignAll (ts.zip temps)) := by
  induction ts generalizing temps with
  | nil => rfl
  | cons t ts ih => cases temps <;> simp [Below.assignAll, natural.target _ _, ih]

theorem multipleAssign (value : Tree) (dest : Dest) (target : Tree) :
    seen (below.multipleAssign (target.mapSpan f) (value.mapSpan f) dest) =
      moveAll f <$> seen (below.multipleAssign target value dest) := by
  unfold Below.multipleAssign
  extract_lets deliver assign deliverToo assignToo
  have several (elements : List Tree) :
      seen (assign (elements.map (Tree.mapSpan f))) = moveAll f <$> seen (assignToo elements) := by
    cases dest <;>
      simp [assign, assignToo, deliver, deliverToo, natural.lower _ _, natural.assignAll]
  rw [Tree.builtin?_mapSpan, Tree.children_mapSpan]
  cases target.builtin? with
  | none => exact several _
  | some op =>
    cases op with
    | var | const => cases target.children <;> simp [several]
    | _ => exact several _

theorem assign (dest : Dest) : Carries f (moveAll f) (below.assign · dest) := by
  intro t
  have named (name : String) : seen (emit (t.mapSpan f) (.ident name) dest) = _ :=
    seen_emit t (.ident name) dest
  simp only [Below.assign, Tree.children_mapSpan]
  rcases t.children with _ | ⟨left, _ | ⟨right, _ | _⟩⟩ <;>
    simp [natural.expression _, natural.multipleAssign]
  split
  · rfl
  split
  · refine bind_congr fun names => ?_
    cases names.getLast? <;> cases dest <;> simp [natural.lower _ _, named]
  · rfl

theorem jump (op : Builtin) : Carries f (moveAll f) (below.jump · op) := by
  intro t
  simp only [Below.jump, Tree.children_mapSpan, seen_bind, map_bind]
  refine bind_congr fun s => ?_
  split
  · rfl
  split
  · rcases t.children <;> simp [natural.lower _ _]
  · rcases t.children <;> simp [natural.lower _ _]
  · simp

theorem plain (dest : Dest) : Carries f (moveAll f) (below.plain · dest) := by
  intro t
  simp [Below.plain, natural.expression _]

theorem builtinStatements (op : Builtin) (dest : Dest) :
    Carries f (moveAll f) (below.builtinStatements · op dest) := by
  intro t
  simp only [Below.builtinStatements, Tree.children_mapSpan]
  cases op with
  | ifThen => simp [natural.plain _ _, natural.choice _ _]
  | whileLoop => exact natural.whileLoop t
  | loop => exact natural.loop dest t
  | tryBlock => exact natural.tryBlock dest t
  | tuple => exact natural.tuple dest t
  | assign => exact natural.assign dest t
  | give | nextRound | leave => exact natural.jump _ t
  | ret | throw => cases t.children <;> simp [natural.value _]
  | external => rfl
  | var | const => simp [natural.plain _ _]
  | _ => exact natural.plain dest t

theorem node (dest : Dest) : Carries f (moveAll f) (below.node · dest) := by
  intro t
  simp only [Below.node, Tree.symbol_mapSpan]
  cases t.symbol with
  | block kind => cases kind <;> simp [natural.doBlock _ _, natural.sequence _ _]
  | builtin op => simp [natural.builtinStatements _ _ _]
  | _ => simp [natural.plain _ _]

end Below.Natural

theorem natural_upTo (height : Nat) : (upTo height).Natural f := by
  induction height with
  | zero => exact ⟨fun _ _ => rfl, fun _ => rfl, fun _ _ => rfl⟩
  | succ height ih => exact ⟨ih.node, ih.expression, ih.choice⟩

/-! ## Programs -/

/-- From a tree with other places the same program with other places is made. -/
theorem run_mapSpan (f : Span → Span) (t : Tree) :
    (run (t.mapSpan f)).toOption = (run t).toOption.map (moveAll f) := by
  have outcome (x : Gen Program) : (x.run' .start).toOption = (seen x .start).map Prod.fst := by
    change (Prod.fst <$> x .start).toOption = (x .start).toOption.map Prod.fst
    cases x .start <;> rfl
  have same : seen (program (t.mapSpan f)) = moveAll f <$> seen (program t) := by
    rw [program, program, Tree.height_mapSpan]
    exact (natural_upTo t.height).sequence .discard t
  rw [run, run, outcome, outcome, same]
  change ((seen (program t) .start).bind _).map _ = _
  cases seen (program t) .start <;> rfl

/-- The program of a tree without places, if it has a program. -/
def bareProgram? (t : Tree) : Option Program :=
  (run t).toOption.map Program.bare

theorem bareProgram?_mapSpan (f : Span → Span) (t : Tree) :
    bareProgram? (t.mapSpan f) = bareProgram? t := by
  have same : Program.bare ∘ moveAll f = Program.bare := by
    funext program
    change Stmt.bareAll (moveAll f program) = Stmt.bareAll program
    rw [moveAll, ← Stmt.mapSpanAll_eq_map, (Stmt.bare_mapSpanAll f program).1]
  rw [bareProgram?, bareProgram?, run_mapSpan, Option.map_map, same]

end Lowering

/-- The tree with all nodes at one place. -/
def Tree.unplaced (t : Tree) : Tree :=
  t.mapSpan fun _ => ⟨default, none⟩

/--
Trees that differ in nothing but places both have no program, or both have the same one but for
places; and without its places a program has none.
-/
theorem bareProgram?_of_unplaced :
    (∀ t u : Tree, t.unplaced = u.unplaced → Lowering.bareProgram? t = Lowering.bareProgram? u) ∧
      ∀ program : Program, Stmt.spansAll program.bare = [] := by
  constructor
  · intro t u same
    rw [← Lowering.bareProgram?_mapSpan _ t, ← Lowering.bareProgram?_mapSpan _ u]
    exact congrArg Lowering.bareProgram? same
  · exact fun program => (Stmt.bare_mapSpanAll id program).2

/-- An assignment of what a block gives, with all nodes at one place. -/
def placedAt (loc : Loc) : Tree :=
  .node 0 (.new (.block .root) none loc)
    [.node 1 (.new (.builtin .assign) none loc)
      [.node 2 (.new (.tag .use) (some (.name "x")) loc) [],
        .node 3 (.new (.block .doBlock) none loc)
          [.node 4 (.new .value (some (.bool true)) loc) []]]]

theorem bareProgram?_placedAt :
    let spans (t : Tree) := (Lowering.run t).toOption.map Stmt.spansAll
    spans (placedAt ⟨1⟩) ≠ none ∧ spans (placedAt ⟨1⟩) ≠ spans (placedAt ⟨2⟩) ∧
      Lowering.bareProgram? (placedAt ⟨1⟩) = Lowering.bareProgram? (placedAt ⟨2⟩) :=
  ⟨by decide +kernel, by decide +kernel, bareProgram?_of_unplaced.1 _ _ rfl⟩

end Offside
