import Offside.Proofs.Ownership.Marking
import Offside.ValueCount

/-!
# Checking again

Checking writes numbers of values and nothing else. No rule looks at the numbers that have been
written before, so checking a checked tree gives the same tree and the same reports.
-/

namespace Offside

open List Offside.Tree

namespace Tree

mutual

/-- The tree with the numbers of values of another one, where that has some. -/
def recount : Tree → Tree → Tree
  | counts, .node id info children =>
    .node id { info with count := counts.info.count.or info.count }
      (recountAll counts.children children)

def recountAll : List Tree → List Tree → List Tree
  | c :: cs, t :: ts => recount c t :: recountAll cs ts
  | _, ts => ts

end

mutual

theorem uncounted_recount (counts t : Tree) : (recount counts t).uncounted = t.uncounted := by
  cases t with
  | node id info children =>
    rw [recount, uncounted_node, uncounted_node, uncounted_recountAll _ children]
    rfl

theorem uncounted_recountAll (counts ts : List Tree) :
    (recountAll counts ts).map uncounted = ts.map uncounted := by
  cases ts with
  | nil => cases counts <;> rfl
  | cons t ts =>
    cases counts with
    | nil => rfl
    | cons c cs =>
      rw [recountAll, map_cons, map_cons, uncounted_recount c t, uncounted_recountAll cs ts]

end

mutual

theorem recount_recount (counts t : Tree) :
    recount counts (recount counts t) = recount counts t := by
  cases t with
  | node id info children =>
    rw [recount, recount, recountAll_recountAll _ children]
    cases counts.info.count <;> rfl

theorem recountAll_recountAll (counts ts : List Tree) :
    recountAll counts (recountAll counts ts) = recountAll counts ts := by
  cases ts with
  | nil => cases counts <;> rfl
  | cons t ts =>
    cases counts with
    | nil => rfl
    | cons c cs => rw [recountAll, recountAll, recount_recount c t, recountAll_recountAll cs ts]

end

mutual

theorem recount_uncounted (t : Tree) : recount t.uncounted t = t := by
  cases t with
  | node id info children =>
    rw [uncounted_node, recount, Tree.children, recountAll_uncounted children]
    rfl

theorem recountAll_uncounted (ts : List Tree) : recountAll (ts.map uncounted) ts = ts := by
  cases ts with
  | nil => rfl
  | cons t ts => rw [map_cons, recountAll, recount_uncounted t, recountAll_uncounted ts]

end

end Tree

namespace Check

variable {use : Use} {cx : JumpContext} {expected : Option Nat} {id : NodeId} {info : Info}
  {t u : Tree} {ts children parts : List Tree}

/-! ## What the check does not look at -/

theorem symbol_uncounted (t : Tree) : t.uncounted.symbol = t.symbol := by
  obtain ⟨id, info, children⟩ := t
  rw [uncounted_node]
  rfl

theorem is_uncounted (t : Tree) (op : Builtin) : t.uncounted.is op = t.is op := by
  obtain ⟨id, info, children⟩ := t
  rw [uncounted_node]
  rfl

theorem child?_uncounted (t : Tree) (index : Nat) :
    t.uncounted.child? index = (t.child? index).map uncounted := by
  obtain ⟨id, info, children⟩ := t
  rw [uncounted_node]
  exact getElem?_map

theorem width_uncounted (t : Tree) : width t.uncounted = width t := by
  have inner (t : Tree) : (if t.uncounted.is .tuple then t.uncounted.children.length else 1) =
      if t.is .tuple then t.children.length else 1 := by
    obtain ⟨id, info, children⟩ := t
    rw [uncounted_node, Tree.children, length_map]
    rfl
  have same : t.uncounted.builtin? = t.builtin? := congrArg Symbol.builtin? (symbol_uncounted t)
  unfold width
  rw [same, child?_uncounted]
  split
  case h_1 | h_2 => cases t.child? 0 <;> exact inner _
  case h_3 => exact inner t

/-! ## Numbers that are written -/

theorem require_uncounted (info : Info) (expected : Option Nat) (actual : Nat) :
    require info.uncounted expected actual = require info expected actual :=
  by rfl

theorem jumpOperand_uncounted (info : Info) (op : Builtin) (operands : List Tree) :
    jumpOperand info.uncounted op operands cx = jumpOperand info op operands cx :=
  rfl

/-- What is wanted of the operand of a jump does not depend on the operand. -/
theorem jumpOperand_cons (info : Info) (op : Builtin) (value other : Tree) (rest others : List Tree)
    (cx : JumpContext) :
    jumpOperand info op (value :: rest) cx = jumpOperand info op (other :: others) cx := by
  unfold jumpOperand
  cases cx.leave <;> rfl

theorem hasOperands_cases (info : Info) (op : Builtin) (children : List Tree) :
    hasOperands info op children = pure true ∨
      ∃ d, hasOperands info op children = do report d; return false := by
  unfold hasOperands
  dsimp only
  split
  · exact .inl rfl
  · exact .inr ⟨_, rfl⟩

theorem hasOperands_uncounted (op : Builtin) (children : List Tree) :
    hasOperands info.uncounted op (children.map uncounted) = hasOperands info op children := by
  unfold hasOperands
  rw [filter_map, length_map]
  simp only [Function.comp_def, symbol_uncounted]
  rfl

/-- Checking writes the same numbers whatever numbers there are. -/
def Recounts (t : Tree) : Prop :=
  ∀ use cx, tree use cx t = (fun r => (r.1, recount r.2 t)) <$> tree use cx t.uncounted

section Parts

variable (each : ∀ t ∈ ts, Recounts t)

include each

theorem trees_recount (use : Use) (cx : JumpContext) :
    trees use cx ts = (recountAll · ts) <$> trees use cx (ts.map uncounted) := by
  induction ts with
  | nil => rfl
  | cons t ts ih =>
    obtain ⟨first, rest⟩ := forall_mem_cons.mp each
    simp [trees, first _ _, ih rest, recountAll]

theorem statements_recount (expected : Option Nat) (cx : JumpContext) :
    statements expected cx ts =
      (fun r => (r.1, recountAll r.2 ts)) <$> statements expected cx (ts.map uncounted) := by
  induction ts with
  | nil => rfl
  | cons t ts ih =>
    obtain ⟨first, rest⟩ := forall_mem_cons.mp each
    cases ts with
    | nil => simp [statements, first _ _, recountAll]
    | cons next ts =>
      rw [map_cons, map_cons, statements, statements, ← map_cons, first _ _, ih rest]
      simp [recountAll]

theorem alternative_recount (expected : Option Nat) (cx : JumpContext) :
    alternative expected cx ts =
      (fun r => (r.1, recountAll r.2 ts)) <$> alternative expected cx (ts.map uncounted) := by
  induction ts with
  | nil => rfl
  | cons t ts ih =>
    obtain ⟨first, rest⟩ := forall_mem_cons.mp each
    rw [map_cons, alternative, alternative, is_uncounted]
    split <;> simp [first _ _, ih rest, recountAll, recount_uncounted, recountAll_uncounted]

theorem clauses_recount (expected : Option Nat) (cx : JumpContext) :
    clauses expected cx ts =
      (fun r => (r.1, recountAll r.2 ts)) <$> clauses expected cx (ts.map uncounted) := by
  induction ts with
  | nil => rfl
  | cons t ts ih =>
    obtain ⟨first, rest⟩ := forall_mem_cons.mp each
    rw [map_cons, clauses, clauses, is_uncounted]
    split <;> simp [first _ _, ih rest, recountAll]

end Parts

theorem bind_trees_length {β : Type} (f : Nat → List Tree → Check β) :
    (trees use cx ts >>= fun r => f r.length r) = trees use cx ts >>= f ts.length := by
  induction ts generalizing f with
  | nil => rfl
  | cons t ts ih =>
    simp only [trees, bind_assoc, pure_bind, length_cons]
    exact bind_congr fun r => ih fun n others => f (n + 1) (r.2 :: others)

attribute [local simp] yields noted recount recountAll require_uncounted Tree.info Tree.children
  recount_uncounted recountAll_uncounted

section Node

variable (each : ∀ child ∈ children, Recounts child)

include each

theorem operator_recount {op : Builtin} (isOp : info.symbol = .builtin op)
    (enough : hasOperands info op children = pure true) :
    tree (.produce expected) cx (.node id info children) =
      (fun r => (r.1, recount r.2 (.node id info children))) <$>
        tree (.produce expected) cx (.node id info.uncounted (children.map uncounted)) := by
  have enough' : hasOperands info.uncounted op (children.map uncounted) = pure true :=
    (hasOperands_uncounted op children).trans enough
  have isOp' : info.uncounted.symbol = .builtin op := isOp
  unfold tree
  rw [isOp, isOp']
  dsimp only [demand?]
  rw [enough, enough', pure_bind, pure_bind, if_neg (by decide), if_neg (by decide)]
  split
  all_goals try simp only [forall_mem_cons] at each
  -- assignments, tuples, members and objects
  · simp [each.1 _ _, each.2.1 _ _, width_uncounted]
  case h_2 other =>
    rcases children with _ | ⟨left, _ | ⟨right, _ | ⟨third, rest⟩⟩⟩
    case cons.cons.nil => exact (other left right rfl).elim
    all_goals simp
  · rw [bind_trees_length fun n parts => yields id info expected n parts,
      bind_trees_length fun n parts => yields id info.uncounted expected n parts]
    simp [trees_recount each]
  · simp [each.1 _ _]
  · simp [trees_recount each]
  -- declarations and functions
  · simp [width_uncounted]
  · simp [width_uncounted]
  · simp
  · simp [each.2.1 _ _]
  -- branches
  · simp only [each.1 _ _, map_cons, any_cons, any_map, Function.comp_def, is_uncounted,
      bind_map_left, map_bind]
    refine bind_congr fun condition => ?_
    split
    · simp [each.2.1 _ _]
      rfl
    · simp only [each.2.1 _ _, bind_map_left, map_bind]
      refine bind_congr fun branch => ?_
      split
      · simp
      · simp [alternative_recount each.2.2]
  -- loops
  · simp [each.1 _ _, each.2.1 _ _]
  case h_12 other =>
    rcases children with _ | ⟨condition, _ | ⟨body, _ | ⟨third, rest⟩⟩⟩
    case cons.cons.nil => exact (other condition body rfl).elim
    all_goals simp
  · simp [each.1 _ _]
  · simp [each.1 _ _, each.2.1 _ _, child?_uncounted, Function.comp_def, width_uncounted]
  case h_15 one two =>
    rcases children with _ | ⟨head, _ | ⟨body, _ | ⟨third, rest⟩⟩⟩
    case cons.nil => exact (one head rfl).elim
    case cons.cons.nil => exact (two head body rfl).elim
    all_goals simp
  -- clauses
  · simp [clauses_recount each]
  · simp [each.1 _ _]
  · simp [each.1 _ _]
  · simp [each.2.1 _ _]
  -- jumps and all other operators
  · simp only [map_nil, jumpOperand_uncounted]
    split <;> simp
  · rw [map_cons]
    split <;> rename_i jumps
    all_goals split
    case h_21 =>
      obtain ⟨rfl, rfl⟩ := cons.inj ‹_ :: _ = _›
      rw [if_pos jumps]
      simp [each.1 _ _, trees_recount each.2, trees]
    case h_21 =>
      obtain ⟨rfl, rfl⟩ := cons.inj ‹_ :: _ = _›
      rw [if_neg jumps, jumpOperand_uncounted, jumpOperand_cons, map_bind]
      refine bind_congr fun wanted => ?_
      cases wanted with
      | none => simp
      | some wanted => simp [each.1 _ _]
    all_goals
      clear isOp isOp' enough enough' each
      simp_all [map_eq_cons_iff]

theorem produce_recount (expected : Option Nat) (cx : JumpContext) :
    tree (.produce expected) cx (.node id info children) =
      (fun r => (r.1, recount r.2 (.node id info children))) <$>
        tree (.produce expected) cx (.node id info.uncounted (children.map uncounted)) := by
  cases symbol : info.symbol with
  | builtin op =>
    rcases hasOperands_cases info op children with enough | ⟨d, short⟩
    · exact operator_recount each symbol enough
    · have short' := (hasOperands_uncounted op children).trans short
      have symbol' : info.uncounted.symbol = .builtin op := symbol
      unfold tree
      rw [symbol, symbol']
      dsimp only [demand?]
      rw [short, short']
      simp
  | block kind =>
    have symbol' : info.uncounted.symbol = .block kind := symbol
    unfold tree
    rw [symbol, symbol']
    cases kind with
    | root => simp [demand?, trees_recount each]
    | _ =>
      simp only [demand?, statements_recount each, bind_map_left, map_bind]
      refine bind_congr fun r => ?_
      obtain ⟨_ | count, parts⟩ := r <;> simp
  | _ =>
    unfold tree
    rw [symbol, show info.uncounted.symbol = _ from symbol]
    simp [demand?]

end Node

/-- Where something is to be produced, the kind of use does not matter. -/
theorem tree_demanded (info : Info) (demanded : demand? use info.symbol = some expected)
    (noEntry : ¬(use = .entry ∧ info.symbol = .builtin .pair ∧ 2 ≤ children.length)) :
    tree use cx (.node id info children) =
      tree (.produce expected) cx (.node id info children) := by
  unfold tree
  split
  case h_1 symbol => simp [symbol] at noEntry
  case h_2 =>
    rw [demanded]
    rfl

theorem tree_received (info : Info) (demanded : demand? use info.symbol = none) :
    tree use cx (.node id info children) =
      if info.symbol = .builtin .tuple then do
        let elements ← trees .receive cx children
        return noted id info elements.length elements
      else return noted id info (width (.node id info children)) children := by
  unfold tree
  split
  case h_1 => simp [demand?] at demanded
  case h_2 =>
    rw [demanded]
    dsimp only
    split
    case h_1 isTuple _ => rw [if_pos isTuple]
    case h_2 noTuple _ => rw [if_neg noTuple]

theorem tree_recount (t : Tree) : Recounts t := by
  induction t using induction_on_height with
  | step t ih =>
    obtain ⟨id, info, children⟩ := t
    have each (child : Tree) (member : child ∈ children) : Recounts child :=
      ih child (height_lt_of_mem member)
    intro use cx
    rw [uncounted_node]
    cases demanded : demand? use info.symbol with
    | some expected =>
      by_cases entry : use = .entry ∧ info.symbol = .builtin .pair ∧ 2 ≤ children.length
      case neg =>
        rw [tree_demanded info demanded entry, produce_recount each,
          tree_demanded info.uncounted demanded (by rwa [length_map])]
      case pos =>
        obtain ⟨rfl, isPair, long⟩ := entry
        rcases children with _ | ⟨key, _ | ⟨value, rest⟩⟩
        case cons.cons =>
          unfold tree
          rw [isPair, show info.uncounted.symbol = _ from isPair]
          simp [each value (by simp) _ _]
          rfl
        all_goals simp at long
    | none =>
      rw [tree_received info demanded, tree_received info.uncounted demanded]
      have symbol : info.uncounted.symbol = info.symbol := rfl
      rw [symbol]
      split
      case isTrue isTuple =>
        rw [bind_trees_length fun n parts => pure (noted id info n parts),
          bind_trees_length fun n parts => pure (noted id info.uncounted n parts)]
        simp [trees_recount each]
      case isFalse noTuple =>
        rw [← uncounted_node, width_uncounted]
        simp

theorem uncounted_tree (use : Use) (cx : JumpContext) (t : Tree) :
    Yields (tree use cx t) (fun r => r.2.uncounted = t.uncounted) := by
  rw [tree_recount t use cx]
  exact fun ds => uncounted_recount _ t

theorem uncounted_root (t : Tree) : Yields (root t) (fun r => r.uncounted = t.uncounted) :=
  Yields.bind (uncounted_tree _ _ t) fun _ same => .pure same

/-- Checking a checked tree is the same as checking it for the first time. -/
theorem root_root (t : Tree) (ds : Diagnostics) : root (root t ds).1 ds = root t ds := by
  have run (t : Tree) :
      root t ds = ((tree (.produce none) .outermost t.uncounted ds).1.2.recount t,
        (tree (.produce none) .outermost t.uncounted ds).2) := by
    rw [root, bind_pure_comp, tree_recount]
    rfl
  rw [run t, run, uncounted_recount, recount_recount]

/--
Checking writes numbers of values and nothing else. Checking what comes back writes the same
numbers and reports the same.
-/
theorem root_again (t : Tree) (ds : Diagnostics) :
    (root t ds).1.uncounted = t.uncounted ∧ root (root t ds).1 ds = root t ds :=
  ⟨uncounted_root t ds, root_root t ds⟩

end Check

end Offside
