import Offside.Binding
import Offside.Proofs.Ownership.Numbers
import Offside.Proofs.Tree.Height

/-!
# What binding writes

Binding and checking write into the nodes of a tree and move none of them. Without what binding
writes the tree is the same as before, and so are its numbers.
-/

namespace Offside

open List Offside.Tree

namespace Info

/-- Contents without what binding and checking write. -/
def outline (info : Info) : Info :=
  { info with decls := none, varScope := none, binding := none, resolved := false, count := none }

/-- Contents without the number of values. -/
def uncounted (info : Info) : Info :=
  { info with count := none }

end Info

namespace Tree

variable {change : Info → Info}

theorem mapInfoAll_eq_map (ts : List Tree) : mapInfoAll change ts = ts.map (mapInfo change) := by
  induction ts with
  | nil => rw [mapInfoAll, map_nil]
  | cons t ts ih => rw [mapInfoAll, map_cons, ih]

@[simp] theorem mapInfo_node (id : NodeId) (info : Info) (children : List Tree) :
    mapInfo change (.node id info children) =
      .node id (change info) (children.map (mapInfo change)) := by
  rw [mapInfo, mapInfoAll_eq_map]

mutual

theorem numbers_mapInfo (t : Tree) : (mapInfo change t).numbers = t.numbers := by
  cases t with
  | node id info children =>
    rw [mapInfo_node, numbers_node, numbers_node, numbersOfAll_map_mapInfo children]

theorem numbersOfAll_map_mapInfo (ts : List Tree) :
    numbersOfAll (ts.map (mapInfo change)) = numbersOfAll ts := by
  cases ts with
  | nil => rw [map_nil]
  | cons t ts =>
    rw [map_cons, numbersOfAll_cons, numbersOfAll_cons, numbers_mapInfo t,
      numbersOfAll_map_mapInfo ts]

end

/-- Trees that are the same but for some of their contents have the same numbers. -/
theorem numbers_of_mapInfo {t u : Tree} (same : mapInfo change t = mapInfo change u) :
    t.numbers = u.numbers := by
  rw [← numbers_mapInfo t, same, numbers_mapInfo]

/-- The tree without what binding and checking write. -/
def outline (t : Tree) : Tree :=
  t.mapInfo Info.outline

@[simp] theorem outline_node (id : NodeId) (info : Info) (children : List Tree) :
    outline (.node id info children) = .node id info.outline (children.map outline) :=
  mapInfo_node id info children

def uncounted (t : Tree) : Tree :=
  t.mapInfo Info.uncounted

@[simp] theorem uncounted_node (id : NodeId) (info : Info) (children : List Tree) :
    uncounted (.node id info children) = .node id info.uncounted (children.map uncounted) :=
  mapInfo_node id info children

theorem length_of_uncounted {ts us : List Tree} (same : us.map uncounted = ts.map uncounted) :
    us.length = ts.length := by
  simpa using congrArg length same

end Tree

namespace Bind

variable {scope : ScopeId}

theorem outline_withInfo (t : Tree) {change : Info → Info}
    (same : ∀ info, (change info).outline = info.outline) :
    (t.withInfo change).outline = t.outline := by
  obtain ⟨id, info, children⟩ := t
  rw [withInfo, outline_node, outline_node, same]

theorem outline_skip (t : Tree) : (skip t).outline = t.outline :=
  outline_withInfo t fun _ => rfl

theorem outline_comp_skip : outline ∘ skip = outline :=
  funext outline_skip

/-- What a computation makes is a tree but for what binding writes. -/
def Preserves (x : Bind Tree) (t : Tree) : Prop :=
  Yields x (·.outline = t.outline)

def PreservesAll (x : Bind (List Tree)) (ts : List Tree) : Prop :=
  Yields x (·.map outline = ts.map outline)

/-- A node that has been looked at. -/
theorem outline_done {id : NodeId} {info written : Info} {children parts : List Tree}
    (same : written.outline = info.outline)
    (sameAll : parts.map outline = children.map outline) :
    (Tree.node id (done written) parts).outline = (Tree.node id info children).outline := by
  rw [outline_node, outline_node, ← same, sameAll]
  rfl

theorem PreservesAll.nil : PreservesAll (pure []) [] :=
  Yields.pure rfl

theorem PreservesAll.cons {x : Bind Tree} {y : Bind (List Tree)} {t : Tree} {ts : List Tree}
    (first : Preserves x t) (rest : PreservesAll y ts) :
    PreservesAll (do let t ← x; return t :: (← y)) (t :: ts) :=
  Yields.bind first fun _ same => .bind rest fun _ sameAll =>
    .pure (by rw [map_cons, map_cons, same, sameAll])

theorem PreservesAll.node {x : Bind (List Tree)} {id : NodeId} {info : Info} {ts : List Tree}
    (parts : PreservesAll x ts) :
    Preserves (do return Tree.node id (done info) (← x)) (.node id info ts) :=
  Yields.bind parts fun _ same => .pure (outline_done rfl same)

/-- What a computation yields it yields inside of a host, on which it writes. -/
theorem yields_inHost {α : Type} {x : Bind α} {fact : α → Prop} (info : Info)
    (yields : Yields x fact) :
    Yields (inHost info scope x) (fun r => r.1.outline = info.outline ∧ fact r.2) :=
  Yields.after fun _ => .after fun _ => .bind yields fun _ holds =>
    Yields.after fun _ => .after fun _ => .pure ⟨rfl, holds⟩

theorem outline_declare (id : NodeId) (info : Info) (kind : TagKind) (hoisted : Bool) :
    Yields (declare id info kind scope hoisted) (fun r => r.outline = info.outline) := by
  unfold declare
  split
  · exact .pure rfl
  · refine .after fun s => ?_
    split
    all_goals exact .after fun _ => .pure rfl

theorem outline_use (info : Info) (assigning : Bool) :
    Yields (use info scope assigning) (fun r => r.outline = info.outline) := by
  unfold use
  split
  · exact .pure rfl
  · refine .after fun s => ?_
    split
    · exact .after fun _ => .pure rfl
    · exact .join fun _ => .pure rfl

theorem outline_tag (id : NodeId) (info : Info) (kind : TagKind) (assigning : Bool) :
    Yields (tag id info kind scope assigning) (fun r => r.outline = info.outline) := by
  unfold tag
  split
  · exact .pure rfl
  · split
    · exact .after fun _ => .pure rfl
    · split
      · exact outline_declare id info kind true
      · exact outline_use info assigning

mutual

theorem outline_pattern (hoisted : Bool) (t : Tree) : Preserves (pattern scope hoisted t) t := by
  cases t with
  | node id info children =>
    unfold pattern
    split
    · split
      · exact .after fun _ => .pure rfl
      · split
        · refine .bind (outline_declare id info _ hoisted) fun written same => ?_
          exact .pure (outline_done same rfl)
        · exact .after fun _ => .pure rfl
    · exact (outline_patterns hoisted children).node
    · exact .after fun _ => .pure rfl

theorem outline_patterns (hoisted : Bool) (ts : List Tree) :
    PreservesAll (patterns scope hoisted ts) ts := by
  cases ts with
  | nil => exact .nil
  | cons t ts => exact .cons (outline_pattern hoisted t) (outline_patterns hoisted ts)

end

theorem outline_external (t : Tree) : Preserves (external scope t) t := by
  unfold external
  split
  · refine .after fun s => ?_
    split
    · exact .after fun _ => .pure (outline_withInfo t fun _ => rfl)
    · exact .pure (outline_withInfo t fun _ => rfl)
  · exact .after fun _ => .pure (outline_skip t)

theorem outline_externals (ts : List Tree) : PreservesAll (ts.mapM (external scope)) ts := by
  induction ts with
  | nil => exact .nil
  | cons t ts ih =>
    rw [mapM_cons]
    exact .cons (outline_external t) ih

/-- Names and the body behind them, inside of a host. -/
theorem outline_namesAndBody (info : Info) (hoisted : Bool) (names : Tree) {body : Tree}
    (kept : Preserves (tree .value scope body) body) :
    Yields (inHost info scope do
        let names ← pattern scope hoisted names
        return (names, ← tree .value scope body))
      (fun r => r.1.outline = info.outline ∧
        r.2.1.outline = names.outline ∧ r.2.2.outline = body.outline) := by
  have both : Yields (do
      let names ← pattern scope hoisted names
      return (names, ← tree .value scope body) : Bind (Tree × Tree))
      (fun r => r.1.outline = names.outline ∧ r.2.outline = body.outline) := by
    refine .bind (outline_pattern hoisted names) fun first same => ?_
    exact .bind kept fun second sameBody => .pure ⟨same, sameBody⟩
  exact yields_inHost info both

/-- A head in the scope around a host, and the body in the host. -/
theorem outline_headAndBody (id : NodeId) (info : Info) (inner : ScopeId) {head body : Tree}
    (keptHead : Preserves (tree .value scope head) head)
    (keptBody : Preserves (tree .value inner body) body) :
    Preserves (do
        let head ← tree .value scope head
        let (info, body) ← inHost info inner (tree .value inner body)
        return Tree.node id (done info) [head, body]) (.node id info [head, body]) := by
  refine .bind keptHead fun head same => ?_
  refine .bind (yields_inHost info keptBody) fun r sameBody => ?_
  exact .pure (outline_done sameBody.1 (by simp [same, sameBody.2]))

theorem outline_trees {ts : List Tree}
    (each : ∀ t ∈ ts, ∀ place scope, Preserves (tree place scope t) t) (place : Place)
    (scope : ScopeId) : PreservesAll (trees place scope ts) ts := by
  induction ts with
  | nil => exact .nil
  | cons t ts ih =>
    obtain ⟨first, rest⟩ := forall_mem_cons.mp each
    exact .cons (first place scope) (ih rest)

theorem outline_tree (place : Place) (scope : ScopeId) (t : Tree) :
    Preserves (tree place scope t) t := by
  induction t using induction_on_height generalizing place scope with
  | step t ih =>
    obtain ⟨id, info, children⟩ := t
    have each (child : Tree) (member : child ∈ children) : ∀ place scope,
        Preserves (tree place scope child) child :=
      fun place scope => ih child (height_lt_of_mem member) place scope
    have done_trees (place : Place) (scope : ScopeId) :
        Preserves (do return Tree.node id (done info) (← trees place scope children))
          (.node id info children) :=
      (outline_trees each place scope).node
    have hosted :
        Preserves (do
          let inner ← extend scope
          let r ← inHost info inner (trees .value inner children)
          return Tree.node id (done r.1) r.2) (.node id info children) := by
      refine .after fun inner => ?_
      refine .bind (yields_inHost info (outline_trees each .value inner)) fun r same => ?_
      exact .pure (outline_done same.1 same.2)
    have tagged (kind : TagKind) (assigning : Bool) :
        Preserves (do return Tree.node id (done (← tag id info kind scope assigning)) children)
          (.node id info children) := by
      refine .bind (outline_tag id info kind assigning) fun written same => ?_
      exact .pure (outline_done same rfl)
    unfold tree
    split
    · exact tagged _ _
    · exact done_trees _ _
    · simp only [forall_mem_cons] at each
      refine .bind (outline_trees each.2 _ _) fun parts same => ?_
      exact .pure (outline_done rfl (by simp [same, outline_skip]))
    · exact .pure rfl
    · refine .join fun _ => ?_
      split
      · exact .pure rfl
      · split
        all_goals try simp only [forall_mem_cons] at each
        -- blocks and tags
        · split
          · exact hosted
          · exact done_trees _ _
        · exact tagged _ _
        -- assignments, members, objects and pairs
        · refine .bind (each.1 _ _) fun left same => ?_
          refine .bind (each.2.1 _ _) fun right sameRight => ?_
          exact .pure (outline_done rfl (by simp [same, sameRight]))
        · refine .bind (each.1 _ _) fun object same => ?_
          exact .pure (outline_done rfl (by simp [same, outline_comp_skip]))
        · exact done_trees _ _
        · refine .after fun _ => .bind (outline_trees each.2 _ _) fun parts same => ?_
          exact .pure (outline_done rfl (by simp [same, outline_skip]))
        · exact .after fun _ => .pure rfl
        -- declarations
        · exact (outline_patterns true _).node
        · exact (outline_patterns true _).node
        · exact (outline_externals _).node
        -- functions and clauses
        iterate 2
          · refine .after fun inner => ?_
            refine .bind (outline_namesAndBody info false _ (each.2.1 _ _)) fun r same => ?_
            exact .pure (outline_done same.1 (by simp [same.2.1, same.2.2]))
        · exact hosted
        · exact hosted
        -- loops
        · refine .after fun inner => ?_
          refine .bind (yields_inHost info (each.1 .value inner)) fun r same => ?_
          exact .pure (outline_done same.1 (by simp [same.2]))
        · refine .after fun inner => ?_
          split
          · refine .bind (ih _ (Nat.lt_trans (height_lt_of_mem (t := .node _ _ [_, _])
              (.tail _ (.head _))) (height_lt_of_mem (.head _))) _ _) fun init same => ?_
            refine .bind (outline_namesAndBody info true _ (each.2.1 _ _)) fun r pair => ?_
            exact .pure
              (outline_done pair.1 (by simp [same, pair.2.1, pair.2.2, done, Info.outline]))
          · exact .after fun _ => outline_headAndBody id info inner (each.1 _ _) (each.2.1 _ _)
        · exact .after fun inner => .after fun _ =>
            outline_headAndBody id info inner (each.1 _ _) (each.2.1 _ _)
        · exact .after fun _ => done_trees _ _
        · exact done_trees _ _

theorem outline_root (t : Tree) : Preserves (root t) t := by
  obtain ⟨id, info, children⟩ := t
  refine .bind
    (yields_inHost info (outline_trees (fun t _ place scope => outline_tree place scope t)
    .value Scopes.root)) fun r same => ?_
  exact .pure (outline_done same.1 same.2)

end Bind

/-- Binding moves no node. -/
theorem Bind.numbers_root (t : Tree) : Yields (Bind.root t) (fun r => r.numbers = t.numbers) :=
  (Bind.outline_root t).mono fun _ => numbers_of_mapInfo

end Offside
