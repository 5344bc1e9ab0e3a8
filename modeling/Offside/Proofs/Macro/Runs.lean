import Offside.Compilation
import Offside.Proofs.Macro.Rounds

/-!
# Runs of expansion

An expansion as a tree of steps, with no bound but the two that expansion has itself: the rounds on
a node and the expansions around it are counted upwards, and nothing is done any more beyond the
limit. A run also tells the renamings that were made, in order. Every expansion has a run.
-/

namespace Offside.Expand

/-- A renaming: the tree in the place of an invocation, and the names given out before. -/
structure Step where
  tree : Tree
  names : NameSupply

def Step.outcome (step : Step) : Tree × Renaming :=
  Renaming.tree step.tree ⟨.empty, step.names, #[]⟩

/-- What a run has to do. -/
inductive Task where
  /-- Some trees, one after the other. -/
  | trees (ts : List Tree)
  /-- A node on which some rounds have been made. -/
  | node (made : Nat) (t : Tree)

def Task.subjects : Task → List Tree
  | .trees ts => ts
  | .node _ t => [t]

/--
The runs of a task inside of `depth` expansions, from one state to another, with the renamings that
are made and the trees that come of it.
-/
inductive Runs (settings : ExpansionSettings) :
    Nat → Task → Expanding → List Step → List Tree → Expanding → Prop
  | nil {depth s} : Runs settings depth (.trees []) s [] [] s
  /-- What is quoted stays as it is until its node is looked at. -/
  | quoted {depth id info children ts first others s s₁ s₂ steps more}
      (quoting : info.symbol.flags.quoting = true)
      (here : Runs settings depth (.node 0 (.node id info children)) s steps first s₁)
      (rest : Runs settings depth (.trees ts) s₁ more others s₂) :
      Runs settings depth (.trees (.node id info children :: ts)) s (steps ++ more)
        (first ++ others) s₂
  /-- Children come before their node. -/
  | entered {depth id info children ts parts first others s s₁ s₂ s₃ inside steps more}
      (entering : info.symbol.flags.quoting = false)
      (inner : Runs settings depth (.trees children) s inside parts s₁)
      (here : Runs settings depth (.node 0 (.node id info parts)) s₁ steps first s₂)
      (rest : Runs settings depth (.trees ts) s₂ more others s₃) :
      Runs settings depth (.trees (.node id info children :: ts)) s (inside ++ steps ++ more)
        (first ++ others) s₃
  | stay {depth made t s s₁}
      (result : round settings t s = (.stay, s₁)) :
      Runs settings depth (.node made t) s [] [t] s₁
  | vanish {depth made t s s₁}
      (result : round settings t s = (.vanish, s₁)) :
      Runs settings depth (.node made t) s [] [] s₁
  /-- One round too many, or one expansion too deep. -/
  | stop {depth made t remains new s s₁}
      (result : round settings t s = (.become remains new, s₁))
      (beyond : limit < made + 1 ∨ limit < depth) :
      Runs settings depth (.node made t) s [] [remains] (reportLimit t s₁).2
  /-- The new node quotes its children and is looked at again. -/
  | again {depth made t remains new placed results s s₁ s₂ s₃ more}
      (result : round settings t s = (.become remains new, s₁)) (few : made + 1 ≤ limit)
      (shallow : depth ≤ limit) (settles : settle t.id new s₁ = (placed, s₂))
      (quoting : placed.symbol.flags.quoting = true)
      (onward : Runs settings depth (.node (made + 1) placed) s₂ more results s₃) :
      Runs settings depth (.node made t) s
        (⟨.node t.id new.info new.children, s₁.names⟩ :: more) results s₃
  /-- The new children are expanded one level deeper, and the new node is looked at again. -/
  | deeper {depth made t remains new placed parts results s s₁ s₂ s₃ s₄ inside more}
      (result : round settings t s = (.become remains new, s₁)) (few : made + 1 ≤ limit)
      (shallow : depth ≤ limit) (settles : settle t.id new s₁ = (placed, s₂))
      (entering : placed.symbol.flags.quoting = false)
      (inner : Runs settings (depth + 1) (.trees placed.children) s₂ inside
        parts s₃)
      (onward : Runs settings depth (.node (made + 1) (placed.withChildren parts)) s₃ more
        results s₄) :
      Runs settings depth (.node made t) s
        (⟨.node t.id new.info new.children, s₁.names⟩ :: (inside ++ more)) results s₄

variable {settings : ExpansionSettings}

/-! ## One round -/

section Round

variable {below : List Tree → Expand (List Tree)} {count : Nat}
  {t remains new placed : Tree} {s s₁ s₂ : Expanding}

theorem rounds_of_stay (result : round settings t s = (.stay, s₁)) :
    rounds settings below count t s = (some t, s₁) := by
  rw [rounds]
  simp only [Bind.bind, StateT.bind, result]
  rfl

theorem rounds_of_vanish (result : round settings t s = (.vanish, s₁)) :
    rounds settings below count t s = (none, s₁) := by
  rw [rounds]
  simp only [Bind.bind, StateT.bind, result]
  rfl

section

variable (result : round settings t s = (.become remains new, s₁))
include result

theorem rounds_of_stop :
    rounds settings below 0 t s = (some remains, (reportLimit t s₁).2) := by
  rw [rounds]
  simp only [Bind.bind, StateT.bind, result]
  rfl

theorem rounds_of_quoting (settles : settle t.id new s₁ = (placed, s₂))
    (quoting : placed.symbol.flags.quoting = true) :
    rounds settings below (count + 1) t s = rounds settings below count placed s₂ := by
  rw [rounds]
  simp only [Bind.bind, StateT.bind, result, settles, quoting, if_true]
  change rounds settings below count (placed.withChildren placed.children) s₂ = _
  obtain ⟨id, info, children⟩ := placed
  rfl

theorem rounds_of_entering (settles : settle t.id new s₁ = (placed, s₂))
    (entering : placed.symbol.flags.quoting = false) :
    rounds settings below (count + 1) t s =
      rounds settings below count (placed.withChildren (below placed.children s₂).1)
        (below placed.children s₂).2 := by
  rw [rounds]
  simp only [Bind.bind, StateT.bind, result, settles, entering, Bool.false_eq_true, if_false]
  rfl

end

end Round

/-! ## Every expansion has a run -/

/-- A computation on trees does what a run inside of some expansions does. -/
def RunsBelow (settings : ExpansionSettings) (depth : Nat)
    (below : List Tree → Expand (List Tree)) : Prop :=
  ∀ ts s, ∃ steps,
    Runs settings depth (.trees ts) s steps (below ts s).1 (below ts s).2

/-- A computation on a node does what a run after some rounds does. -/
def RunsNode (settings : ExpansionSettings) (depth made : Nat)
    (node : Tree → Expand (Option Tree)) : Prop :=
  ∀ t s, ∃ steps,
    Runs settings depth (.node made t) s steps (node t s).1.toList (node t s).2

/-- Beyond the limit a node is looked at once more, and then nothing is done. -/
theorem runs_rounds_zero {depth made : Nat} (beyond : limit < made + 1 ∨ limit < depth)
    (below : List Tree → Expand (List Tree)) :
    RunsNode settings depth made (rounds settings below 0) := by
  intro t s
  rcases result : round settings t s with ⟨outcome, s₁⟩
  cases outcome with
  | stay =>
    rw [rounds_of_stay result]
    exact ⟨[], .stay result⟩
  | vanish =>
    rw [rounds_of_vanish result]
    exact ⟨[], .vanish result⟩
  | become remains new =>
    rw [rounds_of_stop result]
    exact ⟨[], .stop result beyond⟩

/-- The rounds that are left and those that have been made are the limit together. -/
theorem runs_rounds {depth : Nat} {below : List Tree → Expand (List Tree)}
    (shallow : depth ≤ limit) (deeper : RunsBelow settings (depth + 1) below) (count made : Nat)
    (all : made + count = limit) : RunsNode settings depth made (rounds settings below count) := by
  induction count generalizing made with
  | zero =>
    refine runs_rounds_zero (.inl ?_) below
    rw [← all]
    exact Nat.lt_succ_self made
  | succ count ih =>
    intro t s
    have few : made + 1 ≤ limit := by omega
    rcases result : round settings t s with ⟨outcome, s₁⟩
    cases outcome with
    | stay =>
      rw [rounds_of_stay result]
      exact ⟨[], .stay result⟩
    | vanish =>
      rw [rounds_of_vanish result]
      exact ⟨[], .vanish result⟩
    | become remains new =>
      rcases settles : settle t.id new s₁ with ⟨placed, s₂⟩
      cases quoting : placed.symbol.flags.quoting with
      | true =>
        rw [rounds_of_quoting result settles quoting]
        obtain ⟨more, onward⟩ := ih (made + 1) (by omega) placed s₂
        exact ⟨_, .again result few shallow settles quoting onward⟩
      | false =>
        rw [rounds_of_entering result settles quoting]
        obtain ⟨inside, inner⟩ := deeper placed.children s₂
        obtain ⟨more, onward⟩ := ih (made + 1) (by omega) _ _
        exact ⟨_, .deeper result few shallow settles quoting inner onward⟩

mutual

theorem runs_tree {depth : Nat} {node : Tree → Expand (Option Tree)}
    (runs : RunsNode settings depth 0 node) (t : Tree) (s : Expanding)
    {ts others : List Tree} {more : List Step} {s₁ : Expanding}
    (rest : Runs settings depth (.trees ts) (tree node t s).2 more others s₁) :
    ∃ steps, Runs settings depth (.trees (t :: ts)) s steps ((tree node t s).1.toList ++ others)
      s₁ := by
  cases t with
  | node id info children =>
    cases quoting : info.symbol.flags.quoting with
    | true =>
      have same : tree node (.node id info children) s = node (.node id info children) s := by
        rw [tree, if_pos quoting]
        rfl
      rw [same] at rest ⊢
      obtain ⟨steps, here⟩ := runs (.node id info children) s
      exact ⟨_, .quoted quoting here rest⟩
    | false =>
      have same : tree node (.node id info children) s =
          node (.node id info (trees node children s).1) (trees node children s).2 := by
        rw [tree, if_neg (by simp [quoting])]
        rfl
      rw [same] at rest ⊢
      obtain ⟨inside, inner⟩ := runs_trees runs children s
      obtain ⟨steps, here⟩ := runs (.node id info (trees node children s).1)
        (trees node children s).2
      exact ⟨_, .entered quoting inner here rest⟩

theorem runs_trees {depth : Nat} {node : Tree → Expand (Option Tree)}
    (runs : RunsNode settings depth 0 node) (ts : List Tree) (s : Expanding) :
    ∃ steps, Runs settings depth (.trees ts) s steps (trees node ts s).1 (trees node ts s).2 := by
  cases ts with
  | nil =>
    rw [trees]
    exact ⟨[], .nil⟩
  | cons t ts =>
    obtain ⟨more, rest⟩ := runs_trees runs ts (tree node t s).2
    obtain ⟨steps, whole⟩ := runs_tree runs t s rest
    rw [trees]
    exact ⟨steps, whole⟩

end

/-- The levels that are left and the expansions around are the limit together. -/
theorem runs_nested (left depth : Nat) (all : depth + left = limit + 1) :
    RunsBelow settings depth (nested settings left) := by
  induction left generalizing depth with
  | zero => exact runs_trees (runs_rounds_zero (.inr (by omega)) _)
  | succ left ih =>
    exact runs_trees (runs_rounds (by omega) (ih (depth + 1) (by omega)) limit 0 (Nat.zero_add _))

/-- The expansion of a unit has a run. -/
theorem runs_root {t : Tree} (plain : t.symbol.isMacro = false) (s : Expanding) :
    ∃ steps, Runs settings 0 (.trees [t]) s steps [(root settings t s).1]
      (root settings t s).2 := by
  have runs : RunsBelow settings 0 (nested settings (limit + 1)) := runs_nested _ _ (Nat.zero_add _)
  obtain ⟨steps, whole⟩ := runs [t] s
  obtain ⟨children, same⟩ :
      ∃ children, (nested settings (limit + 1) [t] s).1 = [t.withChildren children] :=
    nested_of_plain _ plain s
  rw [same] at whole
  have result : root settings t s =
      (t.withChildren children, (nested settings (limit + 1) [t] s).2) := by
    have onward (next : List Tree → Expand Tree) : (nested settings (limit + 1) [t] >>= next) s =
        next [t.withChildren children] (nested settings (limit + 1) [t] s).2 :=
      congrArg (next · _) same
    rw [root, onward]
    rfl
  rw [result]
  exact ⟨steps, whole⟩

/-! ## What a run leaves alone -/

def Follows (s after : Expanding) : Prop :=
  ∃ more, after.diagnostics = s.diagnostics ++ more

theorem Follows.refl (s : Expanding) : Follows s s :=
  ⟨#[], by simp⟩

theorem Follows.trans {s between after : Expanding} (first : Follows s between)
    (second : Follows between after) : Follows s after := by
  obtain ⟨more, same⟩ := first
  obtain ⟨last, again⟩ := second
  exact ⟨more ++ last, by rw [again, same, Array.append_assoc]⟩

theorem Follows.mem {s after : Expanding} (follows : Follows s after) {d : Diagnostic}
    (member : d ∈ s.diagnostics) : d ∈ after.diagnostics := by
  obtain ⟨more, same⟩ := follows
  rw [same]
  exact Array.mem_append_left _ member

/-- A state from which the same names can be given out, and in which no report is missing. -/
def Besides (s after : Expanding) : Prop :=
  after.names = s.names ∧ Follows s after

section

variable {t : Tree} {outcome : Round} {s s₁ : Expanding}

/-- A round numbers new nodes and makes reports, and does nothing else to the state. -/
theorem besides_of_round (result : round settings t s = (outcome, s₁)) : Besides s s₁ := by
  cases rounded_of_round result with
  | misplaced | failed => exact ⟨rfl, #[_], Array.push_eq_append⟩
  | _ => exact ⟨rfl, .refl s⟩

theorem limited_of_round (result : round settings t s = (outcome, s₁)) :
    s₁.limited = s.limited := by
  cases rounded_of_round result <;> rfl

theorem besides_reportLimit (t : Tree) (s : Expanding) : Besides s (reportLimit t s).2 := by
  change Besides s (if s.limited then s else _)
  split
  · exact ⟨rfl, .refl s⟩
  · exact ⟨rfl, #[_], Array.push_eq_append⟩

end

theorem Runs.follows {depth : Nat} {task : Task} {s after : Expanding}
    {steps : List Step} {results : List Tree}
    (run : Runs settings depth task s steps results after) : Follows s after := by
  have placing {id : NodeId} {new placed : Tree} {s s₁ : Expanding}
      (settles : settle id new s = (placed, s₁)) : Follows s s₁ := by
    cases settles
    exact ⟨_, rfl⟩
  induction run with
  | nil => exact .refl _
  | quoted _ _ _ here rest => exact here.trans rest
  | entered _ _ _ _ inner here rest => exact inner.trans (here.trans rest)
  | stay result | vanish result => exact (besides_of_round result).2
  | stop result _ => exact (besides_of_round result).2.trans (besides_reportLimit _ _).2
  | again result _ _ settles _ _ onward =>
    exact (besides_of_round result).2.trans ((placing settles).trans onward)
  | deeper result _ _ settles _ _ _ inner onward =>
    exact (besides_of_round result).2.trans ((placing settles).trans (inner.trans onward))

end Offside.Expand

namespace Offside.SourceUnit

variable {unit : SourceUnit}

def expansionSettings (unit : SourceUnit) (env : Environment) (trace : Bool)
    (text : Option (List Char)) : ExpansionSettings :=
  ⟨env, unit.templates, trace, text⟩

def expansionStart (unit : SourceUnit) : Expanding :=
  ⟨unit.numbering, .start, unit.diagnostics, false⟩

/-- The expansion of a unit whose root is no macro has a run. -/
theorem runs_expand (plain : unit.tree.symbol.isMacro = false) (env : Environment) (trace : Bool)
    (text : Option (List Char)) :
    ∃ steps final, Expand.Runs (unit.expansionSettings env trace text) 0 (.trees [unit.tree])
      unit.expansionStart steps [(unit.expand env trace text).tree] final ∧
        (unit.expand env trace text).diagnostics = final.diagnostics := by
  obtain ⟨steps, run⟩ := Expand.runs_root plain unit.expansionStart
  exact ⟨steps, _, run, rfl⟩

end Offside.SourceUnit
