import Offside.Proofs.Lowering.Success.Checked

/-!
# Programs of checked units

If no step reports anything, the check included, there is a program unless generation comes to a
gap.
-/

namespace Offside

open List

namespace SourceUnit

open Lowering (Gapless Spot)

variable {unit : SourceUnit} {env : Environment} {admitted : String → Prop} {strict : Prop}

/-! ## What the steps leave -/

theorem expanded_marked {change : Info → Info} (marks : Info.Marks change) (t : Tree) :
    (t.mapInfo change).Obeys Info.Expanded = t.Obeys Info.Expanded := by
  refine propext (Tree.obeys_mapInfo marks (fun info below => ?_) t)
  rw [Info.Expanded, Info.Expanded, marks.symbol]

/-- A unit that is checked without an error is accepted. -/
theorem accepts_check (formed : unit.check.tree.Obeys (Info.Formed admitted))
    (clean : unit.check.diagnostics.hasErrors = false) :
    Check.Accepts strict (.produce none) .outermost unit.check.tree := by
  -- checking once more reports no error either
  have again :
    Check.root unit.check.tree unit.diagnostics = Check.root unit.tree unit.diagnostics :=
    Check.root_root unit.tree unit.diagnostics
  exact (Check.clears_of_formed formed _ _ unit.diagnostics
    (congrArg (·.2.hasErrors) again |>.trans clean)).2

/-- The lines of a unit that is bound without an error can be bound. -/
theorem bindable_bind (proper : unit.tree.IsProper admitted)
    (isRoot : unit.tree.symbol = .block .root)
    (clean : (unit.bind env).diagnostics.hasErrors = false) :
    Tree.BindableAll .value (unit.bind env).check.tree.children := by
  obtain ⟨final, bound⟩ := bound_check proper isRoot clean
  have canBe := bound.canBe (List.forall_mem_singleton.mpr (.of_formed (formed_check proper env)))
  refine Tree.bindableAll_iff.mpr ((Bind.bindable_single canBe).children ?_)
  rw [tree_marked _ Tree.symbol_mapInfo, isRoot]
  rfl

/-- The lines of a unit that is accepted are accepted. -/
theorem accepts_lines {t : Tree} {expected : Option Nat} {cx : JumpContext}
    (accepts : Check.Accepts strict (.produce expected) cx t) (isRoot : t.symbol = .block .root) :
    ∀ line ∈ t.children, Check.Accepts strict (.produce none) cx line := by
  cases accepts with
  | root _ lines => exact lines
  | leaf isLeaf =>
    rw [isRoot] at isLeaf
    rcases isLeaf with isValue | ⟨_, isTag⟩
    · cases isValue
    · cases isTag
  | stray isClause =>
    rw [isRoot] at isClause
    cases isClause
  | _ isOther => cases isRoot.symm.trans isOther

/-- The values of all lines are dropped. -/
theorem sink_of_flows {ts : List Tree} {job : Tree × Lowering.Sink}
    (member : job ∈ Lowering.flows .dropped ts) : job.2 = .dropped := by
  induction ts with
  | nil => cases member
  | cons first rest ih =>
    cases rest with
    | nil =>
      cases mem_singleton.mp member
      rfl
    | cons next others =>
      rcases mem_cons.mp member with rfl | later
      · rfl
      · exact ih later

/-- The lines of a unit that is accepted and can be bound are ready. -/
theorem ready_lines {t : Tree} (isRoot : t.symbol = .block .root)
    (finished : t.Obeys (Info.Finished admitted))
    (accepts : Check.Accepts strict (.produce none) .outermost t)
    (bindable : Tree.BindableAll .value t.children) :
    ∀ line ∈ (Spot.mk .dropped [] t).parts,
      line.tree.Obeys (Info.Finished admitted) ∧ line.Ready strict := by
  rw [Spot.parts_root isRoot]
  refine forall_mem_map.mpr fun job member => ?_
  have inside := Spot.mem_of_flows member
  refine ⟨Tree.obeyAll_iff.mp finished.children _ inside,
    .value (accepts_lines accepts isRoot _ inside) (Tree.bindableAll_iff.mp bindable _ inside) ?_
      (Lowering.follows_outermost [] false)⟩
  rw [sink_of_flows member]
  trivial

/-! ## The whole way -/

/-- Expansion leaves the root and trees whose nodes are proper. -/
theorem proper_expand (settings : Scan.Settings) (text : List Char) (calls : env.CallsOnly)
    (prelude trace : Bool) (kept : Option (List Char)) :
    let expanded := ((read settings text).combine env prelude).expand env trace kept
    (expanded.tree.IsProper fun _ => True) ∧ expanded.tree.symbol = .block .root := by
  have combined : ((read settings text).combine env prelude).Combined fun _ => True :=
    combined_read settings text (fun _ _ _ _ => trivial) prelude
  constructor
  · refine combined.obeys_expand (Expand.lasting_proper trivial) (fun _ _ here => here) ?_ trace
      kept
    intro routine member
    rw [calls.routines_eq] at member
    exact absurd member (Array.not_mem_empty _)
  · rw [symbol_expand (isMacro_combine settings text env prelude), combined.isRoot]

/-- If no step up to the check reports anything, the lines of the checked unit are ready. -/
theorem ready_of_silent (calls : env.CallsOnly) (settings : Scan.Settings) (text : List Char)
    (prelude trace : Bool) (kept : Option (List Char))
    (silent : ∀ unit ∈ steps settings text env prelude trace kept, unit.diagnostics = #[]) :
    let checked :=
      ((((read settings text).combine env prelude).expand env trace kept).bind env).check
    checked.tree.symbol = .block .root ∧ ∀ line ∈ (Spot.mk .dropped [] checked.tree).parts,
      line.tree.Obeys (Info.Finished fun _ => True) ∧ line.Ready strict := by
  intro checked
  have quiet {unit : SourceUnit} (none : unit.diagnostics = #[]) :
      unit.diagnostics.hasErrors = false := by
    rw [none, Diagnostics.hasErrors, Array.any_empty]
  rw [steps, forall_mem_cons, forall_mem_cons, forall_mem_cons,
    forall_mem_cons, forall_mem_cons] at silent
  obtain ⟨-, combined, expanded, bound, isChecked, -⟩ := silent
  obtain ⟨proper, isRoot⟩ := proper_expand settings text calls prelude trace kept
  have ready := ready_check proper isRoot (quiet bound)
  have stillExpanded : checked.tree.Obeys Info.Expanded := by
    rw [tree_marked (Tree.Obeys Info.Expanded) expanded_marked]
    exact obeys_expanded settings text calls prelude trace kept (expanded.trans combined.symm)
  have finished : checked.tree.Obeys (Info.Finished fun _ => True) :=
    ready.formed.merge stillExpanded fun _ _ formed expanded => ⟨formed, expanded⟩
  exact ⟨ready.isRoot, ready_lines ready.isRoot finished
    (accepts_check ready.formed (quiet isChecked)) (bindable_bind proper isRoot (quiet bound))⟩

/--
If no step up to the check reports anything, generation makes a program of the checked unit and
reports nothing, unless it comes to a gap.
-/
theorem generates_of_silent {env : Environment} (calls : env.CallsOnly) (settings : Scan.Settings)
    (text : List Char) (prelude trace : Bool) (kept : Option (List Char))
    (silent : ∀ unit ∈ steps settings text env prelude trace kept, unit.diagnostics = #[]) :
    let checked :=
      ((((read settings text).combine env prelude).expand env trace kept).bind env).check
    Gapless checked.tree → ∃ program, checked.generate = (some program, checked) := by
  intro checked gapless
  obtain ⟨isRoot, ready⟩ := ready_of_silent calls settings text prelude trace kept silent
  obtain ⟨program, made⟩ : ∃ program, Lowering.run checked.tree = .ok program := by
    apply Lowering.exists_program
    intro job member other reaches
    have isLine : ⟨job.2, [], job.1⟩ ∈ (Spot.mk .dropped [] checked.tree).parts := by
      rw [Spot.parts_root isRoot]
      exact mem_map.mpr ⟨job, member, rfl⟩
    obtain ⟨finished, isReady⟩ := ready _ isLine
    exact (Lowering.ready_of_reaches finished isReady (gapless _ isLine) reaches).2.2.fit
  refine ⟨program, ?_⟩
  rw [generate, made]

/-- A source with a function, a loop with two variables and declarations of two names. -/
def swappingText : List Char :=
  "var (x, y) = do\n  give (fn x x, 1)\nloop (a, b) = (x, y)\n  next (b, a)".toList

theorem generates_swappingText :
    let checked := ((((read ⟨0, none⟩ swappingText).combine .standard true).expand .standard false
      none).bind .standard).check
    Environment.standard.CallsOnly ∧
      (∀ unit ∈ steps ⟨0, none⟩ swappingText .standard true false none, unit.diagnostics = #[]) ∧
      Gapless checked.tree ∧ ∃ program, checked.generate = (some program, checked) := by
  intro checked
  obtain ⟨silent, plain⟩ :
      (∀ unit ∈ steps ⟨0, none⟩ swappingText .standard true false none, unit.diagnostics = #[]) ∧
        (Spot.mk .dropped [] checked.tree).parts.all (Spot.allWithin Spot.isPlain 12) = true := by
    decide +kernel
  have gapless : Gapless checked.tree := fun line member _ reaches =>
    Spot.regular_of_isPlain (reaches.of_allWithin (all_eq_true.mp plain line member))
  exact ⟨.standard, silent, gapless,
    generates_of_silent .standard ⟨0, none⟩ swappingText true false none silent gapless⟩

/--
Sources that every step up to the check accepts in silence: a declaration of two names that is
used as a value, nested targets, an assignment to no name, a tuple that is returned, nested loop
variables, several names that a template catches, a clause that a template leaves outside of its
construct, a call of nothing, and a property that is computed as a tuple.
-/
def gappyTexts : List (List Char) :=
  ["var (x, w) = var (y, z)".toList, "var (a, (b, c)) = (1, 2)".toList, "(var) = 1".toList,
    "fn x (1,)".toList, "loop (a, (b, c)) = (1, 2)\n  end".toList,
    "#macro f x (try 1 catch (a, b) 2)\nf 1".toList,
    "#macro f x (else (#unquote x))\nf 1".toList, "(#macro f x 1)()".toList,
    "var x\nx.(1, 2)".toList]

/--
Decides whether no step up to the check reports anything, and then there is no program and the
report of an impossible state.
-/
def failsInSilence (text : List Char) : Bool :=
  let silent := (steps ⟨0, none⟩ text .standard true false none).all (·.diagnostics = #[])
  let generated :=
    ((((read ⟨0, none⟩ text).combine .standard true).expand .standard false none).bind
    .standard).check.generate
  silent && generated.1.isNone && generated.2.diagnostics.toList.map (·.code.id) = ["E0400"]

theorem failsInSilence_gappyTexts : gappyTexts.all failsInSilence = true := by
  decide +kernel

end SourceUnit

end Offside
