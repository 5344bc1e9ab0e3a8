import Offside.Proofs.Binding.Checked
import Offside.Proofs.Checking.Repetition
import Offside.Proofs.Binding.Enclosed
import Offside.Proofs.Contents.Compilation

/-!
# Trees of compiled sources

What is known of the tree of a source at the time when a program is generated from it.
-/

namespace Offside

/--
A tree whose nodes are well formed, and in which every name that generation can take is declared
around it or outside.
-/
structure Tree.Ready (globals : Table Declaration) (admitted : String → Prop) (t : Tree) :
    Prop where
  isRoot : t.symbol = .block .root
  formed : t.Obeys (Info.Formed admitted)
  owned : t.Everywhere (Info.Owns Text.Unmarked)
  closed : ∀ outside, (∀ name d, globals.get? name = some d → outside name) → t.Foreign outside →
    t.Closed (fun _ => False) outside

namespace SourceUnit

variable {unit : SourceUnit} {env : Environment} {admitted : String → Prop}

/-- If there is no error in the end, there was none before, and the step has been made. -/
theorem andThen_eq {step : SourceUnit → SourceUnit}
    (clean : (unit.andThen step).diagnostics.hasErrors = false) :
    unit.diagnostics.hasErrors = false ∧ unit.andThen step = step unit := by
  unfold andThen at clean ⊢
  split at clean
  case isTrue failed =>
    rw [failed] at clean
    cases clean
  case isFalse noErrors =>
    rw [if_neg noErrors]
    exact ⟨Bool.eq_false_iff.mpr noErrors, rfl⟩

theorem tree_bind (unit : SourceUnit) (env : Environment) :
    (unit.bind env).tree.outline = unit.tree.outline :=
  Bind.outline_root unit.tree ⟨.start env.globals, .empty, unit.diagnostics⟩

theorem tree_check (unit : SourceUnit) : unit.check.tree.uncounted = unit.tree.uncounted :=
  Check.uncounted_root unit.tree unit.diagnostics

section

variable {α : Sort _} (view : Tree → α)
  (same : ∀ {change}, Info.Marks change → ∀ t, view (t.mapInfo change) = view t)
include same

/-- What does not look at marks is the same before and behind binding. -/
theorem tree_bind_marked (unit : SourceUnit) (env : Environment) :
    view (unit.bind env).tree = view unit.tree := by
  rw [← same Info.marks_outline, ← Tree.outline, tree_bind, Tree.outline, same Info.marks_outline]

/-- What does not look at marks is the same before binding and behind checking. -/
theorem tree_marked (unit : SourceUnit) (env : Environment) :
    view (unit.bind env).check.tree = view unit.tree := by
  rw [← same Info.marks_uncounted, ← Tree.uncounted, tree_check, Tree.uncounted,
    same Info.marks_uncounted, tree_bind_marked view same]

end

theorem formed_marked {change : Info → Info} (marks : Info.Marks change) (t : Tree) :
    (t.mapInfo change).Obeys (Info.Formed admitted) = t.Obeys (Info.Formed admitted) := by
  refine propext
    (Tree.obeys_mapInfo marks (fun info below => ⟨fun formed => ?_, fun formed => ?_⟩) t)
  · exact ⟨marks.name? info ▸ formed.spelled, marks.symbol info ▸ marks.value info ▸ formed.carries,
      marks.symbol info ▸ formed.arranges⟩
  · exact ⟨(marks.name? info).symm ▸ formed.spelled,
      (marks.symbol info).symm ▸ (marks.value info).symm ▸ formed.carries,
      (marks.symbol info).symm ▸ formed.arranges⟩

theorem formed_check (proper : unit.tree.IsProper admitted) (env : Environment) :
    (unit.bind env).check.tree.Obeys (Info.Formed admitted) := by
  rw [tree_marked _ formed_marked]
  exact proper.mono fun _ _ here => here.formed

/-- The tree of a unit that has been bound without an error, and checked, follows the rules. -/
theorem bound_check (proper : unit.tree.IsProper admitted)
    (isRoot : unit.tree.symbol = .block .root)
    (clean : (unit.bind env).diagnostics.hasErrors = false) :
    ∃ final, Bind.Bound env.globals final (.trees .value [(unit.bind env).check.tree])
      [] [] [] := by
  have bound := Bind.bound_root proper.unbound isRoot clean
  exact ⟨_, bound.of_uncounted (Tree.uncounted_singleton (tree_check (unit.bind env)))⟩

/-- The tree of a unit that has been bound without an error, and checked. -/
theorem ready_check (proper : unit.tree.IsProper admitted)
    (isRoot : unit.tree.symbol = .block .root)
    (clean : (unit.bind env).diagnostics.hasErrors = false) :
    (unit.bind env).check.tree.Ready env.globals admitted := by
  obtain ⟨final, bound⟩ := bound_check proper isRoot clean
  have formed := formed_check proper env
  constructor
  · rw [tree_marked _ Tree.symbol_mapInfo, isRoot]
  · exact formed
  · exact (bound.closed (fun _ _ _ => trivial) formed ⟨fun _ _ => trivial, fun _ _ => trivial⟩).2
  · exact fun outside known foreign => (bound.closed known formed foreign).1

end SourceUnit

variable {program : Program} {name : String} {text : List Char} {options : CompileOptions}

/-- The last step of a compilation with a program: all steps before it have been made. -/
theorem SourceUnit.generate_eq {unit : SourceUnit}
    (generated :
      (if unit.diagnostics.hasErrors then (none, unit) else unit.generate).1 = some program) :
    unit.diagnostics.hasErrors = false ∧ Lowering.run unit.tree = .ok program ∧
      (if unit.diagnostics.hasErrors then (none, unit) else unit.generate).2 = unit := by
  cases failed : unit.diagnostics.hasErrors with
  | true =>
    rw [failed] at generated
    cases generated
  | false =>
    rw [failed, if_neg Bool.false_ne_true, generate] at generated
    rw [if_neg Bool.false_ne_true, generate]
    cases result : Lowering.run unit.tree with
    | error e =>
      rw [result] at generated
      cases generated
    | ok made =>
      rw [result] at generated
      cases generated
      exact ⟨rfl, rfl, rfl⟩

/-- If there is a program, all steps have been made, and binding has reported no error. -/
theorem steps_of_compile {env : Environment}
    (compiled : (compile name text env options).program = some program) :
    ∃ source kept, ((((SourceUnit.read ⟨source, options.tabSize⟩ text).combine env
        options.prelude).expand env options.trace kept).bind env).diagnostics.hasErrors = false ∧
      (compile name text env options).unit =
        ((((SourceUnit.read ⟨source, options.tabSize⟩ text).combine env options.prelude).expand env
          options.trace kept).bind env).check ∧
      Lowering.run (compile name text env options).unit.tree = .ok program := by
  refine ⟨((SourceTable.empty.add name).toOption.getD (0, .empty)).1,
    if options.keepText then some text else none, ?_⟩
  unfold compile at compiled ⊢
  dsimp only at compiled ⊢
  obtain ⟨clean, generated, same⟩ := SourceUnit.generate_eq compiled
  obtain ⟨bound, isChecked⟩ := SourceUnit.andThen_eq clean
  obtain ⟨expanded, isBound⟩ := SourceUnit.andThen_eq bound
  obtain ⟨combined, isExpanded⟩ := SourceUnit.andThen_eq expanded
  obtain ⟨_, isCombined⟩ := SourceUnit.andThen_eq combined
  rw [same]
  rw [isChecked, isBound, isExpanded, isCombined] at generated ⊢
  rw [isBound, isExpanded, isCombined] at bound
  exact ⟨bound, rfl, generated⟩

/-- A program is generated from a proper tree that has been bound without an error, and checked. -/
theorem proper_of_compile {env : Environment} {admitted : String → Prop}
    (calls : env.CallsAdmitted admitted) (this : admitted "this")
    (respecting : ∀ routine ∈ env.routines, routine.Respects (Info.Proper admitted))
    (compiled : (compile name text env options).program = some program) :
    ∃ unit : SourceUnit, unit.tree.IsProper admitted ∧ unit.tree.symbol = .block .root ∧
      (unit.bind env).diagnostics.hasErrors = false ∧
      (compile name text env options).unit = (unit.bind env).check ∧
      Lowering.run (compile name text env options).unit.tree = .ok program := by
  obtain ⟨source, kept, clean, same, generated⟩ := steps_of_compile compiled
  have combined := SourceUnit.combined_read ⟨source, options.tabSize⟩ text calls options.prelude
  have plain : ((SourceUnit.read ⟨source, options.tabSize⟩ text).combine env
      options.prelude).tree.symbol.isMacro = false := by
    rw [combined.isRoot]
    rfl
  refine ⟨_, ?_, ?_, clean, same, generated⟩
  · exact combined.obeys_expand (Expand.lasting_proper this) (fun _ _ here => here) respecting
      options.trace kept
  · exact (SourceUnit.symbol_expand plain env options.trace kept).trans combined.isRoot

/-- A program is generated from a tree that is ready for it. -/
theorem ready_of_compile {env : Environment} {admitted : String → Prop}
    (calls : env.CallsAdmitted admitted) (this : admitted "this")
    (respecting : ∀ routine ∈ env.routines, routine.Respects (Info.Proper admitted))
    (compiled : (compile name text env options).program = some program) :
    Lowering.run (compile name text env options).unit.tree = .ok program ∧
      (compile name text env options).unit.tree.Ready env.globals admitted := by
  obtain ⟨unit, proper, isRoot, clean, same, generated⟩ :=
    proper_of_compile calls this respecting compiled
  refine ⟨generated, ?_⟩
  rw [same]
  exact SourceUnit.ready_check proper isRoot clean

end Offside
