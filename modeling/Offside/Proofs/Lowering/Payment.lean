import Offside.Proofs.Lowering.Growth
import Offside.Proofs.Lowering.Placement
import Offside.Proofs.Program.Paths

/-!
# Statements that pay

Statements owe some names if every path that runs to their end has to assign them, and a path that
leaves the target of jumps around them has to assign those of the target. What blocks, choices,
loops and handlers owe is what their parts owe.
-/

namespace Offside.Lowering

open List
open Stmt (CanEnd RunsAll runsAll_append runsAll_singleton)

/--
What a path has assigned, by how it ends: behind the last statement `names`, and where it leaves the
innermost target of jumps, which has been used then, the names of the values of the target.
-/
def Settles (jumps : List JumpTarget) (names trace : List String) : Exit → Prop
  | .normal => names ⊆ trace
  | .leave label => ∃ target ∈ jumps.head?, some target.label = label ∧ target.used = true ∧
      target.results.names ⊆ trace
  | _ => True

/-- All paths through some statements have assigned what they have to. -/
def Pays (jumps : List JumpTarget) (names : List String) (body : List Stmt) : Prop :=
  ∀ trace exit, RunsAll body trace exit → Settles jumps names trace exit

section Paths

variable {jumps after : List JumpTarget} {names more trace : List String} {exit : Exit}
  {a b : List Stmt}

theorem Settles.other (settles : Settles jumps names trace exit) (stops : exit ≠ .normal) :
    Settles jumps more trace exit := by
  cases exit with
  | normal => exact absurd rfl stops
  | _ => exact settles

theorem Settles.wider (settles : Settles jumps names trace exit) (wider : trace ⊆ more) :
    Settles jumps names more exit := by
  cases exit with
  | normal => exact Subset.trans settles wider
  | leave label =>
    obtain ⟨target, isFirst, same, used, assigned⟩ := settles
    exact ⟨target, isFirst, same, used, Subset.trans assigned wider⟩
  | _ => trivial

namespace Pays

theorem kept (pays : Pays jumps names a) (kept : List.Forall₂ JumpTarget.Kept jumps after) :
    Pays after names a := by
  intro trace exit runs
  have settles := pays trace exit runs
  cases exit with
  | leave label =>
    obtain ⟨target, isFirst, same, used, assigned⟩ := settles
    cases kept with
    | nil => cases isFirst
    | @cons _ behind _ _ here _ =>
      cases isFirst
      exact ⟨behind, rfl, by rw [here.label, same], here.used used, by rwa [here.results]⟩
  | _ => exact settles

theorem mono (pays : Pays jumps names a) (fewer : more ⊆ names) : Pays jumps more a := by
  intro trace exit runs
  have settles := pays trace exit runs
  cases exit with
  | normal => exact Subset.trans fewer settles
  | _ => exact settles

theorem nil : Pays jumps [] [] :=
  fun _ _ ends => ends.2 ▸ nil_subset _

theorem append (first : Pays jumps more a) (second : Pays jumps names b) :
    Pays jumps (more ++ names) (a ++ b) := by
  intro trace exit runs
  rcases runsAll_append.mp runs with ⟨stops, early⟩ | ⟨before, behind, rfl, passes, later⟩
  · exact (first _ _ stops).other early
  · have settles := (second _ _ later).wider (subset_append_right before behind)
    cases exit with
    | normal =>
      exact append_subset.mpr ⟨subset_append_of_subset_left behind (first _ _ passes), settles⟩
    | _ => exact settles

theorem single {s : Stmt} (each : ∀ trace exit, s.Runs [] trace exit →
    Settles jumps names trace exit) : Pays jumps names [s] := by
  intro trace exit runs
  rcases runsAll_singleton.mp runs with ⟨_, rfl⟩ | here
  · trivial
  · exact each trace exit here

theorem expr (e : Expr) : Pays jumps e.assigned [.expr e] := by
  refine .single ?_
  rintro _ _ ⟨rfl, rfl⟩
  exact Subset.refl _

theorem stop {s : Stmt} (stops : ∀ trace exit, s.Runs [] trace exit →
    exit = .ret ∨ exit = .fail ∨ ∃ label, exit = .next label) : Pays jumps names [s] := by
  refine .single fun trace exit runs => ?_
  obtain rfl | rfl | ⟨_, rfl⟩ := stops trace exit runs <;> trivial

theorem assigns {es : List Expr} (fits : names.length = es.length) :
    Pays jumps names (assigns names es) := by
  induction names generalizing es with
  | nil => exact nil
  | cons name names ih =>
    cases es with
    | nil => cases fits
    | cons e es => exact (expr (.assign (.ident name) e)).append (ih (Nat.succ.inj fits))

theorem block (pays : Pays jumps names a) : Pays jumps names [.block a] :=
  .single pays

theorem declaring (pays : Pays jumps names a) (declared : List String) :
    Pays jumps names (declaring declared a) := by
  cases declared with
  | nil => exact pays
  | cons name rest =>
    have start : Pays jumps [] [.decl (name :: rest)] := by
      refine .single ?_
      rintro _ _ ⟨rfl, rfl⟩
      exact nil_subset _
    exact start.append pays

theorem placed (pays : Pays jumps names a) (span : Span) :
    Pays jumps names (a.map (Stmt.withSpan span)) :=
  fun trace exit runs => pays trace exit (Stmt.runsAll_map_withSpan.mp runs)

theorem ifThen {test : Expr} {consequent : Stmt} (pays : Pays jumps [] [consequent]) :
    Pays jumps [] [.ifThen test consequent none] := by
  refine .single ?_
  rintro trace exit (runs | ⟨rfl, rfl⟩)
  · exact pays _ _ (runsAll_singleton.mpr (.inr runs))
  · exact nil_subset _

theorem ifElse {test : Expr} {consequent alternate : Stmt} (pays : Pays jumps names [consequent])
    (paysToo : Pays jumps names [alternate]) :
    Pays jumps names [.ifThen test consequent (some alternate)] := by
  refine .single ?_
  rintro trace exit (runs | runs)
  · exact pays _ _ (runsAll_singleton.mpr (.inr runs))
  · exact paysToo _ _ (runsAll_singleton.mpr (.inr runs))

/-- A jump out of the innermost target, behind the values of the target. -/
theorem left {s : GenState} {target : JumpTarget} {outer : List JumpTarget}
    (nearest : s.jumps = target :: outer) (pays : Pays s.jumps target.results.names a) :
    Pays (s.mark target.label).jumps names (a ++ [.leave (some target.label)]) := by
  have pays := pays.kept (Grows.mark s target.label).jumps
  rw [GenState.mark, nearest, map_cons, if_pos rfl] at pays ⊢
  intro trace exit runs
  rcases runsAll_append.mp runs with ⟨stops, early⟩ | ⟨before, behind, rfl, passes, later⟩
  · exact (pays _ _ stops).other early
  · rcases runsAll_singleton.mp later with ⟨_, rfl⟩ | ⟨rfl, rfl⟩
    · trivial
    · exact ⟨_, rfl, rfl, rfl, by rw [append_nil]; exact pays _ _ passes⟩

/-- A loop that may be left by a jump without a label. -/
theorem whileLoop {test : Expr} (each : ∀ trace exit, RunsAll a trace exit →
    exit = .leave none ∨ Settles jumps [] trace exit) :
    Pays jumps [] [.whileLoop test (.block a)] := by
  refine .single fun trace exit rounds => ?_
  induction rounds with
  | done | left => exact nil_subset _
  | failed => trivial
  | again _ _ _ ih => exact ih.wider (subset_append_right _ _)
  | away once _ outer => exact (each _ _ once).resolve_left outer

/-- A loop that is left where a condition that takes statements fails. -/
theorem guarded {round test : Expr} (first : Pays jumps names a) (second : Pays jumps [] b) :
    Pays jumps [] [.whileLoop round (.block (a ++ [.ifThen test (.leave none) none] ++ b))] := by
  refine .whileLoop fun trace exit runs => ?_
  rcases runsAll_append.mp runs with ⟨stops, early⟩ | ⟨before, behind, rfl, _, later⟩
  · rcases runsAll_append.mp stops with ⟨stops, _⟩ | ⟨_, _, rfl, _, leaves⟩
    · exact .inr ((first _ _ stops).other early)
    · rcases runsAll_singleton.mp leaves with ⟨_, rfl⟩ | ⟨_, rfl⟩ | ⟨_, rfl⟩
      · exact .inr trivial
      · exact .inl rfl
      · exact absurd rfl early
  · exact .inr ((second _ _ later).wider (subset_append_right _ _))

/-- A `do`, with or without a label. -/
theorem marked {target : JumpTarget} {outer : List JumpTarget}
    (pays : Pays (target :: outer) target.results.names a) :
    Pays jumps target.results.names (marked target.label target.used a) := by
  have inside {trace : List String} {exit : Exit} (runs : RunsAll a trace exit)
      (stays : exit ≠ .leave (some target.label)) :
      Settles jumps target.results.names trace exit := by
    have settles := pays _ _ runs
    cases exit with
    | leave label =>
      obtain ⟨_, ⟨⟩, same, _⟩ := settles
      exact absurd (congrArg Exit.leave same.symm) stays
    | _ => exact settles
  unfold Lowering.marked
  split
  case isTrue =>
    refine .single ?_
    rintro trace exit (⟨runs, stays⟩ | ⟨runs, rfl⟩)
    · exact inside runs stays
    · obtain ⟨_, ⟨⟩, _, _, assigned⟩ := pays _ _ runs
      exact assigned
  case isFalse unused =>
    refine .single fun trace exit runs => inside runs ?_
    rintro rfl
    obtain ⟨_, ⟨⟩, _, used, _⟩ := pays _ _ runs
    exact unused used

/-- A round of a `loop` is left by a jump out of the `loop` only, behind the values of it. -/
theorem leave_of_round {target : JumpTarget} {outer : List JumpTarget} {label : Option String}
    (pays : Pays (target :: outer) [] a) (closed : target.results.names = [] ∨ ¬CanEnd a)
    (runs : RunsAll (leaving target.label a) trace (.leave label)) :
    label = some target.label ∧ target.results.names ⊆ trace := by
  have inside {trace : List String} (runs : RunsAll a trace (.leave label)) :
      label = some target.label ∧ target.results.names ⊆ trace := by
    obtain ⟨_, ⟨⟩, same, _, assigned⟩ := pays _ _ runs
    exact ⟨same.symm, assigned⟩
  unfold leaving at runs
  split at runs
  case isTrue => exact inside runs
  case isFalse =>
    rcases runsAll_append.mp runs with ⟨stops, _⟩ | ⟨before, behind, rfl, passes, later⟩
    · exact inside stops
    · rcases runsAll_singleton.mp later with ⟨_, ⟨⟩⟩ | ⟨rfl, ⟨⟩⟩
      rcases closed with none | stuck
      · exact ⟨rfl, by rw [none]; exact nil_subset _⟩
      · exact absurd ⟨before, passes⟩ stuck

/-- A `loop` that is left by jumps only, if it has values. -/
theorem endlessly {target : JumpTarget} {outer : List JumpTarget}
    (pays : Pays (target :: outer) [] a) (closed : target.results.names = [] ∨ ¬CanEnd a) :
    Pays jumps target.results.names [endlessly target.label a] := by
  have rounds {trace : List String} {exit : Exit}
      (runs : Rounds (RunsAll (leaving target.label a)) [target.label] true trace exit) :
      exit ≠ .normal ∧ ∀ label, exit = .leave label →
        label = some target.label ∧ target.results.names ⊆ trace := by
    induction runs with
    | done test => cases test
    | failed => exact ⟨by rintro ⟨⟩, by rintro _ ⟨⟩⟩
    | again _ _ _ ih =>
      refine ⟨ih.1, fun label same => ?_⟩
      exact (ih.2 label same).imp_right (subset_append_of_subset_right _)
    | left once => cases (leave_of_round pays closed once).1
    | away once stops =>
      refine ⟨?_, ?_⟩
      · rintro rfl
        cases stops
      · rintro label rfl
        exact leave_of_round pays closed once
  refine .single ?_
  rintro trace exit (⟨runs, stays⟩ | ⟨runs, rfl⟩)
  · obtain ⟨goesOn, left⟩ := rounds runs
    cases exit with
    | normal => exact absurd rfl goesOn
    | leave label => exact absurd (congrArg Exit.leave (left label rfl).1) stays
    | _ => trivial
  · exact ((rounds runs).2 _ rfl).2

theorem looping {target : JumpTarget} {outer : List JumpTarget} {start : List Stmt}
    (first : Pays jumps [] start) (pays : Pays (target :: outer) [] a)
    (closed : target.results.names = [] ∨ ¬CanEnd a) (declared : List String) :
    Pays jumps target.results.names (looping target.label declared start a) := by
  unfold Lowering.looping
  split
  · exact endlessly pays closed
  · exact ((first.declaring declared).append (endlessly pays closed)).block

theorem tryBlock {handler : Option Handler} {finalizer : Option (List Stmt)}
    (pays : Pays jumps names a)
    (handles : ∀ param body, handler = some (.mk param body) → Pays jumps names body)
    (finishes : ∀ body, finalizer = some body → Pays jumps [] body) :
    Pays jumps names [.tryBlock a handler finalizer] := by
  refine .single ?_
  rintro trace exit ⟨first, last, inner, rfl, runs, behind⟩
  have settles : Settles jumps names first inner := by
    rcases runs with ⟨runs, _⟩ | ⟨before, later, rfl, _, handled⟩
    · exact pays _ _ runs
    · rcases handler with _ | ⟨param, body⟩
      · cases handled
      · exact (handles param body rfl _ _ handled).wider (subset_append_right _ _)
  rcases finalizer with _ | body
  · obtain ⟨rfl, rfl⟩ := behind
    rwa [append_nil]
  · rcases behind with ⟨_, rfl⟩ | ⟨runs, stops⟩
    · exact settles.wider (subset_append_left _ _)
    · exact ((finishes body rfl _ _ runs).wider (subset_append_right _ _)).other stops

end Pays

end Paths

end Offside.Lowering
