import Offside.Proofs.Lowering.Derivations
import Offside.Proofs.Lowering.Names
import Offside.Proofs.Program.Surroundings
import Offside.Compilation

/-!
# Capture of destinations

The values of a node are assigned to names that were chosen outside of the node. Such a name keeps
its meaning down to the assignment unless a node below declares it too; if a `do` itself declares
it, the assignment goes to the variable of the `do`.
-/

namespace Offside

open List

namespace Tree

/-- The names that the nodes of a tree declare, at their tops or as parameters. -/
def introduced (t : Tree) : List String :=
  t.gather fun info children => info.declaredNames ++ parameters info children

variable {name : String}

theorem tally_of_not_introduced {t : Tree} (absent : name ∉ t.introduced) :
    t.tally (.hoisted name) = 0 ∧ t.tally (.param name) = 0 := by
  have none {b : Binder} (isName : b = .hoisted name ∨ b = .param name) : t.tally b = 0 := by
    refine tally_eq_zero (P := (name ∉ introduced ·)) (fun id info children absent => ?_) absent
    rw [introduced, gather_node, mem_append, mem_append, mem_gatherAll] at absent
    push Not at absent
    rcases isName with rfl | rfl
    · exact ⟨by simpa using absent.1.1, by simp, absent.2⟩
    · exact ⟨by simp, by simpa using absent.1.2, absent.2⟩
  exact ⟨none (.inl rfl), none (.inr rfl)⟩

end Tree

namespace Lowering

variable {site : Site} {height : Nat}

variable {t : Tree} {dest : Dest} {s s' : GenState} {a : List Stmt} {name : String}

/-- What is owed to a host stays owed to it. -/
theorem Grows.held {b : Binder} (grows : Grows s s') : s.held b ≤ s'.held b := by
  obtain ⟨issued, _, same⟩ := grows.hosts
  rw [GenState.held, GenState.held, GenState.frame, GenState.frame, same]
  cases s.hosts with
  | nil => exact Nat.zero_le _
  | cons host outer => simp [count_append]

/-- A temporary that has been given out meanwhile. -/
theorem exists_temp_of_given (more : s.given (.hoisted name) < s'.given (.hoisted name)) :
    ∃ n, s.temps < n ∧ n ≤ s'.temps ∧ name = s!"$t{n}" := by
  have found : 0 < s'.given (.hoisted name) := Nat.zero_lt_of_lt more
  rw [GenState.given_hoisted, count_pos_iff] at found
  obtain ⟨n, inRange, same⟩ := mem_map.mp found
  cases same
  refine ⟨n + 1, ?_, mem_range.mp inRange, rfl⟩
  by_contra early
  have before : 1 ≤ s.given (.hoisted s!"$t{n + 1}") := by
    rw [GenState.given_hoisted]
    refine count_pos_iff.mpr (mem_map.mpr ⟨n, mem_range.mpr ?_, rfl⟩)
    omega
  have atMost : s'.given (.hoisted s!"$t{n + 1}") ≤ 1 := GenState.given_hoisted_le
  omega

/-- What is declared around a part of some statements, a node or a new temporary is called so. -/
theorem Made.introduces {task : Task} (made : Made task s a [] s')
    (absent : task.tally (.hoisted name) = 0 ∧ task.tally (.param name) = 0) {cx : List Enclosure}
    (member : site ∈ Stmt.partsAll cx a) : ∃ inner, site.around = inner ++ cx ∧
      ((∃ e ∈ inner, e.Declares name) → ∃ n, s.temps < n ∧ n ≤ s'.temps ∧ name = s!"$t{n}") := by
  obtain ⟨inner, around, between⟩ := Stmt.inside_of_tally site member
  refine ⟨inner, around, ?_⟩
  rintro ⟨e, inside, here | here⟩
  · have found := between e inside _ here
    have balance := made.balanced (b := .hoisted name)
    have owed := made.grows.held (b := .hoisted name)
    rw [Balanced, absent.1] at balance
    exact exists_temp_of_given (by omega)
  · have found := between e inside _ here
    have balance := made.balanced (b := .param name)
    have owed := made.grows.held (b := .param name)
    rw [Balanced, absent.2, GenState.given_param_eq_zero, GenState.given_param_eq_zero] at balance
    omega

/-- All parts of a block that declares names stand behind the declaration, but for itself. -/
theorem behind_of_declaring {names : List String} {body : List Stmt} {cx : List Enclosure}
    (listed : name ∈ names) (member : site ∈ Stmt.partsAll cx (declaring names body))
    (isTarget : site.part = .target name) : .behind names ∈ site.around := by
  cases names with
  | nil => cases listed
  | cons first rest =>
    rw [declaring, Stmt.partsAll, Stmt.parts, singleton_append, mem_cons] at member
    · rcases member with rfl | behind
      · cases isTarget
      · obtain ⟨inner, around, _⟩ := Stmt.inside_of_tally site behind
        rw [around]
        exact mem_append_right inner mem_cons_self
    · exact nofun

/-- The statements of a block declare its names and its temporaries. -/
theorem ensures_declaring {below : Below} (t : Tree) (dest : Dest) (s : GenState) :
    Ensures s (below.sequence t dest) fun a _ =>
      ∃ temps body, a = declaring (t.info.declaredNames ++ temps) body := by
  refine (fares_inHost (Ensures.fares ?_)).ensures
  exact fun body s' _ => ⟨s'.frame, body, rfl⟩

/-- All assignments in a `do` to a name that it declares stand behind the declaration. -/
theorem ensures_captured {below : Below} (isDo : t.symbol = .block .doBlock)
    (declares : name ∈ t.info.declaredNames) (dest : Dest) (s : GenState) (cx : List Enclosure) :
    Ensures s (below.node t dest) fun a _ => ∀ site ∈ Stmt.partsAll cx a,
      site.part = .target name → ∃ names, name ∈ names ∧ .behind names ∈ site.around := by
  have found {names : List String} {body : List Stmt} (temps : List String)
      (same : names = t.info.declaredNames ++ temps) {cx : List Enclosure} {site : Site}
      (member : site ∈ Stmt.partsAll cx (declaring names body))
      (isTarget : site.part = .target name) :
      ∃ names, name ∈ names ∧ .behind names ∈ site.around := by
    have listed : name ∈ names := same ▸ mem_append_left temps declares
    exact ⟨names, listed, behind_of_declaring listed member isTarget⟩
  rw [Below.node, isDo]
  refine .bind (P := fun a _ => ∀ site ∈ Stmt.partsAll cx a, site.part = .target name →
    ∃ names, name ∈ names ∧ .behind names ∈ site.around) ?_ fun a s' captured => .pure ?_
  · rw [Below.doBlock]
    refine .bind (@fares_freshLabel True .doBlock s).ensures ?_
    rintro label s₁ ⟨rfl, rfl⟩
    refine .bind (P := fun (r : List Stmt × JumpTarget) _ =>
      ∃ temps body, r.1 = declaring (t.info.declaredNames ++ temps) body)
      (fares_inTarget ((ensures_declaring t dest _).mono fun _ _ made => made).fares).ensures ?_
    rintro ⟨stmts, target⟩ s₂ ⟨temps, body, same⟩
    cases same
    dsimp only
    split
    · refine .pure fun site member isTarget => ?_
      rw [Stmt.partsAll_singleton, Stmt.parts, mem_cons, Stmt.parts] at member
      rcases member with rfl | member
      · cases isTarget
      · exact found temps rfl member isTarget
    · refine .pure fun site member isTarget => ?_
      rw [Stmt.partsAll_singleton, Stmt.parts] at member
      exact found temps rfl member isTarget
  · intro site member
    rw [Stmt.partsAll_map_withSpan] at member
    exact captured site member

/-- The statements of a node, or those of a body, are made by the rules. -/
theorem introduces_of_lower (lowered : (upTo height).lower t dest s = .ok (a, s') ∨
      (upTo height).body t dest s = .ok (a, s')) (absent : name ∉ t.introduced)
    (member : site ∈ Stmt.partsAll [] a) :
    (∃ e ∈ site.around, e.Declares name) →
      ∃ n, s.temps < n ∧ n ≤ s'.temps ∧ name = s!"$t{n}" := by
  have none := Tree.tally_of_not_introduced absent
  have introduces : ∃ inner, site.around = inner ++ [] ∧ ((∃ e ∈ inner, e.Declares name) →
      ∃ n, s.temps < n ∧ n ≤ s'.temps ∧ name = s!"$t{n}") := by
    rcases lowered with ran | ran
    · refine ((sound_upTo height).lower t dest rfl |>.ensures a s' ran).introduces ?_ member
      simpa [Task.tally] using none
    · exact (Below.fares_body (sound_upTo height) t dest rfl |>.ensures a s' ran).introduces
        none member
  obtain ⟨inner, around, temporary⟩ := introduces
  rw [around, append_nil]
  exact temporary

/-- A `do` is generated one level up, also as a body. -/
theorem captured_of_lower (lowered : (upTo height).lower t dest s = .ok (a, s') ∨
      (upTo height).body t dest s = .ok (a, s')) (isDo : t.symbol = .block .doBlock)
    (declares : name ∈ t.info.declaredNames) (member : site ∈ Stmt.partsAll [] a)
    (isTarget : site.part = .target name) : ∃ e ∈ site.around, e.Declares name := by
  have ran : (upTo height).lower t dest s = .ok (a, s') := by
    rcases lowered with ran | ran
    · exact ran
    · have noBlock : ¬t.isBlock .block := by
        rw [Tree.isBlock, Info.isBlock, show t.info.symbol = _ from isDo]
        decide
      rwa [Below.body, if_neg noBlock] at ran
  cases height with
  | zero => cases ran
  | succ height =>
    obtain ⟨names, listed, behind⟩ :=
      ensures_captured isDo declares dest s [] a s' ran site member isTarget
    exact ⟨_, behind, .inl (mem_map_of_mem listed)⟩

/--
If a name is declared between a node or a body and a part of the statements that are generated for
it, then a node in it declares the name, or the name is a temporary that was given out meanwhile.
So a destination that was chosen before is the same down to the assignment if no node declares it.
In a `do` that declares the name itself, all assignments to the name stand behind its declaration.
-/
theorem capture_of_lower (lowered : (upTo height).lower t dest s = .ok (a, s') ∨
      (upTo height).body t dest s = .ok (a, s')) (name : String) :
    (∀ site ∈ Stmt.partsAll [] a, (∃ e ∈ site.around, e.Declares name) →
      name ∈ t.introduced ∨ ∃ n, s.temps < n ∧ n ≤ s'.temps ∧ name = s!"$t{n}") ∧
    (t.symbol = .block .doBlock → name ∈ t.info.declaredNames →
      ∀ site ∈ Stmt.partsAll [] a, site.part = .target name →
        ∃ e ∈ site.around, e.Declares name) := by
  refine ⟨fun site member found => ?_, fun isDo declares site member isTarget => ?_⟩
  · by_cases here : name ∈ t.introduced
    · exact .inl here
    · exact .inr (introduces_of_lower lowered here member found)
  · exact captured_of_lower lowered isDo declares member isTarget

/-- A `do` that declares `x` and has another value. -/
def shadowing : Tree :=
  .node 0 { Info.new (.block .doBlock) none default with
      decls := some (.ofList [("x", ⟨"x", none, none, true, true⟩)]) }
    [.node 1 (.new .value (some (.bool true)) default) []]

/-- The statements that assign the value of the `do` to a variable `x` around it. -/
def shadowed : List Stmt × GenState :=
  ((upTo 2).lower shadowing (.into ["x"]) .start).toOption.getD ([], .start)

theorem capture_shadowing :
    (upTo 2).lower shadowing (.into ["x"]) .start = .ok shadowed ∧
      ∃ site ∈ Stmt.partsAll [] shadowed.1, site.part = .target "x" ∧
        (∃ e ∈ site.around, e.Declares "x") ∧
        ("x" ∈ shadowing.introduced ∨ ∃ n, 0 < n ∧ n ≤ shadowed.2.temps ∧ "x" = s!"$t{n}") := by
  have lowered : (upTo 2).lower shadowing (.into ["x"]) .start = .ok shadowed := rfl
  have found : ∃ site ∈ Stmt.partsAll [] shadowed.1, site.part = .target "x" := by decide +kernel
  obtain ⟨site, member, isTarget⟩ := found
  have ⟨introduced, captured⟩ := capture_of_lower (.inl lowered) "x"
  have around := captured rfl (by decide +kernel) site member isTarget
  exact ⟨lowered, site, member, isTarget, around, introduced site member around⟩

end Lowering

/-- The value of a block is assigned to a name that the block declares. -/
def capturing : Compilation :=
  compile "main" "var x = do\n  var x = 1\n  x".toList .standard ⟨true, false, true, none⟩

/-- Both assignments to `x` go to the inner variable, and none to the outer one. -/
theorem captured_capturing :
    ∃ program ∈ capturing.program, program.declared = ["x", "x"] ∧
      ((program.parts.filter fun site => site.part = .target "x").map fun site =>
        (site.around.filter fun e => e.Declares "x").length) = [2, 2] := by
  decide +kernel

end Offside
