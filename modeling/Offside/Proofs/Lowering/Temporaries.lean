import Offside.Proofs.Lowering.Jumps
import Offside.Proofs.Lowering.Source
import Offside.Proofs.Program.Surroundings

/-!
# Temporaries of a program

A temporary that occurs in a program is declared exactly once, and all places where it is assigned
or asked for stand behind the declaration, in the same function. No name of the tree is that of a
temporary: those start with a dollar sign, as no word of a source does.
-/

namespace Offside

open List Enclosure

def Part.occurring : Part → List String
  | .use name | .target name | .property name => [name]
  | .decl names | .params names => names
  | .label _ | .leave _ | .next _ => []

/--
A name is declared exactly once in a program, and stands behind the declaration, in the same
function, wherever else it occurs.
-/
structure Program.DeclaresOnce (program : Program) (name : String) : Prop where
  once : program.declared.count name = 1
  behind : ∀ site ∈ program.parts, name ∈ site.part.occurring →
    (∃ names, site.part = .decl names) ∨
      site.part.name? = some name ∧ ∃ names, .behind names ∈ near site.around ∧ name ∈ names

theorem Program.count_declared_pos {program : Program} {names : List String} {name : String}
    {site : Site} (member : site ∈ program.parts) (around : .behind names ∈ site.around)
    (listed : name ∈ names) : 0 < program.declared.count name := by
  obtain ⟨inner, same, between⟩ := Stmt.inside_of_tally site member
  rw [same, mem_append, mem_singleton] at around
  rw [count_declared]
  rcases around with inside | outside
  · exact between _ inside _ (mem_map_of_mem listed)
  · cases outside

namespace Tree

variable {name : String}

theorem parameters_subset (info : Info) (children : List Tree) :
    ∀ name ∈ parameters info children, ∃ child ∈ children, name ∈ child.carried := by
  intro name member
  unfold parameters at member
  split at member
  case h_1 params code _ | h_2 params code _ =>
    exact ⟨params, .head _, spelled_subset_carried params name member⟩
  case h_3 => cases member

/-- A tree that does not carry a name has no such parameter. -/
theorem tally_param_eq_zero {t : Tree} (absent : name ∉ t.carried) : t.tally (.param name) = 0 := by
  refine tally_eq_zero (P := (name ∉ carried ·)) (fun id info children absent => ?_) absent
  have below (child : Tree) (member : child ∈ children) : name ∉ child.carried :=
    fun inside => absent (mem_gather_of_child member inside)
  refine ⟨by simp, fun member => ?_, below⟩
  obtain ⟨other, listed, same⟩ := mem_map.mp member
  cases same
  obtain ⟨child, known, inside⟩ := parameters_subset info children name listed
  exact below child known inside

end Tree

namespace Lowering

theorem not_isTemp_of_unmarked {name : String} (unmarked : Text.Unmarked name) : ¬IsTemp name := by
  rintro ⟨n, rfl⟩
  apply unmarked
  rw [String.toList_append]
  rfl

theorem not_isTemp_of_usable {name : String}
    (usable : Text.Usable (fun other => '$' ∉ other.toList) name) : ¬IsTemp name := by
  apply not_isTemp_of_unmarked
  rcases usable with unmarked | admitted
  · exact unmarked
  · exact Text.unmarked_of_not_mem admitted

section Run

variable {t : Tree} {program : Program} {temp : String}

/--
Where no node carries the name of a temporary, all parts are well placed if temporaries are tied.
-/
theorem well_of_run (generated : run t = .ok program) (free : ∀ name ∈ t.carried, ¬IsTemp name) :
    ∀ site ∈ program.parts, site.Well IsTemp fun name => ¬IsTemp name := by
  obtain ⟨s, made⟩ := made_of_run generated
  have stands : Stands IsTemp (fun name => ¬IsTemp name) (fun name => ¬IsTemp name)
      (.hosted t.info (.runs (lines .discard t.children))) s [Stmt.listed program] := by
    refine stands_program (fun line member => ?_) (fun _ isFree => isFree) made.grows _
    refine Tree.closed_of_carried fun name inside => ?_
    have isFree := free name (Tree.mem_gather_of_child member inside)
    exact ⟨.inl isFree, isFree⟩
  exact (made.wellPlaced stands).1

section

variable (generated : run t = .ok program) (isTemp : IsTemp temp)
include generated isTemp

/-- No temporary is a parameter. -/
theorem not_mem_params_of_run (free : ∀ name ∈ t.carried, ¬IsTemp name) {site : Site}
    (member : site ∈ program.parts) {names : List String} (isParams : site.part = .params names) :
    temp ∉ names := by
  obtain ⟨s, made⟩ := made_of_run generated
  intro listed
  have found : 0 < Stmt.tally (.param temp) program := by
    rw [← Stmt.count_partsAll [Stmt.listed program], count_pos_iff, mem_flatMap]
    refine ⟨site, member, ?_⟩
    rw [Site.binders, isParams]
    exact mem_map_of_mem listed
  have bound := tally_program (b := .param temp) made
  have inTree : t.tally (.param temp) = 0 :=
    Tree.tally_param_eq_zero fun inside => free temp inside isTemp
  have given : s.given (.param temp) = 0 := GenState.given_param_eq_zero
  omega

/-- A temporary is declared at most once. -/
theorem count_declared_le_one (owned : t.Everywhere (Info.Owns fun name => ¬IsTemp name)) :
    program.declared.count temp ≤ 1 := by
  obtain ⟨s, made⟩ := made_of_run generated
  have bound := tally_program (b := .hoisted temp) made
  have inTree : t.tally (.hoisted temp) = 0 :=
    Tree.tally_hoisted_eq_zero (owned.mono fun _ owns inside => owns temp inside isTemp)
  have given : s.given (.hoisted temp) ≤ 1 := GenState.given_hoisted_le
  rw [Program.count_declared]
  omega

/-- The temporaries of a program, if the tree has no names like theirs. -/
theorem declaresOnce_of_run (free : ∀ name ∈ t.carried, ¬IsTemp name)
    (owned : t.Everywhere (Info.Owns fun name => ¬IsTemp name)) {site : Site}
    (member : site ∈ program.parts) (occurs : temp ∈ site.part.occurring) :
    program.DeclaresOnce temp := by
  have behind : ∀ site ∈ program.parts, temp ∈ site.part.occurring →
      (∃ names, site.part = .decl names) ∨ site.part.name? = some temp ∧
        ∃ names, .behind names ∈ near site.around ∧ temp ∈ names := by
    intro site member occurs
    have well := well_of_run generated free site member
    have seen (named : site.part.name? = some temp) :
        ∃ names, .behind names ∈ near site.around ∧ temp ∈ names :=
      (well.names temp named).exists_behind isTemp fun isFree => isFree isTemp
    cases isPart : site.part with
    | use name | target name =>
      rw [isPart] at occurs
      cases mem_singleton.mp occurs
      have named : site.part.name? = some temp := by rw [isPart, Part.name?]
      exact .inr ⟨rfl, seen named⟩
    | property name =>
      rw [isPart] at occurs
      cases mem_singleton.mp occurs
      exact absurd isTemp (well.properties temp isPart)
    | params names =>
      rw [isPart] at occurs
      exact absurd occurs (not_mem_params_of_run generated isTemp free member isPart)
    | decl names => exact .inl ⟨names, rfl⟩
    | label | leave | next =>
      rw [isPart] at occurs
      cases occurs
  refine ⟨?_, behind⟩
  have atMost := count_declared_le_one generated isTemp owned
  have some : 0 < program.declared.count temp := by
    rcases behind site member occurs with ⟨names, isDecl⟩ | ⟨_, names, around, listed⟩
    · rw [count_pos_iff, Program.declared, mem_flatMap]
      refine ⟨site, member, ?_⟩
      rw [isDecl] at occurs ⊢
      exact occurs
    · exact Program.count_declared_pos member ((takeWhile_sublist _).subset around) listed
  omega

end

end Run

/-- The temporaries of a program that is generated from a tree without `$` in foreign names. -/
theorem declaresOnce_of_ready {t : Tree} {globals : Table Declaration} {program : Program}
    (ready : t.Ready globals fun callee => '$' ∉ callee.toList) (generated : run t = .ok program)
    {temp : String} (isTemp : IsTemp temp) :
    (∀ site ∈ program.parts, temp ∈ site.part.occurring → program.DeclaresOnce temp) ∧
      t.Everywhere fun info => info.name? ≠ some temp ∧ temp ∉ info.declaredNames := by
  have spelled : t.Everywhere fun info => ∀ name, info.name? = some name → ¬IsTemp name :=
    Tree.obeys_contents.mp (ready.formed.mono fun _ _ formed name named =>
      not_isTemp_of_usable (formed.spelled name named))
  have owned : t.Everywhere (Info.Owns fun name => ¬IsTemp name) :=
    ready.owned.mono fun _ owns name member => not_isTemp_of_unmarked (owns name member)
  refine ⟨fun site member occurs => ?_, ?_⟩
  · exact declaresOnce_of_run generated isTemp (Tree.forall_carried spelled) owned member occurs
  · exact spelled.merge owned fun info name owns =>
      ⟨fun named => name temp named isTemp, fun member => owns temp member isTemp⟩

end Lowering

/--
Every temporary that occurs in a compiled program is declared exactly once, in front of all its
other occurrences and in the same function, and no name of the tree is that of a temporary.
-/
theorem declaresOnce_of_compile {env : Environment}
    (callees : env.CallsAdmitted fun callee => '$' ∉ callee.toList)
    (respecting : ∀ routine ∈ env.routines,
      routine.Respects (Info.Proper fun callee => '$' ∉ callee.toList))
    {name : String} {text : List Char} {options : CompileOptions} {program : Program}
    (compiled : (compile name text env options).program = some program) :
    ∀ temp, Lowering.IsTemp temp →
      (∀ site ∈ program.parts, temp ∈ site.part.occurring → program.DeclaresOnce temp) ∧
      (compile name text env options).unit.tree.Everywhere fun info =>
        info.name? ≠ some temp ∧ temp ∉ info.declaredNames := by
  obtain ⟨generated, ready⟩ := ready_of_compile callees (by decide) respecting compiled
  exact fun temp isTemp => Lowering.declaresOnce_of_ready ready generated isTemp

/-- An operand that is no expression goes through a temporary. -/
def spilling : Compilation :=
  compile "main" "var x = 1 + do\n  2".toList .standard ⟨true, false, true, none⟩

theorem declaresOnce_spilling :
    ∃ program ∈ spilling.program, (∃ site ∈ program.parts, "$t1" ∈ site.part.occurring) ∧
      program.DeclaresOnce "$t1" := by
  have found : ∃ program ∈ spilling.program, ∃ site ∈ program.parts,
      "$t1" ∈ site.part.occurring := by
    decide +kernel
  obtain ⟨program, compiled, site, member, occurs⟩ := found
  have callees : Environment.standard.CallsAdmitted fun callee => '$' ∉ callee.toList := nofun
  have once := declaresOnce_of_compile callees nofun compiled "$t1" ⟨1, rfl⟩
  exact ⟨program, compiled, ⟨site, member, occurs⟩, once.1 site member occurs⟩

end Offside
