import Offside.Proofs.Lowering.Jumps
import Offside.Proofs.Lowering.Source
import Offside.Proofs.Program.Surroundings

/-!
# Names of a program

A name that a compiled program asks for or assigns to is declared around the place, or comes from
outside. The exception are names in a property that is no name itself: binding does not look them
up, but the property is computed.
-/

namespace Offside

namespace Enclosure

/-- A name that can be seen is declared by an enclosure, or can be seen outside of all of them. -/
theorem Visible.declares {tied base : String → Prop} {cx : List Enclosure} {name : String}
    (visible : Visible tied base cx name) : (∃ e ∈ cx, e.Declares name) ∨ base name := by
  induction cx with
  | nil => exact .inr visible
  | cons e cx ih =>
    have here (declares : e.Declares name) : (∃ f ∈ e :: cx, f.Declares name) ∨ base name :=
      .inl ⟨e, .head _, declares⟩
    have outside (visible : Visible tied base cx name) :
        (∃ f ∈ e :: cx, f.Declares name) ∨ base name := by
      rcases ih visible with ⟨f, member, declares⟩ | isBase
      · exact .inl ⟨f, List.mem_cons_of_mem e member, declares⟩
      · exact .inr isBase
    cases e with
    | list | labeled | round => exact outside visible
    | behind names =>
      rcases visible with listed | visible
      · exact here (.inl (List.mem_map_of_mem listed))
      · exact outside visible
    | function params =>
      rcases visible.2 with listed | visible
      · exact here (.inr (List.mem_map_of_mem listed))
      · exact outside visible
    | handler param =>
      rcases visible with ⟨_, rfl⟩ | visible
      · exact here (.inr (List.mem_map_of_mem (List.mem_singleton.mpr rfl)))
      · exact outside visible

end Enclosure

/-- The names that need no declaration in a program: globals and names from outside. -/
def Tree.Provided (globals : Table Declaration) (t : Tree) (name : String) : Prop :=
  (globals.get? name).isSome ∨ name ∈ t.externals

instance (globals : Table Declaration) (t : Tree) (name : String) :
    Decidable (t.Provided globals name) :=
  inferInstanceAs (Decidable (_ ∨ _))

namespace Lowering

variable {t : Tree} {program : Program} {globals : Table Declaration} {admitted : String → Prop}

/-- The lines of a ready tree take names that are declared at the top, or need no declaration. -/
theorem closed_lines (ready : t.Ready globals admitted) :
    ∀ line ∈ t.children, line.Closed (fun _ => False)
      (Adding (fun _ => False) (fun name => t.Provided globals name ∨ name ∈ t.strays)
        t.info.declaredNames) := by
  have known : ∀ name d, globals.get? name = some d →
      t.Provided globals name ∨ name ∈ t.strays := by
    intro name d found
    exact .inl (.inl (Option.isSome_iff_exists.mpr ⟨d, found⟩))
  have foreign : t.Foreign fun name => t.Provided globals name ∨ name ∈ t.strays :=
    ⟨fun _ inside => .inl (.inr inside), fun _ inside => .inr inside⟩
  exact (ready.closed _ known foreign).lines (decide_eq_true (congrArg Symbol.block? ready.isRoot))

/-- All names of a program that is generated from a ready tree. -/
theorem declares_of_ready (ready : t.Ready globals admitted) (generated : run t = .ok program)
    {site : Site} (member : site ∈ program.parts) {name : String}
    (named : site.part.name? = some name) :
    (∃ e ∈ site.around, e.Declares name) ∨ t.Provided globals name ∨ name ∈ t.strays := by
  obtain ⟨s, made⟩ := made_of_run generated
  have stands := stands_program (closed_lines ready) (fun _ _ => not_false) made.grows
    (program.flatMap Stmt.declared)
  exact (((made.wellPlaced stands).1 site member).names name named).declares

end Lowering

/--
Every name that a compiled program asks for or assigns to is declared around the place, or is a
global, or a name from outside, or stands in a property that is no name itself.
-/
theorem declares_of_compile {env : Environment}
    (respecting : ∀ routine ∈ env.routines, routine.Respects (Info.Proper fun _ => True))
    {name : String} {text : List Char} {options : CompileOptions} {program : Program}
    (compiled : (compile name text env options).program = some program) :
    ∀ site ∈ program.parts, ∀ used, site.part.name? = some used →
      (∃ e ∈ site.around, e.Declares used) ∨
        (compile name text env options).unit.tree.Provided env.globals used ∨
        used ∈ (compile name text env options).unit.tree.strays := by
  have calls : env.CallsAdmitted fun _ => True := fun _ _ _ _ => trivial
  obtain ⟨generated, ready⟩ := ready_of_compile calls trivial respecting compiled
  exact fun site member used named => Lowering.declares_of_ready ready generated member named

/-- A name that is declared nowhere stands in a computed property. -/
def computing : Compilation :=
  compile "main" "var x = {}\nx.(y + 1)".toList .standard ⟨true, false, true, none⟩

theorem declares_computing :
    ∃ program ∈ computing.program, ∃ site ∈ program.parts, site.part = .use "x" ∧
      ((∃ e ∈ site.around, e.Declares "x") ∨
        computing.unit.tree.Provided Environment.standard.globals "x" ∨
        "x" ∈ computing.unit.tree.strays) := by
  have found : ∃ program ∈ computing.program, ∃ site ∈ program.parts, site.part = .use "x" := by
    decide +kernel
  obtain ⟨program, compiled, site, member, isUse⟩ := found
  have respecting : ∀ routine ∈ Environment.standard.routines,
      routine.Respects (Info.Proper fun _ => True) := nofun
  have named : site.part.name? = some "x" := by rw [isUse, Part.name?]
  refine ⟨program, compiled, site, member, isUse, ?_⟩
  unfold computing at compiled ⊢
  exact declares_of_compile respecting compiled site member "x" named

/-- The name in the computed property is neither declared around it nor provided. -/
theorem undeclared_computing :
    ∃ program ∈ computing.program, ∃ site ∈ program.parts, site.part = .use "y" ∧
      (¬∃ e ∈ site.around, e.Declares "y") ∧
      ¬computing.unit.tree.Provided Environment.standard.globals "y" := by
  decide +kernel

end Offside
