import Offside.Proofs.Contents.Compilation
import Offside.Proofs.Ownership.Expansion
import Offside.Proofs.Ownership.Marking
import Offside.Proofs.Ownership.Reading

/-!
# Numbers during compilation

After every step of a compilation the numbering owns the numbers of the tree and of the bodies of
the templates: no number stands twice among them.
-/

namespace Offside

/-- An environment whose macros stand for calls. -/
inductive Environment.CallsOnly : Environment → Prop
  | standard : CallsOnly .standard
  | withMacro {env : Environment} (calls : CallsOnly env) (name : String) (arity : Arity)
      (callee : String) : CallsOnly (env.withMacro name arity (.call callee))
  | withGlobal {env : Environment} (calls : CallsOnly env) (name : String) :
      CallsOnly (env.withGlobal name)

theorem Environment.CallsOnly.routines_eq {env : Environment} (calls : env.CallsOnly) :
    env.routines = #[] := by
  induction calls with
  | standard => rfl
  | withMacro _ _ _ _ ih => exact ih
  | withGlobal _ _ ih => exact ih

theorem Environment.CallsOnly.owning {env : Environment} (calls : env.CallsOnly) : env.Owning := by
  rw [Owning, calls.routines_eq]
  exact nofun

def Environment.printing : Environment :=
  Environment.standard.withMacro "print" (.following 1 1) (.call "print")

theorem Environment.callsOnly_printing : printing.CallsOnly :=
  .withMacro .standard "print" (.following 1 1) "print"

namespace SourceUnit

variable {unit : SourceUnit} {env : Environment}

def trees (unit : SourceUnit) : List Tree :=
  unit.tree :: unit.templates.toList.map Template.body

/-- The numbering of a unit owns the numbers of its trees. -/
def Sound (unit : SourceUnit) : Prop :=
  unit.numbering.Owns (Tree.numbersOfAll unit.trees)

/-! ## The steps -/

theorem sound_read (settings : Scan.Settings) (text : List Char) : (read settings text).Sound := by
  have owns := Block.owns_read settings.source (Scan.source settings text).1
  refine owns.mono (le_of_eq ?_)
  simp [trees, read]

theorem sound_combine (settings : Scan.Settings) (text : List Char) (env : Environment)
    (prelude : Bool) : ((read settings text).combine env prelude).Sound := by
  obtain ⟨raw, isRoot⟩ := Block.raw_read settings.source (Scan.allFit_source settings text)
  let unit := read settings text
  have owns := Combine.becomes_root raw isRoot
    ⟨unit.numbering, .start (env.rootKeys prelude), unit.templates, unit.diagnostics⟩ 0
    ((sound_read settings text).mono (le_of_eq (add_zero _)))
  exact owns.mono (le_of_eq (add_zero _).symm)

theorem Sound.expand (sound : unit.Sound) (owning : env.Owning)
    (plain : unit.tree.symbol.isMacro = false) (trace : Bool) (text : Option (List Char)) :
    (unit.expand env trace text).Sound := by
  have owningSettings : (unit.expansionSettings env trace text).env.Owning := owning
  obtain ⟨steps, run⟩ := Expand.runs_root plain unit.expansionStart
  have owns := run.owns owningSettings (Tree.numbersOfAll (unit.templates.toList.map Template.body))
    (sound.mono (le_of_eq ?_))
  · exact owns.mono (le_of_eq (by simp [trees]; rfl))
  · simp [trees, Expand.Task.subjects]

theorem Sound.bind (sound : unit.Sound) (env : Environment) : (unit.bind env).Sound := by
  have same : (unit.bind env).tree.numbers = unit.tree.numbers := Bind.numbers_root unit.tree _
  refine sound.mono (le_of_eq ?_)
  rw [trees, trees, Tree.numbersOfAll_cons, Tree.numbersOfAll_cons, same]
  rfl

/-- The units of a source after each step, whatever has been reported. -/
def steps (settings : Scan.Settings) (text : List Char) (env : Environment)
    (prelude trace : Bool) (kept : Option (List Char)) : List SourceUnit :=
  let blocks := read settings text
  let combined := blocks.combine env prelude
  let expanded := combined.expand env trace kept
  let bound := expanded.bind env
  [blocks, combined, expanded, bound, bound.check]

end SourceUnit

end Offside
