import Offside.Compilation
import Offside.Proofs.Combination.Traversal
import Offside.Proofs.Contents.Expansion

/-!
# The contents of a unit

What holds of every node that combination makes holds after the expansion too, if the law lasts
and the routines of the host respect it.
-/

namespace Offside.SourceUnit

open Offside.Tree (obeyAll_cons obeyAll_singleton)

variable {unit : SourceUnit} {env : Environment} {admitted : String → Prop} {law : Law}

/--
A unit that has been combined: all nodes are proper, those of the templates but for the holes.
-/
structure Combined (admitted : String → Prop) (unit : SourceUnit) : Prop where
  tree : unit.tree.IsProper admitted
  isRoot : unit.tree.symbol = .block .root
  templates : ∀ template ∈ unit.templates, template.Fits (Info.Proper admitted)

/-- What is asked of a unit that is combined, with what there is before and behind. -/
def demands (admitted : String → Prop) (env : Environment) (before after : SourceUnit) :
    Demands where
  admitted
  provided m := ∃ entry ∈ env.provided.entries, entry.2 = m
  templates := after.templates.size
  reports := before.diagnostics.size
  quiet := after.diagnostics = before.diagnostics

theorem symbol_combine (settings : Scan.Settings) (text : List Char) (env : Environment)
    (prelude : Bool) : ((read settings text).combine env prelude).tree.symbol = .block .root := by
  obtain ⟨-, isRoot⟩ := Block.raw_read settings.source (Scan.allFit_source settings text)
  exact (Combine.symbol_root _ _).trans isRoot

/-- Combination meets what is asked of it. -/
theorem orderly_combine (settings : Scan.Settings) (text : List Char)
    (calls : env.CallsAdmitted admitted) (prelude : Bool) :
    let unit := (read settings text).combine env prelude
    let asks := demands admitted env (read settings text) unit
    unit.tree.Orderly asks ∧ ∀ template ∈ unit.templates, template.Orderly asks := by
  intro unit asks
  obtain ⟨raw, isRoot⟩ := Block.raw_read settings.source (Scan.allFit_source settings text)
  let start : Combination :=
    ⟨(read settings text).numbering, .start (env.rootKeys prelude), (read settings text).templates,
      (read settings text).diagnostics⟩
  have ends : Combine.Ends asks (Combine.root (read settings text).tree start).2 :=
    ⟨Nat.le_refl _, fun quiet => Nat.le_of_eq (congrArg Array.size quiet)⟩
  have fit : Combine.Fit asks start := by
    refine ⟨fun _ member => absurd member (Array.not_mem_empty _), Scopes.all_start ?_,
      Nat.le_refl _⟩
    refine fun _ symbol => Environment.forall_of_rootKeys _ (fun entry member => ?_)
      fun entry provided _ => ⟨calls entry provided, ?_⟩
    · rcases Environment.mem_spellings member with ⟨op, spelled, isOp⟩ |
        ⟨literal, unnamed, isKeyword⟩
      · rw [isOp]
        refine fun _ => ⟨?_, by rintro _ ⟨⟩⟩
        rintro rfl
        cases spelled
      · rw [isKeyword]
        exact unnamed
    · rintro _ ⟨⟩
      exact .inl ⟨entry, provided, rfl⟩
  obtain ⟨final, orderly⟩ := (Combine.toward_root raw isRoot start ends).2 trivial fit
  exact ⟨orderly, final.templates⟩

theorem combined_read (settings : Scan.Settings) (text : List Char)
    (calls : env.CallsAdmitted admitted) (prelude : Bool) :
    ((read settings text).combine env prelude).Combined admitted := by
  obtain ⟨orderly, templates⟩ := orderly_combine settings text calls prelude
  constructor
  · exact orderly.isProper
  · exact symbol_combine settings text env prelude
  · exact fun template member => (templates template member).toFits

theorem isMacro_combine (settings : Scan.Settings) (text : List Char) (env : Environment)
    (prelude : Bool) : ((read settings text).combine env prelude).tree.symbol.isMacro = false := by
  rw [symbol_combine]
  rfl

theorem symbol_expand (plain : unit.tree.symbol.isMacro = false) (env : Environment) (trace : Bool)
    (text : Option (List Char)) :
    (unit.expand env trace text).tree.symbol = unit.tree.symbol :=
  Expand.symbol_root plain ⟨unit.numbering, .start, unit.diagnostics, false⟩

/-- A lasting law that proper nodes follow holds in the expanded tree. -/
theorem Combined.obeys_expand (combined : unit.Combined admitted) (lasting : Expand.Lasting law)
    (weaken : ∀ info below, info.Proper admitted below → law info below)
    (routines : ∀ routine ∈ env.routines, routine.Respects law) (trace : Bool)
    (text : Option (List Char)) : (unit.expand env trace text).tree.Obeys law := by
  have settled : Expand.Settled law (unit.expansionSettings env trace text) :=
    ⟨fun template member => (combined.templates template member).mono weaken, routines⟩
  have plain : unit.tree.symbol.isMacro = false := by
    rw [combined.isRoot]
    rfl
  obtain ⟨steps, final, run, -⟩ := runs_expand plain env trace text
  have all := (run.obeys lasting settled (obeyAll_singleton (combined.tree.mono weaken))).1
  exact ((obeyAll_cons _ _).mp all).1

end Offside.SourceUnit
