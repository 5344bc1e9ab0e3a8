import Offside.Proofs.Binding.Scoped
import Offside.Proofs.Contents.Compilation
import Offside.Proofs.Ownership.Compilation

/-!
# Names of a source

A name is bound to what has been declared before it, but a block declares all its names at its
top. So a name of a source is caught by a host that stands between the name and the host of its
declaration exactly if the host declares the name again, behind the use.
-/

namespace Offside

variable {base : Table Declaration} {final : Scopes Declaration}

/-! ## Names that are caught -/

namespace Tree

/-- The name at a path means what its name is declared to be in the host at another path. -/
def Refers (t : Tree) (final : Scopes Declaration) (path home : List Nat) (name : String) : Prop :=
  ∃ u ∈ t.subtree? path, ∃ node ∈ t.subtree? home, ∃ scope ∈ node.info.varScope,
    ∃ d ∈ u.info.binding, u.name? = some name ∧ final.getLocal? scope name = some d

instance (t : Tree) (final : Scopes Declaration) (path home : List Nat) (name : String) :
    Decidable (t.Refers final path home name) :=
  inferInstanceAs (Decidable (∃ _ ∈ _, ∃ _ ∈ _, ∃ _ ∈ _, ∃ _ ∈ _, _ ∧ _))

/-- One node stands above another, which is no initial value in the head of a loop. -/
def Above (t : Tree) (host path : List Nat) : Prop :=
  host <+: path ∧ host ≠ path ∧
    ∀ node ∈ t.subtree? host, ¬ node.InHead (path.drop host.length)

instance (t : Tree) (host path : List Nat) : Decidable (t.Above host path) :=
  inferInstanceAs (Decidable (_ ∧ _ ∧ _))

variable {t node : Tree} {host path : List Nat}

theorem Above.around (above : t.Above host path) (found : t.subtree? host = some node)
    (isHost : node.info.varScope ≠ none) : t.Around host path := by
  obtain ⟨⟨rest, rfl⟩, further, outside⟩ := above
  have below : rest ≠ [] := by simpa using further
  have inside := outside node found
  rw [List.drop_left] at inside
  have inner := (around_append found).mpr (.here isHost below inside)
  rwa [List.append_nil] at inner

end Tree

/-- A node that is no host has no names of its own, and nothing is declared at its top. -/
theorem Scoped.late_of_plain {t node : Tree} {path host : List Nat} {name : String}
    (proper : Scoped base final [] [] [] t) (found : t.subtree? host = some node)
    (noHost : node.info.varScope = none) : t.Late path name host := by
  intro other known
  rw [found] at known
  cases known
  have noDecls : node.info.decls = none := by
    rcases proper.hosts host node found with ⟨_, noDecls⟩ | ⟨_, hosts, _⟩
    · exact noDecls
    · obtain ⟨scope, isHost, _⟩ := hosts.registered
      cases noHost.symm.trans isHost
  have none : name ∉ node.info.declaredNames := by simp [Info.declaredNames, noDecls]
  refine iff_of_false none ?_
  rintro ⟨later, _, innermost, _⟩
  exact innermost.1.isHost found noHost

namespace SourceUnit

/-- The tree of a source with its names bound, and what comes of the binding. -/
def bound (settings : Scan.Settings) (text : List Char) (env : Environment)
    (prelude trace : Bool) (kept : Option (List Char)) : Tree × Binding :=
  let unit := ((read settings text).combine env prelude).expand env trace kept
  (Bind.root unit.tree).run ⟨.start env.globals, .empty, unit.diagnostics⟩

/-- A source without reports is properly scoped, and its nodes have different numbers. -/
theorem scoped_bound {env : Environment} (owning : env.Owning)
    (keeping : ∀ routine ∈ env.routines, routine.Keeps Info.Unbound) (settings : Scan.Settings)
    (text : List Char) (prelude trace : Bool) (kept : Option (List Char))
    (clean : (bound settings text env prelude trace kept).2.diagnostics = #[]) :
    Scoped env.globals (bound settings text env prelude trace kept).2.scopes [] [] []
        (bound settings text env prelude trace kept).1 ∧
      (bound settings text env prelude trace kept).1.numbers.Nodup := by
  have calls : env.CallsAdmitted fun _ => True := fun _ _ _ _ => trivial
  have combined := combined_read settings text calls prelude
  have plain : ((read settings text).combine env prelude).tree.symbol.isMacro = false := by
    rw [combined.isRoot]
    rfl
  constructor
  · have unbound := combined.obeys_expand Expand.lasting_unbound
      (fun _ _ proper => proper.toUnbound) (fun routine member => (keeping routine member).respects)
      trace kept
    have isRoot := (symbol_expand plain env trace kept).trans combined.isRoot
    have noErrors :
        (bound settings text env prelude trace kept).2.diagnostics.hasErrors = false := by
      rw [clean, Diagnostics.hasErrors, Array.any_empty]
    exact Bind.scoped_root (Tree.obeys_contents.mp unbound) isRoot noErrors
  · have sound := ((sound_combine settings text env prelude).expand owning plain trace
      kept).bind env
    have distinct := sound.distinct
    rw [trees, Tree.numbersOfAll_cons] at distinct
    exact (Multiset.nodup_add.mp distinct).1

/--
If no report is made, a node between a name and the host of its declaration has the name among
those that it declares at its top exactly if a tag behind the name declares it there.
-/
theorem late_of_refers {env : Environment} (owning : env.Owning)
    (keeping : ∀ routine ∈ env.routines, routine.Keeps Info.Unbound) (settings : Scan.Settings)
    (text : List Char) (prelude trace : Bool) (kept : Option (List Char)) {tree : Tree}
    {final : Binding} (run : bound settings text env prelude trace kept = (tree, final))
    (clean : final.diagnostics = #[]) {path home host : List Nat} {name : String}
    (refers : tree.Refers final.scopes path home name) (below : home <+: host)
    (apart : home ≠ host) (above : tree.Above host path) :
    ∀ node ∈ tree.subtree? host,
      (name ∈ node.info.declaredNames ↔
        ∃ later, path < later ∧ tree.HoistsAt host later name) := by
  have proper := scoped_bound owning keeping settings text prelude trace kept
  rw [run] at proper
  obtain ⟨proper, distinct⟩ := proper clean
  intro node found
  by_cases isHost : node.info.varScope = none
  · exact proper.late_of_plain found isHost node found
  · obtain ⟨u, atPath, outer, atHome, scope, isOuter, d, isBound, named, registered⟩ := refers
    have deeper : home.length < host.length :=
      lt_of_le_of_ne below.length_le fun same => apart (below.eq_of_length same)
    exact proper.late distinct atPath isBound named atHome isOuter registered
      (above.around found isHost) deeper node found

/-- A source in which a block uses a name before it declares the name. -/
def usedEarly : Tree × Binding :=
  bound ⟨0, none⟩ "var x = 1\ndo\n  print x\n  var x = 2".toList (.withGlobal .standard "print")
    true false none

theorem late_of_refers_usedEarly :
    usedEarly.2.diagnostics = #[] ∧ usedEarly.1.Refers usedEarly.2.scopes [1, 0, 1] [] "x" ∧
      usedEarly.1.Above [1] [1, 0, 1] ∧
      ∀ node ∈ usedEarly.1.subtree? [1],
        ("x" ∈ node.info.declaredNames ↔
          ∃ later, [1, 0, 1] < later ∧ usedEarly.1.HoistsAt [1] later "x") := by
  have clean : usedEarly.2.diagnostics = #[] := by decide +kernel
  have refers : usedEarly.1.Refers usedEarly.2.scopes [1, 0, 1] [] "x" := by decide +kernel
  have above : usedEarly.1.Above [1] [1, 0, 1] := by decide +kernel
  have calls : (Environment.standard.withGlobal "print").CallsOnly := .withGlobal .standard "print"
  have keeping : ∀ routine ∈ (Environment.standard.withGlobal "print").routines,
      routine.Keeps Info.Unbound := by
    rw [calls.routines_eq]
    exact nofun
  have run : bound ⟨0, none⟩ "var x = 1\ndo\n  print x\n  var x = 2".toList
      (.withGlobal .standard "print") true false none = (usedEarly.1, usedEarly.2) :=
    (Prod.eta usedEarly).symm
  exact ⟨clean, refers, above, late_of_refers calls.owning keeping _ _ _ _ _ run clean refers
    List.nil_prefix (List.cons_ne_nil _ _).symm above⟩

/-- The block declares the name at its top, so it catches the use. -/
theorem caught_usedEarly :
    usedEarly.2.diagnostics = #[] ∧ usedEarly.1.Refers usedEarly.2.scopes [1, 0, 1] [] "x" ∧
      usedEarly.1.Above [1] [1, 0, 1] ∧
      ∃ node ∈ usedEarly.1.subtree? [1],
        node.info.varScope ≠ none ∧ "x" ∈ node.info.declaredNames := by
  decide +kernel

end SourceUnit

end Offside
