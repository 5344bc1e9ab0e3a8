import Offside.Proofs.Binding.Hoisting

/-!
# Scopes of a bound tree

Binding without a report makes a properly scoped tree of any tree that it has not been to before:
every node that the rules can make is a tag, a list of outside names, or it consists of its parts.
-/

namespace Offside

open List Offside.Tree

variable {base : Table Declaration} {final : Scopes Declaration} {around : List (List Entry)}
  {before gained more owned : List Entry} {t c u : Tree} {parts ts children : List Tree}
  {id : NodeId} {info : Info} {path : List Nat} {index : Nat} {name : String} {e : Entry}
  {d : Declaration} {hosted : Prop}

/-! ## Tags -/

theorem Tree.Everywhere.of_subtree {P : Info → Prop} (holds : t.Everywhere P)
    (found : t.subtree? path = some u) : P u.info := by
  induction path generalizing t with
  | nil =>
    cases found
    exact (everywhere_iff.mp holds).1
  | cons index path ih =>
    obtain ⟨c, child, below⟩ := subtree?_cons.mp found
    exact ih (everywhereAll_iff.mp (everywhere_iff.mp holds).2 c (mem_of_getElem? child)) below

/-- A tree without hosts, of which at most the declarations or the uses are to be known. -/
theorem Scoped.of_quiet (quiet : t.Everywhere fun info => info.varScope = none ∧ info.decls = none)
    (declared : ∀ e ∈ gained, ∃ place, t.DeclaredAt place e)
    (complete : ∀ path d, t.Hoisted path d → (d.name, d) ∈ gained)
    (used : ∀ path u d, t.subtree? path = some u → u.info.binding = some d → d.tag ≠ some u.id →
      gained = [] ∧ ∃ name, u.name? = some name ∧
        Scopes.meaning (before :: around) base name = some d) :
    Scoped base final around before gained t := by
  have noHost (host path : List Nat) : ¬t.Around host path := by
    intro inside
    clear declared complete used
    induction inside with
    | here isHost => exact isHost (everywhere_iff.mp quiet).1.1
    | deeper child _ ih =>
      exact ih (everywhereAll_iff.mp (everywhere_iff.mp quiet).2 _ (mem_of_getElem? child))
  have direct (path : List Nat) : t.Directly False path := fun host =>
    iff_of_false (noHost host path) And.right
  refine ⟨fun e member => ?_, fun path d hoisted _ => complete path d hoisted,
    fun path u d found bound other => ?_, fun host node found => .inl (quiet.of_subtree found)⟩
  · obtain ⟨place, known⟩ := declared e member
    exact ⟨place, known, direct place⟩
  · obtain ⟨rfl, name, named, means⟩ := used path u d found bound other
    refine ⟨name, named, [], [], rfl, forall_mem_nil _, .inr ⟨by rwa [append_nil], ?_⟩⟩
    exact fun host inside => absurd inside (noHost host path)

theorem Info.Plain.quiet (plain : info.Plain) : info.varScope = none ∧ info.decls = none :=
  ⟨plain.varScope, plain.decls⟩

/-- A tree that binding has not written to. -/
theorem Scoped.of_plain (plain : t.Everywhere Info.Plain) :
    Scoped base final around before [] t := by
  refine .of_quiet (plain.mono fun _ => Info.Plain.quiet) (forall_mem_nil _)
    (fun path d hoisted => ?_)
    fun path u d found bound => ?_
  · obtain ⟨u, found, bound, _⟩ := hoisted.bound
    cases (plain.of_subtree found).binding.symm.trans bound
  · cases (plain.of_subtree found).binding.symm.trans bound

theorem Tree.cases_subtree (found : t.subtree? path = some u)
    (below : EverywhereAll Info.Plain t.children) : path = [] ∧ u = t ∨ u.info.Plain := by
  cases path with
  | nil =>
    cases found
    exact .inl ⟨rfl, rfl⟩
  | cons index path =>
    obtain ⟨c, child, inside⟩ := subtree?_cons.mp found
    exact .inr ((everywhereAll_iff.mp below c (mem_of_getElem? child)).of_subtree inside)

section Tag

variable {kind : TagKind} (isTag : info.symbol = .tag kind) (refers : info.Refers d)
  (below : EverywhereAll Info.Plain children)
include isTag refers below

theorem Scoped.tag (declared : ∀ e ∈ gained, (node id info children).DeclaredAt [] e)
    (complete : kind.isDeclaration = true → (d.name, d) ∈ gained)
    (used : d.tag ≠ some id → gained = [] ∧ ∃ name, info.name? = some name ∧
      Scopes.meaning (before :: around) base name = some d) :
    Scoped base final around before gained (.node id info children) := by
  refine .of_quiet ((everywhere_node _ _ _).mpr ⟨⟨refers.varScope, refers.decls⟩,
    below.mono fun _ => Info.Plain.quiet⟩) (fun e member => ⟨[], declared e member⟩) ?_ ?_
  · rintro path other ⟨u, known, found, isKind, declares, bound, _⟩
    rcases cases_subtree found below with ⟨rfl, rfl⟩ | plain
    · cases refers.binding.symm.trans bound
      cases (congrArg Symbol.tag? isTag).symm.trans isKind
      exact complete declares
    · cases plain.binding.symm.trans bound
  · intro path u other found bound foreign
    rcases cases_subtree found below with ⟨rfl, rfl⟩ | plain
    · cases refers.binding.symm.trans bound
      exact used foreign
    · cases plain.binding.symm.trans bound

/-- A tag that declares its name. -/
theorem Scoped.declaring (declares : kind.isDeclaration = true) (own : d.tag = some id) :
    Scoped base final around before [(d.name, d)] (.node id info children) := by
  refine .tag isTag refers below (forall_mem_singleton.mpr ?_) (fun _ => mem_singleton.mpr rfl)
    fun foreign => absurd own foreign
  exact ⟨_, rfl, refers.binding, rfl, own, fun _ => ⟨kind, congrArg Symbol.tag? isTag, declares⟩⟩

theorem Scoped.using (uses : kind.isDeclaration = false) (named : info.name? = some name)
    (means : Scopes.meaning (before :: around) base name = some d) :
    Scoped base final around before [] (.node id info children) := by
  refine .tag isTag refers below (forall_mem_nil _) (fun declares => ?_) fun _ =>
    ⟨rfl, name, named, means⟩
  cases uses.symm.trans declares

end Tag

theorem Info.bound_of_mem_entry (member : e ∈ info.entry) :
    info.binding = some e.2 ∧ e.1 = e.2.name := by
  rw [entry] at member
  cases bound : info.binding with
  | none => simp [bound] at member
  | some known =>
    rw [bound] at member
    cases mem_singleton.mp member
    exact ⟨rfl, rfl⟩

/-- A list of outside names; what they are bound to is their own and is not hoisted. -/
theorem Scoped.external (plain : info.Plain) (names : ∀ c ∈ children, ExternalName c) :
    Scoped base final around before (children.flatMap (·.info.entry)) (.node id info children) := by
  have own (path : List Nat) (u : Tree) (d : Declaration)
      (found : (node id info children).subtree? path = some u) (bound : u.info.binding = some d) :
      d.tag = some u.id ∧ d.hoisted = false := by
    cases path with
    | nil =>
      cases found
      cases plain.binding.symm.trans bound
    | cons index path =>
      obtain ⟨c, child, inside⟩ := subtree?_cons.mp found
      have isName := names c (mem_of_getElem? child)
      rcases cases_subtree inside isName.below with ⟨rfl, rfl⟩ | plain
      · exact isName.declared d bound
      · cases plain.binding.symm.trans bound
  refine .of_quiet
    ((everywhere_node _ _ _).mpr ⟨plain.quiet, everywhereAll_iff.mpr fun c member => ?_⟩)
    (fun e member => ?_) (fun path d hoisted => ?_) fun path u d found bound other => ?_
  · exact everywhere_iff.mpr ⟨⟨(names c member).noScope, (names c member).noDecls⟩,
      (names c member).below.mono fun _ => Info.Plain.quiet⟩
  · obtain ⟨c, known, member⟩ := mem_flatMap.mp member
    obtain ⟨index, child⟩ := mem_iff_getElem?.mp known
    obtain ⟨bound, named⟩ := Info.bound_of_mem_entry member
    have facts := (names c known).declared _ bound
    refine ⟨[index], c, subtree?_cons.mpr ⟨c, child, rfl⟩, bound, named, facts.1, fun hoisted => ?_⟩
    cases facts.2.symm.trans hoisted
  · obtain ⟨u, found, bound, isHoisted⟩ := hoisted.bound
    cases (own path u d found bound).2.symm.trans isHoisted
  · exact absurd (own path u d found bound).1 other

/-! ## Nodes and their parts -/

namespace Tree.Row

theorem nil (step : Nat → List Nat) : t.Row hosted step [] := by
  constructor <;> intros <;> contradiction

theorem of_children (isHost : ∀ index path, t.Around [] (index :: path) ↔ hosted) :
    t.Row hosted (fun index => [index]) t.children where
  part child := .child child
  isHost path _ := isHost _ path
  ordered _ _ less _ := cons_lt_cons_iff.mpr (.inl less)

end Tree.Row

theorem Tree.exists_child (found : t.subtree? path = some u) : path = [] ∨
    ∃ (index : Nat) (c : Tree) (rest : List Nat), t.children[index]? = some c ∧
      path = [index] ++ rest := by
  cases path with
  | nil => exact .inl rfl
  | cons index path =>
    obtain ⟨c, child, _⟩ := subtree?_cons.mp found
    exact .inr ⟨index, c, path, child, rfl⟩

/-- A node in the scope in which it stands. -/
theorem Scoped.node (plain : info.Plain)
    (all : ScopedAll base final around before gained children) :
    Scoped base final around before gained (.node id info children) := by
  refine .of_parts (.of_children fun index path => ?_) (.nil fun _ => []) all .nil
    (.inl ⟨plain, rfl⟩) fun path u found => (exists_child found).imp_right fun part =>
      .inr (.inl part)
  refine iff_of_false (fun inside => ?_) not_false
  cases inside with
  | here isHost => exact isHost plain.varScope

theorem Hosts.around_iff (hosts : Hosts final info owned) :
    (Tree.node id info children).Around [] (index :: path) ↔
      ¬(Tree.node id info children).InHead (index :: path) := by
  obtain ⟨scope, isHost, _⟩ := hosts.registered
  refine ⟨fun inside => ?_, .here (by simp [Tree.info, isHost]) (cons_ne_nil _ _)⟩
  cases inside with
  | here _ _ outside => exact outside

/-- A host around all its parts. -/
theorem Scoped.host (hosts : Hosts final info owned)
    (noHead : info.symbol = .builtin .loop → children.length ≠ 2)
    (all : ScopedAll base final (before :: around) [] owned children) :
    Scoped base final around before [] (.node id info children) := by
  have outside (path : List Nat) : ¬(Tree.node id info children).InHead path := by
    rintro ⟨isLoop, two, _⟩
    exact noHead (Info.symbol_of_is isLoop) two
  refine .of_parts (.nil fun _ => []) (.of_children fun index path => ?_) .nil
    (by rwa [append_nil]) (.inr hosts)
    fun path u found => (exists_child found).imp_right fun part => .inr (.inr part)
  exact hosts.around_iff.trans (iff_true_intro (outside _))

/-- Where the names and the body of a loop with a head stand. -/
def Tree.insideLoop : Nat → List Nat
  | 0 => [0, 0]
  | index => [index]

/-- A loop with a head. The initial values stand outside. -/
theorem Scoped.loop {headId : NodeId} {headInfo : Info} {names init body : Tree}
    (isLoop : info.symbol = .builtin .loop) (plain : headInfo.Plain)
    (hosts : Hosts final info owned) (start : ScopedAll base final around before gained [init])
    (all : ScopedAll base final ((before ++ gained) :: around) [] owned [names, body]) :
    Scoped base final around before gained
      (.node id info [.node headId headInfo [names, init], body]) := by
  have isHost (index : Nat) (path : List Nat) :
      (Tree.node id info [.node headId headInfo [names, init], body]).Around [] (index :: path) ↔
        ¬[0, 1] <+: index :: path := by
    rw [hosts.around_iff, InHead, Tree.is, Info.is, Tree.info, isLoop]
    simp [Symbol.builtin?, Tree.children]
  have row : (Tree.node id info [.node headId headInfo [names, init], body]).Row False
      (fun _ => [0, 1]) [init] := by
    constructor
    · rintro (_ | index) c ⟨⟩
      exact .grandchild rfl plain.varScope rfl
    · intro index c path _
      simp [isHost]
    · rintro index (_ | next) c path place less ⟨⟩
      cases less
  have hosted : (Tree.node id info [.node headId headInfo [names, init], body]).Row True
      insideLoop [names, body] := by
    constructor
    · rintro (_ | _ | index) c ⟨⟩
      · exact .grandchild rfl plain.varScope rfl
      · exact .child rfl
    · rintro (_ | _ | index) c path ⟨⟩
      all_goals simp [insideLoop, isHost]
    · rintro (_ | index) (_ | _ | next) c path place less ⟨⟩
      case zero.succ.zero => exact cons_lt_cons_iff.mpr (.inl Nat.zero_lt_one)
      all_goals simp at less
  refine .of_parts row hosted start all (.inr hosts) fun path u found => ?_
  rcases path with _ | ⟨_ | _ | index, path⟩
  · exact .inl rfl
  · rcases path with _ | ⟨_ | _ | next, path⟩
    · cases found
      exact .inr (.inl plain)
    · exact .inr (.inr (.inr ⟨0, names, path, rfl, rfl⟩))
    · exact .inr (.inr (.inl ⟨0, init, path, rfl, rfl⟩))
    · cases found
  · exact .inr (.inr (.inr ⟨1, body, path, rfl, rfl⟩))
  · cases found

/-! ## Bound trees -/

theorem ScopedAll.single (proper : Scoped base final around before gained t) :
    ScopedAll base final around before gained [t] := by
  have alone := ScopedAll.cons proper .nil
  rwa [append_nil] at alone

theorem ScopedAll.append (first : ScopedAll base final around before gained parts)
    (rest : ScopedAll base final around (before ++ gained) more ts) :
    ScopedAll base final around before (gained ++ more) (parts ++ ts) := by
  induction first with
  | nil => rwa [append_nil] at rest
  | cons here _ ih =>
    rw [← append_assoc] at rest
    rw [append_assoc]
    exact .cons here (ih rest)

theorem ScopedAll.of_plain (plain : EverywhereAll Info.Plain ts) :
    ScopedAll base final around before [] ts := by
  induction ts generalizing before with
  | nil => exact .nil
  | cons t ts ih =>
    rw [everywhereAll_cons] at plain
    exact (single (.of_plain plain.1)).append (ih plain.2)

namespace Bind

/-- All that the rules can make is properly scoped. -/
theorem Bound.scoped {seen : Seen} (bound : Bound base final seen before around gained) :
    ScopedAll base final around before gained seen.list := by
  induction bound with
  | nothing | noNames => exact .nil
  | more _ _ first rest | moreNames _ _ first rest => exact first.append rest
  | left _ plain _ below | nameless _ plain _ below =>
    exact .single (.of_plain ((everywhere_node _ _ _).mpr ⟨plain, below⟩))
  | declared isTag declares _ refers _ below | name isTag declares _ refers _ below =>
    exact .single (.declaring isTag refers below declares rfl)
  | used isTag uses named refers means _ below =>
    exact .single (.using isTag refers below uses named means)
  | nameTuple _ plain _ ih | parts _ plain _ _ ih | declaration _ plain _ _ ih =>
    exact .single (.node plain ih)
  | assigned _ plain _ _ _ target value => exact .single (.node plain (target.append value))
  | member _ plain _ _ skipped ih =>
    have both := ih.append (.of_plain skipped)
    rw [append_nil] at both
    exact .single (.node plain both)
  | noEntry _ plain => exact .single (.node plain .nil)
  | @entry before _ around _ _ key _ _ plain skipped _ ih =>
    have nothing : ScopedAll base final around before [] [key] := .single (.of_plain skipped)
    rw [← append_nil before] at ih
    exact .single (.node plain (nothing.append ih))
  | listed _ plain _ names =>
    exact .single (.external plain fun c member => (names c member).toExternalName)
  | confined confines _ collects _ ih =>
    refine .single (.host collects.toHosts (fun isLoop => ?_) ih)
    cases confines with
    | block same => cases same.symm.trans isLoop
    | loop _ endless => exact fun isTwo => by cases endless.symm.trans isTwo
    | code _ notTwo => exact notTwo
  | code isCode _ collects _ _ params body =>
    refine .single (.host collects.toHosts (fun isLoop => ?_) (params.append body))
    rcases isCode with isFn | isCatch
    · cases isFn.symm.trans isLoop
    · cases isCatch.symm.trans isLoop
  | loop isLoop _ _ plain collects _ _ _ start heads code =>
    exact .single (.loop isLoop plain collects.toHosts start (heads.append code))

/-- If binding reports no error, the tree is properly scoped. -/
theorem scoped_root {t : Tree} {ds : Diagnostics} (unbound : t.Everywhere Info.Unbound)
    (isRoot : t.symbol = .block .root)
    (clean : (root t ⟨.start base, .empty, ds⟩).2.diagnostics.hasErrors = false) :
    Scoped base (root t ⟨.start base, .empty, ds⟩).2.scopes [] [] []
      (root t ⟨.start base, .empty, ds⟩).1 := by
  obtain ⟨front, own, back, whole, proper, _⟩ :=
    (bound_root unbound isRoot clean).scoped.split (show [_][0]? = some _ from rfl)
  simp only [nil_eq, append_eq_nil_iff] at whole
  obtain ⟨rfl, rfl, rfl⟩ := whole
  exact proper

end Bind

/-! ## Hosts between a use and its declaration -/

/--
Between a bound tag and the host of its declaration, a host has the name of the tag among its own
exactly if the name is declared in it behind the tag.
-/
theorem Scoped.late {node : Tree} {home host : List Nat} {scope : ScopeId}
    (proper : Scoped base final around before gained t) (distinct : t.numbers.Nodup)
    (found : t.subtree? path = some u) (bound : u.info.binding = some d)
    (named : u.name? = some name) (atHome : t.subtree? home = some node)
    (isHost : node.info.varScope = some scope)
    (registered : final.getLocal? scope name = some d) (inside : t.Around host path)
    (deeper : home.length < host.length) : t.Late path name host := by
  obtain ⟨place, declared, innermost⟩ :
      ∃ place, t.DeclaredAt place (name, d) ∧ t.Innermost home place := by
    rcases proper.hosts home node atHome with ⟨noScope, _⟩ | ⟨owned, hosts, places⟩
    · cases noScope.symm.trans isHost
    · obtain ⟨other, same, entries⟩ := hosts.registered
      cases same.symm.trans isHost
      exact places _ (Table.mem_of_find ((entries name).symm.trans registered))
  obtain ⟨v, atPlace, _, _, tagged, _⟩ := declared
  by_cases own : d.tag = some u.id
  · -- A tag that is bound to its own declaration has no host below that of the declaration.
    have same : place = path := by
      refine path_eq_of_id distinct atPlace found ?_
      exact Option.some.inj (tagged.symm.trans own)
    rw [same] at innermost
    exact absurd (innermost.2 host inside) (Nat.not_le_of_lt deeper)
  · obtain ⟨spelled, isName, earlier, later, split, _, resolved⟩ :=
      proper.used path u d found bound own
    cases named.symm.trans isName
    rcases resolved with ⟨other, second, _, again, innermostAgain, late⟩ | ⟨_, late⟩
    · obtain ⟨w, atSecond, _, _, taggedAgain, _⟩ := again
      have same : second = place := by
        refine path_eq_of_id distinct atSecond atPlace ?_
        exact Option.some.inj (taggedAgain.symm.trans tagged)
      rw [same] at innermostAgain
      exact late host inside (innermostAgain.unique innermost ▸ deeper)
    · exact late host inside

end Offside
