import Offside.Proofs.Contents.Combination
import Offside.Proofs.Macro.Runs

/-!
# Contents of expanded trees

A law that new nodes follow and that renaming keeps is kept by expansion: every node of an
expanded tree comes from the tree before, from a template, or is new.
-/

namespace Offside

open List Offside.Tree

/-- A law that expansion keeps. -/
structure Expand.Lasting (law : Law) : Prop where
  stable : law.Stable
  called : ∀ {info : Info} {below : List Symbol} {m : Macro} {callee : String} (loc : Loc),
    law info below → info.symbol = .expander m → m.body = .call callee →
      law (.new (.tag .external) (some (.name callee)) loc) []
  this : ∀ loc : Loc, law (.new (.tag .external) (some (.name "this")) loc) []
  call : ∀ (loc : Loc) (below : List Symbol), law (.new (.builtin .call) none loc) below
  member : ∀ (loc : Loc) (object property : Symbol),
    law (.new (.builtin .member) none loc) [object, property]
  spread : ∀ {info : Info} {below : List Symbol}, law info below →
    info.symbol = .builtin .tuple → law info []
  fewer : ∀ {info : Info} {below fewer : List Symbol}, law info below →
    info.symbol.isMacro = true → fewer.length ≤ below.length → law info fewer
  origin : ∀ {info : Info} {below : List Symbol} (loc : Loc), law info below →
    law { info with origin := some loc } below
  renamed : ∀ {info : Info} {below : List Symbol} {kind : TagKind} {name : String} (count : Nat),
    law info below → info.symbol = .tag kind → kind.isVirtual = true → info.name? = some name →
      law { info with symbol := .tag kind.toConcrete, value := some (.name s!"{name}${count}") }
        below

def Outcome.Obeys (law : Law) : Outcome → Prop
  | .replace remains result => remains.Obeys law ∧ result.Obeys law
  | _ => True

/-- A routine of the host that makes trees that follow a law of trees that follow it. -/
def HostRoutine.Respects (law : Law) (routine : HostRoutine) : Prop :=
  ∀ invocation : Tree, invocation.Obeys law →
    Yields (routine.expand invocation) (Outcome.Obeys law)

def Outcome.Everywhere (P : Info → Prop) : Outcome → Prop
  | .replace remains result => remains.Everywhere P ∧ result.Everywhere P
  | _ => True

def HostRoutine.Keeps (P : Info → Prop) (routine : HostRoutine) : Prop :=
  ∀ invocation : Tree, invocation.Everywhere P →
    Yields (routine.expand invocation) (Outcome.Everywhere P)

theorem HostRoutine.Keeps.respects {P : Info → Prop} {routine : HostRoutine}
    (keeps : routine.Keeps P) : routine.Respects fun info _ => P info := by
  intro invocation obeys
  refine (keeps invocation (obeys_contents.mp obeys)).mono fun outcome inside => ?_
  cases outcome with
  | replace remains result => exact ⟨obeys_contents.mpr inside.1, obeys_contents.mpr inside.2⟩
  | _ => trivial

variable {law : Law}

/-! ## Templates -/

namespace Template

theorem arguments_ok {template : Template} {invocation : Tree} {arguments : List Tree}
    (taken : template.arguments invocation = .ok arguments)
    (obeys : invocation.Obeys law) :
    arguments.length = template.params.length ∧ ObeyAll law arguments := by
  have inner := obeys.children
  unfold Template.arguments at taken
  dsimp only at taken
  split at taken
  case h_1 none _ =>
    cases taken
    exact ⟨none.symm, obeyAll_nil⟩
  case h_2 | h_3 => cases taken
  case h_4 argument rest _ one parts =>
    cases taken
    rw [parts, obeyAll_cons] at inner
    exact ⟨one.symm, obeyAll_singleton inner.1⟩
  case h_5 argument rest parts _ _ =>
    rw [parts, obeyAll_cons] at inner
    split at taken
    · cases taken
    · split at taken
      · cases taken
      case isFalse same =>
        cases taken
        exact ⟨not_not.mp same, inner.1.children⟩

mutual

theorem obeys_fill (lasting : Expand.Lasting law) {holes : Table Nat} {arguments : List Tree}
    (origin : Loc) {t : Tree} (bounded : Bounded arguments.length holes)
    (each : ObeyAll law arguments)
    (obeys : t.Obeys fun info below => law info below ∨ info.IsHole holes) :
    Yields (fill holes arguments origin t)
      (fun u => u.Obeys law ∧ (t.symbol.isClause = true → u.symbol = t.symbol)) := by
  cases t with
  | node number info children =>
    rw [obeys_node] at obeys
    rw [fill]
    split
    case h_1 argument isArgument =>
      split at isArgument
      case h_1 nothing =>
        obtain ⟨index, _, found⟩ := Option.bind_eq_some_iff.mp isArgument
        refine (yields_copy (obeyAll_iff.mp each argument (mem_of_getElem? found))).mono
          fun u facts => ⟨facts.1, fun isClause => ?_⟩
        rw [Tree.symbol, Tree.info, nothing] at isClause
        cases isClause
      case h_2 => cases isArgument
    case h_2 noArgument =>
      refine .after fun _ => ?_
      refine .bind (obeys_fillAll lasting origin bounded each obeys.2) fun parts inside => ?_
      refine .pure ⟨?_, fun _ => rfl⟩
      rw [obeys_node]
      refine ⟨?_, inside.1⟩
      have root := obeys.1.resolve_right fun isHole => by
        obtain ⟨nothing, name, index, named, known⟩ := isHole
        have present := List.getElem?_eq_getElem (bounded name index known)
        rw [nothing, named] at noArgument
        change (holes.get? name).bind (fun index => arguments[index]?) = none at noArgument
        rw [known, Option.bind_some, present] at noArgument
        cases noArgument
      exact lasting.origin origin (lasting.stable root inside.2)

theorem obeys_fillAll (lasting : Expand.Lasting law) {holes : Table Nat}
    {arguments : List Tree} (origin : Loc) {ts : List Tree}
    (bounded : Bounded arguments.length holes) (each : ObeyAll law arguments)
    (obey : ObeyAll (fun info below => law info below ∨ info.IsHole holes) ts) :
    Yields (fillAll holes arguments origin ts)
      (fun us => ObeyAll law us ∧ Symbol.Passes (ts.map symbol) (us.map symbol)) := by
  cases ts with
  | nil => exact .pure ⟨obeyAll_nil, .nil⟩
  | cons t ts =>
    rw [obeyAll_cons] at obey
    rw [fillAll]
    refine .bind (obeys_fill lasting origin bounded each obey.1) fun first here => ?_
    refine .bind (obeys_fillAll lasting origin bounded each obey.2) fun others there => ?_
    refine .pure ⟨?_, .cons_toList (fun isClause => congrArg some (here.2 isClause)) there.2⟩
    rw [obeyAll_cons]
    exact ⟨here.1, there.1⟩

end

end Template

/-! ## Invocations -/

namespace Expand

variable {settings : ExpansionSettings}

/-- What expansion is given follows a law. -/
structure Settled (law : Law) (settings : ExpansionSettings) : Prop where
  templates : ∀ template ∈ settings.templates, template.Fits law
  routines : ∀ routine ∈ settings.env.routines, routine.Respects law

/-- What a node is replaced by, and what is left of it, follow the law. -/
theorem obeys_become (lasting : Lasting law) (settled : Settled law settings) {t remains new : Tree}
    {s s₁ : Expanding} (obeys : t.Obeys law)
    (result : round settings t s = (.become remains new, s₁)) :
    remains.Obeys law ∧ new.Obeys law := by
  have operands := obeyAll_iff.mp obeys.children
  cases replaced_of_round result with
  | filled known taken fills =>
    have fits := settled.templates _ known
    obtain ⟨count, each⟩ := Template.arguments_ok taken obeys
    have filled := Template.obeys_fill lasting t.info.expansionSite (count ▸ fits.bounded) each
      fits.body
    exact ⟨obeys, (filled.of_run fills).1⟩
  | called invokes calls =>
    rw [obeys_node, obeyAll_cons, obeyAll_iff, obeys_node]
    refine ⟨.withChildren (lasting.fewer obeys.root ?_ ?_) (obeyAll_iff.mpr fun c member => ?_),
      lasting.call _ _, ⟨lasting.called t.loc obeys.root invokes calls, obeyAll_nil⟩, ?_⟩
    · rw [show t.info.symbol = _ from invokes]
      rfl
    · rw [length_map, length_map, length_map]
      exact length_filter_le _ _
    · obtain ⟨operand, known, rfl⟩ := mem_map.mp member
      obtain ⟨inside, isTuple⟩ := mem_filter.mp known
      exact .withChildren
        (lasting.spread (operands operand inside).root (Info.symbol_of_is isTuple))
        obeyAll_nil
    · exact forall_spread operands fun _ whole => obeyAll_iff.mp whole.children
  | member isAt parts =>
    have root := obeys.root
    rw [parts, forall_mem_cons] at operands
    rw [parts] at root
    rw [obeys_node, obeyAll_cons, obeys_node]
    refine ⟨.withChildren (lasting.fewer root ?_ ?_) (obeyAll_iff.mpr operands.2),
      lasting.member _ _ _, ⟨lasting.this _, obeyAll_nil⟩, obeyAll_singleton operands.1⟩
    · rw [show t.info.symbol = _ from isAt]
      rfl
    · exact Nat.le_succ _
  | host known ran => exact (settled.routines _ known t obeys).of_run ran

end Expand

/-! ## Renaming -/

namespace Renaming

/-- Every new name is the old one with a number behind a dollar sign. -/
def Marked (r : Renaming) : Prop :=
  ∀ name new, r.renamed.get? name = some new → ∃ count : Nat, new = s!"{name}${count}"

theorem Marked.newName? {r : Renaming} (marked : r.Marked) (kind : TagKind) (name : String) :
    (r.newName? kind name).2.Marked ∧
      ∀ new, (r.newName? kind name).1 = some new → ∃ count : Nat, new = s!"{name}${count}" := by
  unfold Renaming.newName?
  split
  case h_1 known => exact ⟨marked, fun new same => marked name new (known.trans same)⟩
  case h_2 =>
    split
    · refine ⟨fun other new found => ?_, fun new same => ?_⟩
      · change (r.renamed.insert name _).get? other = some new at found
        rw [Table.get?_insert] at found
        split at found
        case isTrue same =>
          cases found
          exact same ▸ ⟨_, rfl⟩
        case isFalse => exact marked other new found
      · cases same
        exact ⟨_, rfl⟩
    · exact ⟨marked, by rintro _ ⟨⟩⟩

theorem Marked.node (lasting : Expand.Lasting law) {r : Renaming} (marked : r.Marked)
    {info : Info} {below : List Symbol} (root : law info below) :
    (r.node info).2.Marked ∧ law (r.node info).1 below ∧
      (info.symbol.isClause = true → (r.node info).1.symbol = info.symbol) := by
  unfold Renaming.node
  split
  case h_1 kind name isVirtual named =>
    obtain ⟨later, made⟩ := marked.newName? kind name
    split
    case h_1 new after isNew =>
      rw [isNew] at later made
      obtain ⟨count, rfl⟩ := made _ rfl
      obtain ⟨isTag, virtual⟩ := Option.filter_eq_some_iff.mp isVirtual
      have tagged := Symbol.eq_tag_of_tag? isTag
      refine ⟨later, lasting.renamed count root tagged virtual named, fun isClause => ?_⟩
      rw [tagged] at isClause
      cases isClause
    case h_2 after isNone =>
      rw [isNone] at later
      exact ⟨later, root, fun _ => rfl⟩
  case h_2 => exact ⟨marked, root, fun _ => rfl⟩

mutual

theorem Marked.tree (lasting : Expand.Lasting law) {r : Renaming} (marked : r.Marked) {t : Tree}
    (obeys : t.Obeys law) :
    (Renaming.tree t r).2.Marked ∧ (Renaming.tree t r).1.Obeys law ∧
      (t.symbol.isClause = true → (Renaming.tree t r).1.symbol = t.symbol) := by
  cases t with
  | node number info children =>
    rw [obeys_node] at obeys
    rw [Renaming.tree]
    obtain ⟨between, root, same⟩ := marked.node lasting obeys.1
    obtain ⟨after, inside, passes⟩ := between.trees lasting obeys.2
    refine ⟨after, ?_, same⟩
    rw [obeys_node]
    exact ⟨lasting.stable root passes, inside⟩

theorem Marked.trees (lasting : Expand.Lasting law) {r : Renaming} (marked : r.Marked)
    {ts : List Tree} (obey : ObeyAll law ts) :
    (Renaming.trees ts r).2.Marked ∧ ObeyAll law (Renaming.trees ts r).1 ∧
      Symbol.Passes (ts.map symbol) ((Renaming.trees ts r).1.map symbol) := by
  cases ts with
  | nil => exact ⟨marked, obeyAll_nil, .nil⟩
  | cons t ts =>
    rw [obeyAll_cons] at obey
    rw [Renaming.trees]
    obtain ⟨between, here, same⟩ := marked.tree lasting obey.1
    obtain ⟨after, there, passes⟩ := between.trees lasting obey.2
    refine ⟨after, ?_, .cons_toList (fun isClause => congrArg some (same isClause)) passes⟩
    rw [obeyAll_cons]
    exact ⟨here, there⟩

end

end Renaming

/-! ## Expansion -/

namespace Expand

variable {settings : ExpansionSettings}

theorem obeys_settle (lasting : Lasting law) (number : NodeId) {result : Tree}
    (obeys : result.Obeys law) : Yields (settle number result) (Obeys law) := by
  intro s
  have start : Renaming.Marked ⟨.empty, s.names, #[]⟩ := by
    intro name new found
    cases found
  have whole : (Tree.node number result.info result.children).Obeys law := by
    rw [obeys_node]
    exact obeys_iff.mp obeys
  exact (start.tree lasting whole).2.1

/-- What is put into the place of an invocation follows the law. -/
theorem obeys_placed (lasting : Lasting law) (settled : Settled law settings)
    {t remains new placed : Tree} {s s₁ s₂ : Expanding} (obeys : t.Obeys law)
    (result : round settings t s = (.become remains new, s₁))
    (settles : settle t.id new s₁ = (placed, s₂)) : placed.Obeys law :=
  (obeys_settle lasting t.id (obeys_become lasting settled obeys result).2).of_run settles

/-- A clause stays where it is. -/
theorem isClause_of_round {t : Tree} {outcome : Round} {s s₁ : Expanding}
    (result : round settings t s = (outcome, s₁)) (goes : outcome ≠ .stay) :
    t.symbol.isClause = false := by
  rcases Symbol.isMacro_cases (isMacro_of_round result goes) with
    ⟨m, known⟩ | known | known | known | known
  all_goals
    rw [known]
    rfl

/-- A run keeps a lasting law, and the clauses among its trees stay. -/
theorem Runs.obeys (lasting : Lasting law) (settled : Settled law settings) {depth : Nat}
    {task : Task} {s after : Expanding} {steps : List Step} {results : List Tree}
    (run : Runs settings depth task s steps results after)
    (obeys : ObeyAll law task.subjects) :
    ObeyAll law results ∧ Symbol.Passes (task.subjects.map symbol) (results.map symbol) := by
  have join {t : Tree} {ts first others : List Tree}
      (here : ObeyAll law first ∧ Symbol.Passes [t.symbol] (first.map symbol))
      (rest : ObeyAll law others ∧ Symbol.Passes (ts.map symbol) (others.map symbol)) :
      ObeyAll law (first ++ others) ∧
        Symbol.Passes ((t :: ts).map symbol) ((first ++ others).map symbol) := by
    rw [map_append]
    exact ⟨here.1.append rest.1, here.2.append rest.2⟩
  induction run with
  | nil => exact ⟨obeyAll_nil, .nil⟩
  | quoted _ _ _ here rest =>
    obtain ⟨first, others⟩ := (obeyAll_cons _ _).mp obeys
    exact join (here (obeyAll_singleton first)) (rest others)
  | entered _ _ _ _ inner here rest =>
    obtain ⟨first, others⟩ := (obeyAll_cons _ _).mp obeys
    obtain ⟨parts, passes⟩ := inner first.children
    have whole := first.replace lasting.stable parts passes
    exact join (here (obeyAll_singleton whole)) (rest others)
  | stay => exact ⟨obeys, .refl _⟩
  | vanish result => exact ⟨obeyAll_nil, .drop (isClause_of_round result (by rintro ⟨⟩)) .nil⟩
  | stop result =>
    have root := ((obeyAll_cons _ _).mp obeys).1
    exact ⟨obeyAll_singleton (obeys_become lasting settled root result).1,
      .change _ (isClause_of_round result (by rintro ⟨⟩)) .nil⟩
  | again result _ _ settles _ _ onward =>
    have root := ((obeyAll_cons _ _).mp obeys).1
    obtain ⟨parts, passes⟩ :=
      onward (obeyAll_singleton (obeys_placed lasting settled root result settles))
    exact ⟨parts, passes.of_single (isClause_of_round result (by rintro ⟨⟩))⟩
  | deeper result _ _ settles _ _ _ inner onward =>
    have root := ((obeyAll_cons _ _).mp obeys).1
    have placed := obeys_placed lasting settled root result settles
    obtain ⟨inside, stays⟩ := inner placed.children
    obtain ⟨parts, passes⟩ :=
      onward (obeyAll_singleton (placed.replace lasting.stable inside stays))
    exact ⟨parts, passes.of_single (isClause_of_round result (by rintro ⟨⟩))⟩

/-! ## Two lasting laws -/

theorem lasting_unbound : Lasting fun info _ => info.Unbound where
  stable _ _ _ unbound _ := unbound
  called _ _ _ _ := Info.unbound_new _ _ _
  this _ := Info.unbound_new _ _ _
  call _ _ := Info.unbound_new _ _ _
  member _ _ _ := Info.unbound_new _ _ _
  spread unbound _ := unbound
  fewer unbound _ _ := unbound
  origin _ unbound := { unbound with }
  renamed _ unbound _ _ _ := { unbound with }

/-- A name with a mark behind it starts like the name. -/
theorem startsAsWord_mark {name : String} (starts : Text.StartsAsWord name) (mark : String) :
    Text.StartsAsWord (name ++ mark) := by
  rw [Text.StartsAsWord] at starts ⊢
  rw [String.toList_append]
  cases spelled : name.toList with
  | nil =>
    rw [spelled] at starts
    cases starts
  | cons c rest =>
    rw [spelled] at starts
    exact starts

/-- No builtin that expansion rewrites has clauses. -/
theorem dependents_of_expands {op : Builtin} (expands : op.flags.expands = true) :
    op.arity.dependents = [] := by
  rcases op.dependents_cases with none | rfl | rfl
  · exact none
  all_goals cases expands

theorem lasting_proper {admitted : String → Prop} (this : admitted "this") :
    Lasting (Info.Proper admitted) where
  stable := Info.stable_proper admitted
  called := by
    intro info below m callee loc proper invokes calls
    have carries := proper.carries
    rw [invokes] at carries
    exact .external loc (carries callee calls)
  this loc := .external loc this
  call _ _ := Info.proper_new (Symbol.carries_builtin _) (.inl rfl) (by rintro _ ⟨⟩)
  member _ _ _ := Info.proper_new (Symbol.carries_builtin _)
    (.inr ⟨_, [], (append_nil _).symm, Nat.le_refl 2, nil_sublist _⟩) (by rintro _ ⟨⟩)
  spread := by
    intro info below proper isTuple
    exact { proper with arranges := Symbol.arranges_nil _ }
  fewer := by
    intro info below after proper isMacro fewer
    refine { proper with arranges := ?_ }
    have arranges := proper.arranges
    cases known : info.symbol with
    | builtin op =>
      rw [known] at arranges isMacro
      exact arranges.fewer (dependents_of_expands isMacro) fewer
    | expander m => trivial
    | _ =>
      rw [known] at isMacro
      cases isMacro
  origin _ proper := { proper with }
  renamed := by
    intro info below kind name count proper isTag isVirtual named
    have carries := proper.carries
    have arranges := proper.arranges
    rw [isTag] at carries arranges
    obtain ⟨spelled, isName, starts⟩ := Symbol.exists_name_of_carries carries
    rw [Info.name?, isName] at named
    cases named
    have word : Text.StartsAsWord name := starts.resolve_right fun external => by
      rw [external.1] at isVirtual
      cases isVirtual
    have mark := startsAsWord_mark word ("$" ++ toString count)
    rw [← String.append_assoc] at mark
    refine { proper with carries := .inl mark, arranges, spelled := fun other same => .inl ?_ }
    cases same
    exact mark.unmarked

end Expand

end Offside
