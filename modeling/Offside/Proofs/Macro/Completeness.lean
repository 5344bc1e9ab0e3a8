import Offside.Proofs.Contents.Compilation
import Offside.Proofs.Macro.Runs
import Offside.Proofs.Ownership.Compilation

/-!
# Complete expansion

Expansion that reports nothing leaves no invocation behind. A macro gives up in silence only if it
has neither a template nor a function to call; combination makes no such macro.
-/

namespace Offside

open List

/-- A macro that calls a function from outside, or has one of the first `count` templates. -/
def Macro.Runnable (count : Nat) (m : Macro) : Prop :=
  (∃ callee, m.body = .call callee) ∨ ∃ index < count, m.body = .template index

def Symbol.Runnable (count : Nat) (symbol : Symbol) : Prop :=
  ∀ m, symbol = .expander m → m.Runnable count

/-! ## Combination -/

theorem Table.mem_put {α : Type} {entries : List (String × α)} {name : String} {value : α}
    {entry : String × α} (member : entry ∈ put entries name value) :
    entry.2 = value ∨ entry ∈ entries := by
  induction entries with
  | nil =>
    cases mem_singleton.mp member
    exact .inl rfl
  | cons first rest ih =>
    rw [put] at member
    split at member
    · rcases mem_cons.mp member with rfl | later
      · exact .inl rfl
      · exact .inr (.tail _ later)
    · rcases mem_cons.mp member with rfl | later
      · exact .inr mem_cons_self
      · exact (ih later).imp_right (mem_cons_of_mem _)

theorem Environment.CallsOnly.runnable {env : Environment} (calls : env.CallsOnly) (count : Nat) :
    ∀ entry ∈ env.provided.entries, entry.2.Runnable count := by
  induction calls with
  | standard => exact nofun
  | withMacro _ name arity callee ih =>
    intro entry member
    rcases Table.mem_put member with same | earlier
    · rw [same]
      exact .inl ⟨callee, rfl⟩
    · exact ih entry earlier
  | withGlobal _ _ ih => exact ih

/-- A law that only asks whether the macros in a tree can be run. -/
abbrev Expand.Running (count : Nat) : Law :=
  fun info _ => info.symbol.Runnable count

/-- In a combined unit every macro can be run, also those inside of templates. -/
theorem SourceUnit.running_combine (settings : Scan.Settings) (text : List Char)
    {env : Environment} (calls : env.CallsOnly) (prelude : Bool) :
    let unit := (read settings text).combine env prelude
    unit.tree.Obeys (Expand.Running unit.templates.size) ∧
      ∀ template ∈ unit.templates, template.Fits (Expand.Running unit.templates.size) := by
  intro unit
  obtain ⟨orderly, templates⟩ : _ ∧ ∀ template ∈ unit.templates, _ :=
    orderly_combine settings text (fun _ _ _ _ => trivial : env.CallsAdmitted fun _ => True) prelude
  have runnable {m : Macro}
    (allowed : (demands (fun _ => True) env (read settings text) unit).Allows m) :
      m.Runnable unit.templates.size := by
    rcases allowed with ⟨entry, provided, rfl⟩ | isTemplate
    · exact calls.runnable _ entry provided
    · exact .inr isTemplate
  refine ⟨orderly.obeys fun _ here m isMacro => runnable (here.allowed m isMacro),
    fun template member => ⟨?_, (templates template member).bounded⟩⟩
  exact (templates template member).admissible.obeys fun _ here =>
    .inl fun m isMacro => runnable (here m isMacro)

/-! ## Expansion -/

theorem Tree.Obeys.of_subtree {law : Law} {t : Tree} (obeys : t.Obeys law) {path : List Nat}
    {u : Tree} (found : t.subtree? path = some u) : u.Obeys law := by
  induction path generalizing t with
  | nil =>
    cases found
    exact obeys
  | cons index path ih =>
    obtain ⟨c, child, inside⟩ := subtree?_cons.mp found
    exact ih (obeyAll_iff.mp obeys.children c (mem_of_getElem? child)) inside

/-- A node that is no invocation, or an `@` without an operand. -/
def Info.Expanded (info : Info) (below : List Symbol) : Prop :=
  info.symbol.isMacro = true → info.symbol = .builtin .atSign ∧ below = []

theorem Info.runnable_of_expanded {info : Info} {below : List Symbol} {count : Nat}
    (expanded : info.Expanded below) : info.symbol.Runnable count := by
  intro m known
  have isMacro : info.symbol.isMacro = true := by
    rw [known]
    rfl
  rw [(expanded isMacro).1] at known
  cases known

theorem Info.not_quoting_of_expanded {info : Info} {below : List Symbol}
    (expanded : info.Expanded below) : info.symbol.flags.quoting = false := by
  cases isMacro : info.symbol.isMacro with
  | true =>
    rw [(expanded isMacro).1]
    rfl
  | false => exact Symbol.not_quoting_of_plain isMacro

namespace Expand

variable {t : Tree} {s s₁ : Expanding}

variable {settings : ExpansionSettings} {count : Nat}

theorem lasting_runnable (count : Nat) : Lasting fun info _ => info.symbol.Runnable count where
  stable _ _ _ runnable _ := runnable
  called _ _ _ _ := nofun
  this _ := nofun
  call _ _ := nofun
  member _ _ _ := nofun
  spread runnable _ := runnable
  fewer runnable _ _ := runnable
  origin _ runnable := runnable
  renamed _ _ _ _ _ := nofun

/-- What a macro that can be run makes of an invocation: it fails, or it replaces it. -/
theorem replaces_or_fails_invoke {m : Macro} (runnable : m.Runnable settings.templates.size)
    (invocation : Tree) :
    Yields (invoke settings m invocation) fun outcome =>
      (∃ reason, outcome = .fail reason) ∨ ∃ remains result, outcome = .replace remains result := by
  rw [invoke]
  rcases runnable with ⟨callee, calls⟩ | ⟨index, known, isTemplate⟩
  · rw [calls]
    refine .after fun _ => ?_
    refine .after fun _ => ?_
    exact .pure (.inr ⟨_, _, rfl⟩)
  · rw [isTemplate]
    dsimp only
    rw [Array.getElem?_eq_getElem known]
    unfold Template.expand
    dsimp only
    split
    · exact .pure (.inl ⟨_, rfl⟩)
    · refine .after fun _ => ?_
      exact .pure (.inr ⟨_, _, rfl⟩)

theorem push_ne_self (ds : Diagnostics) (d : Diagnostic) : ds.push d ≠ ds := by
  intro same
  have size := congrArg Array.size same
  rw [Array.size_push] at size
  omega

/-- A node that stays without a report is no invocation any more. -/
theorem expanded_of_stay (runnable : t.symbol.Runnable settings.templates.size)
    (result : round settings t s = (.stay, s₁)) (silent : s₁.diagnostics = s.diagnostics) :
    t.info.Expanded (t.children.map Tree.symbol) := by
  intro isMacro
  cases rounded_of_round result with
  | plain plain => cases plain.symm.trans isMacro
  | misplaced | failed => exact absurd silent (push_ne_self _ _)
  | unchanged attempts ran =>
    cases attempts with
    | @invocation m invokes =>
      have either := (replaces_or_fails_invoke (runnable m invokes) t).of_run ran
      rcases either with ⟨reason, fails⟩ | ⟨remains, new, replaces⟩
      · cases fails
      · cases replaces
    | member isAt =>
      refine ⟨isAt, ?_⟩
      rw [memberOfThis] at ran
      cases parts : t.children with
      | nil => rfl
      | cons property rest =>
        rw [parts] at ran
        cases ran

/-- If nothing is reported between two states, nothing is reported before or behind a third one. -/
theorem Follows.silent {between after : Expanding} (first : Follows s between)
    (second : Follows between after) (same : after.diagnostics = s.diagnostics) :
    between.diagnostics = s.diagnostics ∧ after.diagnostics = between.diagnostics := by
  obtain ⟨more, added⟩ := first
  obtain ⟨last, again⟩ := second
  have size := congrArg Array.size same
  rw [again, added, Array.size_append, Array.size_append] at size
  have none : more = #[] := Array.eq_empty_of_size_eq_zero (by omega)
  rw [none, Array.append_empty] at added
  exact ⟨added, same.trans added.symm⟩

theorem follows_settle {id : NodeId} {new placed : Tree}
    (settles : settle id new s = (placed, s₁)) : Follows s s₁ ∧ s₁.limited = s.limited := by
  cases settles
  exact ⟨⟨_, rfl⟩, rfl⟩

/-- The first time that the limit is reached, it is reported. -/
theorem reportLimit_not_silent (unlimited : s.limited = false) :
    (reportLimit t s).2.diagnostics ≠ s.diagnostics := by
  change (if s.limited then s else _).diagnostics ≠ _
  rw [unlimited]
  exact push_ne_self _ _

/-- The trees of a task hold only macros that can be run; the parts of a node are expanded. -/
def Task.Ready (count : Nat) : Task → Prop
  | .trees ts => Tree.ObeyAll (Running count) ts
  | .node _ t => t.Obeys (Running count) ∧
      (t.symbol.flags.quoting = false → Tree.ObeyAll Info.Expanded t.children)

/-- A node with expanded parts is ready. -/
theorem Task.ready_node {made : Nat} {parts : List Tree} (runnable : t.symbol.Runnable count)
    (expanded : Tree.ObeyAll Info.Expanded parts) :
    (Task.node made (t.withChildren parts)).Ready count := by
  obtain ⟨id, info, children⟩ := t
  refine ⟨.withChildren runnable ?_, fun _ => expanded⟩
  exact expanded.mono fun _ _ => Info.runnable_of_expanded

/-- A run that reports nothing leaves no invocations, and never comes to the limit. -/
theorem Runs.expanded {depth : Nat} {task : Task} {after : Expanding} {steps : List Step}
    {results : List Tree} (settled : Settled (Running settings.templates.size) settings)
    (run : Runs settings depth task s steps results after)
    (ready : task.Ready settings.templates.size) (unlimited : s.limited = false)
    (silent : after.diagnostics = s.diagnostics) :
    after.limited = false ∧ Tree.ObeyAll Info.Expanded results := by
  induction run with
  | nil => exact ⟨unlimited, Tree.obeyAll_nil⟩
  | quoted quoting here rest ihHere ihRest =>
    obtain ⟨before, behind⟩ := here.follows.silent rest.follows silent
    have ⟨first, others⟩ := (Tree.obeyAll_cons _ _).mp ready
    obtain ⟨between, done⟩ := ihHere ⟨first, fun entering => by cases quoting.symm.trans entering⟩
      unlimited before
    obtain ⟨last, rest⟩ := ihRest others between behind
    exact ⟨last, done.append rest⟩
  | entered entering inner here rest ihInner ihHere ihRest =>
    obtain ⟨before, behind⟩ := inner.follows.silent (here.follows.trans rest.follows) silent
    obtain ⟨middle, behind⟩ := here.follows.silent rest.follows behind
    have ⟨first, others⟩ := (Tree.obeyAll_cons _ _).mp ready
    obtain ⟨inside, parts⟩ := ihInner first.children unlimited before
    obtain ⟨between, done⟩ := ihHere (Task.ready_node first.root parts) inside middle
    obtain ⟨last, rest⟩ := ihRest others between behind
    exact ⟨last, done.append rest⟩
  | stay result =>
    refine ⟨(limited_of_round result).trans unlimited, Tree.obeyAll_singleton ?_⟩
    have root := expanded_of_stay ready.1.root result silent
    exact Tree.obeys_iff.mpr ⟨root, ready.2 (Info.not_quoting_of_expanded root)⟩
  | vanish result => exact ⟨(limited_of_round result).trans unlimited, Tree.obeyAll_nil⟩
  | stop result beyond =>
    obtain ⟨-, behind⟩ := (besides_of_round result).2.silent (besides_reportLimit _ _).2 silent
    exact absurd behind (reportLimit_not_silent ((limited_of_round result).trans unlimited))
  | again result few shallow settles quoting onward ih =>
    obtain ⟨placing, same⟩ := follows_settle settles
    have rounded := (besides_of_round result).2
    obtain ⟨before, behind⟩ := (rounded.trans placing).silent onward.follows silent
    refine ih ⟨obeys_placed (lasting_runnable _) settled ready.1 result settles,
      fun entering => ?_⟩ ?_ behind
    · cases quoting.symm.trans entering
    · rw [same, limited_of_round result, unlimited]
  | deeper result few shallow settles entering inner onward ihInner ih =>
    obtain ⟨placing, same⟩ := follows_settle settles
    have rounded := (besides_of_round result).2
    obtain ⟨before, behind⟩ :=
      (rounded.trans placing).silent (inner.follows.trans onward.follows) silent
    obtain ⟨middle, behind⟩ := inner.follows.silent onward.follows behind
    have running := obeys_placed (lasting_runnable _) settled ready.1 result settles
    obtain ⟨between, parts⟩ := ihInner running.children
      (by rw [same, limited_of_round result, unlimited]) middle
    exact ih (Task.ready_node running.root parts) between behind

end Expand

namespace SourceUnit

/-- Expansion that reports nothing leaves no invocations. -/
theorem obeys_expanded (settings : Scan.Settings) (source : List Char) {env : Environment}
    (calls : env.CallsOnly) (prelude trace : Bool) (text : Option (List Char)) :
    let unit := (read settings source).combine env prelude
    let expanded := unit.expand env trace text
    expanded.diagnostics = unit.diagnostics → expanded.tree.Obeys Info.Expanded := by
  intro unit expanded silent
  obtain ⟨steps, final, run, reports⟩ :=
    runs_expand (isMacro_combine settings source env prelude) env trace text
  obtain ⟨running, fits⟩ := running_combine settings source calls prelude
  have settled : Expand.Settled (Expand.Running unit.templates.size)
      (unit.expansionSettings env trace text) := by
    constructor
    · exact fits
    · intro routine member
      rw [expansionSettings, calls.routines_eq] at member
      exact absurd member (Array.not_mem_empty _)
  have ready : (Expand.Task.trees [unit.tree]).Ready unit.templates.size :=
    Tree.obeyAll_singleton running
  have all := (run.expanded settled ready rfl (reports.symm.trans silent)).2
  exact ((Tree.obeyAll_cons _ _).mp all).1

/--
Expansion of a combined unit comes to an end. If it reports nothing, no macro, no definition of one
and no quote is left in the tree, and each `@` in it is without an operand.
-/
theorem expanded_expand (settings : Scan.Settings) (source : List Char) {env : Environment}
    (calls : env.CallsOnly) (prelude trace : Bool) (text : Option (List Char)) :
    let unit := (read settings source).combine env prelude
    let expanded := unit.expand env trace text
    (∃ steps final, Expand.Runs (unit.expansionSettings env trace text) 0 (.trees [unit.tree])
      unit.expansionStart steps [expanded.tree] final ∧
        expanded.diagnostics = final.diagnostics) ∧
      (expanded.diagnostics = unit.diagnostics →
        ∀ path node, expanded.tree.subtree? path = some node →
          (∀ m, node.symbol ≠ .expander m) ∧ node.symbol ≠ .builtin .defMacro ∧
            node.symbol ≠ .builtin .quote ∧ node.symbol ≠ .builtin .unquote ∧
            (node.symbol = .builtin .atSign → node.children = [])) := by
  intro unit expanded
  refine ⟨runs_expand (isMacro_combine settings source env prelude) env trace text, ?_⟩
  intro silent path node found
  have law := obeys_expanded settings source calls prelude trace text silent
  have here : node.info.Expanded (node.children.map Tree.symbol) := (law.of_subtree found).root
  have stays {symbol : Symbol} (isMacro : symbol.isMacro = true) (known : node.symbol = symbol) :
      symbol = .builtin .atSign ∧ node.children = [] := by
    obtain ⟨isAt, none⟩ := here (by rw [← isMacro, ← known]; rfl)
    exact ⟨known.symm.trans isAt, map_eq_nil_iff.mp none⟩
  refine ⟨fun m known => ?_, fun known => ?_, fun known => ?_, fun known => ?_, fun known => ?_⟩
  · cases (stays rfl known).1
  · cases (stays rfl known).1
  · cases (stays rfl known).1
  · cases (stays rfl known).1
  · exact (stays rfl known).2

def nestedMacros : List Char :=
  "#macro d x [#unquote x]\n#macro e x (d #unquote x)\nprint e @a\n@".toList

theorem expanded_nestedMacros :
    let unit := (read ⟨0, none⟩ nestedMacros).combine .printing true
    let expanded := unit.expand .printing true none
    Environment.printing.CallsOnly ∧
      (expanded.diagnostics = unit.diagnostics ∧
        unit.tree.text = "(<root> (#macro d x) (#macro e x) (print (e (@ a))) @)" ∧
        expanded.tree.text = "(<root> (<call> print (<array> (. this a))) @)") ∧
      ∀ path node, expanded.tree.subtree? path = some node → ∀ m, node.symbol ≠ .expander m := by
  intro unit expanded
  have facts : expanded.diagnostics = unit.diagnostics ∧
      unit.tree.text = "(<root> (#macro d x) (#macro e x) (print (e (@ a))) @)" ∧
      expanded.tree.text = "(<root> (<call> print (<array> (. this a))) @)" := by
    decide +kernel
  have complete := (expanded_expand ⟨0, none⟩ nestedMacros Environment.callsOnly_printing true true
    none).2 facts.1
  exact ⟨Environment.callsOnly_printing, facts, fun path node found => (complete path node found).1⟩

end SourceUnit

end Offside
