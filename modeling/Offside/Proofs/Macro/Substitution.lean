import Mathlib.Data.List.Forall2
import Offside.Proofs.Contents.Compilation
import Offside.Proofs.Lowering.Names
import Offside.Proofs.Ownership.Expansion

/-!
# Expansion by substitution

A template is expanded by substitution: the result is the template as it was written, with a copy
of its argument in the place of each `#unquote`. The holes of a template come between the two. Each
has a number of its own, so that the table of the holes knows for each what was written there.
-/

namespace Offside

namespace Tree

/-- No node of a tree could be taken for a hole: all holes are made of `#unquote`. -/
def Unpunched (t : Tree) : Prop :=
  t.Everywhere (·.symbol ≠ .nothing)

/-- No expression that combination makes has a hole in it. -/
theorem Obeys.unpunched {admitted : String → Prop} {t : Tree} (proper : t.IsProper admitted) :
    t.Unpunched := by
  refine obeys_contents.mp (proper.mono fun info _ here isHole => ?_)
  have carries := here.carries
  rw [isHole] at carries
  cases info.value <;> cases carries

/-- The same tree with other numbers. -/
inductive Copies : Tree → Tree → Prop
  | node {id new : NodeId} {info : Info} {children copies : List Tree}
      (below : List.Forall₂ Copies children copies) :
      Copies (.node id info children) (.node new info copies)

mutual

theorem yields_copies (t : Tree) : Yields t.copy (Copies t) := by
  cases t with
  | node id info children =>
    rw [copy]
    refine .after fun _ => .bind (yields_copiesAll children) fun copies below => ?_
    exact .pure (.node below)

theorem yields_copiesAll (ts : List Tree) : Yields (copyAll ts) (List.Forall₂ Copies ts) := by
  cases ts with
  | nil => exact .pure .nil
  | cons t ts =>
    rw [copyAll]
    refine .bind (yields_copies t) fun first here => ?_
    exact .bind (yields_copiesAll ts) fun others there => .pure (.cons here there)

end

end Tree

namespace Template

/--
The tree with a copy of its argument in the place of each `#unquote`. All other nodes come from
the expansion.
-/
inductive Substituted (params : List String) (arguments : List Tree) (origin : Loc) :
    Tree → Tree → Prop
  | argument {id info operand rest name index argument result}
      (unquotes : info.is .unquote = true) (named : operand.name? = some name)
      (parameter : params.findIdx? (· = name) = some index)
      (given : arguments[index]? = some argument) (copies : argument.Copies result) :
      Substituted params arguments origin (.node id info (operand :: rest)) result
  | node {id new info children results} (plain : info.is .unquote = false)
      (below : List.Forall₂ (Substituted params arguments origin) children results) :
      Substituted params arguments origin (.node id info children)
        (.node new { info with origin := some origin } results)

/-- The arguments of an invocation: none, its operand, or the elements of its operand. -/
inductive Given (invocation : Tree) : Nat → List Tree → Prop
  | none (bare : invocation.children = []) : Given invocation 0 []
  | one {argument rest} (operands : invocation.children = argument :: rest) :
      Given invocation 1 [argument]
  | several {operand rest count} (operands : invocation.children = operand :: rest)
      (isTuple : operand.is .tuple = true) (length : operand.children.length = count + 2) :
      Given invocation (count + 2) operand.children

/-! ## Holes -/

/-- A table whose holes are numbered from zero on. -/
def Counted (holes : Table Nat) : Prop :=
  ∀ number, holes.size ≤ number → holes.get? (holeName number) = none

/-- A table with all holes of another one. -/
def Extends (holes after : Table Nat) : Prop :=
  ∀ name index, holes.get? name = some index → after.get? name = some index

variable {params : List String} {holes middle after final : Table Nat} {index : Nat}

theorem Extends.trans (first : Extends holes middle) (second : Extends middle after) :
    Extends holes after :=
  fun name index known => second name index (first name index known)

theorem size_put {entries : List (String × Nat)} {name : String} {value : Nat}
    (absent : Table.find entries name = none) :
    (Table.put entries name value).length = entries.length + 1 := by
  induction entries with
  | nil => rfl
  | cons entry rest ih =>
    obtain ⟨key, old⟩ := entry
    rw [Table.find] at absent
    split at absent
    · cases absent
    case isFalse other =>
      rw [Table.put, if_neg other, List.length_cons, ih absent, List.length_cons]

/-- The next hole is a new one. -/
theorem Counted.insert (counted : Counted holes) (index : Nat) :
    Counted (holes.insert (holeName holes.size) index) ∧
      Extends holes (holes.insert (holeName holes.size) index) := by
  have absent := counted holes.size le_rfl
  refine ⟨fun number behind => ?_, fun name old known => ?_⟩
  · have size : (holes.insert (holeName holes.size) index).size = holes.size + 1 :=
      size_put absent
    rw [size] at behind
    rw [Table.get?_insert, if_neg fun same => ?_]
    · exact counted number (Nat.le_of_succ_le behind)
    · exact (Nat.ne_of_lt behind) (Lowering.number_inj same)
  · rw [Table.get?_insert, if_neg fun same => ?_]
    · exact known
    · rw [same, known] at absent
      cases absent

mutual

theorem substituted_fill {arguments : List Tree} (enough : arguments.length = params.length)
    (origin : Loc) {t punched : Tree} {holes after : Table Nat} (counted : Counted holes)
    (clean : t.Everywhere (·.symbol ≠ .nothing))
    (made : punch params t holes = .ok (punched, after)) :
    Counted after ∧ Extends holes after ∧ ∀ final, Extends after final →
      Yields (fill final arguments origin punched) (Substituted params arguments origin t) := by
  cases t with
  | node id info children =>
    rw [Tree.everywhere_node] at clean
    rcases punch_ok made with
      ⟨name, index, parts, unquotes, found, rfl, inner, rfl⟩ | ⟨parts, plain, inner, rfl⟩
    · obtain ⟨inserted, more⟩ := counted.insert index
      obtain ⟨counted, grows, -⟩ := substituted_fillAll enough origin inserted clean.2 inner
      refine ⟨counted, more.trans grows, fun final known => ?_⟩
      have isNew : final.get? (holeName holes.size) = some index := by
        refine known _ _ (grows _ _ ?_)
        rw [Table.get?_insert, if_pos rfl]
      obtain ⟨argument, given⟩ : ∃ argument, arguments[index]? = some argument :=
        ⟨_, List.getElem?_eq_getElem (enough ▸ parameter?_lt found)⟩
      obtain ⟨name, named, parameter⟩ := Option.bind_eq_some_iff.mp found
      obtain ⟨operand, first, named⟩ := Option.bind_eq_some_iff.mp named
      obtain ⟨rest, rfl⟩ := List.head?_eq_some_iff.mp first
      rw [fill]
      simp only [Info.name?, Value.name?, Option.bind_some, isNew, given]
      exact (Tree.yields_copies argument).mono fun result copies =>
        .argument unquotes named parameter given copies
    · obtain ⟨counted, grows, filled⟩ := substituted_fillAll enough origin counted clean.2 inner
      refine ⟨counted, grows, fun final known => ?_⟩
      rw [fill]
      split
      case h_1 argument isArgument =>
        split at isArgument
        case h_1 nothing => exact absurd nothing clean.1
        case h_2 => cases isArgument
      case h_2 =>
        refine .after fun _ => .bind (filled final known) fun results below => ?_
        exact .pure (.node plain below)

theorem substituted_fillAll {arguments : List Tree} (enough : arguments.length = params.length)
    (origin : Loc) {ts punched : List Tree} {holes after : Table Nat} (counted : Counted holes)
    (clean : Tree.EverywhereAll (·.symbol ≠ .nothing) ts)
    (made : punchAll params ts holes = .ok (punched, after)) :
    Counted after ∧ Extends holes after ∧ ∀ final, Extends after final →
      Yields (fillAll final arguments origin punched)
        (List.Forall₂ (Substituted params arguments origin) ts) := by
  cases ts with
  | nil =>
    cases made
    exact ⟨counted, fun _ _ known => known, fun _ _ => .pure .nil⟩
  | cons t ts =>
    rw [Tree.everywhereAll_cons] at clean
    obtain ⟨first, others, middle, here, there, rfl⟩ := punchAll_cons_ok made
    obtain ⟨counted, grows, filled⟩ := substituted_fill enough origin counted clean.1 here
    obtain ⟨counted, more, others⟩ := substituted_fillAll enough origin counted clean.2 there
    refine ⟨counted, grows.trans more, fun final known => ?_⟩
    rw [fillAll]
    refine .bind (filled final (more.trans known)) fun result first => ?_
    exact .bind (others final known) fun results rest => .pure (.cons first rest)

end

/-! ## Arguments -/

variable {template : Template} {invocation : Tree} {arguments : List Tree}

theorem arguments_of_given (given : Given invocation template.params.length arguments) :
    template.arguments invocation = .ok arguments := by
  unfold Template.arguments
  dsimp only
  generalize template.params.length = expected at given
  cases given with
  | none bare | one bare => simp [bare]
  | several operands isTuple length => simp [operands, isTuple, length]

theorem expand_of_given (given : Given invocation template.params.length arguments)
    (n : Numbering) :
    template.expand invocation n =
      let filled := fill template.holes arguments invocation.info.expansionSite template.body n
      (.replace invocation filled.1, filled.2) := by
  rw [expand, arguments_of_given given]
  rfl

theorem Given.length_eq {count : Nat} (given : Given invocation count arguments) :
    arguments.length = count := by
  cases given with
  | none | one => rfl
  | several operands isTuple length => exact length

/-- An invocation that does not have its arguments has another number of them. -/
theorem arguments_of_not_given
    (none : ∀ arguments, ¬ Given invocation template.params.length arguments) :
    ∃ found, found ≠ template.params.length ∧ template.arguments invocation =
      .error (.argumentCount template.name template.params.length found) := by
  unfold Template.arguments
  dsimp only
  generalize template.params.length = expected at none
  cases operands : invocation.children with
  | nil =>
    cases expected with
    | zero => exact absurd (.none operands) (none _)
    | succ count => exact ⟨0, count.succ_ne_zero.symm, by simp⟩
  | cons operand rest =>
    rcases expected with _ | _ | count
    · exact ⟨1, Nat.one_ne_zero, rfl⟩
    · exact absurd (.one operands) (none _)
    · by_cases isTuple : operand.is .tuple = true
      · have other : operand.children.length ≠ count + 2 :=
          fun length => none _ (.several operands isTuple length)
        exact ⟨_, other, by simp [isTuple, other]⟩
      · exact ⟨1, by omega, by simp [isTuple]⟩

/-- The template in a body is a part of it. -/
theorem everywhere_unwrap {P : Info → Prop} {body template : Tree} {remains : Option Tree}
    (holds : body.Everywhere P) (unwrapped : unwrap body = .ok (remains, template)) :
    template.Everywhere P := by
  have line {t : Tree} (holds : t.Everywhere P) : (unwrapLine t).2.Everywhere P := by
    rcases unwrapLine_cases t with ⟨line, -, parts, same⟩ | same
    · rw [Tree.everywhere_iff, parts, Tree.everywhereAll_cons] at holds
      rw [same]
      exact holds.2.1
    · rw [same]
      exact holds
  rcases unwrap_ok unwrapped with ⟨quoted, rest, -, parts, -, rfl⟩ | same
  · rw [Tree.everywhere_iff, parts, Tree.everywhereAll_cons] at holds
    exact line holds.2.1
  · rw [show template = (unwrapLine body).2 from congrArg Prod.snd same]
    exact line holds

/--
What a template does: an invocation with its arguments is replaced by the template with the
arguments, all of whose nodes are new; any other invocation is refused.
-/
def Substitutes (definition : Tree) (template : Template) : Prop :=
  ∃ nameNode paramsNode quoted rest body,
    definition.children = [nameNode, paramsNode, quoted] ∧
    nameOf nameNode = .ok template.name ∧ paramsOf paramsNode = .ok template.params ∧
    unwrap quoted = .ok (rest, body) ∧ ∀ invocation n,
      (∀ arguments, Given invocation template.params.length arguments →
        ∃ result n', template.expand invocation n = (.replace invocation result, n') ∧
          Substituted template.params arguments invocation.info.expansionSite body result ∧
          ∀ held, n.Owns held → n'.Owns (result.numbers + held)) ∧
      ((∀ arguments, ¬ Given invocation template.params.length arguments) →
        ∃ found, found ≠ template.params.length ∧ template.expand invocation n =
          (.fail (.argumentCount template.name template.params.length found), n))

theorem substitutes_of_define {definition remains : Tree} {template : Template}
    (defined : define definition = (remains, .ok template))
    (clean : definition.Unpunched) : template.Substitutes definition := by
  rcases define_cases definition with ⟨d, failed⟩ |
    ⟨nameNode, paramsNode, quoted, body, rest, name, params, parts, named, listed, unwrapped, made⟩
  · rw [failed] at defined
    cases defined
  rw [made] at defined
  have inside : body.Unpunched := by
    rw [Tree.Unpunched, Tree.everywhere_iff, parts] at clean
    simp only [Tree.everywhereAll_cons] at clean
    exact everywhere_unwrap clean.2.2.2.1 unwrapped
  cases holed : punch params body .empty with
  | error d =>
    rw [holed] at defined
    cases defined
  | ok result =>
    rw [holed] at defined
    obtain ⟨punched, holes⟩ := result
    cases defined
    refine ⟨nameNode, paramsNode, quoted, rest, body, parts, named, listed, unwrapped, ?_⟩
    intro invocation n
    refine ⟨fun arguments given => ?_, fun none => ?_⟩
    · have enough : arguments.length = params.length := given.length_eq
      have counted : Counted .empty := fun _ _ => rfl
      obtain ⟨-, -, filled⟩ :=
        substituted_fill enough invocation.info.expansionSite counted inside holed
      refine ⟨_, _, expand_of_given given n, filled holes (fun _ _ known => known) n,
        fun held owns => ?_⟩
      have kept := keeps_fill holes arguments invocation.info.expansionSite punched n held
        (owns.mono (le_of_eq (by simp [Supply.ledger])))
      exact kept.mono (le_of_eq (by simp [Supply.ledger]))
    · obtain ⟨found, other, failed⟩ := arguments_of_not_given none
      refine ⟨found, other, ?_⟩
      rw [expand, failed]
      rfl

/--
A template that is made of a definition without holes expands by substitution; and every template
of a source is made of such a definition.
-/
theorem expand_substitutes :
    (∀ definition remains template, define definition = (remains, .ok template) →
      definition.Unpunched → template.Substitutes definition) ∧
    ∀ (settings : Scan.Settings) (text : List Char) (env : Environment) (prelude : Bool),
      ∀ template ∈ ((SourceUnit.read settings text).combine env prelude).templates,
        ∃ definition remains, define definition = (remains, .ok template) ∧
          definition.Unpunched ∧ template.Substitutes definition := by
  refine ⟨fun _ _ _ => substitutes_of_define, fun settings text env prelude template member => ?_⟩
  have calls : env.CallsAdmitted fun _ => True := fun _ _ _ _ => trivial
  obtain ⟨definition, remains, defined, proper⟩ :=
    ((SourceUnit.orderly_combine settings text calls prelude).2 template member).defined
  exact ⟨definition, remains, defined, proper.unpunched,
    substitutes_of_define defined proper.unpunched⟩

def named (name : String) : Tree :=
  .node 1 (.new (.tag .use) (some (.name name)) default) []

def pair (first second : Tree) : Tree :=
  .node 2 (.new (.builtin .tuple) none default) [first, second]

def unquoting (name : String) : Tree :=
  .node 3 (.new (.builtin .unquote) none default) [named name]

/-- The definition `#macro swap (a, b) (#unquote b, #unquote a)`. -/
def swapping : Tree :=
  .node 4 (.new (.builtin .defMacro) none default)
    [named "swap", pair (named "a") (named "b"), pair (unquoting "b") (unquoting "a")]

def swappingUnit : SourceUnit :=
  (SourceUnit.read ⟨0, none⟩ "#macro swap (a, b) (#unquote b, #unquote a)".toList).combine
    .standard true

/-- Two arguments change places, and a single one is refused. -/
theorem expand_substitutes_swapping :
    (∃ template ∈ swappingUnit.templates, template.name = "swap" ∧
      ∃ definition, template.Substitutes definition) ∧
    ∃ remains template, define swapping = (remains, .ok template) ∧ swapping.Unpunched ∧
      (∃ result n', template.expand (.node 5 default [pair (named "x") (named "y")]) (.startAt 6) =
          (.replace (.node 5 default [pair (named "x") (named "y")]) result, n') ∧
        Substituted ["a", "b"] [named "x", named "y"] default
          (pair (unquoting "b") (unquoting "a")) result) ∧
      ∃ found ≠ 2, template.expand (.node 5 default [named "x"]) (.startAt 6) =
        (.fail (.argumentCount "swap" 2 found), .startAt 6) := by
  constructor
  · have found : ∃ template ∈ swappingUnit.templates, template.name = "swap" := by decide +kernel
    obtain ⟨template, member, isNamed⟩ := found
    obtain ⟨definition, -, -, -, substitutes⟩ := expand_substitutes.2 _ _ _ _ template member
    exact ⟨template, member, isNamed, definition, substitutes⟩
  have clean : swapping.Unpunched := by
    simp [Tree.Unpunched, swapping, unquoting, pair, named, Info.new, Tree.everywhere_node]
  refine ⟨_, _, rfl, clean, ?_⟩
  obtain ⟨_, _, _, _, body, parts, -, -, unwrapped, all⟩ := expand_substitutes.1 _ _ _ rfl clean
  cases parts
  cases unwrapped
  constructor
  · obtain ⟨result, n', expanded, substituted, -⟩ :=
      (all (.node 5 default [pair (named "x") (named "y")]) (.startAt 6)).1 _
        (.several rfl rfl rfl)
    exact ⟨result, n', expanded, substituted⟩
  · refine (all (.node 5 default [named "x"]) (.startAt 6)).2 fun arguments given => ?_
    cases given with
    | several operands isTuple length =>
      cases operands
      cases isTuple

end Template

end Offside
