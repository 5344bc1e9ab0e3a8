import Offside.Proofs.Combination.Rules
import Offside.Proofs.Contents.Laws
import Offside.Proofs.Contents.Nesting

/-!
# Contents of expressions

A node of an expression carries what its symbol asks for: a tag has a name, which starts like a
word unless it comes from outside, a literal has a value that is no name, and the only blocks are
those with lines. A builtin has at most as many operands as its arity allows, and its clauses
behind them.
-/

namespace Offside

open List

def Text.StartsAsWord (name : String) : Prop :=
  name.toList.head?.any isWordStart = true

/-- A name that does not start with a dollar sign. -/
def Text.Unmarked (name : String) : Prop :=
  name.toList.head? ≠ some '$'

theorem Text.StartsAsWord.unmarked {name : String} (starts : StartsAsWord name) :
    Unmarked name := by
  intro marked
  rw [StartsAsWord, marked] at starts
  revert starts
  decide +kernel

/-- A name that is admitted or does not start with a dollar sign. -/
def Text.Usable (admitted : String → Prop) (name : String) : Prop :=
  Unmarked name ∨ admitted name

theorem Text.unmarked_of_not_mem {name : String} (absent : '$' ∉ name.toList) : Unmarked name :=
  fun marked => absent (mem_of_head? marked)

/-- The macro calls no function from outside but those with admitted names. -/
def Macro.CallsAdmitted (admitted : String → Prop) (m : Macro) : Prop :=
  ∀ callee, m.body = .call callee → admitted callee

namespace Symbol

/--
The values that a node with a symbol can carry in an expression, if the functions that macros
call have admitted names.
-/
def Carries (admitted : String → Prop) : Symbol → Option Value → Prop
  | .block kind, none => kind.opensScope = true
  | .value, some literal => literal.name? = none
  | .tag kind, some (.name name) => Text.StartsAsWord name ∨ kind = .external ∧ admitted name
  | .builtin op, carried => op = .tuple → carried.bind Value.name? = none
  | .expander m, _ => m.CallsAdmitted admitted
  | _, _ => False

def Operates (admitted : String → Prop) : Symbol → Prop
  | .builtin op => op ≠ .tuple
  | .expander m => m.CallsAdmitted admitted
  | _ => False

variable {admitted : String → Prop} {symbol : Symbol} {value : Option Value} {kind : TagKind}

theorem Operates.carries (operates : symbol.Operates admitted) : symbol.Carries admitted value := by
  cases symbol with
  | builtin op => exact fun isTuple => absurd isTuple operates
  | expander m => exact operates
  | _ => cases operates

theorem carries_builtin (op : Builtin) : (Symbol.builtin op).Carries admitted none :=
  fun _ => rfl

theorem exists_name_of_carries (carries : (Symbol.tag kind).Carries admitted value) :
    ∃ name, value = some (.name name) ∧
      (Text.StartsAsWord name ∨ kind = .external ∧ admitted name) := by
  match value, carries with
  | some (.name name), proper => exact ⟨name, rfl, proper⟩

/-- A tag of another kind carries the same name. -/
theorem Carries.retag {other : TagKind} (carries : (Symbol.tag kind).Carries admitted value)
    (same : kind = .external → other = .external) :
    (Symbol.tag other).Carries admitted value := by
  obtain ⟨name, rfl, proper⟩ := exists_name_of_carries carries
  exact proper.imp_right fun outside => ⟨same outside.1, outside.2⟩

end Symbol

/-! ## Operands and clauses -/

/-- Builtins whose operands stand in brackets, however many there are. -/
def Builtin.isOpenEnded (op : Builtin) : Bool :=
  op.arity.sequence || op = .element

theorem Builtin.dependents_cases (op : Builtin) :
    op.arity.dependents = [] ∨ op = .ifThen ∨ op = .tryBlock := by
  cases op <;> decide

namespace Symbol

variable {op clause : Builtin}

/-- The symbols that can stand below a node with a symbol in an expression. -/
def Arranges : Symbol → List Symbol → Prop
  | .builtin op, below => op.isOpenEnded = true ∨
      ∃ operands clauses, below = operands ++ clauses ∧
        operands.length ≤ op.arity.maxOperands ∧
        clauses.Sublist (op.arity.dependents.map Symbol.builtin)
  | .tag _, below | .value, below => below = []
  | _, _ => True

variable {symbol : Symbol} {below after : List Symbol}

theorem arranges_nil (symbol : Symbol) : symbol.Arranges [] := by
  cases symbol with
  | builtin op => exact .inr ⟨[], [], rfl, Nat.zero_le _, nil_sublist _⟩
  | _ => trivial

theorem arranges_of_length {admitted : String → Prop} (operates : symbol.Operates admitted)
    (few : below.length ≤ symbol.arity.maxOperands) : symbol.Arranges below := by
  cases symbol with
  | builtin op => exact .inr ⟨below, [], (append_nil _).symm, few, nil_sublist _⟩
  | expander m => trivial
  | _ => cases operates

theorem isClause_of_dependent (member : clause ∈ op.arity.dependents) :
    (Symbol.builtin clause).isClause = true := by
  rcases op.dependents_cases with none | rfl | rfl
  · rw [none] at member
    cases member
  · simp only [Builtin.arity, Arity.withDependents, mem_singleton] at member
    subst member
    rfl
  · simp only [Builtin.arity, Arity.withDependents, mem_cons, not_mem_nil,
      or_false] at member
    rcases member with rfl | rfl <;> rfl

/-- Children that are no clauses may be replaced or dropped. -/
theorem Arranges.passes (arranges : symbol.Arranges below) (passes : Passes below after) :
    symbol.Arranges after := by
  cases symbol with
  | builtin op =>
    rcases arranges with openEnded | ⟨operands, clauses, rfl, few, listed⟩
    · exact .inl openEnded
    · obtain ⟨others, rfl, fewer⟩ := passes.exists_of_append fun clause member => by
        obtain ⟨known, isDependent, rfl⟩ := mem_map.mp (listed.subset member)
        exact isClause_of_dependent isDependent
      exact .inr ⟨others, clauses, rfl, Nat.le_trans fewer few, listed⟩
  | tag kind | value =>
    cases arranges
    cases passes
    rfl
  | _ => trivial

/-- A builtin without clauses can have fewer children. -/
theorem Arranges.fewer (arranges : (Symbol.builtin op).Arranges below)
    (noClauses : op.arity.dependents = []) (fewer : after.length ≤ below.length) :
    (Symbol.builtin op).Arranges after := by
  rcases arranges with openEnded | ⟨operands, clauses, rfl, few, listed⟩
  · exact .inl openEnded
  · rw [noClauses] at listed
    cases listed
    rw [append_nil] at fewer
    exact .inr ⟨after, [], (append_nil _).symm, Nat.le_trans fewer few, nil_sublist _⟩

/-- A builtin without clauses has no more children than operands. -/
theorem Arranges.length_le (arranges : symbol.Arranges below) (isOp : symbol = .builtin op)
    (limited : op.isOpenEnded = false) (noClauses : op.arity.dependents = []) :
    below.length ≤ op.arity.maxOperands := by
  subst isOp
  rcases arranges with openEnded | ⟨operands, clauses, rfl, few, listed⟩
  · rw [limited] at openEnded
    cases openEnded
  · rw [noClauses] at listed
    cases listed
    rwa [append_nil]

/--
What is missing from some listed symbols can be put behind them if nothing listed later is there.
-/
theorem sublist_append_of_absent (earlier : List Symbol) {later listed : List Symbol}
    {next : Symbol}
    (known : listed.Sublist (earlier ++ next :: later))
    (absent : ∀ other ∈ next :: later, other ∉ listed) :
    (listed ++ [next]).Sublist (earlier ++ next :: later) := by
  obtain ⟨front, back, rfl, inFront, inBack⟩ := sublist_append_iff.mp known
  have isNil : back = [] := by
    refine eq_nil_iff_forall_not_mem.mpr fun other member => ?_
    exact absent other (inBack.subset member) (mem_append_right front member)
  subst isNil
  rw [append_nil]
  exact inFront.append (cons_sublist_cons.mpr (nil_sublist later))

/-- Of the clauses of a builtin, one that is taken comes behind those that are there. -/
theorem sublist_append_clause {children : List Tree} {clauses : List Symbol}
    (listed : clauses.Sublist (op.arity.dependents.map builtin))
    (present : ∀ other, builtin other ∈ clauses → other ∈ children.filterMap Tree.builtin?)
    (taken : Clause.isTaken (.builtin op) children clause = true) :
    List.Sublist (clauses ++ [builtin clause]) (op.arity.dependents.map builtin) := by
  rw [Clause.isTaken, Symbol.builtin?] at taken
  simp only [Bool.and_eq_true, decide_eq_true_eq] at taken
  obtain ⟨member, free⟩ := taken
  rcases op.dependents_cases with none | rfl | rfl
  · rw [none] at member
    cases member
  · have isElse : clause = .elseClause := mem_singleton.mp member
    subst isElse
    refine sublist_append_of_absent [] listed fun other known inside => ?_
    cases mem_singleton.mp known
    simp [Builtin.arity, Arity.withDependents, present _ inside] at free
  · have isClause : clause = .catchClause ∨ clause = .finallyClause := by
      simpa [Builtin.arity, Arity.withDependents] using member
    rcases isClause with rfl | rfl
    · refine sublist_append_of_absent [] listed fun other known inside => ?_
      have none := isEmpty_iff.mp free
      rcases mem_cons.mp known with rfl | known
      · exact filter_eq_nil_iff.mp none _ (present _ inside) rfl
      · cases mem_singleton.mp known
        exact filter_eq_nil_iff.mp none _ (present _ inside) rfl
    · refine sublist_append_of_absent [builtin .catchClause] listed
        fun other known inside => ?_
      cases mem_singleton.mp known
      simp [Builtin.arity, Arity.withDependents, present _ inside] at free

/-- A clause that is taken comes behind those that are there. -/
theorem Arranges.append_clause {children : List Tree}
    (arranges : symbol.Arranges (children.map Tree.symbol))
    (taken : Clause.isTaken symbol children clause = true) :
    symbol.Arranges (children.map Tree.symbol ++ [.builtin clause]) := by
  cases symbol with
  | builtin op =>
    rcases arranges with openEnded | ⟨operands, clauses, parts, few, listed⟩
    · exact .inl openEnded
    · have present (other : Builtin) (member : Symbol.builtin other ∈ clauses) :
          other ∈ children.filterMap Tree.builtin? := by
        have inside : Symbol.builtin other ∈ children.map Tree.symbol :=
          parts ▸ mem_append_right operands member
        obtain ⟨child, known, same⟩ := mem_map.mp inside
        exact mem_filterMap.mpr ⟨child, known, congrArg Symbol.builtin? same⟩
      refine .inr ⟨operands, clauses ++ [.builtin clause], ?_, few, ?_⟩
      · rw [parts, append_assoc]
      · exact sublist_append_clause listed present taken
  | _ => cases taken

end Symbol

/-! ## Expressions -/

/-- Contents that binding has not looked at, with a name that can be used, or none. -/
structure Info.Spelled (admitted : String → Prop) (info : Info) : Prop extends info.Unbound where
  spelled : ∀ name, info.name? = some name → Text.Usable admitted name

/-- The law of expressions that binding has not looked at. -/
structure Info.Proper (admitted : String → Prop) (info : Info) (below : List Symbol) : Prop
    extends info.Spelled admitted where
  carries : info.symbol.Carries admitted info.value
  arranges : info.symbol.Arranges below

/-- The law of expressions that does not look at what binding and checking write. -/
structure Info.Formed (admitted : String → Prop) (info : Info) (below : List Symbol) : Prop where
  spelled : ∀ name, info.name? = some name → Text.Usable admitted name
  carries : info.symbol.Carries admitted info.value
  arranges : info.symbol.Arranges below

variable {admitted : String → Prop}

theorem Info.Proper.formed {info : Info} {below : List Symbol}
    (proper : info.Proper admitted below) :
    info.Formed admitted below :=
  ⟨proper.spelled, proper.carries, proper.arranges⟩

section Formed

variable {info : Info} {below : List Symbol} {kind : TagKind} {name : String}

/-- A tag of an expression has a name. -/
theorem Info.Formed.exists_name (formed : info.Formed admitted below)
    (isTag : info.symbol = .tag kind) :
    ∃ name, info.name? = some name := by
  have carries := formed.carries
  rw [isTag] at carries
  obtain ⟨name, value, _⟩ := Symbol.exists_name_of_carries carries
  exact ⟨name, by rw [Info.name?, value]; rfl⟩

/-- A name that is declared does not start with a dollar sign. -/
theorem Info.Formed.unmarked (formed : info.Formed admitted below) (isTag : info.symbol = .tag kind)
    (declares : kind.isDeclaration = true) (named : info.name? = some name) :
    Text.Unmarked name := by
  have carries := formed.carries
  rw [isTag] at carries
  obtain ⟨other, value, starts | ⟨isExternal, _⟩⟩ := Symbol.exists_name_of_carries carries
  · rw [Info.name?, value] at named
    cases named
    exact starts.unmarked
  · rw [isExternal] at declares
    cases declares

theorem Info.Formed.isLeaf {children : List Tree}
    (formed : info.Formed admitted (children.map Tree.symbol)) (isTag : info.symbol = .tag kind) :
    children = [] := by
  have arranges := formed.arranges
  rw [isTag] at arranges
  exact map_eq_nil_iff.mp arranges

end Formed

theorem Info.proper_new {symbol : Symbol} {value : Option Value} {loc : Loc}
    {below : List Symbol} (carries : symbol.Carries admitted value)
    (arranges : symbol.Arranges below)
    (spelled : ∀ name, value.bind Value.name? = some name → Text.Usable admitted name) :
    (Info.new symbol value loc).Proper admitted below :=
  ⟨⟨unbound_new symbol value loc, spelled⟩, carries, arranges⟩

/-- A new name from outside. -/
theorem Info.Proper.external (loc : Loc) {name : String} (isAdmitted : admitted name) :
    (Info.new (.tag .external) (some (.name name)) loc).Proper admitted [] := by
  refine proper_new (.inr ⟨rfl, isAdmitted⟩) rfl fun other same => ?_
  cases same
  exact .inr isAdmitted

theorem Info.stable_proper (admitted : String → Prop) : Law.Stable (Info.Proper admitted) :=
  fun _ _ _ proper passes => { proper with arranges := proper.arranges.passes passes }

namespace Tree

abbrev IsProper (admitted : String → Prop) : Tree → Prop :=
  Obeys (Info.Proper admitted)

/-- All nodes of some trees are those of expressions. -/
abbrev AllProper (admitted : String → Prop) : List Tree → Prop :=
  ObeyAll (Info.Proper admitted)

variable {t : Tree} {ts : List Tree}

theorem Obeys.unbound (proper : t.IsProper admitted) : t.Everywhere Info.Unbound :=
  obeys_contents.mp (proper.mono fun _ _ here => here.toUnbound)

end Tree

end Offside
