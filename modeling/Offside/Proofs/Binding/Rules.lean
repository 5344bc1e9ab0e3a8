import Offside.Proofs.Binding.Computations
import Offside.Proofs.Lowering.Closed

/-!
# Rules of binding

What binding makes of trees if it reports no error, as a relation between the declarations before
in the scope, the scopes around it, the bound trees and the declarations that they add. A name that
is declared is new in its scope, but a name that needs no declaration may be there already. So a
property of all that the rules can make is a property of every bound tree.
-/

namespace Offside

/-- The contents of a tag that is bound to a declaration. -/
structure Info.Refers (info : Info) (d : Declaration) : Prop where
  decls : info.decls = none
  varScope : info.varScope = none
  binding : info.binding = some d

/-- Decides whether names can be declared at the top of a node. -/
def Symbol.isHost : Symbol → Bool
  | .block _ => true
  | symbol => symbol.flags.opensScope

namespace Bind

open List Offside.Tree

/-- A node whose `count` parts are all looked at in order, in the scope in which it stands. -/
structure Composes (info : Info) (count : Nat) : Prop where
  noTag : ∀ kind, info.symbol ≠ .tag kind
  closed : ∀ op, info.symbol = .builtin op → isOpen op = true ∨ op = .member ∧ count = 0 ∨
    op = .loop ∧ count ≠ 1 ∧ count ≠ 2
  noAssign : info.symbol = .builtin .assign → count ≠ 2
  noHost : ∀ kind, info.symbol = .block kind → kind.opensScope = false

/-- A node whose `count` parts are all looked at in order, in a scope of their own. -/
inductive Confines (info : Info) (count : Nat) : Prop
  | block {kind : BlockKind} (isBlock : info.symbol = .block kind) (opens : kind.opensScope = true)
  | loop (isLoop : info.symbol = .builtin .loop) (endless : count = 1)
  | code (isCode : info.symbol = .builtin .fn ∨ info.symbol = .builtin .catchClause)
      (notTwo : count ≠ 2)

theorem Confines.isHost {info : Info} {count : Nat} (confines : Confines info count) :
    info.symbol.isHost = true := by
  cases confines with
  | block same | loop same => rw [same]; rfl
  | code isCode => rcases isCode with same | same <;> rw [same] <;> rfl

theorem Confines.ne {info : Info} {count : Nat} {symbol : Symbol} (confines : Confines info count)
    (noHost : symbol.isHost = false) : info.symbol ≠ symbol := by
  rintro rfl
  exact Bool.false_ne_true (noHost.symm.trans confines.isHost)

/-- A name that needs no declaration, bound to what it stands for. -/
structure IsExternal (t : Tree) : Prop extends ExternalName t where
  isTag : t.isTag = true
  named : ∃ d, t.info.binding = some d ∧ t.name? = some d.name

def partsPlace : Place → Symbol → Place
  | .target, .builtin .tuple => .target
  | _, .builtin .object => .entry
  | _, _ => .value

/-- A node stands on the left of an assignment only if it can be assigned to. -/
def Suits (place : Place) (symbol : Symbol) : Prop :=
  place = .target → symbol = .builtin .tuple ∨ symbol.flags.assignable = true

/-- What binding looks at. -/
inductive Seen where
  /-- Trees in a row that stand in some place. -/
  | trees (place : Place) (ts : List Tree)
  /-- Patterns in a row, whose names are hoisted or not. -/
  | names (hoisted : Bool) (ts : List Tree)

def Seen.list : Seen → List Tree
  | .trees _ ts | .names _ ts => ts

/--
Bound trees behind the declarations `before` of their scope and inside of the frames `around`, with
the declarations that they add; in the end the scopes are `final`.
-/
inductive Bound (base : Table Declaration) (final : Scopes Declaration) :
    Seen → List Entry → List (List Entry) → List Entry → Prop
  | nothing {place before around} :
      Bound base final (.trees place []) before around []
  | more {place before gained more around t ts}
      (first : Bound base final (.trees place [t]) before around gained)
      (rest : Bound base final (.trees place ts) (before ++ gained) around more) :
      Bound base final (.trees place (t :: ts)) before around (gained ++ more)
  -- tags
  | left {place before around id info children kind} (isTag : info.symbol = .tag kind)
      (plain : info.Plain) (reason : kind = .external ∨ info.name? = none)
      (below : EverywhereAll Info.Plain children) :
      Bound base final (.trees place [.node id info children]) before around []
  | declared {place before around id info children kind name}
      (isTag : info.symbol = .tag kind) (declares : kind.isDeclaration = true)
      (named : info.name? = some name) (refers : info.Refers (declarationOf id info kind true name))
      (new : Table.find before name = none) (below : EverywhereAll Info.Plain children) :
      Bound base final (.trees place [.node id info children]) before around
        [(name, declarationOf id info kind true name)]
  | used {place before around id info children kind name d}
      (isTag : info.symbol = .tag kind) (uses : kind.isDeclaration = false)
      (named : info.name? = some name) (refers : info.Refers d)
      (means : Scopes.meaning (before :: around) base name = some d)
      (assignable : place = .target → d.assignable = true)
      (below : EverywhereAll Info.Plain children) :
      Bound base final (.trees place [.node id info children]) before around []
  -- patterns
  | noNames {hoisted before around} :
      Bound base final (.names hoisted []) before around []
  | moreNames {hoisted before gained more around t ts}
      (first : Bound base final (.names hoisted [t]) before around gained)
      (rest : Bound base final (.names hoisted ts) (before ++ gained) around more) :
      Bound base final (.names hoisted (t :: ts)) before around (gained ++ more)
  | nameless {hoisted before around id info children kind} (isTag : info.symbol = .tag kind)
      (plain : info.Plain) (noName : info.name? = none)
      (below : EverywhereAll Info.Plain children) :
      Bound base final (.names hoisted [.node id info children]) before around []
  | name {hoisted before around id info children kind name}
      (isTag : info.symbol = .tag kind) (declares : kind.isDeclaration = true)
      (named : info.name? = some name)
      (refers : info.Refers (declarationOf id info kind hoisted name))
      (new : Table.find before name = none) (below : EverywhereAll Info.Plain children) :
      Bound base final (.names hoisted [.node id info children]) before around
        [(name, declarationOf id info kind hoisted name)]
  | nameTuple {hoisted before gained around id info children}
      (isTuple : info.symbol = .builtin .tuple)
      (plain : info.Plain)
      (parts : Bound base final (.names hoisted children) before around gained) :
      Bound base final (.names hoisted [.node id info children]) before around gained
  -- nodes in the scope in which they stand
  | parts {place before gained around id info children} (composes : Composes info children.length)
      (plain : info.Plain) (suits : Suits place info.symbol)
      (parts : Bound base final (.trees (partsPlace place info.symbol) children) before
        around gained) :
      Bound base final (.trees place [.node id info children]) before around gained
  | assigned {place before gained more around id info left right}
      (isAssign : info.symbol = .builtin .assign)
      (plain : info.Plain) (suits : Suits place info.symbol)
      (target : Bound base final (.trees .target [left]) before around gained)
      (value : Bound base final (.trees .value [right]) (before ++ gained) around more) :
      Bound base final (.trees place [.node id info [left, right]]) before around (gained ++ more)
  | member {place before gained around id info object properties}
      (isMember : info.symbol = .builtin .member) (plain : info.Plain)
      (suits : Suits place info.symbol)
      (value : Bound base final (.trees .value [object]) before around gained)
      (skipped : EverywhereAll Info.Plain properties) :
      Bound base final (.trees place [.node id info (object :: properties)]) before around gained
  | noEntry {before around id info}
      (isPair : info.symbol = .builtin .pair) (plain : info.Plain) :
      Bound base final (.trees .entry [.node id info []]) before around []
  | entry {before gained around id info key values} (isPair : info.symbol = .builtin .pair)
      (plain : info.Plain) (skipped : key.Everywhere Info.Plain)
      (parts : Bound base final (.trees .value values) before around gained) :
      Bound base final (.trees .entry [.node id info (key :: values)]) before around gained
  | declaration {place before gained around id info children}
      (declares : info.symbol = .builtin .var ∨ info.symbol = .builtin .const)
      (plain : info.Plain) (suits : Suits place info.symbol)
      (names : Bound base final (.names true children) before around gained) :
      Bound base final (.trees place [.node id info children]) before around gained
  | listed {place before around id info children} (isExternal : info.symbol = .builtin .external)
      (plain : info.Plain) (suits : Suits place info.symbol)
      (names : ∀ c ∈ children, IsExternal c) :
      Bound base final (.trees place [.node id info children]) before around
        (children.flatMap (·.info.entry))
  -- hosts
  | confined {place before owned around id info children} (confines : Confines info children.length)
      (suits : Suits place info.symbol) (collects : Collects final info owned)
      (inner : Bound base final (.trees .value children) [] (before :: around) owned) :
      Bound base final (.trees place [.node id info children]) before around []
  | code {place before first second around id info params body}
      (isCode : info.symbol = .builtin .fn ∨ info.symbol = .builtin .catchClause)
      (suits : Suits place info.symbol) (collects : Collects final info (first ++ second))
      (names : Bound base final (.names false [params]) [] (before :: around) first)
      (inner : Bound base final (.trees .value [body]) first (before :: around) second) :
      Bound base final (.trees place [.node id info [params, body]]) before around []
  | loop {place before gained first second around id headId info headInfo names init body}
      (isLoop : info.symbol = .builtin .loop) (suits : Suits place info.symbol)
      (isHead : headInfo.symbol = .builtin .assign) (plain : headInfo.Plain)
      (collects : Collects final info (first ++ second))
      (start : Bound base final (.trees .value [init]) before around gained)
      (heads : Bound base final (.names true [names]) [] ((before ++ gained) :: around) first)
      (inner : Bound base final (.trees .value [body]) first
        ((before ++ gained) :: around) second) :
      Bound base final (.trees place [.node id info [.node headId headInfo [names, init], body]])
        before around gained

variable {base : Table Declaration} {scope : ScopeId} {before : List Entry}
  {around : List (List Entry)} {id : NodeId} {info : Info} {children : List Tree} {place : Place}

/-! ## Tags and patterns -/

theorem bound_tag (id : NodeId) {kind : TagKind} (assigning : Bool)
    (isTag : info.symbol = .tag kind)
    (unbound : info.Unbound) (below : EverywhereAll Info.Plain children)
    (assigns : place = .target → assigning = true) :
    Binds base scope before around (tag id info kind scope assigning) fun final gained bound =>
      Bound base final (.trees place [.node id (done bound) children]) before around gained := by
  have plain := unbound.toPlain
  unfold tag
  split
  case isTrue isExternal =>
    exact .pure fun _ => .left isTag (plain_done plain) (.inl isExternal) below
  case isFalse =>
    split
    · exact .report _ rfl (.pure _)
    · split
      case isTrue declares =>
        refine (binds_declaration id kind true plain.binding).mono fun _ gained bound facts => ?_
        obtain ⟨rfl, rfl, new⟩ := facts
        cases named : info.name? with
        | none => exact .left isTag ⟨plain.decls, plain.varScope, rfl⟩ (.inr named) below
        | some name =>
          exact .declared isTag declares named ⟨plain.decls, plain.varScope, rfl⟩ (new name named)
            below
      case isFalse uses =>
        refine (binds_meaning info assigning).mono fun _ gained bound facts => ?_
        obtain ⟨rfl, ⟨nameless, rfl⟩ | ⟨name, d, named, means, rfl, assignable⟩⟩ := facts
        · exact .left isTag (plain_done plain) (.inr nameless) below
        · exact .used isTag ((Bool.not_eq_true _).mp uses) named
            ⟨plain.decls, plain.varScope, rfl⟩ means (fun isTarget => assignable (assigns isTarget))
            below

mutual

theorem bound_pattern {before : List Entry} (hoisted : Bool) {t : Tree}
    (unbound : t.Everywhere Info.Unbound) :
    Binds base scope before around (pattern scope hoisted t) fun final gained bound =>
      Bound base final (.names hoisted [bound]) before around gained := by
  cases t with
  | node id info children =>
    rw [everywhere_node] at unbound
    have plain := unbound.1.toPlain
    have below : EverywhereAll Info.Plain children :=
      unbound.2.mono fun _ unbound => unbound.toPlain
    unfold pattern
    split
    case h_1 kind isTag =>
      split
      · exact .report _ rfl (.pure _)
      · split
        case isTrue declares =>
          refine (binds_declaration id kind hoisted plain.binding).map fun _ _ _ facts => ?_
          obtain ⟨rfl, rfl, new⟩ := facts
          cases named : info.name? with
          | none => exact .nameless isTag ⟨plain.decls, plain.varScope, rfl⟩ named below
          | some name =>
            exact .name isTag declares named ⟨plain.decls, plain.varScope, rfl⟩ (new name named)
              below
        case isFalse => exact .report _ rfl (.pure _)
    case h_2 isTuple =>
      exact (bound_patterns hoisted unbound.2).map fun _ _ _ bound =>
        .nameTuple isTuple (plain_done plain) bound
    case h_3 => exact .report _ rfl (.pure _)

theorem bound_patterns {before : List Entry} (hoisted : Bool) {ts : List Tree}
    (unbound : EverywhereAll Info.Unbound ts) :
    Binds base scope before around (patterns scope hoisted ts) fun final gained bound =>
      Bound base final (.names hoisted bound) before around gained := by
  cases ts with
  | nil => exact .pure fun _ => .noNames
  | cons t ts =>
    rw [everywhereAll_cons] at unbound
    unfold patterns
    refine .bind (bound_pattern hoisted unbound.1) fun first gained => ?_
    exact (bound_patterns hoisted unbound.2).map fun _ _ _ others this => .moreNames this others

end

/-! ## Nodes -/

/-- What binding makes of a node, if the node suits the place in which it stands. -/
def Follows (base : Table Declaration) (place : Place) (symbol : Symbol) (before : List Entry)
    (around : List (List Entry)) (final : Scopes Declaration) (gained : List Entry) (t : Tree) :
    Prop :=
  Suits place symbol → Bound base final (.trees place [t]) before around gained

def Valued (base : Table Declaration) (before : List Entry) (around : List (List Entry))
    (final : Scopes Declaration) (gained : List Entry) (t : Tree) : Prop :=
  Bound base final (.trees .value [t]) before around gained

/-- A node whose parts are looked at in order. -/
theorem bound_parts {inner : Place}
    (each : Binds base scope before around (trees inner scope children) fun final gained bound =>
      Bound base final (.trees inner bound) before around gained)
    (isInner : inner = partsPlace place info.symbol) (composes : Composes info children.length)
    (plain : info.Plain) :
    Binds base scope before around
      (trees inner scope children >>= fun parts => pure (.node id (done info) parts))
      (Follows base place info.symbol before around) := by
  refine (each.and_yields (length_trees inner scope children)).map fun _ _ _ facts suits => ?_
  obtain ⟨bound, same⟩ := facts
  rw [isInner] at bound
  rw [← same] at composes
  exact .parts ⟨composes.noTag, composes.closed, composes.noAssign, composes.noHost⟩
    (plain_done plain)
    suits bound

/-- A node whose parts are looked at in order, in a scope of their own. -/
theorem bound_confined (confines : Confines info children.length) (unbound : info.Unbound)
    (each : ∀ inner outer, Binds base inner [] (outer :: around) (trees .value inner children)
      fun final gained bound =>
        Bound base final (.trees .value bound) [] (outer :: around) gained) :
    Binds base scope before around (do
        let inner ← extend scope
        let (info, children) ← inHost info inner (trees .value inner children)
        return .node id (done info) children)
      (Follows base place info.symbol before around) := by
  refine Binds.host unbound.decls (fun inner outer =>
    (each inner outer).and_yields (length_trees .value inner children))
    (fun _ _ => rfl) fun final host owned parts noted facts suits => ?_
  have symbol_eq := noted.symbol_eq
  rw [← symbol_eq] at suits
  refine .confined ?_ suits (noted.collects unbound.binding) facts.1
  rw [← facts.2] at confines
  cases confines with
  | block isBlock opens => exact .block (symbol_eq.trans isBlock) opens
  | loop isLoop endless => exact .loop (symbol_eq.trans isLoop) endless
  | code isCode notTwo =>
    rw [← symbol_eq] at isCode
    exact .code isCode notTwo

/-- Names that need no declaration. -/
theorem bound_externals {before : List Entry} {ts : List Tree}
    (unbound : EverywhereAll Info.Unbound ts) :
    Binds base scope before around (ts.mapM (external scope)) fun _ gained out =>
      gained = out.flatMap (·.info.entry) ∧ ∀ c ∈ out, IsExternal c := by
  induction ts generalizing before with
  | nil => exact .pure fun _ => ⟨rfl, forall_mem_nil _⟩
  | cons t ts ih =>
    rw [everywhereAll_cons] at unbound
    rw [mapM_cons]
    refine .bind (binds_externalName t) fun bound gained => ?_
    refine (ih unbound.2).map ?_
    rintro _ _ _ ⟨rfl, others⟩ ⟨name, isTag, named, rfl, rfl⟩
    obtain ⟨id, info, children⟩ := t
    rw [everywhere_node] at unbound
    have below := unbound.1.2.mono fun _ unbound => unbound.toPlain
    refine ⟨rfl, forall_mem_cons.mpr ⟨?_, others⟩⟩
    refine ⟨⟨unbound.1.1.decls, unbound.1.1.varScope, fun d isBound => ?_, below⟩, isTag,
      _, rfl, named⟩
    cases isBound
    exact ⟨rfl, rfl⟩

theorem bound_namesAndBody {scope : ScopeId} {hoisted : Bool} {names : Tree} {body : Bind Tree}
    (unbound : names.Everywhere Info.Unbound)
    (each : ∀ before, Binds base scope before around body (Valued base before around)) :
    Binds base scope [] around
      (pattern scope hoisted names >>= fun names => body >>= fun body => pure (names, body))
      fun final gained parts => ∃ first second, gained = first ++ second ∧
        Bound base final (.names hoisted [parts.1]) [] around first ∧
        Valued base first around final second parts.2 := by
  refine .bind (bound_pattern hoisted unbound) fun names first => ?_
  exact (each _).map fun _ second _ inner declared => ⟨first, second, rfl, declared, inner⟩

/-- A function or a handler with a body. -/
theorem bound_code {params body : Tree}
    (isCode : info.symbol = .builtin .fn ∨ info.symbol = .builtin .catchClause)
    (unbound : info.Unbound) (names : params.Everywhere Info.Unbound)
    (each : ∀ inner before outer, Binds base inner before (outer :: around) (tree .value inner body)
      (Valued base before (outer :: around))) :
    Binds base scope before around (do
        let inner ← extend scope
        let (info, params, body) ← inHost info inner do
          let params ← pattern inner false params
          return (params, ← tree .value inner body)
        return .node id (done info) [params, body])
      (Follows base place info.symbol before around) := by
  refine Binds.host unbound.decls
    (fun inner outer => bound_namesAndBody names fun before => each inner before outer)
    (fun _ _ => rfl) fun final host owned parts noted facts suits => ?_
  obtain ⟨first, second, rfl, names, inner⟩ := facts
  rw [← noted.symbol_eq] at isCode suits
  exact .code isCode suits (noted.collects unbound.binding) names inner

/-- A loop with a head. -/
theorem bound_loop {headId : NodeId} {headInfo : Info} {names init body : Tree}
    (isLoop : info.symbol = .builtin .loop) (isHead : headInfo.symbol = .builtin .assign)
    (unbound : info.Unbound) (plain : headInfo.Plain) (heads : names.Everywhere Info.Unbound)
    (first : Binds base scope before around (tree .value scope init) (Valued base before around))
    (each : ∀ inner before outer, Binds base inner before (outer :: around) (tree .value inner body)
      (Valued base before (outer :: around))) :
    Binds base scope before around (do
        let inner ← extend scope
        let init ← tree .value scope init
        let (info, names, body) ← inHost info inner do
          let names ← pattern inner true names
          return (names, ← tree .value inner body)
        return .node id (done info) [.node headId (done headInfo) [names, init], body])
      (Follows base place info.symbol before around) := by
  refine Binds.opening unbound.decls first
    (fun inner a gained => bound_namesAndBody heads fun before => each inner before _)
    fun inner bound gained host others => .pure fun final start noted suits => ?_
  obtain ⟨_, noted, early, late, rfl, heads, code⟩ := noted
  rw [append_nil]
  rw [← noted.symbol_eq] at isLoop suits
  exact .loop isLoop suits isHead (plain_done plain) (noted.collects unbound.binding)
    start heads code

/-- A loop whose head gives no variables their values is reported. -/
theorem bound_headless {head body : Tree} {d : Diagnostic}
    {property : Scopes Declaration → List Entry → Tree → Prop} (isError : d.level = .error)
    (first : Binds base scope before around (tree .value scope head) (Valued base before around))
    (second : ∀ inner, Binds base inner before around (tree .value inner body)
      (Valued base before around)) :
    Binds base scope before around (do
        let inner ← extend scope
        report d
        let head ← tree .value scope head
        let (info, body) ← inHost info inner (tree .value inner body)
        return .node id (done info) [head, body])
      property := by
  refine .bind (binds_extend scope) fun inner _ => .report _ isError (first.clean.bind fun _ => ?_)
  exact ((second inner).clean.inHost info inner).bind fun _ => .pure _

theorem composes_builtin {op : Builtin} {count : Nat} (isOp : info.symbol = .builtin op)
    (closed : isOpen op = true ∨ op = .member ∧ count = 0 ∨ op = .loop ∧ count ≠ 1 ∧ count ≠ 2)
    (other : op ≠ .assign) : Composes info count := by
  constructor
  · intro kind isTag
    cases isOp.symm.trans isTag
  · intro known isKnown
    cases isOp.symm.trans isKnown
    exact closed
  · intro isAssign
    cases isOp.symm.trans isAssign
    exact absurd rfl other
  · intro kind isBlock
    cases isOp.symm.trans isBlock

/-- What a node is not whose parts are all looked at. -/
theorem Composes.ne {op : Builtin} {count : Nat} (composes : Composes info count)
    (isClosed : isOpen op = false) (other : op ≠ .member ∧ op ≠ .loop) :
    info.symbol ≠ .builtin op := by
  intro isOp
  rcases composes.closed op isOp with isOpen | ⟨isMember, _⟩ | ⟨isLoop, _⟩
  · cases isClosed.symm.trans isOpen
  · exact other.1 isMember
  · exact other.2 isLoop

mutual

/-- Binding without a report follows the rules. -/
theorem bound_tree {scope : ScopeId} {before : List Entry} {around : List (List Entry)}
    (place : Place) {t : Tree} (unbound : t.Everywhere Info.Unbound) :
    Binds base scope before around (tree place scope t) fun final gained bound =>
      Bound base final (.trees place [bound]) before around gained := by
  cases t with
  | node id info children =>
    rw [everywhere_node] at unbound
    obtain ⟨here, parts⟩ := unbound
    have plain := here.toPlain
    have below : EverywhereAll Info.Plain children := parts.mono fun _ unbound => unbound.toPlain
    unfold tree
    split
    case h_1 kind isTag =>
      exact (bound_tag id true isTag here below fun _ => rfl).map fun _ _ _ bound => bound
    case h_2 isTuple =>
      suffices looked :
          Binds base scope before around _ (Follows base .target info.symbol before around) by
        exact looked.mono fun _ _ _ follows => follows fun _ => .inl isTuple
      exact bound_parts (bound_trees .target parts) (by rw [isTuple]; rfl)
        (composes_builtin isTuple (.inl rfl) (by decide)) plain
    case h_3 key values isPair =>
      rw [everywhereAll_cons] at parts
      exact (bound_trees .value parts.2).map fun _ _ _ bound =>
        .entry isPair (plain_done plain) (everywhere_skip parts.1) bound
    case h_4 isPair => exact .pure fun _ => .noEntry isPair (plain_done plain)
    case h_5 place children _ _ _ noTag noTuple noPair noEntry =>
      have inValue (noObject : info.symbol ≠ .builtin .object)
          (noTuple : place = .target → info.symbol ≠ .builtin .tuple) :
          Place.value = partsPlace place info.symbol := by
        unfold partsPlace
        split
        · exact absurd ‹_› (noTuple rfl)
        · exact absurd ‹_› noObject
        · rfl
      have noTarget : ∀ kind, info.symbol = .tag kind → place ≠ .target := by
        rintro kind isTag rfl
        exact noTag kind rfl isTag
      replace noTuple : place = .target → info.symbol ≠ .builtin .tuple := by
        rintro rfl isTuple
        exact noTuple rfl isTuple
      clear noTag noPair noEntry
      suffices looked :
          Binds base scope before around _ (Follows base place info.symbol before around) by
        refine .join rfl (looked.mono fun _ _ _ follows suits => follows fun isTarget => .inr ?_)
        simpa [isTarget] using suits
      rw [if_neg (Bool.eq_false_iff.mp here.unresolved)]
      split
      -- blocks and tags
      case h_1 kind isBlock =>
        split
        case isTrue opens =>
          exact bound_confined (.block isBlock opens) here fun inner outer =>
            bound_trees .value parts
        case isFalse opens =>
          refine bound_parts (bound_trees .value parts) (inValue ?_ noTuple)
            ⟨?_, ?_, ?_, fun other isOther => ?_⟩ plain
          · rw [isBlock]
            rintro ⟨⟩
          · rw [isBlock]
            rintro _ ⟨⟩
          · rw [isBlock]
            rintro _ ⟨⟩
          · rw [isBlock]
            rintro ⟨⟩
          · cases isBlock.symm.trans isOther
            exact (Bool.not_eq_true _).mp opens
      case h_2 kind isTag =>
        have tagged : Binds base scope before around _ _ := bound_tag id false isTag here below
          fun isTarget => absurd isTarget (noTarget kind isTag)
        exact tagged.map fun _ _ _ bound _ => bound
      -- assignments, members and objects
      case h_3 left right isAssign =>
        rw [everywhereAll_cons, everywhereAll_cons] at parts
        refine .bind (bound_tree .target parts.1) fun first gained => ?_
        exact (bound_tree .value parts.2.1).map fun _ _ _ value target suits =>
          .assigned isAssign (plain_done plain) suits target value
      case h_4 object properties isMember =>
        rw [everywhereAll_cons] at parts
        exact (bound_tree .value parts.1).map fun _ _ _ bound suits =>
          .member isMember (plain_done plain) suits bound (everywhereAll_map_skip parts.2)
      case h_5 isObject =>
        refine bound_parts (bound_trees .entry parts) ?_
          (composes_builtin isObject (.inl rfl) (by decide)) plain
        rw [isObject]
        cases place <;> rfl
      case h_6 key values isPair =>
        rw [everywhereAll_cons] at parts
        have inner : Binds base scope before around (trees .value scope values) _ :=
          bound_trees .value parts.2
        exact .report _ rfl (inner.clean.bind fun _ => .pure _)
      case h_7 isPair => exact .report _ rfl (.pure _)
      -- declarations
      case h_8 isVar =>
        exact (bound_patterns true parts).map fun _ _ _ declared suits =>
          .declaration (.inl isVar) (plain_done plain) suits declared
      case h_9 isConst =>
        exact (bound_patterns true parts).map fun _ _ _ declared suits =>
          .declaration (.inr isConst) (plain_done plain) suits declared
      case h_10 isExternal =>
        refine (bound_externals parts).map ?_
        rintro _ _ _ ⟨rfl, names⟩ suits
        exact .listed isExternal (plain_done plain) suits names
      -- functions and handlers
      case h_11 params body isFn =>
        rw [everywhereAll_cons, everywhereAll_cons] at parts
        exact bound_code (.inl isFn) here parts.1 fun inner before outer =>
          bound_tree .value parts.2.1
      case h_12 param body isCatch =>
        rw [everywhereAll_cons, everywhereAll_cons] at parts
        exact bound_code (.inr isCatch) here parts.1 fun inner before outer =>
          bound_tree .value parts.2.1
      case h_13 isFn notTwo =>
        refine bound_confined (.code (.inl isFn) fun isTwo => ?_) here fun inner outer =>
          bound_trees .value parts
        obtain ⟨params, body, rfl⟩ := length_eq_two.mp isTwo
        exact notTwo params body rfl
      case h_14 isCatch notTwo =>
        refine bound_confined (.code (.inr isCatch) fun isTwo => ?_) here fun inner outer =>
          bound_trees .value parts
        obtain ⟨params, body, rfl⟩ := length_eq_two.mp isTwo
        exact notTwo params body rfl
      -- loops
      case h_15 body isLoop =>
        rw [everywhereAll_cons] at parts
        refine Binds.host here.decls (fun inner outer => bound_tree .value parts.1)
          (fun _ _ => rfl) fun final host owned bound noted inner suits => ?_
        rw [← noted.symbol_eq] at isLoop suits
        exact .confined (.loop isLoop rfl) suits (noted.collects here.binding) inner
      case h_16 headId headInfo names init body isLoop =>
        rw [everywhereAll_cons, everywhereAll_cons] at parts
        have head := parts.1
        rw [everywhere_node, everywhereAll_cons, everywhereAll_cons] at head
        by_cases isAssign : headInfo.is .assign = true
        · simp only [if_pos isAssign]
          have isHead := Info.symbol_of_is isAssign
          exact bound_loop isLoop isHead here head.1.toPlain head.2.1 (bound_tree .value head.2.2.1)
            fun inner before outer => bound_tree .value parts.2.1
        · simp only [if_neg isAssign]
          exact bound_headless rfl (bound_tree .value parts.1) fun _ => bound_tree .value parts.2.1
      case h_17 head body isLoop _ =>
        rw [everywhereAll_cons, everywhereAll_cons] at parts
        exact bound_headless rfl (bound_tree .value parts.1) fun _ => bound_tree .value parts.2.1
      case h_18 children _ _ isLoop notOne _ notTwo =>
        have other : children.length ≠ 1 ∧ children.length ≠ 2 := by
          constructor
          · intro isOne
            obtain ⟨body, rfl⟩ := length_eq_one_iff.mp isOne
            exact notOne body rfl
          · intro isTwo
            obtain ⟨head, body, rfl⟩ := length_eq_two.mp isTwo
            exact notTwo head body rfl
        apply Binds.bind (binds_extend scope)
        intro _ gained
        have node : Binds base scope (before ++ gained) around
            (trees .value scope children >>= fun parts => pure (.node id (done info) parts))
            (Follows base place info.symbol (before ++ gained) around) :=
          bound_parts (bound_trees .value parts) (inValue (by rw [isLoop]; rintro ⟨⟩) noTuple)
            (composes_builtin isLoop (.inr (.inr ⟨rfl, other⟩)) (by decide)) plain
        refine node.mono fun _ more bound follows isNil => ?_
        rw [isNil, append_nil] at follows
        rw [isNil]
        exact follows
      -- all other nodes
      case h_19 children _ _ noBlock noTag noObject noVar noConst noExternal noFn noCatch noLoop
        noAssign noMember noPair noEntry _ _ _ _ _ =>
        refine bound_parts (bound_trees .value parts) (inValue noObject noTuple)
          ⟨noTag, fun op isOp => ?_, ?_, fun kind isBlock => (noBlock kind isBlock).elim⟩ plain
        · cases isClosed : isOpen op with
          | true => exact .inl rfl
          | false =>
            rcases eq_of_not_isOpen isClosed with rfl | rfl | rfl | rfl | rfl | rfl | rfl | rfl
            · exact absurd isOp noVar
            · exact absurd isOp noConst
            · cases children with
              | nil => exact .inr (.inl ⟨rfl, rfl⟩)
              | cons object properties => exact absurd rfl (noMember object properties isOp)
            · exact absurd isOp noFn
            · exact absurd isOp noCatch
            · exact absurd isOp noLoop
            · cases children with
              | nil => exact absurd rfl (noEntry isOp)
              | cons key values => exact absurd rfl (noPair key values isOp)
            · exact absurd isOp noExternal
        · intro isAssign isTwo
          obtain ⟨left, right, rfl⟩ := length_eq_two.mp isTwo
          exact noAssign left right isAssign rfl
termination_by sizeOf t
decreasing_by
  all_goals
    subst_vars
    simp only [Tree.node.sizeOf_spec, List.cons.sizeOf_spec, List.nil.sizeOf_spec]
    omega

theorem bound_trees {scope : ScopeId} {before : List Entry} {around : List (List Entry)}
    (place : Place) {ts : List Tree} (unbound : EverywhereAll Info.Unbound ts) :
    Binds base scope before around (trees place scope ts) fun final gained bound =>
      Bound base final (.trees place bound) before around gained := by
  cases ts with
  | nil => exact .pure fun _ => .nothing
  | cons t ts =>
    rw [everywhereAll_cons] at unbound
    unfold trees
    refine .bind (bound_tree place unbound.1) fun first gained => ?_
    exact (bound_trees place unbound.2).map fun _ _ _ others this => .more this others
termination_by sizeOf ts
decreasing_by
  all_goals
    subst_vars
    simp only [List.cons.sizeOf_spec]
    omega

end

/-! ## The root -/

/-- A scope with nothing in it, outside of all others, changes no meaning. -/
theorem meaning_outermost (frames : List (List Entry)) (name : String) :
    Scopes.meaning (frames ++ [[]]) base name = Scopes.meaning frames base name := by
  simp [Scopes.meaning, List.findSome?_append, Table.find]

theorem Bound.outermost {final : Scopes Declaration} {seen : Seen} {gained : List Entry}
    (bound : Bound base final seen before around gained) :
    Bound base final seen before (around ++ [[]]) gained := by
  induction bound with
  | nothing => exact .nothing
  | more _ _ first rest => exact .more first rest
  | left isTag plain reason below => exact .left isTag plain reason below
  | declared isTag declares named refers new below =>
    exact .declared isTag declares named refers new below
  | used isTag uses named refers means assignable below =>
    rw [← meaning_outermost] at means
    exact .used isTag uses named refers means assignable below
  | noNames => exact .noNames
  | moreNames _ _ first rest => exact .moreNames first rest
  | nameless isTag plain noName below => exact .nameless isTag plain noName below
  | name isTag declares named refers new below => exact .name isTag declares named refers new below
  | nameTuple isTuple plain _ ih => exact .nameTuple isTuple plain ih
  | parts composes plain suits _ ih => exact .parts composes plain suits ih
  | assigned isAssign plain suits _ _ target value =>
    exact .assigned isAssign plain suits target value
  | member isMember plain suits _ skipped ih => exact .member isMember plain suits ih skipped
  | noEntry isPair plain => exact .noEntry isPair plain
  | entry isPair plain skipped _ ih => exact .entry isPair plain skipped ih
  | declaration declares plain suits _ ih => exact .declaration declares plain suits ih
  | listed isExternal plain suits names => exact .listed isExternal plain suits names
  | confined confines suits collects _ ih => exact .confined confines suits collects ih
  | code isCode suits collects _ _ names inner => exact .code isCode suits collects names inner
  | loop isLoop suits isHead plain collects _ _ _ start heads inner =>
    exact .loop isLoop suits isHead plain collects start heads inner

/-- The tree of a unit that has been bound without a report. -/
theorem bound_root {t : Tree} {ds : Diagnostics} (unbound : t.Everywhere Info.Unbound)
    (isRoot : t.symbol = .block .root)
    (clean : (root t ⟨.start base, .empty, ds⟩).2.diagnostics.hasErrors = false) :
    Bound base (root t ⟨.start base, .empty, ds⟩).2.scopes
      (.trees .value [(root t ⟨.start base, .empty, ds⟩).1]) [] [] [] := by
  obtain ⟨id, info, children⟩ := t
  rw [everywhere_node] at unbound
  have each : Binds base Scopes.root [] [] (trees .value Scopes.root children) _ :=
    bound_trees .value unbound.2
  obtain ⟨final, host, owned, parts, tree_eq, scopes_eq, noted, inner⟩ :=
    Binds.root unbound.1.decls each clean
  rw [tree_eq, scopes_eq]
  refine .confined (.block (noted.symbol_eq.trans isRoot) rfl) ?_ (noted.collects unbound.1.binding)
    inner.outermost
  rintro ⟨⟩

end Bind

end Offside
