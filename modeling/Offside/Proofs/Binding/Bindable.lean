import Offside.Proofs.Binding.Enclosed
import Offside.Proofs.Tree.Patterns

/-!
# Trees that can be bound

Binding takes nothing but names and tuples of names as declarations, nothing as a target that
cannot be assigned to, nothing but an assignment as the head of a loop, and a pair nowhere but in an
object. If it ends without an error, the tree has the shape that it asks for.
-/

namespace Offside

namespace Tree

/-- Decides whether a tree gives the variables of a loop their initial values. -/
def isLoopHead (t : Tree) : Bool :=
  match t.is .assign, t.children with
  | true, [names, _] => names.isPattern
  | _, _ => false

mutual

def Bindable (place : Bind.Place) : Tree → Prop
  | .node _ info children =>
    match place, info.symbol, children with
    | .target, .tag _, _ => True
    | .target, .builtin .tuple, elements => BindableAll .target elements
    | .entry, .builtin .pair, _ :: values => BindableAll .value values
    | .entry, .builtin .pair, [] => True
    | place, symbol, children =>
    (place = .target → symbol.flags.assignable = true) ∧
      match symbol, children with
      | .tag _, _ => True
      | .builtin .assign, [left, right] => Bindable .target left ∧ Bindable .value right
      | .builtin .member, object :: _ => Bindable .value object
      | .builtin .object, entries => BindableAll .entry entries
      | .builtin .pair, _ => False
      | .builtin .var, names | .builtin .const, names => arePatterns names = true
      | .builtin .external, _ => True
      | .builtin .fn, [params, code] | .builtin .catchClause, [params, code] =>
        params.isPattern = true ∧ Bindable .value code
      | .builtin .loop, [head, code] =>
        head.isLoopHead = true ∧ Bindable .value head ∧ Bindable .value code
      | _, children => BindableAll .value children

def BindableAll (place : Bind.Place) : List Tree → Prop
  | [] => True
  | t :: ts => Bindable place t ∧ BindableAll place ts

end

theorem bindableAll_iff {place : Bind.Place} {ts : List Tree} :
    BindableAll place ts ↔ ∀ t ∈ ts, Bindable place t := by
  induction ts with
  | nil => simp [BindableAll]
  | cons t ts ih => simp [BindableAll, ih]

mutual

theorem bindable_of_isPattern {t : Tree} (pattern : t.isPattern = true) : Bindable .target t := by
  cases t with
  | node id info children =>
    unfold isPattern at pattern
    unfold Bindable
    cases isSymbol : info.symbol with
    | tag kind => trivial
    | builtin op =>
      rw [isSymbol] at pattern
      cases op
      case tuple => exact bindableAll_of_arePatterns pattern
      all_goals cases pattern
    | _ =>
      rw [isSymbol] at pattern
      cases pattern

theorem bindableAll_of_arePatterns {ts : List Tree} (patterns : arePatterns ts = true) :
    BindableAll .target ts := by
  cases ts with
  | nil => trivial
  | cons t ts =>
    rw [arePatterns, Bool.and_eq_true] at patterns
    rw [BindableAll]
    exact ⟨bindable_of_isPattern patterns.1, bindableAll_of_arePatterns patterns.2⟩

end

/-! ## Parts of trees that can be bound -/

section Parts

variable {place : Bind.Place} {t params code : Tree}

/-- Decides whether binding a value with a symbol is binding its children, each as a value. -/
def bindsChildren : Symbol → Bool
  | .builtin op => op ∉ [Builtin.assign, .member, .object, .pair, .var, .const, .external, .fn,
      .catchClause, .loop]
  | .block _ => true
  | _ => false

section

variable (bindable : Bindable .value t)
include bindable

theorem Bindable.children (plain : bindsChildren t.symbol = true) :
    ∀ child ∈ t.children, Bindable .value child := by
  refine bindableAll_iff.mp ?_
  obtain ⟨id, info, children⟩ := t
  change bindsChildren info.symbol = true at plain
  unfold Bindable at bindable
  cases isSymbol : info.symbol with
  | builtin op =>
    rw [isSymbol] at bindable plain
    cases op
    all_goals first | exact bindable.2 | cases plain
  | block kind =>
    rw [isSymbol] at bindable
    exact bindable.2
  | _ =>
    rw [isSymbol] at plain
    cases plain

theorem Bindable.assign {left right : Tree} (isAssign : t.symbol = .builtin .assign)
    (parts : t.children = [left, right]) : Bindable .target left ∧ Bindable .value right := by
  rw [eq_node isAssign parts] at bindable
  exact bindable.2

theorem Bindable.member {object property : Tree} (isMember : t.symbol = .builtin .member)
    (parts : t.children = [object, property]) : Bindable .value object := by
  rw [eq_node isMember parts] at bindable
  exact bindable.2

theorem Bindable.entries (isObject : t.symbol = .builtin .object) :
    ∀ entry ∈ t.children, Bindable .entry entry := by
  refine bindableAll_iff.mp ?_
  rw [eq_node isObject rfl] at bindable
  exact bindable.2

end

theorem Bindable.names (bindable : Bindable place t)
    (declares : t.symbol = .builtin .var ∨ t.symbol = .builtin .const) :
    arePatterns t.children = true := by
  rcases declares with isOp | isOp
  all_goals
    rw [eq_node isOp rfl] at bindable
    cases place <;> exact bindable.2

section

variable (bindable : Bindable .value t)
include bindable

/-- A function or a handler. -/
theorem Bindable.scope (opens : t.symbol = .builtin .fn ∨ t.symbol = .builtin .catchClause)
    (parts : t.children = [params, code]) : params.isPattern = true ∧ Bindable .value code := by
  rcases opens with isOp | isOp
  all_goals
    rw [eq_node isOp parts] at bindable
    exact bindable.2

theorem Bindable.endless (isLoop : t.symbol = .builtin .loop) (parts : t.children = [code]) :
    Bindable .value code := by
  rw [eq_node isLoop parts] at bindable
  exact bindable.2.1

theorem Bindable.loop {head : Tree} (isLoop : t.symbol = .builtin .loop)
    (parts : t.children = [head, code]) :
    head.isLoopHead = true ∧ Bindable .value head ∧ Bindable .value code := by
  rw [eq_node isLoop parts] at bindable
  exact bindable.2

theorem Bindable.not_pair : t.symbol ≠ .builtin .pair := by
  intro isPair
  rw [eq_node isPair rfl] at bindable
  exact bindable.2

end

/-- The value of an entry with a key. -/
theorem Bindable.pair {key value : Tree} (bindable : Bindable .entry t)
    (isPair : t.symbol = .builtin .pair) (parts : t.children = [key, value]) :
    Bindable .value value := by
  rw [eq_node isPair parts] at bindable
  exact bindable.1

/-- An entry without a key is a value. -/
theorem Bindable.bare (bindable : Bindable .entry t) (noPair : t.symbol ≠ .builtin .pair) :
    Bindable .value t := by
  obtain ⟨id, info, children⟩ := t
  change info.symbol ≠ _ at noPair
  unfold Bindable at bindable ⊢
  cases isSymbol : info.symbol with
  | builtin op =>
    rw [isSymbol] at bindable noPair
    cases op
    case pair => exact absurd rfl noPair
    all_goals exact ⟨nofun, bindable.2⟩
  | _ =>
    rw [isSymbol] at bindable
    exact ⟨nofun, bindable.2⟩

theorem Bindable.elements (bindable : Bindable .target t) (isTuple : t.symbol = .builtin .tuple) :
    ∀ element ∈ t.children, Bindable .target element := by
  refine bindableAll_iff.mp ?_
  rw [eq_node isTuple rfl] at bindable
  exact bindable

/-- A target that has no parts is a name, or a builtin that can be assigned to and is a value. -/
theorem Bindable.single (bindable : Bindable .target t) (noTuple : t.symbol ≠ .builtin .tuple) :
    (∃ kind, t.symbol = .tag kind) ∨ t.symbol.flags.assignable = true ∧ Bindable .value t := by
  obtain ⟨id, info, children⟩ := t
  change info.symbol ≠ _ at noTuple
  change (∃ kind, info.symbol = .tag kind) ∨ info.symbol.flags.assignable = true ∧ _
  unfold Bindable at bindable ⊢
  cases isSymbol : info.symbol with
  | tag kind => exact .inl ⟨kind, rfl⟩
  | builtin op =>
    rw [isSymbol] at bindable noTuple
    refine .inr ?_
    cases op
    case tuple => exact absurd rfl noTuple
    all_goals exact ⟨bindable.1 rfl, nofun, bindable.2⟩
  | _ =>
    rw [isSymbol] at bindable
    cases bindable.1 rfl

end Parts

end Tree

namespace Bind

open List Offside.Tree

variable {base : Table Declaration} {final : Scopes Declaration} {seen : Seen}
  {before gained : List Entry} {around : List (List Entry)} {admitted : String → Prop}
  {place : Place} {id : NodeId} {info : Info} {children : List Tree}

/-- Where a tree can be a value, it can stand in another place that it does not suit less. -/
theorem bindable_of_value {t : Tree} (value : Bindable .value t)
    (assigns : place = .target → t.symbol.flags.assignable = true) : Bindable place t := by
  obtain ⟨id, info, children⟩ := t
  unfold Bindable at value ⊢
  cases place with
  | value => exact value
  | target =>
    replace assigns : info.symbol.flags.assignable = true := assigns rfl
    cases isSymbol : info.symbol with
    | builtin op =>
      rw [isSymbol] at value assigns
      cases op
      case member | element | var | const => exact ⟨fun _ => rfl, value.2⟩
      all_goals cases assigns
    | _ =>
      rw [isSymbol] at assigns
      cases assigns
  | entry =>
    cases isSymbol : info.symbol with
    | builtin op =>
      rw [isSymbol] at value
      cases op
      case pair => exact value.2.elim
      all_goals exact ⟨nofun, value.2⟩
    | _ =>
      rw [isSymbol] at value
      exact ⟨nofun, value.2⟩

theorem not_target {p : Prop} (isTarget : Place.value = .target) : p := by
  cases isTarget

theorem Suits.bindable (suits : Suits place info.symbol) (noTuple : info.symbol ≠ .builtin .tuple)
    (value : Bindable .value (.node id info children)) : Bindable place (.node id info children) :=
  bindable_of_value value fun isTarget => (suits isTarget).resolve_left noTuple

/-- A node that cannot be anything but what it is. -/
theorem Suits.builtin {op : Builtin} (suits : Suits place info.symbol)
    (isOp : info.symbol = .builtin op) (noTuple : op ≠ .tuple)
    (value : Bindable .value (.node id info children)) :
    Bindable place (.node id info children) := by
  refine suits.bindable (fun isTuple => ?_) value
  cases isOp.symm.trans isTuple
  exact noTuple rfl

theorem bindable_tag {kind : TagKind} (isTag : info.symbol = .tag kind) :
    Bindable place (.node id info children) := by
  unfold Bindable
  rw [isTag]
  cases place with
  | value => exact ⟨not_target, trivial⟩
  | target => trivial
  | entry => exact ⟨by rintro ⟨⟩, trivial⟩

/-- A builtin that takes its parts as values in any number. -/
theorem bindable_open {op : Builtin} (isOp : info.symbol = .builtin op) (isOpen : isOpen op = true)
    (noObject : op ≠ .object) (noAssign : op = .assign → children.length ≠ 2)
    (parts : BindableAll .value children) : Bindable .value (.node id info children) := by
  unfold Bindable
  rw [isOp]
  cases op
  case assign =>
    rcases children with _ | ⟨left, _ | ⟨right, _ | ⟨third, rest⟩⟩⟩
    case cons.cons.nil => exact absurd rfl (noAssign rfl)
    all_goals exact ⟨not_target, parts⟩
  case object => exact absurd rfl noObject
  all_goals first | exact ⟨not_target, parts⟩ | cases isOpen

/-- A node whose parts are all looked at in order. -/
theorem Composes.bindable (composes : Composes info children.length)
    (suits : Suits place info.symbol)
    (parts : BindableAll (partsPlace place info.symbol) children) :
    Bindable place (.node id info children) := by
  by_cases isTarget : place = .target ∧ info.symbol = .builtin .tuple
  · obtain ⟨rfl, isTuple⟩ := isTarget
    unfold Bindable
    rw [isTuple] at parts ⊢
    exact parts
  · refine bindable_of_value ?_ fun isPlace => (suits isPlace).resolve_left fun isTuple =>
      isTarget ⟨isPlace, isTuple⟩
    by_cases isObject : info.symbol = .builtin .object
    · unfold Bindable
      rw [isObject] at parts ⊢
      refine ⟨not_target, ?_⟩
      cases place <;> exact parts
    · have inValue : partsPlace place info.symbol = .value := by
        unfold partsPlace
        split
        · exact absurd ⟨rfl, ‹_›⟩ isTarget
        · exact absurd ‹_› isObject
        · rfl
      rw [inValue] at parts
      cases isSymbol : info.symbol with
      | tag kind => exact bindable_tag isSymbol
      | builtin op =>
        rcases composes.closed op isSymbol with isOpen | ⟨rfl, isNil⟩ | ⟨rfl, notOne, notTwo⟩
        · refine bindable_open isSymbol isOpen ?_ ?_ parts
          · rintro rfl
            exact isObject isSymbol
          · rintro rfl
            exact composes.noAssign isSymbol
        · cases eq_nil_of_length_eq_zero isNil
          unfold Bindable
          rw [isSymbol]
          exact ⟨not_target, parts⟩
        · unfold Bindable
          rw [isSymbol]
          rcases children with _ | ⟨head, _ | ⟨body, _ | ⟨third, rest⟩⟩⟩
          case cons.cons.nil => exact absurd rfl notTwo
          all_goals exact ⟨not_target, parts⟩
      | _ =>
        unfold Bindable
        rw [isSymbol]
        exact ⟨not_target, parts⟩

/-- A node whose parts are all looked at in order, in a scope of their own. -/
theorem Confines.bindable (confines : Confines info children.length)
    (parts : BindableAll .value children) : Bindable .value (.node id info children) := by
  unfold Bindable
  cases confines with
  | block isBlock =>
    rw [isBlock]
    exact ⟨not_target, parts⟩
  | loop isLoop endless =>
    obtain ⟨body, rfl⟩ := length_eq_one_iff.mp endless
    rw [isLoop]
    exact ⟨not_target, parts⟩
  | code isCode notTwo =>
    rcases isCode with isOp | isOp
    all_goals
      rw [isOp]
      rcases children with _ | ⟨params, _ | ⟨body, _ | ⟨third, rest⟩⟩⟩
      case cons.cons.nil => exact absurd rfl notTwo
      all_goals exact ⟨not_target, parts⟩

def Seen.CanBe : Seen → Prop
  | .trees place ts => BindableAll place ts
  | .names _ ts => arePatterns ts = true

theorem bindableAll_single {t : Tree} (bindable : Bindable place t) : BindableAll place [t] :=
  bindableAll_iff.mpr (forall_mem_singleton.mpr bindable)

theorem bindable_single {t : Tree} (bindable : BindableAll place [t]) : Bindable place t :=
  bindableAll_iff.mp bindable t mem_cons_self

theorem isPattern_single {t : Tree} (patterns : arePatterns [t] = true) : t.isPattern = true :=
  arePatterns_iff.mp patterns t mem_cons_self

/-- Bound expressions have the shape that binding asks for. -/
theorem Bound.canBe (bound : Bound base final seen before around gained)
    (sane : ∀ t ∈ seen.list, Sane admitted (fun _ => True) t) : seen.CanBe := by
  induction bound with
  | nothing => exact bindableAll_iff.mpr (forall_mem_nil _)
  | more _ _ first rest =>
    obtain ⟨here, others⟩ := forall_mem_cons.mp sane
    exact bindableAll_iff.mpr (forall_mem_cons.mpr ⟨bindable_single
      (first (forall_mem_singleton.mpr here)), bindableAll_iff.mp (rest others)⟩)
  | left isTag | declared isTag | used isTag => exact bindableAll_single (bindable_tag isTag)
  -- patterns
  | noNames => exact arePatterns_iff.mpr (forall_mem_nil _)
  | moreNames _ _ first rest =>
    obtain ⟨here, others⟩ := forall_mem_cons.mp sane
    exact arePatterns_iff.mpr (forall_mem_cons.mpr ⟨isPattern_single
      (first (forall_mem_singleton.mpr here)), arePatterns_iff.mp (rest others)⟩)
  | nameless isTag _ noName =>
    obtain ⟨name, named⟩ := (sane _ (.head _)).formed.root.exists_name isTag
    cases noName.symm.trans named
  | name isTag _ named =>
    refine arePatterns_iff.mpr (forall_mem_singleton.mpr ?_)
    unfold isPattern
    rw [isTag, named]
    rfl
  | nameTuple isTuple _ _ ih =>
    refine arePatterns_iff.mpr (forall_mem_singleton.mpr ?_)
    unfold isPattern
    rw [isTuple]
    exact ih (sane _ (.head _)).below
  -- nodes in the scope in which they stand
  | parts composes _ suits _ ih =>
    exact bindableAll_single (composes.bindable suits (ih (sane _ (.head _)).below))
  | assigned isAssign _ suits _ _ target value =>
    obtain ⟨left, right⟩ := forall_mem_cons.mp (sane _ (.head _)).below
    refine bindableAll_single (suits.builtin isAssign (by decide) ?_)
    unfold Bindable
    rw [isAssign]
    exact ⟨not_target, bindable_single (target (forall_mem_singleton.mpr left)),
      bindable_single (value right)⟩
  | member isMember _ suits _ _ ih =>
    have object := (forall_mem_cons.mp (sane _ (.head _)).below).1
    refine bindableAll_single (suits.builtin isMember (by decide) ?_)
    unfold Bindable
    rw [isMember]
    exact ⟨not_target, bindable_single (ih (forall_mem_singleton.mpr object))⟩
  | noEntry isPair =>
    refine bindableAll_single ?_
    unfold Bindable
    rw [isPair]
    trivial
  | entry isPair _ _ _ ih =>
    refine bindableAll_single ?_
    unfold Bindable
    rw [isPair]
    exact ih (forall_mem_cons.mp (sane _ (.head _)).below).2
  | declaration declares _ suits _ ih =>
    have names := ih (sane _ (.head _)).below
    rcases declares with isOp | isOp
    all_goals
      refine bindableAll_single (suits.builtin isOp (by decide) ?_)
      unfold Bindable
      rw [isOp]
      exact ⟨not_target, names⟩
  | listed isExternal _ suits =>
    refine bindableAll_single (suits.builtin isExternal (by decide) ?_)
    unfold Bindable
    rw [isExternal]
    exact ⟨not_target, trivial⟩
  -- hosts
  | confined confines suits _ _ ih =>
    exact bindableAll_single (suits.bindable (confines.ne rfl)
      (confines.bindable (ih (sane _ (.head _)).below)))
  | code isCode suits _ _ _ names inner =>
    obtain ⟨params, code⟩ := forall_mem_cons.mp (sane _ (.head _)).below
    have pattern := isPattern_single (names (forall_mem_singleton.mpr params))
    have body := bindable_single (inner code)
    rcases isCode with isOp | isOp
    all_goals
      refine bindableAll_single (suits.builtin isOp (by decide) ?_)
      unfold Bindable
      rw [isOp]
      exact ⟨not_target, pattern, body⟩
  | loop isLoop suits isHead _ _ _ _ _ start heads inner =>
    obtain ⟨head, code⟩ := forall_mem_cons.mp (sane _ (.head _)).below
    obtain ⟨names, init⟩ := forall_mem_cons.mp head.below
    have pattern := isPattern_single (heads (forall_mem_singleton.mpr names))
    refine bindableAll_single (suits.builtin isLoop (by decide) ?_)
    unfold Bindable
    rw [isLoop]
    refine ⟨not_target, ?_, ?_, bindable_single (inner code)⟩
    · unfold isLoopHead
      rw [Tree.is, Tree.info, Info.is, isHead]
      exact pattern
    · unfold Bindable
      rw [isHead]
      exact ⟨not_target, bindable_of_isPattern pattern, bindable_single (start init)⟩

end Bind

end Offside
