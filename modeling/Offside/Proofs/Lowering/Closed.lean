import Offside.Proofs.Contents.Combination
import Offside.Proofs.Lowering.Rules

/-!
# Closed trees

A tree is closed under some names if every name that generation can take from it is one of them
or is declared around it in the tree. The names of properties need not be known, nor need the keys
of objects. Names that are barred count for nothing where they are declared, and are no properties.
-/

namespace Offside

open List

/-- Some names together with others, of which those that are barred do not count. -/
def Adding (barred known : String → Prop) (names : List String) (name : String) : Prop :=
  known name ∨ name ∈ names ∧ ¬barred name

theorem Adding.mono {barred known more : String → Prop} {names : List String} {name : String}
    (adding : Adding barred known names name) (weaken : ∀ name, known name → more name) :
    Adding barred more names name :=
  adding.imp_left (weaken name)

theorem Adding.swap {barred known : String → Prop} {names more : List String} {name : String}
    (adding : Adding barred (Adding barred known names) more name) :
    Adding barred (Adding barred known more) names name := by
  rcases adding with (before | first) | second
  · exact .inl (.inl before)
  · exact .inr first
  · exact .inl (.inr second)

namespace Tree

open Lowering (isNamed)

variable {barred known more : String → Prop}

mutual

/-- Every name that generation can take from a tree is known or declared around it. -/
def Closed (barred known : String → Prop) : Tree → Prop
  | .node _ info children =>
    let own := Adding barred known info.declaredNames
    match info.symbol, children with
    | .tag _, _ => ∀ name, info.name? = some name → known name
    | .builtin .var, inner :: _ | .builtin .const, inner :: _ =>
      (∀ name, inner.name? = some name → known name) ∧ Closed barred known inner
    | .builtin .member, [object, property] =>
      Closed barred known object ∧ (isNamed property = false → Closed barred known property) ∧
        ∀ name, property.name? = some name → ¬barred name
    | .builtin .fn, [params, code] | .builtin .catchClause, [params, code] =>
      Closed barred (Adding barred own params.spelled) code
    | .builtin .loop, [.node _ _ [names, init], code] =>
      (∀ name ∈ names.spelled, own name) ∧ Closed barred known init ∧ Closed barred own code
    | .builtin .pair, _ :: values => ClosedAll barred known values
    | .builtin .external, _ | .builtin .fn, _ | .builtin .catchClause, _ => True
    | .block _, lines | .builtin .loop, lines => ClosedAll barred own lines
    | _, children => ClosedAll barred known children

def ClosedAll (barred known : String → Prop) : List Tree → Prop
  | [] => True
  | t :: ts => Closed barred known t ∧ ClosedAll barred known ts

end

theorem closedAll_iff {ts : List Tree} :
    ClosedAll barred known ts ↔ ∀ t ∈ ts, Closed barred known t := by
  induction ts with
  | nil => simp [ClosedAll]
  | cons t ts ih => simp [ClosedAll, ih]

mutual

theorem Closed.mono {known more : String → Prop} {t : Tree} (closed : Closed barred known t)
    (weaken : ∀ name, known name → more name) : Closed barred more t := by
  cases t with
  | node id info children =>
    have own (name : String) (adding : Adding barred known info.declaredNames name) :
        Adding barred more info.declaredNames name := adding.mono weaken
    unfold Closed at closed ⊢
    dsimp only at closed ⊢
    split at closed
    case h_1 => exact fun name named => weaken name (closed name named)
    case h_2 | h_3 =>
      exact ⟨fun name named => weaken name (closed.1 name named), closed.2.mono weaken⟩
    case h_4 =>
      exact ⟨closed.1.mono weaken, fun computed => (closed.2.1 computed).mono weaken, closed.2.2⟩
    case h_5 | h_6 => exact closed.mono fun _ adding => adding.mono own
    case h_7 =>
      exact ⟨fun name member => own name (closed.1 name member), closed.2.1.mono weaken,
        closed.2.2.mono own⟩
    case h_8 => exact closed.mono weaken
    case h_9 | h_10 | h_11 => trivial
    case h_12 | h_13 => exact closed.mono own
    case h_14 => exact closed.mono weaken

theorem ClosedAll.mono {known more : String → Prop} {ts : List Tree}
    (closed : ClosedAll barred known ts) (weaken : ∀ name, known name → more name) :
    ClosedAll barred more ts := by
  cases ts with
  | nil => trivial
  | cons t ts =>
    rw [ClosedAll] at closed ⊢
    exact ⟨closed.1.mono weaken, closed.2.mono weaken⟩

end

def carried (t : Tree) : List String :=
  t.gather fun info _ => info.name?.toList

theorem mem_carried_of_name {t : Tree} {name : String} (named : t.name? = some name) :
    name ∈ t.carried :=
  mem_gather.mpr (.inl (Option.mem_toList.mpr named))

/-- What holds of the names of all nodes holds of the names that a tree carries. -/
theorem forall_carried {property : String → Prop} {t : Tree}
    (all : t.Everywhere fun info => ∀ name, info.name? = some name → property name) :
    ∀ name ∈ t.carried, property name := by
  induction t with
  | node id info children ih =>
    rw [everywhere_node, everywhereAll_iff] at all
    intro name member
    rcases mem_gather.mp member with here | ⟨child, known, inside⟩
    · exact all.1 name (Option.mem_toList.mp here)
    · exact ih child known (all.2 child known) name inside

theorem mem_spelledAll {ts : List Tree} {name : String} :
    name ∈ spelledAll ts ↔ ∃ t ∈ ts, name ∈ t.spelled := by
  induction ts with
  | nil => simp [spelledAll]
  | cons t ts ih => simp [spelledAll, ih]

theorem spelled_subset_carried (t : Tree) : ∀ name ∈ t.spelled, name ∈ t.carried := by
  induction t with
  | node id info children ih =>
    intro name member
    unfold spelled at member
    split at member
    case h_1 => exact mem_gather.mpr (.inl member)
    case h_2 inner rest _ | h_3 inner rest _ =>
      exact mem_gather_of_child (.head _) (ih inner (.head _) name member)
    case h_4 =>
      obtain ⟨child, known, inside⟩ := mem_spelledAll.mp member
      exact mem_gather_of_child known (ih child known name inside)
    case h_5 => cases member

mutual

/-- Where every name that it carries is known, and is not barred, a tree is closed. -/
theorem closed_of_carried {known : String → Prop} {t : Tree}
    (all : ∀ name ∈ t.carried, known name ∧ ¬barred name) : Closed barred known t := by
  cases t with
  | node id info children =>
    have below {child : Tree} (member : child ∈ children) :
        ∀ name ∈ child.carried, known name ∧ ¬barred name :=
      fun name inside => all name (mem_gather_of_child member inside)
    have own {child : Tree} (member : child ∈ children) :
        ∀ name ∈ child.carried, Adding barred known info.declaredNames name ∧ ¬barred name :=
      fun name inside => (below member name inside).imp_left .inl
    unfold Closed
    dsimp only
    split
    case h_1 => exact fun name named => (all name (mem_carried_of_name named)).1
    case h_2 inner _ _ | h_3 inner _ _ =>
      have here := below mem_cons_self
      exact ⟨fun name named => (here name (mem_carried_of_name named)).1, closed_of_carried here⟩
    case h_4 object property _ =>
      have inProperty := below (mem_cons_of_mem object mem_cons_self)
      exact ⟨closed_of_carried (below mem_cons_self), fun _ => closed_of_carried inProperty,
        fun name named => (inProperty name (mem_carried_of_name named)).2⟩
    case h_5 params code _ | h_6 params code _ =>
      exact closed_of_carried fun name inside => (own (by simp) name inside).imp_left .inl
    case h_7 headId headInfo names init code _ =>
      have head {part : Tree} (member : part ∈ [names, init]) :
          ∀ name ∈ part.carried, known name ∧ ¬barred name :=
        fun name inside => below mem_cons_self name (mem_gather_of_child member inside)
      refine ⟨fun name member => .inl ?_, closed_of_carried (head (by simp)),
        closed_of_carried (own (by simp))⟩
      exact (head mem_cons_self name (spelled_subset_carried names name member)).1
    case h_8 key values _ =>
      exact closedAll_of_carried fun child member => below (mem_cons_of_mem key member)
    case h_9 | h_10 | h_11 => trivial
    case h_12 | h_13 => exact closedAll_of_carried fun child member => own member
    case h_14 => exact closedAll_of_carried fun child member => below member

theorem closedAll_of_carried {known : String → Prop} {ts : List Tree}
    (all : ∀ t ∈ ts, ∀ name ∈ t.carried, known name ∧ ¬barred name) :
    ClosedAll barred known ts := by
  cases ts with
  | nil => trivial
  | cons t ts =>
    rw [ClosedAll]
    exact ⟨closed_of_carried (all t mem_cons_self),
      closedAll_of_carried fun child member => all child (mem_cons_of_mem t member)⟩

end

/-! ## Parts of closed trees -/

variable {t : Tree}

section

variable (closed : Closed barred known t)
include closed

theorem Closed.name (isTag : t.isTag) {name : String} (named : t.name? = some name) :
    known name := by
  obtain ⟨kind, tagged⟩ := Info.exists_tag isTag
  rw [eq_node tagged rfl] at closed
  exact closed name named

theorem Closed.declared (declares : t.is .var ∨ t.is .const) {inner : Tree} {rest : List Tree}
    (parts : t.children = inner :: rest) :
    (∀ name, inner.name? = some name → known name) ∧ Closed barred known inner := by
  rcases declares with isOp | isOp
  all_goals
    rw [eq_node (Info.symbol_of_is isOp) parts] at closed
    exact closed

theorem Closed.member (isMember : t.is .member) {object property : Tree}
    (parts : t.children = [object, property]) :
    Closed barred known object ∧ (isNamed property = false → Closed barred known property) ∧
      ∀ name, property.name? = some name → ¬barred name := by
  rw [eq_node (Info.symbol_of_is isMember) parts] at closed
  exact closed

theorem Closed.code (isHost : t.is .fn ∨ t.is .catchClause) {params code : Tree}
    (parts : t.children = [params, code]) :
    Closed barred
      (Adding barred (Adding barred known t.info.declaredNames) params.spelled) code := by
  rcases isHost with isOp | isOp
  all_goals
    rw [eq_node (Info.symbol_of_is isOp) parts] at closed
    exact closed

theorem Closed.loop (isLoop : t.is .loop) {head names init code : Tree}
    (parts : t.children = [head, code]) (starts : head.children = [names, init]) :
    (∀ name ∈ names.spelled, Adding barred known t.info.declaredNames name) ∧
      Closed barred known init ∧ Closed barred (Adding barred known t.info.declaredNames) code := by
  obtain ⟨headId, headInfo, heads⟩ := head
  cases starts
  rw [eq_node (Info.symbol_of_is isLoop) parts] at closed
  exact closed

theorem Closed.endless (isLoop : t.is .loop) {code : Tree} (parts : t.children = [code]) :
    Closed barred (Adding barred known t.info.declaredNames) code := by
  rw [eq_node (Info.symbol_of_is isLoop) parts] at closed
  -- the pattern of a head is looked for before the number of the children is
  obtain ⟨codeId, codeInfo, _ | ⟨_, _ | ⟨_, _ | _⟩⟩⟩ := code
  all_goals exact (closedAll_iff.mp closed) _ (mem_singleton.mpr rfl)

theorem Closed.lines {kind : BlockKind} (isBlock : t.isBlock kind) :
    ∀ line ∈ t.children, Closed barred (Adding barred known t.info.declaredNames) line := by
  rw [eq_node (Info.symbol_of_isBlock isBlock) rfl] at closed
  exact closedAll_iff.mp closed

end

theorem Closed.parts (closed : Closed barred known t) {op : Builtin} (isOp : t.is op)
    (simple : isOpen op) {parts : List Tree} (same : t.children = parts) :
    ∀ part ∈ parts, Closed barred known part := by
  rw [eq_node (Info.symbol_of_is isOp) same] at closed
  rw [← closedAll_iff]
  cases op <;> first | exact closed | cases simple

/-- The names of a closed target are known. -/
theorem Closed.spelled {t : Tree} (closed : Closed barred known t) :
    ∀ name ∈ t.spelled, known name := by
  induction t with
  | node id info children ih =>
    intro name member
    unfold Tree.spelled at member
    split at member
    case h_1 kind isTag =>
      have named : info.name? = some name := by simpa using member
      exact closed.name (congrArg (fun symbol => symbol.tag?.isSome) isTag) named
    case h_2 inner rest isVar =>
      have declares := Info.is_of_symbol isVar
      exact ih inner (.head _) (closed.declared (.inl declares) rfl).2 name member
    case h_3 inner rest isConst =>
      have declares := Info.is_of_symbol isConst
      exact ih inner (.head _) (closed.declared (.inr declares) rfl).2 name member
    case h_4 isTuple =>
      have isOp := Info.is_of_symbol isTuple
      obtain ⟨part, listed, inside⟩ := mem_spelledAll.mp member
      exact ih part listed (closed.parts isOp rfl rfl part listed) name inside
    case h_5 => cases member

end Tree

namespace Lowering

open Offside.Tree (Closed)

variable {barred known : String → Prop} {t : Tree}

/-- What a closed node is opened to is as closed as the node. -/
theorem Opens.closed {parts : List Tree} (opens : Opens t parts) (closed : t.Closed barred known) :
    ∀ part ∈ parts, part.Closed barred known := by
  cases opens with
  | literal => exact forall_mem_nil _
  | parts isOp simple => exact closed.parts isOp simple rfl
  | entry isPair same =>
    rw [Tree.eq_node (Info.symbol_of_is isPair) same] at closed
    exact Tree.closedAll_iff.mp closed
  | line isBlock same bare =>
    intro part member
    refine (closed.lines isBlock part (same ▸ member)).mono fun name adding => ?_
    refine adding.resolve_right fun declared => ?_
    rw [bare] at declared
    exact absurd declared.1 not_mem_nil
  | member isMember same computed =>
    have both := closed.member isMember same
    exact forall_mem_cons.mpr ⟨both.1, forall_mem_singleton.mpr (both.2.1 computed)⟩
  | other isElse found =>
    exact forall_mem_singleton.mpr (closed.parts isElse rfl rfl _ (mem_of_getElem? found))
  | pattern declares same =>
    exact forall_mem_singleton.mpr (closed.declared declares same).2

theorem Unfolds.closed {ts : List Tree} (unfolds : Unfolds [t] ts)
    (closed : t.Closed barred known) :
    ∀ part ∈ ts, part.Closed barred known :=
  unfolds.all (fun closed opens => opens.closed closed) (forall_mem_singleton.mpr closed)

end Lowering

end Offside
