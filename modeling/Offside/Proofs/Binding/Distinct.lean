import Offside.Proofs.Binding.Enclosed

/-!
# Names that are declared once

A host declares no name twice, and the parameters of a function or of a handler are different names
that its scope declares in no other way. An indented body has a scope of its own, so it may declare
them again. What stands in a property has not been looked at: only there can parameters be the
same.
-/

namespace Offside

theorem Info.Bare.nodup {info : Info} (bare : info.Bare) : info.declaredNames.Nodup := by
  rw [show info.declaredNames = [] from bare]
  exact List.nodup_nil

namespace Tree

/-! ## Functions and handlers of a tree -/

mutual

/--
A tree and the trees below it that generation can come to: it reads no more than the text of a key.
-/
def reached : Tree → List Tree
  | .node id info children =>
    .node id info children ::
      match info.symbol, children with
      | .builtin .pair, _ :: values => reachedAll values
      | _, children => reachedAll children

def reachedAll : List Tree → List Tree
  | [] => []
  | t :: ts => reached t ++ reachedAll ts

end

/-- The parameters and the body of a function or of a handler. -/
def code? (t : Tree) : Option (List String × Tree) :=
  match t.children with
  | [params, body] => if t.is .fn || t.is .catchClause then some (params.spelled, body) else none
  | _ => none

def property? (t : Tree) : Option Tree :=
  match t.children with
  | [_, property] => if t.is .member then some property else none
  | _ => none

/-- The functions and handlers of a tree, by their parameters and bodies. -/
def codes (t : Tree) : List (List String × Tree) :=
  t.reached.filterMap code?

/--
A function or a handler with some parameters stands in a property, where binding does not look.
-/
def Overlooks (t : Tree) (params : List String) : Prop :=
  ∃ property ∈ t.reached.filterMap property?, ∃ code ∈ property.codes, code.1 = params

/-- The indented body of a function or of a handler with some parameters declares a name. -/
def Redeclares (t : Tree) (params : List String) (name : String) : Prop :=
  ∃ code ∈ t.codes, code.1 = params ∧ code.2.isBlock .block = true ∧
    name ∈ code.2.info.declaredNames

instance (t : Tree) (params : List String) : Decidable (t.Overlooks params) :=
  inferInstanceAs (Decidable (∃ _ ∈ _, _))

instance (t : Tree) (params : List String) (name : String) : Decidable (t.Redeclares params name) :=
  inferInstanceAs (Decidable (∃ _ ∈ _, _))

section Reached

variable {id : NodeId} {info : Info} {children : List Tree} {t child sub : Tree} {ts : List Tree}

theorem mem_reachedAll : sub ∈ reachedAll ts ↔ ∃ t ∈ ts, sub ∈ t.reached := by
  induction ts with
  | nil => simp [reachedAll]
  | cons t ts ih => simp [reachedAll, ih]

theorem reached_pair {key : Tree} {values : List Tree} (isPair : info.symbol = .builtin .pair) :
    reached (.node id info (key :: values)) =
      .node id info (key :: values) :: reachedAll values := by
  unfold reached
  rw [isPair]

theorem reached_node (noPair : info.symbol = .builtin .pair → children = []) :
    reached (.node id info children) = .node id info children :: reachedAll children := by
  unfold reached
  split
  case h_1 isPair => cases noPair isPair
  case h_2 => rfl

theorem mem_reached_self (t : Tree) : t ∈ t.reached := by
  obtain ⟨id, info, children⟩ := t
  unfold reached
  exact .head _

/-- What can be reached is the tree itself or can be reached from a child. -/
theorem mem_reached_cases (inside : sub ∈ t.reached) :
    sub = t ∨ ∃ child ∈ t.children, sub ∈ child.reached := by
  obtain ⟨id, info, children⟩ := t
  unfold reached at inside
  rw [List.mem_cons] at inside
  refine inside.imp_right fun below => ?_
  split at below
  case h_1 key values _ =>
    obtain ⟨child, member, found⟩ := mem_reachedAll.mp below
    exact ⟨child, List.mem_cons_of_mem key member, found⟩
  case h_2 => exact mem_reachedAll.mp below

theorem mem_reached_of_child (noPair : t.symbol = .builtin .pair → t.children = [])
    (member : child ∈ t.children) (inside : sub ∈ child.reached) : sub ∈ t.reached := by
  obtain ⟨id, info, children⟩ := t
  have same : reached (.node id info children) = _ := reached_node noPair
  rw [same]
  exact .tail _ (mem_reachedAll.mpr ⟨child, member, inside⟩)

/-- What can be reached from the value of an entry. -/
theorem mem_reached_of_value {key : Tree} {values : List Tree}
    (isPair : t.symbol = .builtin .pair) (parts : t.children = key :: values)
    (member : child ∈ values) (inside : sub ∈ child.reached) : sub ∈ t.reached := by
  obtain ⟨id, info, children⟩ := t
  change children = _ at parts
  subst parts
  have same : reached (.node id info (key :: values)) = _ := reached_pair isPair
  rw [same]
  exact .tail _ (mem_reachedAll.mpr ⟨child, member, inside⟩)

/-- A property of all contents, for the contents of what can be reached. -/
theorem Everywhere.reached {P : Info → Prop} {t : Tree} (holds : t.Everywhere P) :
    ∀ sub ∈ t.reached, P sub.info := by
  match t with
  | .node id info children =>
    rw [everywhere_node] at holds
    intro sub inside
    rcases mem_reached_cases inside with rfl | ⟨child, member, found⟩
    · exact holds.1
    · have smaller := List.sizeOf_lt_of_mem member
      exact Everywhere.reached (everywhereAll_iff.mp holds.2 child member) sub found
termination_by sizeOf t
decreasing_by
  simp only [Tree.node.sizeOf_spec]
  change sizeOf child < sizeOf children at smaller
  omega

theorem code?_eq_none (noFn : t.symbol ≠ .builtin .fn)
    (noCatch : t.symbol ≠ .builtin .catchClause) :
    t.code? = none := by
  obtain ⟨id, info, children⟩ := t
  unfold code?
  split
  · refine if_neg fun isCode => ?_
    rcases Bool.or_eq_true_iff.mp isCode with isFn | isCatch
    · exact noFn (symbol_of_is isFn)
    · exact noCatch (symbol_of_is isCatch)
  · rfl

theorem code?_eq_none_of_length (notTwo : t.children.length ≠ 2) : t.code? = none := by
  unfold code?
  split
  case h_1 params body parts =>
    rw [parts] at notTwo
    exact absurd rfl notTwo
  case h_2 => rfl

theorem code?_eq_some {params body : Tree}
    (isCode : info.symbol = .builtin .fn ∨ info.symbol = .builtin .catchClause) :
    (node id info [params, body]).code? = some (params.spelled, body) := by
  have isOp :
    ((node id info [params, body]).is .fn || (node id info [params, body]).is .catchClause)
      = true := by
    rw [Bool.or_eq_true_iff]
    refine isCode.imp (fun isFn => ?_) fun isCatch => ?_
    · exact Info.is_of_symbol isFn
    · exact Info.is_of_symbol isCatch
  exact if_pos isOp

end Reached

/--
The names that a node introduces are different names, but that an indented body may declare
parameters again. Nothing is known of some lists of parameters.
-/
structure Apart (unknown : List String → Prop) (t : Tree) : Prop where
  distinct : t.info.declaredNames.Nodup
  apart : ∀ code, t.code? = some code → ∀ name ∈ code.1, name ∉ t.info.declaredNames
  block : ∀ code, t.code? = some code → code.2.isBlock .block = true → t.info.Bare
  params : ∀ code, t.code? = some code →
    (code.1.Nodup ∧ ∀ name ∈ code.1, Text.Unmarked name) ∨ unknown code.1

/-- All nodes that generation can come to introduce different names. -/
def Parted (t : Tree) : Prop :=
  ∀ sub ∈ t.reached, sub.Apart t.Overlooks

section Apart

variable {unknown : List String → Prop} {t : Tree}

/-- A node that introduces no names. -/
theorem Apart.of_distinct (distinct : t.info.declaredNames.Nodup) (noCode : t.code? = none) :
    t.Apart unknown := by
  constructor
  · exact distinct
  all_goals
    intro code isCode
    rw [noCode] at isCode
    cases isCode

theorem Apart.of_bare (bare : t.info.Bare) (noCode : t.code? = none) : t.Apart unknown :=
  .of_distinct bare.nodup noCode

/-- Where binding has not looked, nothing is declared. -/
theorem Apart.of_skipped (bare : t.info.Bare)
    (params : ∀ code, t.code? = some code → unknown code.1) : t.Apart unknown := by
  constructor
  · exact bare.nodup
  · intro code isCode name _
    rw [show t.info.declaredNames = [] from bare]
    exact List.not_mem_nil
  · exact fun _ _ _ => bare
  · exact fun code isCode => .inr (params code isCode)

end Apart

end Tree

namespace Bind

open List Offside.Tree

variable {base : Table Declaration} {final : Scopes Declaration} {seen : Seen}
  {before gained : List Entry} {around : List (List Entry)} {admitted : String → Prop}

/-! ## Names are new -/

/-- A hoisted name is new in its scope. -/
theorem Bound.new (bound : Bound base final seen before around gained) :
    ∀ entry ∈ gained, entry.2.hoisted = true → Table.find before entry.1 = none := by
  induction bound with
  | nothing | left | used | noNames | nameless | noEntry | confined | code =>
    exact fun _ member => absurd member not_mem_nil
  | more _ _ first rest | moreNames _ _ first rest | assigned _ _ _ _ _ first rest =>
    intro entry member isHoisted
    rcases mem_append.mp member with early | late
    · exact first entry early isHoisted
    · have absent := rest entry late isHoisted
      rw [Table.find_append, Option.or_eq_none_iff] at absent
      exact absent.1
  | declared _ _ _ _ new | name _ _ _ _ new =>
    intro entry member _
    cases mem_singleton.mp member
    exact new
  | nameTuple _ _ _ ih | parts _ _ _ _ ih | member _ _ _ _ _ ih | entry _ _ _ _ ih
  | declaration _ _ _ _ ih | loop _ _ _ _ _ _ _ _ ih => exact ih
  | listed _ _ _ names =>
    intro entry member isHoisted
    obtain ⟨c, inside, listed⟩ := mem_flatMap.mp member
    obtain ⟨d, isBound, _⟩ := (names c inside).named
    rw [Info.entry, isBound] at listed
    cases mem_singleton.mp listed
    cases ((names c inside).declared d isBound).2.symm.trans isHoisted

/-- Names that are new in their scope and different from each other. -/
structure Fresh (before gained : List Entry) : Prop where
  new : ∀ entry ∈ gained, Table.find before entry.1 = none
  distinct : (gained.map Prod.fst).Nodup

theorem Fresh.append {more : List Entry} (first : Fresh before gained)
    (rest : Fresh (before ++ gained) more) : Fresh before (gained ++ more) := by
  have absent :
      ∀ entry ∈ more, Table.find before entry.1 = none ∧ Table.find gained entry.1 = none := by
    intro entry member
    rw [← Option.or_eq_none_iff, ← Table.find_append]
    exact rest.new entry member
  constructor
  · intro entry member
    rcases mem_append.mp member with early | late
    · exact first.new entry early
    · exact (absent entry late).1
  · rw [map_append, nodup_append]
    refine ⟨first.distinct, rest.distinct, fun name early other late same => ?_⟩
    subst same
    obtain ⟨entry, member, rfl⟩ := mem_map.mp early
    obtain ⟨again, behind, same⟩ := mem_map.mp late
    have missing := (absent again behind).2
    rw [same] at missing
    exact Table.not_mem_of_find missing entry.2 member

/-- The names of patterns are new, whether they are hoisted or not. -/
theorem Bound.fresh (bound : Bound base final seen before around gained) :
    ∀ hoisted ts, seen = .names hoisted ts → Fresh before gained := by
  induction bound with
  | noNames | nameless => exact fun _ _ _ => ⟨forall_mem_nil _, nodup_nil⟩
  | moreNames _ _ first rest =>
    rintro hoisted ts ⟨⟩
    exact (first _ _ rfl).append (rest _ _ rfl)
  | name _ _ _ _ new =>
    exact fun _ _ _ => ⟨forall_mem_singleton.mpr new, pairwise_singleton _ _⟩
  | nameTuple _ _ _ ih =>
    rintro hoisted ts ⟨⟩
    exact ih _ _ rfl
  | _ => rintro hoisted ts ⟨⟩

/-- An indented block declares nothing in the scope in which it stands. -/
theorem Bound.of_block (bound : Bound base final seen before around gained) :
    ∀ place t, seen = .trees place [t] → t.isBlock .block = true → gained = [] := by
  induction bound with
  | nothing | left | used | noNames | nameless | noEntry | confined | code =>
    exact fun _ _ _ _ => rfl
  | more first rest ih =>
    rintro place t ⟨⟩ isBlock
    rw [ih _ _ rfl isBlock]
    cases rest with
    | nothing => rfl
  | moreNames | name | nameTuple => rintro place t ⟨⟩
  | parts composes =>
    rintro place t ⟨⟩ isBlock
    cases composes.noHost .block (Info.symbol_of_isBlock isBlock)
  | declared isOther | assigned isOther | member isOther | entry isOther | listed isOther
  | loop isOther =>
    rintro place t ⟨⟩ isBlock
    cases isOther.symm.trans (Info.symbol_of_isBlock isBlock)
  | declaration declares =>
    rintro place t ⟨⟩ isBlock
    rcases declares with isOther | isOther
    all_goals cases isOther.symm.trans (Info.symbol_of_isBlock isBlock)

/-! ## Names are apart -/

/-- If some trees are parts of a whole tree, their nodes introduce different names. -/
def PartedIn (whole : Tree) (ts : List Tree) : Prop :=
  (∀ t ∈ ts, ∀ sub ∈ t.reached, sub ∈ whole.reached) →
    ∀ t ∈ ts, ∀ sub ∈ t.reached, sub.Apart whole.Overlooks

section PartedIn

variable {whole t : Tree} {ts : List Tree} {id : NodeId} {info : Info} {children : List Tree}

theorem PartedIn.nil : PartedIn whole [] :=
  fun _ _ member => absurd member not_mem_nil

theorem PartedIn.cons (first : PartedIn whole [t]) (rest : PartedIn whole ts) :
    PartedIn whole (t :: ts) := by
  intro within
  rw [forall_mem_cons] at within ⊢
  refine ⟨?_, rest within.2⟩
  exact first (forall_mem_singleton.mpr within.1) t mem_cons_self

theorem PartedIn.node (noPair : info.symbol = .builtin .pair → children = [])
    (here : (node id info children).Apart whole.Overlooks) (below : PartedIn whole children) :
    PartedIn whole [.node id info children] := by
  intro within
  rw [forall_mem_singleton] at within ⊢
  intro sub inside
  rcases mem_reached_cases inside with rfl | ⟨child, member, found⟩
  · exact here
  · refine below (fun child member sub found => ?_) child member sub found
    exact within sub (mem_reached_of_child noPair member found)

theorem PartedIn.leaf (bare : info.Bare) : PartedIn whole [.node id info []] :=
  .node (fun _ => rfl) (.of_bare bare (code?_eq_none_of_length (Nat.zero_ne_add_one 1))) .nil

theorem PartedIn.leaves (bare : EverywhereAll Info.Bare ts) (leaves : ∀ t ∈ ts, t.children = []) :
    PartedIn whole ts := by
  induction ts with
  | nil => exact .nil
  | cons t ts ih =>
    rw [everywhereAll_cons] at bare
    rw [forall_mem_cons] at leaves
    refine .cons ?_ (ih bare.2 leaves.2)
    obtain ⟨id, info, children⟩ := t
    have isNil : children = [] := leaves.1
    subst isNil
    exact .leaf ((everywhere_node _ _ _).mp bare.1).1

theorem PartedIn.parts (composes : Composes info children.length) (bare : info.Bare)
    (below : PartedIn whole children) : PartedIn whole [.node id info children] := by
  refine .node (fun isPair => absurd isPair (composes.ne rfl (by decide))) (.of_bare bare ?_) below
  exact code?_eq_none (composes.ne rfl (by decide)) (composes.ne rfl (by decide))

theorem PartedIn.confined (confines : Confines info children.length)
    (distinct : info.declaredNames.Nodup)
    (below : PartedIn whole children) : PartedIn whole [.node id info children] := by
  refine .node (fun isPair => absurd isPair (confines.ne rfl)) (.of_distinct distinct ?_) below
  cases confines with
  | block same | loop same =>
    apply code?_eq_none
    all_goals exact fun isCode => by cases same.symm.trans isCode
  | code _ notTwo => exact code?_eq_none_of_length notTwo

/-- A node that is neither an entry nor a function nor a handler. -/
theorem PartedIn.builtin {op : Builtin} (isOp : info.symbol = .builtin op)
    (plain : op ≠ .pair ∧ op ≠ .fn ∧ op ≠ .catchClause) (distinct : info.declaredNames.Nodup)
    (below : PartedIn whole children) : PartedIn whole [.node id info children] := by
  have other (known : Builtin) (differs : op ≠ known) : info.symbol ≠ .builtin known := by
    intro isKnown
    cases isOp.symm.trans isKnown
    exact differs rfl
  refine .node (fun isPair => absurd isPair (other .pair plain.1)) ?_ below
  exact .of_distinct distinct (code?_eq_none (other .fn plain.2.1) (other .catchClause plain.2.2))

theorem PartedIn.entry {key : Tree} {values : List Tree} (isPair : info.symbol = .builtin .pair)
    (bare : info.Bare) (below : PartedIn whole values) :
    PartedIn whole [.node id info (key :: values)] := by
  have noCode : (Tree.node id info (key :: values)).code? = none := by
    apply code?_eq_none
    all_goals
      intro isCode
      cases isPair.symm.trans isCode
  have same : reached (.node id info (key :: values)) = _ := reached_pair isPair
  intro within
  rw [forall_mem_singleton, same, forall_mem_cons] at within ⊢
  refine ⟨.of_bare bare noCode, fun sub found => ?_⟩
  obtain ⟨child, member, inside⟩ := mem_reachedAll.mp found
  refine below (fun child member sub inside => ?_) child member sub inside
  exact within.2 sub (mem_reachedAll.mpr ⟨child, member, inside⟩)

/-- What stands in a property is overlooked. -/
theorem PartedIn.member {object : Tree} {properties : List Tree}
    (isMember : info.symbol = .builtin .member) (bare : info.Bare)
    (few : properties.length ≤ 1) (skipped : EverywhereAll Info.Bare properties)
    (below : PartedIn whole [object]) : PartedIn whole [.node id info (object :: properties)] := by
  intro within
  have inWhole := within _ (.head _) _ (mem_reached_self _)
  refine PartedIn.builtin isMember (by decide) bare.nodup
    (.cons below fun _ property listed sub inside => ?_) within
  apply Apart.of_skipped
  · exact (everywhereAll_iff.mp skipped property listed).reached sub inside
  · intro code isCode
    obtain ⟨only, rfl⟩ : ∃ only, properties = [only] := by
      cases properties with
      | nil => cases listed
      | cons only rest =>
        cases eq_nil_of_length_eq_zero (Nat.le_zero.mp (Nat.le_of_succ_le_succ few))
        exact ⟨only, rfl⟩
    cases mem_singleton.mp listed
    refine ⟨property, mem_filterMap.mpr ⟨_, inWhole, ?_⟩, code,
      mem_filterMap.mpr ⟨sub, inside, isCode⟩, rfl⟩
    exact if_pos (Info.is_of_symbol isMember)

/-- The parameters of a function or of a handler are new names, and its body may declare others. -/
theorem PartedIn.code {final : Scopes Declaration} {params body : Tree} {first second : List Entry}
    (isCode : info.symbol = .builtin .fn ∨ info.symbol = .builtin .catchClause)
    (collects : Collects final info (first ++ second)) (declared : DeclaredAll false first [params])
    (fresh : Fresh [] first)
    (new : ∀ entry ∈ second, entry.2.hoisted = true → Table.find first entry.1 = none)
    (block : body.isBlock .block = true → second = [])
    (below : PartedIn whole [params, body]) : PartedIn whole [.node id info [params, body]] := by
  have names : first.map Prod.fst = params.spelled := by
    rw [declared.spelled, spelledAll, spelledAll, append_nil]
  -- what is hoisted comes from the body
  have hoisted : ∀ name ∈ info.declaredNames, ∃ d, (name, d) ∈ second ∧ d.hoisted = true := by
    intro name member
    obtain ⟨d, listed, isHoisted⟩ := collects.mem_declaredNames.mp member
    rcases mem_append.mp listed with early | late
    · cases (declared.flags _ early).1.symm.trans isHoisted
    · exact ⟨d, late, isHoisted⟩
  have noPair : info.symbol ≠ .builtin .pair := by
    intro isPair
    rcases isCode with isOp | isOp
    all_goals cases isOp.symm.trans isPair
  refine .node (fun isPair => absurd isPair noPair) ?_ below
  have same : (Tree.node id info [params, body]).code? = _ := code?_eq_some isCode
  constructor
  · exact collects.distinct
  · rw [same]
    rintro code ⟨⟩ name listed member
    obtain ⟨d, late, isHoisted⟩ := hoisted name member
    rw [← names] at listed
    obtain ⟨entry, early, rfl⟩ := mem_map.mp listed
    exact Table.not_mem_of_find (new _ late isHoisted) entry.2 early
  · rw [same]
    rintro code ⟨⟩ isBlock
    refine eq_nil_iff_forall_not_mem.mpr fun name member => ?_
    obtain ⟨d, late, _⟩ := hoisted name member
    rw [block isBlock] at late
    cases late
  · rw [same]
    rintro code ⟨⟩
    refine .inl ⟨names ▸ fresh.distinct, fun name listed => ?_⟩
    rw [← names] at listed
    obtain ⟨entry, early, rfl⟩ := mem_map.mp listed
    exact (declared.flags entry early).2

end PartedIn

/-- The rules introduce different names, whatever expressions they make. -/
theorem Bound.parted {whole : Tree} (bound : Bound base final seen before around gained)
    (sane : ∀ t ∈ seen.list, Sane admitted (fun _ => True) t) : PartedIn whole seen.list := by
  induction bound with
  | nothing | noNames => exact .nil
  | more _ _ first rest | moreNames _ _ first rest =>
    obtain ⟨here, others⟩ := forall_mem_cons.mp sane
    exact .cons (first (forall_mem_singleton.mpr here)) (rest others)
  | left isTag plain | nameless isTag plain =>
    cases (sane _ (.head _)).formed.root.isLeaf isTag
    exact .leaf plain.bare
  | declared isTag _ _ refers | used isTag _ _ refers | name isTag _ _ refers =>
    cases (sane _ (.head _)).formed.root.isLeaf isTag
    exact .leaf refers.bare
  | nameTuple isTuple plain _ ih =>
    exact .builtin isTuple (by decide) plain.bare.nodup (ih (sane _ (.head _)).below)
  | parts composes plain _ _ ih => exact .parts composes plain.bare (ih (sane _ (.head _)).below)
  | assigned isAssign plain _ _ _ first rest =>
    obtain ⟨left, right⟩ := forall_mem_cons.mp (sane _ (.head _)).below
    exact .builtin isAssign (by decide) plain.bare.nodup
      (.cons (first (forall_mem_singleton.mpr left)) (rest right))
  | member isMember plain _ _ skipped ih =>
    have here := sane _ (.head _)
    have object := (forall_mem_cons.mp here.below).1
    exact .member isMember plain.bare (here.few_properties isMember) (bareAll skipped)
      (ih (forall_mem_singleton.mpr object))
  | noEntry _ plain => exact .leaf plain.bare
  | entry isPair plain _ _ ih =>
    exact .entry isPair plain.bare (ih (forall_mem_cons.mp (sane _ (.head _)).below).2)
  | declaration declares plain _ _ ih =>
    have names := ih (sane _ (.head _)).below
    rcases declares with isOp | isOp
    all_goals exact .builtin isOp (by decide) plain.bare.nodup names
  | listed isExternal plain _ names =>
    refine .builtin isExternal (by decide) plain.bare.nodup (.leaves (everywhereAll_iff.mpr ?_) ?_)
    · intro c inside
      exact (names c inside).bare
    · intro c inside
      obtain ⟨kind, isTag⟩ := Info.exists_tag (names c inside).isTag
      exact ((sane _ (.head _)).below c inside).formed.root.isLeaf isTag
  | confined confines _ collects _ ih =>
    exact .confined confines collects.distinct (ih (sane _ (.head _)).below)
  | code isCode _ collects params body first rest =>
    obtain ⟨here, code⟩ := forall_mem_cons.mp (sane _ (.head _)).below
    have names := forall_mem_singleton.mpr here
    have declared := params.encloses (fun _ _ _ => trivial) names
    exact .code isCode collects declared (params.fresh _ _ rfl) body.new (body.of_block _ _ rfl)
      (.cons (first names) (rest code))
  | loop isLoop _ isHead plain collects _ _ _ start heads inner =>
    obtain ⟨head, code⟩ := forall_mem_cons.mp (sane _ (.head _)).below
    obtain ⟨pattern, init⟩ := forall_mem_cons.mp head.below
    refine .builtin isLoop (by decide) collects.distinct (.cons ?_ (inner code))
    exact .builtin isHead (by decide) plain.bare.nodup
      (.cons (heads (forall_mem_singleton.mpr pattern)) (start init))

/-- The names of a bound expression are apart. -/
theorem Bound.isParted {t : Tree}
    (bound : Bound base final (.trees .value [t]) before around gained)
    (formed : t.Obeys (Info.Formed admitted)) : t.Parted :=
  bound.parted (forall_mem_singleton.mpr (.of_formed formed))
    (forall_mem_singleton.mpr fun _ inside => inside) _ (.head _)

end Bind

end Offside
