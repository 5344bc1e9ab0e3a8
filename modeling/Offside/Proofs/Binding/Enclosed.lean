import Offside.Proofs.Binding.Rules
import Offside.Proofs.Lowering.Tally

/-!
# Names of a bound tree

Binding without a report makes a tree in which every name that generation can take is declared
around it or comes from outside, and in which no name that a node declares starts with a `$`. What
stands in a property that is no name has not been looked at; its names count as names from
outside.
-/

namespace Offside

/-- Nothing is declared at the top of a node. -/
def Info.Bare (info : Info) : Prop :=
  info.declaredNames = []

/-- The names that are declared at the top of a node have a property. -/
def Info.Owns (property : String → Prop) (info : Info) : Prop :=
  ∀ name ∈ info.declaredNames, property name

theorem Info.Bare.owns {info : Info} (bare : info.Bare) (property : String → Prop) :
    info.Owns property := by
  intro name member
  rw [bare] at member
  cases member

theorem Info.Plain.bare {info : Info} (plain : info.Plain) : info.Bare := by
  rw [Bare, declaredNames, plain.decls]

theorem Info.Refers.bare {info : Info} {d : Declaration} (refers : info.Refers d) : info.Bare := by
  rw [Bare, declaredNames, refers.decls]

namespace Tree

open Lowering (isNamed)

/-! ## Names from outside -/

/-- The name of a tag from outside, or the names that a node makes visible. -/
def externalsHere (info : Info) (children : List Tree) : List String :=
  match info.symbol with
  | .tag .external => info.name?.toList
  | .builtin .external =>
    children.flatMap fun child => if child.isTag then child.name?.toList else []
  | _ => []

/-- The names of tags from outside and those that `#external` makes visible. -/
def externals (t : Tree) : List String :=
  t.gather externalsHere

/-- The names in the property of a node, if it is no name itself. -/
def straysHere (info : Info) (children : List Tree) : List String :=
  match children with
  | [_, property] => if info.is .member && !isNamed property then property.carried else []
  | _ => []

/-- The names in properties that are no names themselves. -/
def strays (t : Tree) : List String :=
  t.gather straysHere

/-- All names that binding does not look up are outside. -/
structure Foreign (outside : String → Prop) (t : Tree) : Prop where
  externals : ∀ name ∈ t.externals, outside name
  strays : ∀ name ∈ t.strays, outside name

variable {outside known : String → Prop} {t : Tree}

theorem Foreign.below (foreign : t.Foreign outside) {child : Tree} (member : child ∈ t.children) :
    child.Foreign outside :=
  ⟨fun name inside => foreign.externals name (mem_gather_of_child member inside),
    fun name inside => foreign.strays name (mem_gather_of_child member inside)⟩


/-- A tree whose nodes do not declare a name does not introduce it for a list. -/
theorem tally_hoisted_eq_zero {name : String}
    (free : t.Everywhere fun info => name ∉ info.declaredNames) :
    t.tally (.hoisted name) = 0 := by
  refine tally_eq_zero (fun id info children free => ?_) free
  rw [everywhere_node, everywhereAll_iff] at free
  exact ⟨by simpa using free.1, by simp, free.2⟩

variable {barred : String → Prop} {id : NodeId} {info : Info} {children : List Tree}

/-- A node that neither declares names nor leaves a part out. -/
def HasParts (info : Info) (children : List Tree) : Prop :=
  (∀ kind, info.symbol ≠ .tag kind) ∧
    ∀ op, info.symbol = .builtin op → isOpen op = true ∨ children = []

theorem HasParts.of_builtin {op : Builtin} (isOp : info.symbol = .builtin op)
    (simple : isOpen op = true) : HasParts info children := by
  constructor
  · intro kind isTag
    cases isOp.symm.trans isTag
  · intro other isOther
    cases isOp.symm.trans isOther
    exact .inl simple

theorem HasParts.of_nil {op : Builtin} (isOp : info.symbol = .builtin op) : HasParts info [] := by
  constructor
  · intro kind isTag
    cases isOp.symm.trans isTag
  · exact fun _ _ => .inr rfl

theorem Closed.of_parts (hasParts : HasParts info children)
    (parts : ∀ child ∈ children, child.Closed barred known) :
    (node id info children).Closed barred known := by
  unfold Closed
  dsimp only
  split
  case h_1 isTag => exact absurd isTag (hasParts.1 _)
  case h_2 same | h_3 same | h_4 same | h_5 same | h_6 same | h_7 same | h_8 same =>
    rcases hasParts.2 _ same with isOpen | isNil
    · cases isOpen
    · cases isNil
  case h_9 | h_10 | h_11 => trivial
  case h_12 | h_13 =>
    exact closedAll_iff.mpr fun child member => (parts child member).mono fun _ => .inl
  case h_14 => exact closedAll_iff.mpr parts

end Tree

namespace Bind

open List Offside.Tree

variable {base : Table Declaration} {scope : ScopeId} {before : List Entry}
  {around : List (List Entry)} {outside admitted : String → Prop}

theorem Confines.closed {barred known : String → Prop} {id : NodeId} {info : Info}
    {children : List Tree} (confines : Confines info children.length)
    (lines : ∀ line ∈ children, line.Closed barred (Adding barred known info.declaredNames)) :
    (node id info children).Closed barred known := by
  have all := closedAll_iff.mpr lines
  unfold Closed
  dsimp only
  cases confines with
  | block isBlock => rwa [isBlock]
  | loop isLoop endless =>
    rw [isLoop]
    split <;> simp_all
  | code isCode =>
    rcases isCode with same | same
    all_goals
      rw [same]
      split <;> simp_all

/-- Names that are outside or in some frames are known. -/
structure Knows (outside : String → Prop) (frames : List (List Entry)) (known : String → Prop) :
    Prop where
  outside : ∀ name, outside name → known name
  frames : ∀ frame ∈ frames, ∀ entry ∈ frame, known entry.1

/-- An entry of a frame that is hoisted or outside; a hoisted name does not start with a `$`. -/
structure Proper (outside : String → Prop) (entry : Entry) : Prop where
  unmarked : entry.2.hoisted = true → Text.Unmarked entry.1
  declared : entry.2.hoisted = true ∨ outside entry.1

/--
What binding makes of trees in a row, in some frames: what they declare is hoisted or outside, and
their names are known wherever those in the frames are.
-/
structure EnclosedAll (outside : String → Prop) (before : List Entry) (around : List (List Entry))
    (gained : List Entry) (ts : List Tree) : Prop where
  owned : EverywhereAll (Info.Owns Text.Unmarked) ts
  entries : ∀ entry ∈ gained, Proper outside entry
  closed : ∀ known, Knows outside ((before ++ gained) :: around) known →
    ∀ t ∈ ts, t.Closed (fun _ => False) known

def Enclosed (outside : String → Prop) (before : List Entry) (around : List (List Entry))
    (gained : List Entry) (t : Tree) : Prop :=
  EnclosedAll outside before around gained [t]

/-- What binding makes of patterns in a row: names that are declared in order. -/
structure DeclaredAll (hoisted : Bool) (gained : List Entry) (ts : List Tree) : Prop where
  owned : EverywhereAll (Info.Owns Text.Unmarked) ts
  spelled : gained.map Prod.fst = spelledAll ts
  flags : ∀ entry ∈ gained, entry.2.hoisted = hoisted ∧ Text.Unmarked entry.1
  carried : ∀ t ∈ ts, ∀ name ∈ t.carried, name ∈ spelledAll ts

def Declared (hoisted : Bool) (gained : List Entry) (t : Tree) : Prop :=
  DeclaredAll hoisted gained [t]

section

variable {known : String → Prop} {gained more : List Entry} {t : Tree} {ts : List Tree}
  {id : NodeId} {info : Info} {children : List Tree} {hoisted : Bool}

theorem Knows.fewer (knows : Knows outside ((before ++ gained) :: around) known) :
    Knows outside (before :: around) known := by
  constructor
  · exact knows.outside
  · intro frame member entry inside
    rcases mem_cons.mp member with rfl | outer
    · exact knows.frames _ (.head _) entry (mem_append_left gained inside)
    · exact knows.frames frame (.tail _ outer) entry inside

/-- What a name means is outside or in a frame. -/
theorem Knows.meaning (knows : Knows outside (before :: around) known)
    (known_base : ∀ name d, base.get? name = some d → outside name) {name : String}
    {d : Declaration} (means : Scopes.meaning (before :: around) base name = some d) :
    known name := by
  rw [Scopes.meaning, Option.or_eq_some_iff] at means
  rcases means with found | ⟨_, found⟩
  · obtain ⟨frame, member, found⟩ := exists_of_findSome?_eq_some found
    exact knows.frames frame member _ (Table.mem_of_find found)
  · exact knows.outside name (known_base name d found)

theorem EnclosedAll.nil : EnclosedAll outside before around [] [] :=
  ⟨everywhereAll_nil, forall_mem_nil _, fun _ _ => forall_mem_nil _⟩

theorem Enclosed.here (enclosed : Enclosed outside before around gained t) :
    t.Everywhere (Info.Owns Text.Unmarked) :=
  ((everywhereAll_cons _ _).mp enclosed.owned).1

theorem EnclosedAll.cons (first : Enclosed outside before around gained t)
    (rest : EnclosedAll outside (before ++ gained) around more ts) :
    EnclosedAll outside before around (gained ++ more) (t :: ts) := by
  constructor
  · exact (everywhereAll_cons _ _).mpr ⟨first.here, rest.owned⟩
  · exact forall_mem_append.mpr ⟨first.entries, rest.entries⟩
  · intro known knows
    rw [← append_assoc] at knows
    exact forall_mem_cons.mpr ⟨first.closed known knows.fewer t (.head _), rest.closed known knows⟩

theorem Enclosed.intro (owned : t.Everywhere (Info.Owns Text.Unmarked))
    (entries : ∀ entry ∈ gained, Proper outside entry)
    (closed : ∀ known, Knows outside ((before ++ gained) :: around) known →
      t.Closed (fun _ => False) known) : Enclosed outside before around gained t :=
  ⟨(everywhereAll_cons _ _).mpr ⟨owned, everywhereAll_nil⟩, entries, fun known knows =>
    forall_mem_singleton.mpr (closed known knows)⟩

theorem EnclosedAll.node (parts : EnclosedAll outside before around gained children)
    (hasParts : HasParts info children) (bare : info.Bare) :
    Enclosed outside before around gained (.node id info children) :=
  .intro (everywhere_iff.mpr ⟨bare.owns _, parts.owned⟩) parts.entries fun known knows =>
    .of_parts hasParts (parts.closed known knows)

theorem Enclosed.tag {kind : TagKind} (isTag : info.symbol = .tag kind) (bare : info.Bare)
    (entries : ∀ entry ∈ gained, Proper outside entry)
    (named : ∀ known, Knows outside ((before ++ gained) :: around) known →
      ∀ name, info.name? = some name → known name) :
    Enclosed outside before around gained (.node id info []) := by
  refine .intro (everywhere_iff.mpr ⟨bare.owns _, everywhereAll_nil⟩) entries fun known knows => ?_
  unfold Closed
  rw [isTag]
  exact named known knows

end

/-! ## Patterns -/

section

variable {gained more : List Entry} {t : Tree} {ts : List Tree} {id : NodeId} {info : Info}
  {children : List Tree} {hoisted : Bool}

theorem DeclaredAll.nil : DeclaredAll hoisted [] [] :=
  ⟨everywhereAll_nil, by rw [spelledAll, map_nil], forall_mem_nil _, forall_mem_nil _⟩

theorem DeclaredAll.cons (first : Declared hoisted gained t) (rest : DeclaredAll hoisted more ts) :
    DeclaredAll hoisted (gained ++ more) (t :: ts) := by
  have here : spelledAll [t] = t.spelled := by rw [spelledAll, spelledAll, append_nil]
  have all : spelledAll (t :: ts) = spelledAll [t] ++ spelledAll ts := by rw [here, spelledAll]
  constructor
  · rw [everywhereAll_cons]
    exact ⟨((everywhereAll_cons t []).mp first.owned).1, rest.owned⟩
  · rw [map_append, first.spelled, rest.spelled, all]
  · exact forall_mem_append.mpr ⟨first.flags, rest.flags⟩
  · rw [all]
    refine forall_mem_cons.mpr ⟨fun name inside => ?_, fun child member name inside => ?_⟩
    · exact mem_append_left _ (first.carried t (.head _) name inside)
    · exact mem_append_right _ (rest.carried child member name inside)

theorem Declared.tag {kind : TagKind} (isTag : info.symbol = .tag kind) (bare : info.Bare)
    (spelled : gained.map Prod.fst = info.name?.toList)
    (flags : ∀ entry ∈ gained, entry.2.hoisted = hoisted ∧ Text.Unmarked entry.1) :
    Declared hoisted gained (.node id info []) := by
  have same : spelledAll [.node id info []] = info.name?.toList := by
    rw [spelledAll, spelledAll, append_nil]
    unfold Tree.spelled
    rw [isTag]
  constructor
  · exact (everywhereAll_cons _ _).mpr
      ⟨everywhere_iff.mpr ⟨bare.owns _, everywhereAll_nil⟩, everywhereAll_nil⟩
  · rw [spelled, same]
  · exact flags
  · refine forall_mem_singleton.mpr fun name inside => ?_
    rw [same]
    rwa [carried, gather, gatherAll, append_nil] at inside

theorem DeclaredAll.tuple (parts : DeclaredAll hoisted gained children)
    (isTuple : info.symbol = .builtin .tuple) (bare : info.Bare) (noName : info.name? = none) :
    Declared hoisted gained (.node id info children) := by
  have same : spelledAll [.node id info children] = spelledAll children := by
    rw [spelledAll, spelledAll, append_nil]
    unfold Tree.spelled
    rw [isTuple]
  constructor
  · exact (everywhereAll_cons _ _).mpr
      ⟨everywhere_iff.mpr ⟨bare.owns _, parts.owned⟩, everywhereAll_nil⟩
  · rw [parts.spelled, same]
  · exact parts.flags
  · refine forall_mem_singleton.mpr fun name inside => ?_
    rw [same]
    rcases mem_gather.mp inside with here | ⟨child, member, below⟩
    · cases noName.symm.trans (Option.mem_toList.mp here)
    · exact parts.carried child member name below

end

/-! ## Declarations -/

section

variable {final : Scopes Declaration} {gained owned : List Entry} {id headId : NodeId}
  {info headInfo : Info} {children : List Tree} {params names init body : Tree}
  {known inner : String → Prop}

/-- A declared name is an entry of its frame. -/
theorem DeclaredAll.knows {hoisted : Bool} (declared : DeclaredAll hoisted gained children)
    (knows : Knows outside ((before ++ gained) :: around) known) :
    ∀ name ∈ spelledAll children, known name := by
  intro name member
  rw [← declared.spelled] at member
  obtain ⟨entry, inside, rfl⟩ := mem_map.mp member
  exact knows.frames _ (.head _) entry (mem_append_right before inside)

theorem DeclaredAll.enclosed (parts : DeclaredAll true gained children)
    (declares : info.symbol = .builtin .var ∨ info.symbol = .builtin .const) (bare : info.Bare) :
    Enclosed outside before around gained (.node id info children) := by
  refine .intro (everywhere_iff.mpr ⟨bare.owns _, parts.owned⟩) (fun entry member => ?_)
    fun known knows => ?_
  · obtain ⟨isHoisted, unmarked⟩ := parts.flags entry member
    exact ⟨fun _ => unmarked, .inl isHoisted⟩
  · have carried {child : Tree} (member : child ∈ children) :
        ∀ name ∈ child.carried, known name ∧ ¬False :=
      fun name inside =>
        ⟨parts.knows knows name (parts.carried child member name inside), not_false⟩
    unfold Closed
    rcases declares with same | same
    all_goals
      rw [same]
      cases children with
      | nil => trivial
      | cons first rest =>
        have here := carried (.head _)
        exact ⟨fun name named => (here name (mem_carried_of_name named)).1, closed_of_carried here⟩

/-! ## Hosts -/

/-- Inside of a host the names are known that it declares, and those that were known before. -/
theorem Knows.inside (hosts : Hosts final info owned)
    (knows : Knows outside (before :: around) known)
    (own : ∀ name, Adding (fun _ => False) known info.declaredNames name → inner name)
    (entries : ∀ entry ∈ owned, entry.2.hoisted = true ∨ inner entry.1) :
    Knows outside (owned :: before :: around) inner := by
  constructor
  · exact fun name isOutside => own name (.inl (knows.outside name isOutside))
  · intro frame member entry inside
    rcases mem_cons.mp member with rfl | outer
    · rcases entries entry inside with hoisted | isKnown
      · exact own _ (.inr ⟨hosts.mem_declaredNames.mpr ⟨entry.2, inside, hoisted⟩, not_false⟩)
      · exact isKnown
    · exact own _ (.inl (knows.frames frame outer entry inside))

/-- The names of a host are those of its hoisted entries. -/
theorem owns_of_hosts {property : String → Prop} (hosts : Hosts final info owned)
    (entries : ∀ entry ∈ owned, entry.2.hoisted = true → property entry.1) :
    info.Owns property := by
  intro name member
  obtain ⟨d, inside, isHoisted⟩ := hosts.mem_declaredNames.mp member
  exact entries (name, d) inside isHoisted

theorem EnclosedAll.confined (parts : EnclosedAll outside [] (before :: around) owned children)
    (hosts : Hosts final info owned) (confines : Confines info children.length) :
    Enclosed outside before around [] (.node id info children) := by
  have owns := owns_of_hosts hosts fun entry member => (parts.entries entry member).unmarked
  refine .intro (everywhere_iff.mpr ⟨owns, parts.owned⟩) (forall_mem_nil _)
    fun known knows => confines.closed (parts.closed _ ?_)
  rw [append_nil] at knows
  rw [nil_append]
  refine knows.inside hosts (fun _ adding => adding) fun entry member => ?_
  exact (parts.entries entry member).declared.imp_right fun isOutside =>
    .inl (knows.outside _ isOutside)

/-- A pattern with the entries that it makes, and a tree behind it. -/
def NamesAndBody (outside : String → Prop) (around : List (List Entry)) (hoisted : Bool)
    (gained : List Entry) (parts : Tree × Tree) : Prop :=
  ∃ first second, gained = first ++ second ∧ Declared hoisted first parts.1 ∧
    Enclosed outside first around second parts.2

/-- What stands behind a pattern in a host, given what is known in the host. -/
theorem NamesAndBody.closed {hoisted : Bool}
    (parts : NamesAndBody outside (before :: around) hoisted owned (names, body))
    (hosts : Hosts final info owned) (knows : Knows outside (before :: around) known)
    (own : ∀ name, Adding (fun _ => False) known info.declaredNames name → inner name)
    (params : hoisted = true ∨ ∀ name ∈ names.spelled, inner name) :
    body.Closed (fun _ => False) inner := by
  obtain ⟨first, second, rfl, declared, enclosed⟩ := parts
  refine enclosed.closed inner (knows.inside hosts own fun entry member => ?_) body
    (.head _)
  rcases mem_append.mp member with early | late
  · rcases params with isHoisted | isKnown
    · exact .inl ((declared.flags entry early).1.trans isHoisted)
    · have spelled := declared.spelled ▸ mem_map_of_mem early
      rw [spelledAll, spelledAll, append_nil] at spelled
      exact .inr (isKnown _ spelled)
  · rcases (enclosed.entries entry late).declared with isHoisted | isOutside
    · exact .inl isHoisted
    · exact .inr (own _ (.inl (knows.outside _ isOutside)))

theorem NamesAndBody.both {hoisted : Bool}
    (parts : NamesAndBody outside around hoisted owned (names, body)) :
    names.Everywhere (Info.Owns Text.Unmarked) ∧ body.Everywhere (Info.Owns Text.Unmarked) := by
  obtain ⟨first, second, rfl, declared, enclosed⟩ := parts
  exact ⟨((everywhereAll_cons _ _).mp declared.owned).1, enclosed.here⟩

theorem NamesAndBody.owns {hoisted : Bool}
    (parts : NamesAndBody outside around hoisted owned (names, body))
    (hosts : Hosts final info owned) : info.Owns Text.Unmarked := by
  refine owns_of_hosts hosts fun entry member => ?_
  obtain ⟨first, second, rfl, declared, enclosed⟩ := parts
  rcases mem_append.mp member with early | late
  · exact fun _ => (declared.flags entry early).2
  · exact (enclosed.entries entry late).unmarked

theorem NamesAndBody.code
    (parts : NamesAndBody outside (before :: around) false owned (params, body))
    (hosts : Hosts final info owned)
    (isCode : info.symbol = .builtin .fn ∨ info.symbol = .builtin .catchClause) :
    Enclosed outside before around [] (.node id info [params, body]) := by
  refine .intro ?_ (forall_mem_nil _) fun known knows => ?_
  · simpa [parts.owns hosts] using parts.both
  · rw [append_nil] at knows
    unfold Closed
    rcases isCode with same | same
    all_goals
      rw [same]
      exact parts.closed hosts knows (fun _ => .inl)
        (.inr fun name spelled => .inr ⟨spelled, not_false⟩)

theorem NamesAndBody.loop
    (parts : NamesAndBody outside ((before ++ gained) :: around) true owned (names, body))
    (hosts : Hosts final info owned) (isLoop : info.symbol = .builtin .loop)
    (bare : headInfo.Bare) (first : Enclosed outside before around gained init) :
    Enclosed outside before around gained
      (.node id info [.node headId headInfo [names, init], body]) := by
  refine .intro ?_ first.entries fun known knows => ?_
  · simpa [parts.owns hosts, bare.owns, and_assoc, and_left_comm] using
      And.intro first.here parts.both
  · unfold Closed
    rw [isLoop]
    refine ⟨fun name spelled => ?_, first.closed known knows _ (.head _),
      parts.closed hosts knows (fun _ adding => adding) (.inl rfl)⟩
    obtain ⟨early, late, rfl, declared, _⟩ := parts
    have inside : name ∈ early.map Prod.fst := by
      rw [declared.spelled, spelledAll, spelledAll, append_nil]
      exact spelled
    obtain ⟨entry, member, rfl⟩ := mem_map.mp inside
    exact .inr ⟨hosts.mem_declaredNames.mpr ⟨entry.2, mem_append_left late member,
      (declared.flags entry member).1⟩, not_false⟩

end

/-! ## Names and parts that are not looked up -/

section

variable {gained : List Entry} {id : NodeId} {info : Info} {children : List Tree}

theorem bareAll (plain : EverywhereAll Info.Plain children) : EverywhereAll Info.Bare children :=
  plain.mono fun _ here => here.bare

/-- Names from outside, at one node. -/
theorem Foreign.here {t : Tree} (foreign : t.Foreign outside) :
    (∀ name ∈ externalsHere t.info t.children, outside name) ∧
      ∀ name ∈ straysHere t.info t.children, outside name :=
  ⟨fun name member => foreign.externals name (mem_gather.mpr (.inl member)),
    fun name member => foreign.strays name (mem_gather.mpr (.inl member))⟩

theorem Enclosed.member {object : Tree} {properties : List Tree}
    (first : Enclosed outside before around gained object)
    (isMember : info.symbol = .builtin .member) (bare : info.Bare)
    (skipped : EverywhereAll (Info.Owns Text.Unmarked) properties) (few : properties.length ≤ 1)
    (foreign : (Tree.node id info (object :: properties)).Foreign outside) :
    Enclosed outside before around gained (.node id info (object :: properties)) := by
  have owned := (everywhereAll_cons _ _).mpr ⟨first.here, skipped⟩
  refine .intro (everywhere_iff.mpr ⟨bare.owns _, owned⟩) first.entries fun known knows => ?_
  have closed := first.closed known knows _ (.head _)
  have stray := (Foreign.here foreign).2
  have isOp : info.is .member = true := Info.is_of_symbol isMember
  unfold Closed
  rw [isMember]
  cases properties with
  | nil => exact closedAll_iff.mpr (forall_mem_singleton.mpr closed)
  | cons property rest =>
    cases eq_nil_of_length_eq_zero (Nat.le_zero.mp (Nat.le_of_succ_le_succ few))
    refine ⟨closed, fun computed => closed_of_carried fun name inside => ⟨?_, not_false⟩,
      fun _ _ => not_false⟩
    refine knows.outside name (stray name ?_)
    rw [Tree.info, Tree.children, straysHere, isOp, computed]
    exact inside

theorem EnclosedAll.pair {key : Tree} {values : List Tree}
    (parts : EnclosedAll outside before around gained values)
    (isPair : info.symbol = .builtin .pair) (bare : info.Bare)
    (skipped : key.Everywhere (Info.Owns Text.Unmarked)) :
    Enclosed outside before around gained (.node id info (key :: values)) := by
  have owned := (everywhereAll_cons _ _).mpr ⟨skipped, parts.owned⟩
  refine .intro (everywhere_iff.mpr ⟨bare.owns _, owned⟩) parts.entries fun known knows => ?_
  unfold Closed
  rw [isPair]
  exact closedAll_iff.mpr (parts.closed known knows)

theorem IsExternal.bare {t : Tree} (isExternal : IsExternal t) : t.Everywhere Info.Bare := by
  refine everywhere_iff.mpr ⟨?_, bareAll isExternal.below⟩
  rw [Info.Bare, Info.declaredNames, isExternal.noDecls]

/-- Names that need no declaration. -/
theorem Enclosed.listed (isExternal : info.symbol = .builtin .external) (bare : info.Bare)
    (names : ∀ c ∈ children, IsExternal c)
    (foreign : (Tree.node id info children).Foreign outside) :
    Enclosed outside before around (children.flatMap (·.info.entry)) (.node id info children) := by
  refine .intro ?_ (fun entry member => ?_) fun known knows => ?_
  · refine everywhere_iff.mpr ⟨bare.owns _, everywhereAll_iff.mpr fun c member => ?_⟩
    exact (names c member).bare.mono fun _ here => here.owns _
  · obtain ⟨c, inside, listed⟩ := mem_flatMap.mp member
    obtain ⟨d, isBound, named⟩ := (names c inside).named
    rw [Info.entry, isBound] at listed
    cases mem_singleton.mp listed
    constructor
    · intro isHoisted
      cases ((names c inside).declared d isBound).2.symm.trans isHoisted
    · refine .inr ((Foreign.here foreign).1 d.name ?_)
      rw [Tree.info, Tree.children, externalsHere, isExternal]
      refine mem_flatMap.mpr ⟨c, inside, ?_⟩
      rw [(names c inside).isTag, if_pos rfl]
      exact Option.mem_toList.mpr named
  · unfold Closed
    rw [isExternal]
    trivial

end

/-! ## All that the rules make -/

def Seen.Encloses (outside : String → Prop) (before : List Entry) (around : List (List Entry))
    (gained : List Entry) : Seen → Prop
  | .trees _ ts => EnclosedAll outside before around gained ts
  | .names hoisted ts => DeclaredAll hoisted gained ts

/-- A node whose parts are all looked at, in an expression. -/
theorem Composes.hasParts {info : Info} {children : List Tree}
    (composes : Composes info children.length)
    (formed : info.Formed admitted (children.map Tree.symbol)) : HasParts info children := by
  refine ⟨composes.noTag, fun op isOp => ?_⟩
  rcases composes.closed op isOp with isOpen | ⟨_, isNil⟩ | ⟨rfl, notOne, notTwo⟩
  · exact .inl isOpen
  · exact .inr (eq_nil_of_length_eq_zero isNil)
  · have few : (children.map Tree.symbol).length ≤ 2 := formed.arranges.length_le isOp rfl rfl
    rw [length_map] at few
    exact .inr (eq_nil_of_length_eq_zero (by omega))

/--
A tree with the operands that its nodes take, whose names are outside if they are not looked up.
-/
structure Sane (admitted outside : String → Prop) (t : Tree) : Prop where
  formed : t.Obeys (Info.Formed admitted)
  foreign : t.Foreign outside

theorem Sane.below {t : Tree} (sane : Sane admitted outside t) :
    ∀ child ∈ t.children, Sane admitted outside child :=
  fun child member => ⟨obeyAll_iff.mp sane.formed.children child member, sane.foreign.below member⟩

theorem Sane.of_formed {t : Tree} (formed : t.Obeys (Info.Formed admitted)) :
    Sane admitted (fun _ => True) t :=
  ⟨formed, fun _ _ => trivial, fun _ _ => trivial⟩

theorem Sane.few_properties {id : NodeId} {info : Info} {object : Tree} {properties : List Tree}
    (sane : Sane admitted outside (.node id info (object :: properties)))
    (isMember : info.symbol = .builtin .member) : properties.length ≤ 1 := by
  have few := sane.formed.root.arranges.length_le isMember rfl rfl
  rw [length_map] at few
  exact Nat.le_of_succ_le_succ few

/-- The names of a bound expression are known wherever those around it are. -/
theorem Bound.encloses {final : Scopes Declaration} {seen : Seen} {gained : List Entry}
    (known_base : ∀ name d, base.get? name = some d → outside name)
    (bound : Bound base final seen before around gained)
    (sane : ∀ t ∈ seen.list, Sane admitted outside t) :
    seen.Encloses outside before around gained := by
  induction bound with
  | nothing => exact .nil
  | more _ _ first rest =>
    obtain ⟨here, others⟩ := forall_mem_cons.mp sane
    exact EnclosedAll.cons (first (forall_mem_singleton.mpr here)) (rest others)
  -- tags
  | left isTag plain reason =>
    have here := sane _ (.head _)
    cases here.formed.root.isLeaf isTag
    refine Enclosed.tag isTag plain.bare (forall_mem_nil _) fun known knows name named => ?_
    rcases reason with rfl | noName
    · refine knows.outside name ((Foreign.here here.foreign).1 name ?_)
      rw [Tree.info, externalsHere, isTag]
      exact Option.mem_toList.mpr named
    · cases noName.symm.trans named
  | declared isTag declares named refers =>
    have here := (sane _ (.head _)).formed.root
    cases here.isLeaf isTag
    refine Enclosed.tag isTag refers.bare ?_ fun known knows other isNamed => ?_
    · exact forall_mem_singleton.mpr ⟨fun _ => here.unmarked isTag declares named, .inl rfl⟩
    · cases named.symm.trans isNamed
      exact knows.frames _ (.head _) _
        (mem_append_right _ (mem_singleton_self _))
  | used isTag _ named refers means =>
    cases (sane _ (.head _)).formed.root.isLeaf isTag
    refine Enclosed.tag isTag refers.bare (forall_mem_nil _) fun known knows other isNamed => ?_
    cases named.symm.trans isNamed
    exact knows.fewer.meaning known_base means
  -- patterns
  | noNames => exact .nil
  | moreNames _ _ first rest =>
    obtain ⟨here, others⟩ := forall_mem_cons.mp sane
    exact DeclaredAll.cons (first (forall_mem_singleton.mpr here)) (rest others)
  | nameless isTag plain noName =>
    cases (sane _ (.head _)).formed.root.isLeaf isTag
    exact Declared.tag isTag plain.bare (by rw [noName]; rfl) (forall_mem_nil _)
  | name isTag declares named refers =>
    have here := (sane _ (.head _)).formed.root
    cases here.isLeaf isTag
    exact Declared.tag isTag refers.bare (by rw [named]; rfl)
      (forall_mem_singleton.mpr ⟨rfl, here.unmarked isTag declares named⟩)
  | nameTuple isTuple plain _ ih =>
    have here := sane _ (.head _)
    have carries := here.formed.root.carries
    rw [Tree.info, isTuple] at carries
    exact DeclaredAll.tuple (ih here.below) isTuple plain.bare (carries rfl)
  -- nodes in the scope in which they stand
  | parts composes plain _ _ ih =>
    have here := sane _ (.head _)
    exact EnclosedAll.node (ih here.below) (composes.hasParts here.formed.root) plain.bare
  | assigned isAssign plain _ _ _ target value =>
    obtain ⟨left, right⟩ := forall_mem_cons.mp (sane _ (.head _)).below
    have first := target (forall_mem_singleton.mpr left)
    have both := EnclosedAll.cons first (EnclosedAll.cons (value right) .nil)
    rw [append_nil] at both
    exact both.node (.of_builtin isAssign rfl) plain.bare
  | member isMember plain _ _ skipped ih =>
    have here := sane _ (.head _)
    have first := ih (forall_mem_singleton.mpr (forall_mem_cons.mp here.below).1)
    exact Enclosed.member first isMember plain.bare (skipped.mono fun _ here => here.bare.owns _)
      (here.few_properties isMember) here.foreign
  | noEntry isPair plain => exact EnclosedAll.nil.node (.of_nil isPair) plain.bare
  | entry isPair plain skipped _ ih =>
    have values := (forall_mem_cons.mp (sane _ (.head _)).below).2
    exact EnclosedAll.pair (ih values) isPair plain.bare
      (skipped.mono fun _ here => here.bare.owns _)
  | declaration declares plain _ _ ih =>
    exact DeclaredAll.enclosed (ih (sane _ (.head _)).below) declares plain.bare
  | listed isExternal plain _ names =>
    exact Enclosed.listed isExternal plain.bare names (sane _ (.head _)).foreign
  -- hosts
  | confined confines _ collects _ ih =>
    exact EnclosedAll.confined (ih (sane _ (.head _)).below) collects.toHosts confines
  | code isCode _ collects _ _ names body =>
    obtain ⟨params, code⟩ := forall_mem_cons.mp (sane _ (.head _)).below
    have declared := names (forall_mem_singleton.mpr params)
    exact NamesAndBody.code ⟨_, _, rfl, declared, body code⟩ collects.toHosts isCode
  | loop isLoop _ _ plain collects _ _ _ start heads body =>
    obtain ⟨head, code⟩ := forall_mem_cons.mp (sane _ (.head _)).below
    obtain ⟨pattern, init⟩ := forall_mem_cons.mp head.below
    have declared := heads (forall_mem_singleton.mpr pattern)
    exact NamesAndBody.loop ⟨_, _, rfl, declared, body code⟩ collects.toHosts isLoop plain.bare
      (start init)

/--
If binding makes no report, every name of the tree that generation can take is declared around it
or outside.
-/
theorem Bound.closed {final : Scopes Declaration} {t : Tree}
    (known_base : ∀ name d, base.get? name = some d → outside name)
    (bound : Bound base final (.trees .value [t]) [] [] [])
    (formed : t.Obeys (Info.Formed admitted)) (foreign : t.Foreign outside) :
    t.Closed (fun _ => False) outside ∧ t.Everywhere (Info.Owns Text.Unmarked) := by
  have whole : Enclosed outside [] [] [] t :=
    bound.encloses known_base (forall_mem_singleton.mpr ⟨formed, foreign⟩)
  have knows : Knows outside [[]] outside := by
    constructor
    · exact fun _ isOutside => isOutside
    · rintro frame member entry inside
      cases mem_singleton.mp member
      cases inside
  exact ⟨whole.closed outside knows _ (.head _), whole.here⟩

end Bind

end Offside
