import Offside.Proofs.Arrangement.Climbing
import Offside.Proofs.Contents.Combination
import Mathlib.Data.List.Forall2

/-!
# Order within blocks

Every node of a tree of blocks becomes some faces: a token stays or is cut into known operators, a
block stays, and lines, groups and brackets are laid open. Unless something is reported, and if the
source cannot define macros, combination rearranges these faces and nothing else.
-/

namespace Offside

open List

open Offside.Tree hiding id node

/-! ## What becomes of a node -/

/-- The faces that a node of a tree of blocks becomes. -/
inductive Becomes : NodeId × Info → List Face → Prop
  /-- A token stays as a name, a literal or an operator with the same text. -/
  | token {id info kind face}
      (isToken : info.symbol = .token kind) (same : face.number = id ∧ face.loc = info.loc)
      (read : face.kind = .leaf ∨ face.kind = .operator)
      (text : face.value.map Value.text = info.value.map Value.text) : Becomes (id, info) [face]
  /-- An operator text that is not known as a whole is cut into operators. -/
  | pieces {id info text pieces}
      (isToken : info.symbol = .token .operator) (named : info.name? = some text)
      (operators : ∀ piece ∈ pieces, piece.kind = .operator)
      (whole : pieces.flatMap Face.chars = text.toList) : Becomes (id, info) pieces
  | block {id info kind} (isBlock : info.symbol = .block kind)
      (opens : kind.opensScope = true) :
      Becomes (id, info) [⟨id, .block kind, info.value, info.loc⟩]
  /-- Lines, groups and brackets are laid open. -/
  | layout {id info kind} (isBlock : info.symbol = .block kind)
      (closed : kind.opensScope = false) : Becomes (id, info) []

theorem Becomes.kind_ne {entry : NodeId × Info} {faces : List Face}
    (becomes : Becomes entry faces) :
    ∀ face ∈ faces, face.kind ≠ .definition := by
  intro face member
  cases becomes with
  | token _ _ read =>
    cases mem_singleton.mp member
    rcases read with isLeaf | isOperator
    · simp [isLeaf]
    · simp [isOperator]
  | pieces _ _ operators =>
    rw [operators face member]
    decide
  | block =>
    cases mem_singleton.mp member
    exact nofun
  | layout => cases member

def Reads (entries : List (NodeId × Info)) (faces : List Face) : Prop :=
  ∃ lists, List.Forall₂ Becomes entries lists ∧ faces = lists.flatten

namespace Reads

variable {entries more : List (NodeId × Info)} {faces others : List Face}

theorem nil : Reads [] [] :=
  ⟨[], .nil, rfl⟩

theorem cons {entry : NodeId × Info} (here : Becomes entry faces) (rest : Reads entries others) :
    Reads (entry :: entries) (faces ++ others) := by
  obtain ⟨lists, all, rfl⟩ := rest
  exact ⟨faces :: lists, .cons here all, rfl⟩

theorem append (first : Reads entries faces) (second : Reads more others) :
    Reads (entries ++ more) (faces ++ others) := by
  obtain ⟨lists, all, rfl⟩ := first
  obtain ⟨lists', all', rfl⟩ := second
  exact ⟨lists ++ lists', rel_append all all', flatten_append.symm⟩

theorem kind_ne (reads : Reads entries faces) : ∀ face ∈ faces, face.kind ≠ .definition := by
  obtain ⟨lists, all, rfl⟩ := reads
  intro face member
  obtain ⟨list, inside, here⟩ := mem_flatten.mp member
  clear member
  induction all with
  | nil => cases inside
  | cons becomes _ ih =>
    rcases mem_cons.mp inside with rfl | later
    · exact becomes.kind_ne face here
    · exact ih later

end Reads

/-! ## Spellings -/

/-- What a spelling means as long as the source defines no macro by a keyword. -/
def Symbol.Spells (text : String) : Symbol → Prop
  | .keyword literal => literal.text = text
  | symbol => symbol.isOperator = true → symbol.faceKind? = some .operator

theorem Symbol.Spells.operator {text : String} {symbol : Symbol} (spells : symbol.Spells text)
    (isOperator : symbol.isOperator = true) : symbol.faceKind? = some .operator := by
  cases symbol with
  | keyword literal => cases isOperator
  | _ => exact spells isOperator

/-- Without the prelude no spelling begins a definition. -/
theorem Environment.spells_rootKeys (env : Environment) {text : String} {symbol : Symbol}
    (found : (env.rootKeys false).get? text = some symbol) : symbol.Spells text := by
  let spells (text : String) (symbol : Symbol) := symbol.Spells text
  refine Table.forall_of_foldl spells (fun name meaning known => ?_) (fun entry member => ?_)
    text symbol found
  · refine Table.forall_of_foldl spells (fun _ _ absent => by cases absent) (fun entry member => ?_)
      name meaning known
    rw [spellings, mem_append] at member
    rcases member with operator | keyword
    · obtain ⟨op, _, inside⟩ := mem_flatMap.mp operator
      cases op <;> simp [Builtin.isPrelude, Builtin.spellings] at inside
      all_goals
        rcases inside with rfl | rfl
        all_goals exact fun _ => rfl
    · simp only [mem_cons, not_mem_nil, or_false] at keyword
      rcases keyword with rfl | rfl | rfl <;> rfl
  · obtain ⟨m, _, rfl⟩ := mem_map.mp member
    exact fun _ => rfl

namespace Combine

/-- All spellings are those of the language without definitions. -/
abbrev Plain (s : Combination) : Prop :=
  s.keys.All fun text symbol => symbol.Spells text

/-! ## Computations without reports -/

/-- From one state to a later one: if nothing is reported in between, something holds. -/
structure Onward (s s' : Combination) (fact : Prop) : Prop where
  plain : Plain s'
  grows : s.diagnostics.size ≤ s'.diagnostics.size
  holds : s'.diagnostics.size = s.diagnostics.size → fact

namespace Onward

variable {s s₁ s' : Combination} {fact more final : Prop}

theorem refl (plain : Plain s) (holds : fact) : Onward s s fact :=
  ⟨plain, Nat.le_refl _, fun _ => holds⟩

/-- What is known of the first step is known only if nothing has been reported before. -/
theorem trans (first : Onward s s₁ fact) (second : Onward s₁ s' more) (join : fact → more → final) :
    Onward s s' final := by
  have early := first.grows
  have late := second.grows
  exact ⟨second.plain, early.trans late, fun same =>
    join (first.holds (by omega)) (second.holds (by omega))⟩

theorem mono (onward : Onward s s' fact) (weaken : fact → final) : Onward s s' final :=
  { onward with holds := fun same => weaken (onward.holds same) }

/-- Behind a report anything is known. -/
theorem report (plain : Plain s) (d : Diagnostic) :
    Onward s { s with diagnostics := s.diagnostics.push d } fact := by
  refine ⟨⟨plain.base, plain.layers⟩, ?_, fun same => ?_⟩
  · rw [Array.size_push]
    exact Nat.le_succ _
  · rw [Array.size_push] at same
    omega

end Onward

/-- Unless a computation reports something, its result has a property. -/
def Quietly {α : Type} (x : Combine α) (fact : α → Prop) : Prop :=
  ∀ s, Plain s → Onward s (x s).2 (fact (x s).1)

namespace Quietly

variable {α β : Type} {x : Combine α} {fact weaker : α → Prop}

theorem pure {a : α} (holds : fact a) : Quietly (Pure.pure a : Combine α) fact :=
  fun _ plain => .refl plain holds

theorem bind {f : α → Combine β} {final : β → Prop} (first : Quietly x fact)
    (second : ∀ a, Quietly (f a) fun b => fact a → final b) : Quietly (x >>= f) final := by
  intro s plain
  have one := first s plain
  exact one.trans (second (x s).1 (x s).2 one.plain) fun known holds => holds known

theorem of_run (quietly : Quietly x fact) {s s' : Combination} {a : α} (ran : x s = (a, s'))
    (plain : Plain s) : Onward s s' (fact a) := by
  have onward := quietly s plain
  rwa [ran] at onward

theorem mono (quietly : Quietly x fact) (weaken : ∀ a, fact a → weaker a) : Quietly x weaker :=
  fun s plain =>
    { quietly s plain with holds := fun same => weaken _ ((quietly s plain).holds same) }

theorem after {f : α → Combine β} {final : β → Prop} (first : Quietly x fun _ => True)
    (second : ∀ a, Quietly (f a) final) : Quietly (x >>= f) final :=
  first.bind fun a => (second a).mono fun _ holds _ => holds

theorem supply {x : Supply α} (yields : Yields x fact) : Quietly (Combine.supply x) fact :=
  fun s plain => ⟨⟨plain.base, plain.layers⟩, Nat.le_refl _, fun _ => yields s.numbering⟩

theorem reported (d : Diagnostic) {f : Unit → Combine β} {final : β → Prop}
    (second : ∀ u, Quietly (f u) fun _ => True) : Quietly (Combine.report d >>= f) final :=
  fun s plain => (Onward.report plain d : Onward s _ False).trans
    (second () _ ⟨plain.base, plain.layers⟩) fun impossible _ => impossible.elim

theorem extend (scope : ScopeId) : Quietly (Combine.extend scope) fun _ => True :=
  fun _ plain => ⟨plain.extend scope, Nat.le_refl _, fun _ => trivial⟩

end Quietly

/-! ## Tokens -/

theorem yields_leaf (symbol : Symbol) (value : Option Value) (loc : Loc) :
    Yields (Tree.new symbol value loc []) fun made =>
      ∃ id, made = .node id (.new symbol value loc) [] :=
  .after fun id => .pure ⟨id, rfl⟩

theorem settled_operator {t : Tree} {symbol : Symbol} (bares : t.Bares symbol) :
    Item.Settled ⟨t, .operator symbol⟩ := by
  constructor
  · intro other same
    cases same
    exact bares
  · rintro (isParen | isSquare)
    · cases isParen
    · cases isSquare

/-- The items of operators show faces with their texts. -/
theorem faces_pieceItems (loc : Loc) (offset : Nat) {pieces : List (String × Symbol)}
    (operators : ∀ piece ∈ pieces, piece.2.faceKind? = some .operator) :
    Yields (pieceItems loc offset pieces) fun items =>
      (∀ face ∈ Item.faces items, face.kind = .operator) ∧
        (Item.faces items).flatMap Face.chars = (pieces.flatMap fun piece => piece.1.toList) ∧
        Item.AllSettled items := by
  induction pieces generalizing offset with
  | nil => exact .pure ⟨forall_mem_nil _, rfl, forall_mem_nil _⟩
  | cons piece rest ih =>
    obtain ⟨here, others⟩ := forall_mem_cons.mp operators
    obtain ⟨text, symbol⟩ := piece
    rw [pieceItems]
    refine .bind (yields_leaf symbol (some (.name text)) _) ?_
    rintro _ ⟨id, rfl⟩
    refine .bind (ih _ others) fun items facts => .pure ?_
    obtain ⟨kinds, chars, settled⟩ := facts
    have shows (place : Loc) :
        Item.faces
          (⟨.node id (.new symbol (some (.name text)) place) [], .operator symbol⟩ :: items) =
          ⟨id, .operator, some (.name text), place⟩ :: Item.faces items := by
      rw [Item.faces_cons, faces_node, facesAll_nil, Info.face?,
        show (Info.new symbol _ _).symbol.faceKind? = _ from here]
      rfl
    rw [shows]
    refine ⟨forall_mem_cons.mpr ⟨rfl, kinds⟩, ?_,
      Item.allSettled_cons.mpr ⟨settled_operator ⟨rfl, here, here⟩, settled⟩⟩
    rw [flatMap_cons, flatMap_cons, chars]
    rfl

/-! ## What is read -/

def Follows (entries : List (NodeId × Info)) (before after : List Face) : Prop :=
  ∃ faces, Reads entries faces ∧ Rearranges (before ++ faces) after

namespace Follows

variable {entries more : List (NodeId × Info)} {before middle after : List Face}

theorem nil (faces : List Face) : Follows [] faces faces :=
  ⟨[], .nil, .of_eq (append_nil faces)⟩

theorem append (first : Follows entries before middle) (second : Follows more middle after) :
    Follows (entries ++ more) before after := by
  obtain ⟨faces, reads, moved⟩ := first
  obtain ⟨others, readsMore, movedMore⟩ := second
  refine ⟨faces ++ others, reads.append readsMore, ?_⟩
  rw [← append_assoc]
  exact (moved.append_right others).trans movedMore

/-- The node of a line, a group or a bracket is laid open. -/
theorem layout {id : NodeId} {info : Info} {kind : BlockKind} (isBlock : info.symbol = .block kind)
    (closed : kind.opensScope = false) (inside : Follows entries before after) :
    Follows ((id, info) :: entries) before after := by
  obtain ⟨faces, reads, moved⟩ := inside
  exact ⟨[] ++ faces, reads.cons (.layout isBlock closed), moved⟩

theorem rearranges (step : Follows entries before middle) (moved : Rearranges middle after) :
    Follows entries before after := by
  obtain ⟨faces, reads, first⟩ := step
  exact ⟨faces, reads, first.trans moved⟩

theorem onto (step : Follows entries [] after) (faces : List Face) :
    Follows entries faces (faces ++ after) := by
  obtain ⟨own, reads, moved⟩ := step
  exact ⟨own, reads, moved.append_left faces⟩

theorem kind_ne (step : Follows entries [] after) : ∀ face ∈ after, face.kind ≠ .definition := by
  obtain ⟨faces, reads, moved⟩ := step
  exact fun face member => reads.kind_ne face (moved.perm.mem_iff.mpr member)

end Follows

/-- The items of some parts show the faces that the nodes of the parts become, rearranged. -/
def Stand (entries : List (NodeId × Info)) (items : List Item) : Prop :=
  Follows entries [] (Item.faces items) ∧ Item.AllSettled items

section Token

variable {id : NodeId} {kind : TokenClass} {value : Value} {loc : Loc}

/-- The item of a token that is taken as a whole. -/
theorem stand_whole {face : Face} {item : Item} {info : Info} (settled : item.Settled)
    (isToken : info.symbol = .token kind) (shows : item.tree.faces = [face])
    (same : face.number = id ∧ face.loc = info.loc)
    (read : face.kind = .leaf ∨ face.kind = .operator)
    (text : face.value.map Value.text = info.value.map Value.text) : Stand [(id, info)] [item] := by
  refine ⟨⟨[face] ++ [], .cons (.token isToken same read text) .nil, .of_eq ?_⟩,
    Item.allSettled_cons.mpr ⟨settled, forall_mem_nil _⟩⟩
  rw [Item.faces_cons, Item.faces_nil, shows]
  rfl

/-- A name or a literal with the text of the token. -/
theorem stand_operand {symbol : Symbol} {held : Value} (isLeaf : symbol.faceKind? = some .leaf)
    (text : held.text = value.text) :
    Stand [(id, .new (.token kind) (some value) loc)]
      [⟨.node id { Info.new (.token kind) (some value) loc with symbol, value := some held } [],
        .operand⟩] := by
  have shows : (Tree.node id { Info.new (.token kind) (some value) loc with
      symbol, value := some held } []).faces = [⟨id, .leaf, some held, loc⟩] := by
    rw [faces_node, facesAll_nil, Info.face?, isLeaf]
    rfl
  refine stand_whole ⟨nofun, nofun⟩ rfl shows ⟨rfl, rfl⟩ (.inl rfl) ?_
  exact congrArg some text

/-- An operator with the text of the token. -/
theorem stand_operator {symbol : Symbol} (isOperator : symbol.faceKind? = some .operator) :
    Stand [(id, .new (.token kind) (some value) loc)]
      [⟨(Tree.node id (.new (.token kind) (some value) loc) []).withSymbol symbol,
        .operator symbol⟩] := by
  have shows : ((Tree.node id (.new (.token kind) (some value) loc) []).withSymbol symbol).faces =
      [⟨id, .operator, some value, loc⟩] := by
    rw [withSymbol, withInfo, faces_node, facesAll_nil, Info.face?, isOperator]
    rfl
  exact stand_whole (settled_operator ⟨rfl, isOperator, isOperator⟩) rfl shows ⟨rfl, rfl⟩ (.inr rfl)
    rfl

theorem Itemed.onward {scope : ScopeId} {items : List Item} {s s' : Combination}
    (itemed :
      Itemed scope (.node id (.new (.token kind) (some value) loc) []) kind value s items s')
    (plain : Plain s) : Onward s s' (Stand [(id, .new (.token kind) (some value) loc)] items) := by
  cases itemed with
  | keyword named known =>
    subst named
    exact .refl plain (stand_operand rfl (plain.get? known))
  | @operand symbol isOperand =>
    have isLeaf : symbol.faceKind? = some .leaf := by
      cases kind <;> cases isOperand <;> rfl
    exact .refl plain (stand_operand isLeaf rfl)
  | operator _ known isOperator =>
    exact .refl plain (stand_operator ((plain.get? known).operator isOperator))
  | @pieces text pieces named isOperator cuts =>
    subst named isOperator
    have operators : ∀ piece ∈ pieces, piece.2.faceKind? = some .operator := by
      intro piece member
      obtain ⟨known, isOperator⟩ := cuts.known piece member
      exact (plain.get? known).operator isOperator
    obtain ⟨kinds, chars, settled⟩ := faces_pieceItems loc 0 operators s.numbering
    have becomes : Becomes (id, .new (.token .operator) (some (.name text)) loc) _ :=
      .pieces rfl rfl kinds (chars.trans cuts.whole)
    refine ⟨⟨plain.base, plain.layers⟩, Nat.le_refl _, fun _ => ⟨⟨_ ++ [], .cons becomes .nil, ?_⟩,
      settled⟩⟩
    exact .of_eq (append_nil _)
  | unknown d => exact .report plain d

end Token

/-! ## Lines and brackets -/

theorem quietly_leftovers (fuel : Nat) (items : List Item) :
    Quietly (leftovers fuel items) fun _ => True := by
  induction fuel generalizing items with
  | zero => exact .pure trivial
  | succ fuel ih =>
    cases items with
    | nil => exact .pure trivial
    | cons item rest =>
      rw [leftovers]
      exact .reported _ fun _ => .after (.supply fun _ => trivial) fun read => ih read.2

/-- If nothing is reported, no items are left. -/
theorem quietly_leftovers_length (items : List Item) :
    Quietly (leftovers items.length items) fun _ => items = [] := by
  cases items with
  | nil => exact .pure rfl
  | cons item rest =>
    rw [length_cons, leftovers]
    exact .reported _ fun _ => .after (.supply fun _ => trivial) fun read =>
      quietly_leftovers _ read.2

/-- All items become one expression. -/
theorem quietly_fold (items : List Item) :
    Quietly (fold items) fun result =>
      Item.AllSettled items → Rearranges (Item.faces items) (facesAll result.toList) := by
  rw [fold]
  have first : Yields (Climb.first items) fun read => Item.AllSettled items →
      Rearranges (Item.faces items) (facesAll read.1.toList ++ Item.faces read.2) :=
    fun n settled => (Climb.arranges_first settled n).1
  refine .bind (.supply first) fun read => ?_
  obtain ⟨result, rest⟩ := read
  refine .bind (quietly_leftovers_length rest) fun _ => .pure ?_
  rintro rfl moved settled
  simpa using moved settled

theorem Bracketed.onward {loc : Loc} {elements : List Tree} {item : Item} {s s' : Combination}
    (bracketed : Bracketed loc elements s item s') (plain : Plain s) :
    Onward s s' (item.Settled ∧ item.tree.faces = facesAll elements) := by
  cases bracketed with
  | single alone =>
    subst alone
    refine .refl plain ⟨⟨by rintro _ ⟨⟩, ?_⟩, ?_⟩
    · rintro (same | same) <;> cases same
    · rw [facesAll_cons, facesAll_nil, append_nil]
  | @made op role shape more =>
    have isMade : (Symbol.builtin op).faceKind? = none := by cases shape <;> rfl
    obtain ⟨shows, isOp⟩ := Climb.arranges_new isMade loc elements s.numbering
    refine ⟨⟨plain.base, plain.layers⟩, ?_, fun _ => ⟨⟨fun symbol same => ?_, fun _ => ?_⟩, shows⟩⟩
    · rw [Array.size_append]
      exact Nat.le_add_right _ _
    · cases shape <;> cases same
    · rw [isOp]
      exact isMade

/-! ## Statements -/

/-- A clause stands behind all that its owner had. -/
theorem faces_attached {clause t result : Tree} {op : Builtin}
    (attached : Clause.Attached clause op t result) :
    result.faces = t.faces ++ clause.faces := by
  induction attached with
  | here => simp
  | deeper _ _ ih => simp [ih]

theorem facesAll_push (statements : Array Tree) (expr : Tree) :
    facesAll (statements.push expr).toList = facesAll statements.toList ++ expr.faces := by
  rw [Array.toList_push, facesAll_append, facesAll_cons, facesAll_nil, append_nil]

/-- An expression that is no definition comes behind the statements, or below the last one. -/
theorem Added.onward {scope : ScopeId} {statements all : Array Tree} {expr : Tree}
    {s s' : Combination} (added : Added scope statements expr s all s') (plain : Plain s) :
    Onward s s' (expr.symbol ≠ .builtin .defMacro →
      facesAll all.toList = facesAll statements.toList ++ expr.faces) := by
  cases added with
  | attached _ ends joins =>
    refine ⟨⟨plain.base, plain.layers⟩, Nat.le_refl _, fun _ _ => ?_⟩
    rw [facesAll_push, faces_attached joins, ends]
    simp
  | unattached d => exact .report plain d
  | defined defines =>
    exact ⟨plain.insert scope fun _ => rfl, Nat.le_refl _, fun _ other => absurd defines other⟩
  | undefined => exact .report plain _
  | pushed => exact .refl plain fun _ => facesAll_push statements expr

/-- A block shows its face and those of its statements. -/
theorem quietly_finishBlock (id : NodeId) (info : Info) (scope : ScopeId)
    (statements : Array Tree) :
    Quietly (finishBlock id info scope statements) fun t =>
      t.faces = (info.face? id).toList ++ facesAll statements.toList := by
  intro s plain
  obtain ⟨same, more, behind⟩ := finished_finishBlock id info scope statements s
  rw [same, behind]
  refine ⟨⟨plain.base, plain.layers⟩, ?_, fun _ => faces_node id _ _⟩
  rw [Array.size_append]
  exact Nat.le_add_right _ _

/-! ## Blocks -/

def Job.entries : Job → List (NodeId × Info)
  | .lines ts .. | .line ts .. | .groups ts .. | .bracket ts .. | .items ts _ => nodesAll ts

def Job.faces : Job → List Face
  | .lines _ _ made | .bracket _ _ made => facesAll made.toList
  | .groups _ _ group made => facesAll made.toList ++ Item.faces group
  | .line .. | .items .. => []

def Job.Settled : Job → Prop
  | .groups _ _ group _ => Item.AllSettled group
  | _ => True

def Product.faces : Product → List Face
  | .statements made | .elements made => facesAll made.toList
  | .expr made => facesAll made.toList
  | .items made => Item.faces made

def Product.Settled : Product → Prop
  | .expr made => ∀ t ∈ made, t.symbol ≠ .builtin .defMacro
  | .items made => Item.AllSettled made
  | _ => True

/-- An expression of which no face is a definition is none itself. -/
theorem ne_defMacro {expr : Tree} (none : ∀ face ∈ facesAll [expr], face.kind ≠ .definition) :
    expr.symbol ≠ .builtin .defMacro := by
  intro isDefinition
  refine none ⟨expr.id, .definition, expr.info.value, expr.info.loc⟩ ?_ rfl
  rw [facesAll_cons, faces_eq, Info.face?, show expr.info.symbol = _ from isDefinition]
  exact .head _

theorem Combined.onward {job : Job} {product : Product} {s s' : Combination}
    (combined : Combined job s product s') (plain : Plain s) :
    Onward s s' (job.Settled → Follows job.entries job.faces product.faces ∧ product.Settled) := by
  have added (elements : Array Tree) {last : Option Tree} {faces : List Face}
      (moved : Rearranges faces (facesAll last.toList)) :
      Rearranges (facesAll elements.toList ++ faces)
        (facesAll (elements ++ last.toArray).toList) := by
    rw [Array.toList_append, Option.toList_toArray, facesAll_append]
    exact moved.append_left _
  have joined {t : Tree} {rest : List Tree} {before middle after : List Face}
      (here : Follows (nodesAll [t]) before middle)
      (onward : Follows (nodesAll rest) middle after) :
      Follows (nodesAll (t :: rest)) before after := by
    rw [nodesAll_cons, nodesAll_nil, append_nil] at here
    rw [nodesAll_cons]
    exact here.append onward
  have opened {id : NodeId} {kind : BlockKind} {loc : Loc} {parts : List Tree}
      {before after : List Face} (closed : kind.opensScope = false)
      (inside : Follows (nodesAll parts) before after) :
      Follows (nodesAll [blockOf id kind loc parts]) before after := by
    rw [nodesAll_cons, nodesAll_nil, append_nil]
    exact inside.layout rfl closed
  induction combined with
  | noLines | noElements => exact .refl plain fun _ => ⟨.nil _, trivial⟩
  | @emptyLine _ _ _ _ _ statements _ _ _ _ _ _ first onward =>
    have one := first plain
    refine one.trans (onward one.plain) fun here later _ =>
      ⟨joined (opened rfl ?_) (later trivial).1, trivial⟩
    have step := (here trivial).1.onto (facesAll statements.toList)
    rw [show Product.faces (.expr none) = [] from facesAll_nil, append_nil] at step
    exact step
  | @statement _ _ _ _ _ statements _ _ expr _ _ _ _ _ added _ first onward =>
    have one := first plain
    have two := one.trans (added.onward one.plain) And.intro
    refine two.trans (onward two.plain) fun here later _ =>
      ⟨joined (opened rfl ?_) (later trivial).1, trivial⟩
    obtain ⟨step, noDefinition⟩ := here.1 trivial
    have onto := step.onto (facesAll statements.toList)
    rw [Product.faces, Option.toList_some, facesAll_cons, facesAll_nil, append_nil,
      ← here.2 (noDefinition expr rfl)] at onto
    exact onto
  | folded _ folds first =>
    have one := first plain
    refine one.trans ((quietly_fold _).of_run folds one.plain) fun here folded _ => ?_
    obtain ⟨step, settled⟩ := here trivial
    have moved := step.rearranges (folded settled)
    refine ⟨moved, ?_⟩
    rintro expr ⟨⟩
    exact ne_defMacro moved.kind_ne
  | tupled _ made first =>
    have one := first plain
    refine one.trans ((Quietly.supply (Climb.arranges_new rfl _ _)).of_run made one.plain) ?_
    rintro here ⟨shows, isTuple⟩ -
    refine ⟨?_, ?_⟩
    · rw [Product.faces, Option.toList_some, facesAll_cons, facesAll_nil, append_nil, shows]
      exact (here (forall_mem_nil _)).1
    · rintro _ ⟨⟩
      rw [isTuple]
      rintro ⟨⟩
  | lastGroup folds =>
    refine ((quietly_fold _).of_run folds plain).mono fun folded settled => ⟨?_, trivial⟩
    exact (Follows.nil _).rearranges (added _ (folded settled))
  | @nextGroup _ _ _ _ _ _ _ elements _ _ _ _ _ _ folds _ _ first onward =>
    have one := (quietly_fold _).of_run folds plain
    have two := one.trans (first one.plain) And.intro
    refine two.trans (onward two.plain) fun here later settled => ?_
    obtain ⟨step, fits⟩ := here.2 trivial
    have folded := (Follows.nil _).rearranges (added elements (here.1 settled))
    exact ⟨joined (opened rfl (folded.append (step.onto _))) (later fits).1, trivial⟩
  | part _ _ first onward =>
    have one := first plain
    refine one.trans (onward one.plain) fun here later settled => ?_
    obtain ⟨step, fits⟩ := here trivial
    obtain ⟨behind, -⟩ := later (forall_mem_append.mpr ⟨settled, fits⟩)
    refine ⟨joined (step.onto _) ?_, trivial⟩
    rw [Job.faces, Item.faces_append, ← append_assoc] at behind
    exact behind
  | element _ folds _ first onward =>
    have one := first plain
    have two := one.trans ((quietly_fold _).of_run folds one.plain) And.intro
    refine two.trans (onward two.plain) fun here later _ => ?_
    obtain ⟨step, fits⟩ := here.1 trivial
    exact ⟨joined (opened rfl ((step.onto _).rearranges (added _ (here.2 fits)))) (later trivial).1,
      trivial⟩
  | noItems => exact .refl plain fun _ => ⟨.nil _, forall_mem_nil _⟩
  | items _ _ first second =>
    have one := first plain
    refine one.trans (second one.plain) fun here there _ => ?_
    obtain ⟨step, fits⟩ := here trivial
    obtain ⟨behind, more⟩ := there trivial
    refine ⟨?_, forall_mem_append.mpr ⟨fits, more⟩⟩
    rw [Product.faces, Item.faces_append]
    exact joined step (behind.onto _)
  | @block id kind loc _ _ _ _ _ _ _ _ _ _ opens isPart extended _ finished first =>
    have one : Onward _ _ True := (Quietly.extend _).of_run extended plain
    have two := one.trans (first one.plain) fun _ here => here
    refine two.trans ((quietly_finishBlock _ _ _ _).of_run finished two.plain)
      fun here shows _ => ?_
    obtain ⟨faces, reads, moved⟩ := (here trivial).1
    have becomes : Becomes (id, .new (.block kind) none loc) [⟨id, .block kind, none, loc⟩] :=
      .block rfl opens
    refine ⟨⟨_, reads.cons becomes, ?_⟩, Item.allSettled_cons.mpr ⟨⟨?_, ?_⟩, forall_mem_nil _⟩⟩
    · rw [Product.faces, Item.faces_cons, Item.faces_nil, append_nil, shows]
      exact moved.append_left _
    · rintro symbol rfl
      rcases isPart with same | same <;> cases same
    · rintro (rfl | rfl) <;> rcases isPart with same | same <;> cases same
  | @bracket _ kind _ _ _ _ _ _ _ _ isBracket _ made first =>
    have closed : kind.opensScope = false := by
      revert isBracket
      cases kind <;> decide
    have one := first plain
    refine one.trans (made.onward one.plain) fun here shows _ =>
      ⟨?_, Item.allSettled_cons.mpr ⟨shows.1, forall_mem_nil _⟩⟩
    rw [Product.faces, Item.faces_cons, Item.faces_nil, append_nil, shows.2]
    exact opened closed (here trivial).1
  | token _ itemed => exact (itemed.onward plain).mono fun stand _ => stand

/-- Unless something is reported, the faces of a unit are rearranged. -/
theorem quietly_root {t : Tree} (raw : Raw t) (isRoot : t.symbol = .block .root) :
    Quietly (root t) fun whole => ∃ faces, Reads t.nodes faces ∧ Rearranges faces whole.faces := by
  obtain ⟨number, info, parts⟩ := t
  have inner := (raw.of_block isRoot).2
  have made : Quietly (lines parts Scopes.root #[]) fun all =>
      Follows (nodesAll parts) [] (facesAll all.toList) := fun s plain =>
    ((combined_lines inner Scopes.root #[] s).onward plain).mono fun facts => (facts trivial).1
  refine .bind made fun statements => ?_
  refine (quietly_finishBlock number info Scopes.root statements).mono fun whole shows => ?_
  rintro ⟨faces, reads, moved⟩
  refine ⟨_, reads.cons (.block isRoot rfl), ?_⟩
  rw [shows, Info.face?, show info.symbol = _ from isRoot]
  exact moved.append_left [_]

end Combine

end Offside
