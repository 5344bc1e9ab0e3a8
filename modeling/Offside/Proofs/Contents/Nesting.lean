import Offside.Proofs.Block.Nesting
import Offside.Proofs.Contents.Words

/-!
# Contents of blocks

The root, indented blocks and `do` blocks hold lines, brackets hold groups, and lines and groups
hold what is on them. As the open blocks of a reading are nested, what is closed in an open block
can stand there at all times.
-/

namespace Offside

def TokenClass.Fits : TokenClass → Value → Prop
  | .identifier, .name name | .virtualIdentifier, .name name => Text.IsWord name.toList
  | .operator, .name text | .hashOperator, .name text => '$' ∉ text.toList
  | .number, .number _ | .str, .str _ => True
  | _, _ => False

def Symbol.isPart : Symbol → Bool
  | .token _ => true
  | .block .block | .block .doBlock => true
  | .block kind => kind.isBracket
  | _ => false

theorem Symbol.cases_of_isPart {kind : BlockKind} (isPart : (Symbol.block kind).isPart = true) :
    kind = .block ∨ kind = .doBlock ∨ kind.isBracket = true := by
  revert isPart
  cases kind <;> decide

/-- Decides whether a node with a symbol can stand in a block. -/
def BlockKind.holds (kind : BlockKind) (symbol : Symbol) : Bool :=
  match kind with
  | .root | .block | .doBlock => symbol = .block .line
  | .line => symbol.isPart || symbol = .block .comma
  | .comma => symbol.isPart
  | .paren | .square | .curly => symbol = .block .comma

namespace BlockKind

variable {outer inner : BlockKind}

theorem holds_of_mayStandIn (fits : inner.mayStandIn outer = true) :
    outer.holds (.block inner) = true := by
  revert fits
  cases outer <;> cases inner <;> decide

/-- All blocks with lines hold the same. -/
theorem holds_of_opensScope (opens : outer.opensScope = true) : outer.holds = root.holds := by
  cases outer <;> first | rfl | cases opens

/-- All brackets hold the same. -/
theorem holds_of_isBracket (isBracket : outer.isBracket = true) : outer.holds = paren.holds := by
  cases outer <;> first | rfl | cases isBracket

end BlockKind

/-- A tree of blocks and tokens, each of which stands in a block that can hold it. -/
inductive Raw : Tree → Prop
  | leaf {id kind value loc} (fits : kind.Fits value) :
      Raw (.node id (.new (.token kind) (some value) loc) [])
  | block {id kind loc children}
      (held : ∀ c ∈ children, kind.holds c.symbol = true) (parts : ∀ c ∈ children, Raw c) :
      Raw (.node id (.new (.block kind) none loc) children)

def RawIn (kind : BlockKind) (ts : List Tree) : Prop :=
  ∀ t ∈ ts, kind.holds t.symbol = true ∧ Raw t

theorem rawIn_cons {kind : BlockKind} {t : Tree} {ts : List Tree} :
    RawIn kind (t :: ts) ↔ (kind.holds t.symbol = true ∧ Raw t) ∧ RawIn kind ts :=
  List.forall_mem_cons

theorem RawIn.of_holds {kind other : BlockKind} {ts : List Tree} (raw : RawIn kind ts)
    (same : kind.holds = other.holds) : RawIn other ts :=
  fun t member => same ▸ raw t member

namespace Raw

variable {id : NodeId} {info : Info} {children : List Tree}

theorem of_block {kind : BlockKind} (raw : Raw (.node id info children))
    (isBlock : info.symbol = .block kind) :
    (∃ loc, info = .new (.block kind) none loc) ∧ RawIn kind children := by
  cases raw with
  | leaf => cases isBlock
  | block held parts =>
    cases isBlock
    exact ⟨⟨_, rfl⟩, fun c member => ⟨held c member, parts c member⟩⟩

theorem of_token {kind : TokenClass} (raw : Raw (.node id info children))
    (isToken : info.symbol = .token kind) :
    ∃ value loc, info = .new (.token kind) (some value) loc ∧ kind.Fits value ∧ children = [] := by
  cases raw with
  | leaf fits =>
    cases isToken
    exact ⟨_, _, rfl, fits, rfl⟩
  | block => cases isToken

end Raw

namespace OpenBlock

/-- What stands in an open block can stand there. -/
structure Fits (block : OpenBlock) : Prop where
  held : ∀ c ∈ block.children, block.kind.holds c.symbol = true
  parts : ∀ c ∈ block.children, Raw c

variable {block : OpenBlock} {t : Tree}

theorem fits_new (id : NodeId) (kind : BlockKind) (loc : Loc) (level : Option Nat) :
    (new id kind loc level).Fits :=
  ⟨nofun, nofun⟩

theorem Fits.add (fits : block.Fits) (holds : block.kind.holds t.symbol = true) (raw : Raw t) :
    (block.add t).Fits := by
  constructor <;> intro c member <;> rcases Array.mem_push.mp member with earlier | rfl
  · exact fits.held c earlier
  · exact holds
  · exact fits.parts c earlier
  · exact raw

theorem Fits.raw (fits : block.Fits) : Raw block.tree :=
  .block (fun c member => fits.held c (Array.mem_toList_iff.mp member))
    fun c member => fits.parts c (Array.mem_toList_iff.mp member)

end OpenBlock

namespace BlockStack

/-- What stands in the open blocks can stand there. -/
def Filled (stack : BlockStack) : Prop :=
  ∀ block ∈ stack.top :: stack.below, block.Fits

variable {stack settled : BlockStack}

theorem Filled.top (filled : stack.Filled) : stack.top.Fits :=
  filled _ (.head _)

theorem Filled.push (filled : stack.Filled) (id : NodeId) (kind : BlockKind) (loc : Loc)
    (level : Option Nat) : (stack.push (.new id kind loc level)).Filled :=
  List.forall_mem_cons.mpr ⟨OpenBlock.fits_new _ _ _ _, filled⟩

/-- Closing blocks that are nested keeps what stands in the others. -/
theorem Settles.filled (settles : stack.Settles settled) (nested : Nested stack.top stack.below)
    (filled : stack.Filled) : settled.Filled := by
  unfold Filled at filled ⊢
  induction settles with
  | refl => exact filled
  | known top below column =>
    rw [List.forall_mem_cons] at filled ⊢
    exact ⟨⟨filled.1.held, filled.1.parts⟩, filled.2⟩
  | around top outer rest column =>
    rw [List.forall_mem_cons, List.forall_mem_cons] at filled ⊢
    exact ⟨filled.1, ⟨filled.2.1.held, filled.2.1.parts⟩, filled.2.2⟩
  | close _ ih =>
    rw [List.forall_mem_cons, List.forall_mem_cons] at filled
    have holds := BlockKind.holds_of_mayStandIn nested.1
    exact ih (nested.close _) (List.forall_mem_cons.mpr
      ⟨filled.2.1.add holds filled.1.raw, filled.2.2⟩)

/-- When all blocks are closed, what is left is the root. -/
theorem Filled.raw_finish (filled : stack.Filled) (nested : Nested stack.top stack.below) :
    Raw (finish stack.top stack.below) ∧
      (finish stack.top stack.below).symbol = .block .root := by
  obtain ⟨root, settles, same⟩ := settles_finish stack.top stack.below
  rw [same]
  refine ⟨(settles.filled nested filled).top.raw, ?_⟩
  exact congrArg Symbol.block ((settles.below_eq_nil_iff nested).mp rfl)

end BlockStack

namespace Block

open BlockStack

namespace Reader

variable {r : Reader}

/-- What stands in a line without commas can stand in a group. -/
theorem fits_grouped {top : OpenBlock} (fits : top.Fits) (isLine : top.kind = .line)
    (noComma : top.children.any (·.isBlock .comma) = false) (id : NodeId) (loc : Loc) :
    OpenBlock.Fits { top with
      children :=
        #[{ (OpenBlock.new id .comma loc none) with children := top.children }.tree] } := by
  have grouped :
      OpenBlock.Fits { (OpenBlock.new id .comma loc none) with children := top.children } := by
    refine ⟨fun c member => ?_, fits.parts⟩
    have holds := fits.held c member
    rw [isLine, BlockKind.holds, Bool.or_eq_true] at holds
    refine holds.resolve_right fun isComma => ?_
    have found : top.children.any (·.isBlock .comma) = true :=
      Array.any_eq_true'.mpr ⟨c, member, ?_⟩
    · rw [noComma] at found
      cases found
    · rw [Tree.isBlock, Info.isBlock, show c.info.symbol = _ from of_decide_eq_true isComma]
      rfl
  constructor <;> intro c member <;> rw [Array.mem_singleton.mp member]
  · change top.kind.holds (.block .comma) = true
    rw [isLine]
    rfl
  · exact grouped.raw

section

variable (filled : r.stack.Filled)
include filled

theorem filled_newLine (ready : r.Ready) (column : Nat) (loc : Loc) :
    (r.newLine column loc).stack.Filled := by
  rcases ready with ⟨source, rfl⟩ | ordered
  · have root : Filled ⟨(start source).stack.top.settleLevel column, []⟩ :=
      List.forall_mem_singleton.mpr (OpenBlock.fits_new _ _ _ _)
    exact root.push _ _ _ _
  have entered := (settles_enter column false r.stack.top r.stack.below).filled ordered.1 filled
  refine List.foldlRecOn (motive := fun r : Reader => r.stack.Filled) _ _ ?_
    fun _ filled _ _ => filled.push _ _ _ _
  split <;> exact entered

theorem filled_comma (nested : Nested r.stack.top r.stack.below) (loc : Loc) :
    (r.comma loc).stack.Filled := by
  unfold Reader.comma
  split
  · exact ((settles_pop r.stack).filled nested filled).push _ _ _ _
  case h_2 isLine =>
    split
    · exact filled.push _ _ _ _
    case isFalse noComma =>
      have grouped := fits_grouped filled.top isLine (Bool.eq_false_iff.mpr noComma)
        r.numbering.next loc
      have all : (r.group loc).stack.Filled :=
        List.forall_mem_cons.mpr ⟨grouped, (List.forall_mem_cons.mp filled).2⟩
      exact all.push _ _ _ _
  · exact filled.push _ _ _ _
  · exact filled.push _ _ _ _
  · exact filled.push _ _ _ _
  all_goals exact filled

theorem filled_leaf (row : IsRow r.stack.top) {kind : TokenClass} {value : Value} (loc : Loc)
    (fits : kind.Fits value) : (r.leaf kind value loc).stack.Filled := by
  refine List.forall_mem_cons.mpr
    ⟨filled.top.add ?_ (.leaf fits), (List.forall_mem_cons.mp filled).2⟩
  rcases row with isRow | isRow
  all_goals
    rw [isRow]
    rfl

theorem filled_token (ordered : r.InOrder) {token : Token} (fits : token.kind.Fits) :
    (r.token token).stack.Filled := by
  unfold Reader.token
  dsimp only
  split
  case h_1 => exact (filled.push _ _ _ _).push _ _ _ _
  case h_2 c _ =>
    split
    · exact (filled.push _ _ _ _).push _ _ _ _
    · exact filled
  case h_3 c _ =>
    have closed := (settles_close c r.stack.top r.stack.below).filled ordered.1 filled
    unfold Reader.close
    generalize BlockStack.close c r.stack.top r.stack.below = result at closed
    obtain ⟨closing, stack⟩ := result
    cases closing <;> exact closed
  case h_4 => exact filled_comma filled ordered.1 _
  case h_5 isName | h_6 isName | h_7 isName | h_8 isName =>
    rw [isName] at fits
    exact filled_leaf filled ordered.2 _ fits
  all_goals exact filled_leaf filled ordered.2 _ trivial

theorem filled_line (ready : r.Ready) {line : TokenLine} (fits : Scan.AllFit line.tokens) :
    (r.line line).stack.Filled := by
  unfold Reader.line
  split
  · exact filled
  case h_2 first rest tokens =>
    rw [tokens] at fits
    refine (List.foldlRecOn (motive := fun r : Reader => r.stack.Filled ∧ r.InOrder) _ _
      ⟨filled_newLine filled ready _ _, ready.newLine _ _⟩ fun _ both token member => ?_).1
    exact ⟨filled_token both.1 both.2 (fits token member), both.2.token token⟩

end

end Reader

/-- The blocks of a source are nested. -/
theorem raw_read (source : SourceId) {lines : List TokenLine}
    (fits : ∀ line ∈ lines, Scan.AllFit line.tokens) :
    Raw (read source lines).1 ∧ (read source lines).1.symbol = .block .root := by
  have start : (Reader.start source).stack.Filled :=
    List.forall_mem_singleton.mpr (OpenBlock.fits_new _ _ _ _)
  obtain ⟨filled, ready⟩ := List.foldlRecOn
    (motive := fun r : Reader => r.stack.Filled ∧ r.Ready) lines Reader.line
    ⟨start, .inl ⟨source, rfl⟩⟩ fun _ both line member =>
      ⟨Reader.filled_line both.1 both.2 (fits line member), both.2.line line⟩
  unfold read
  dsimp only
  rw [Reader.stack_finish]
  rcases ready with ⟨_, same⟩ | ordered
  · rw [same] at filled ⊢
    exact ⟨filled.top.raw, rfl⟩
  · exact filled.raw_finish ordered.1

end Block

end Offside
