import Offside.Proofs.Block.Moves

/-!
# Nesting of open blocks

From the first line on the open blocks stand in each other as their kinds allow, and the columns
that are known increase from the root to the innermost block. The last line or the last group of
a line or bracket is open.
-/

namespace Offside

open List

/-- Decides whether a block of the first kind may stand directly in one of the second. -/
def BlockKind.mayStandIn : BlockKind → BlockKind → Bool
  | .root, _ => false
  | .line, outer => outer.opensScope
  | .comma, outer => outer = .line || outer.isBracket
  | .block, outer => outer = .line
  | _, outer => outer = .line || outer = .comma

namespace BlockStack

/--
The outermost block is the root, and every other one stands in a block that may hold it. The root
and indented blocks have a column, and a block that has one holds lines and stands to the right
of the blocks around it.
-/
def Nested : OpenBlock → List OpenBlock → Prop
  | top, [] => top.kind = .root ∧ top.level.isSome = true
  | top, outer :: rest =>
    top.kind.mayStandIn outer.kind = true ∧ (top.kind = .block → top.level.isSome = true) ∧
      (∀ level, top.level = some level →
        top.kind.opensScope = true ∧ enclosingLevel (outer :: rest) < level) ∧
      Nested outer rest

/-- Tokens can be added to the block. -/
def IsRow (block : OpenBlock) : Prop :=
  block.kind = .line ∨ block.kind = .comma

variable {top outer : OpenBlock} {below rest : List OpenBlock} {column : Nat} {dedented : Bool}

theorem Nested.refill (nested : Nested top below) (children : Array Tree) :
    Nested { top with children } below := by
  cases below <;> exact nested

theorem Nested.around (nested : Nested top (outer :: rest)) : Nested outer rest :=
  nested.2.2.2

theorem Nested.close (nested : Nested top (outer :: rest)) (t : Tree) : Nested (outer.add t) rest :=
  nested.around.refill _

theorem Nested.push (nested : Nested top below) (kind : BlockKind)
    (fits : kind.mayStandIn top.kind = true) (other : kind ≠ .block) (id : NodeId) (loc : Loc) :
    Nested (.new id kind loc none) (top :: below) :=
  ⟨fits, fun isBlock => absurd isBlock other, by rintro _ ⟨⟩, nested⟩

/-- A block around a line holds lines. -/
theorem Nested.opensScope (nested : Nested top (outer :: rest)) (isLine : top.kind = .line) :
    outer.kind.opensScope = true := by
  have fits := nested.1
  rwa [isLine] at fits

/-- All blocks but lines and groups stand in a line or in a group. -/
theorem Nested.row (nested : Nested top (outer :: rest)) (other : ¬ IsRow top) : IsRow outer := by
  have fits := nested.1
  unfold IsRow at other ⊢
  revert fits other
  cases top.kind <;> cases outer.kind <;> decide

/-- A block that holds lines is none. -/
theorem not_isRow (opens : top.kind.opensScope = true) : ¬ IsRow top := by
  rintro (isLine | isComma)
  · rw [isLine] at opens
    cases opens
  · rw [isComma] at opens
    cases opens

/-- A block without a column, which is a `do`, may get one to the right of the blocks around it. -/
theorem Nested.settle (nested : Nested top below) (opens : top.kind.opensScope = true)
    (unknown : top.level = none)
    (right : ¬ (top.kind = .doBlock && column ≤ enclosingLevel below) = true) :
    Nested (top.settleLevel column) below := by
  cases below with
  | nil => exact ⟨nested.1, Option.isSome_or.trans (Bool.or_true _)⟩
  | cons outer rest =>
    obtain ⟨fits, known, -, around⟩ := nested
    have isDo : top.kind = .doBlock := by
      revert fits known opens
      rw [unknown]
      cases top.kind <;> simp [BlockKind.mayStandIn, BlockKind.opensScope]
    refine ⟨fits, fun isBlock => ?_, fun level same => ⟨opens, ?_⟩, around⟩
    · cases isDo.symm.trans isBlock
    · simp [OpenBlock.settleLevel, unknown] at same
      simpa [isDo, ← same] using right

theorem enclosingLevel_cons : enclosingLevel (top :: below) =
    if top.kind.opensScope then top.level.getD (enclosingLevel below)
      else enclosingLevel below := by
  rw [enclosingLevel, filter_cons]
  split
  · rw [List.findSome?_cons]
    cases top.level <;> rfl
  · rfl

/-- What a new line leaves open, and what it opens there. -/
structure Entry.Fits (entry : Entry) : Prop where
  nested : Nested entry.stack.top entry.stack.below
  opens : entry.opens = [] ∧ IsRow entry.stack.top ∨
    entry.opens = [(.line, none)] ∧ entry.stack.top.kind.opensScope = true ∨
    ∃ column, entry.opens = [(.block, some column), (.line, none)] ∧
      entry.stack.top.kind = .line ∧
        enclosingLevel (entry.stack.top :: entry.stack.below) < column

section

variable (nested : Nested top below)
include nested

theorem Nested.fits_enter (row : IsRow top) : (enter column dedented top below).Fits := by
  fun_induction enter column dedented top below
  case case8 isLine ih => exact ih (nested.close _) (.inl isLine)
  case case9 => exact ⟨nested, .inl ⟨rfl, row⟩⟩
  case case13 unknown _ _ =>
    have known := nested.around.2
    rw [unknown] at known
    cases known
  case case14 isLine _ _ _ _ _ ih =>
    exact ih (nested.around.close _) (nested.around.row (not_isRow (nested.opensScope isLine)))
  case case15 isLine unknown goesOn _ =>
    have opens := nested.opensScope isLine
    obtain ⟨fits, known, levels, around⟩ := nested
    refine ⟨⟨fits, known, fun level same => ?_, around.settle opens unknown goesOn⟩,
      .inl ⟨rfl, row⟩⟩
    have ofScope := (levels level same).1
    rw [isLine] at ofScope
    cases ofScope
  case case16 isLine _ unknown goesOn _ =>
    have opens := nested.opensScope isLine
    exact ⟨(nested.close _).settle opens unknown goesOn, .inr (.inl ⟨rfl, opens⟩)⟩
  case case17 isLine level known deeper =>
    refine ⟨nested, .inr (.inr ⟨_, rfl, isLine, ?_⟩)⟩
    rw [enclosingLevel_cons, isLine, enclosingLevel_cons, nested.opensScope isLine, known]
    exact of_decide_eq_true (Bool.and_eq_true_iff.mp deeper).1
  case case18 isLine _ _ _ _ _ | case19 isLine _ _ _ _ _ _ | case20 isLine _ _ _ _ _ _ =>
    exact ⟨nested.close _, .inr (.inl ⟨rfl, nested.opensScope isLine⟩)⟩
  case case21 isLine _ _ _ _ _ _ _ _ ih =>
    exact ih (nested.around.close _) (nested.around.row (not_isRow (nested.opensScope isLine)))
  -- all other kinds are those of blocks that do not take tokens
  all_goals
    unfold IsRow at row
    simp_all [Nested]

/-- A closing bracket leaves a line or a group innermost. -/
theorem Nested.closing (c : Char)
    (ends : IsRow top ∨ (top :: below).any (·.kind.isBracket) = true) :
    Nested (BlockStack.close c top below).2.top (BlockStack.close c top below).2.below ∧
      IsRow (BlockStack.close c top below).2.top := by
  fun_induction BlockStack.close c top below
  case case1 =>
    have isRoot := nested.1
    simp [IsRow, isRoot, BlockKind.isBracket] at ends
  case case2 isComma ih =>
    refine ih (nested.close _) ?_
    have fits := nested.1
    rw [isComma] at fits
    rcases Bool.or_eq_true _ _ |>.mp fits with isLine | isBracket
    · exact .inl (.inl (of_decide_eq_true isLine))
    · exact .inr (any_eq_true.mpr ⟨_, .head _, isBracket⟩)
  case case9 isInside _ _ _ _ ih => exact ih (nested.close _) (.inr isInside)
  case case10 noBracket noComma noParen noSquare noCurly =>
    refine ⟨nested, ends.resolve_right fun isInside => ?_⟩
    rw [any_cons, Bool.or_eq_true, or_iff_left noBracket] at isInside
    unfold BlockKind.isBracket at isInside
    split at isInside <;> contradiction
  all_goals
    refine ⟨nested.close _, nested.row ?_⟩
    simp_all [IsRow]

/-- The known columns decrease from the inside out, and the nearest one is the greatest. -/
theorem Nested.levels :
    ((top :: below).filterMap OpenBlock.level).Pairwise (· > ·) ∧
      ∀ level ∈ (top :: below).filterMap OpenBlock.level, level ≤
        enclosingLevel (top :: below) := by
  induction below generalizing top with
  | nil =>
    obtain ⟨level, known⟩ := Option.isSome_iff_exists.mp nested.2
    simp [known, enclosingLevel_cons, nested.1, BlockKind.opensScope]
  | cons outer rest ih =>
    obtain ⟨decreasing, greatest⟩ := ih nested.around
    cases known : top.level with
    | none =>
      rw [filterMap_cons_none known, enclosingLevel_cons, known, Option.getD_none, ite_self]
      exact ⟨decreasing, greatest⟩
    | some level =>
      obtain ⟨opens, right⟩ := nested.2.2.1 level known
      rw [filterMap_cons_some known, enclosingLevel_cons, known, if_pos opens, Option.getD_some]
      have less (inner : Nat) (member : inner ∈ (outer :: rest).filterMap OpenBlock.level) :
          inner < level :=
        Nat.lt_of_le_of_lt (greatest inner member) right
      refine ⟨.cons less decreasing, forall_mem_cons.mpr ⟨Nat.le_refl _, fun inner member => ?_⟩⟩
      exact Nat.le_of_lt (less inner member)

/-- All blocks but the root have one around them. -/
theorem Nested.below_eq_nil_iff : below = [] ↔ top.kind = .root := by
  cases below with
  | nil => exact iff_of_true rfl nested.1
  | cons outer rest =>
    refine iff_of_false (cons_ne_nil _ _) fun isRoot => ?_
    have fits := nested.1
    rw [isRoot] at fits
    cases fits

end

/-- The same holds however many blocks have been closed. -/
theorem Settles.below_eq_nil_iff {stack settled : BlockStack} (settles : Settles stack settled)
    (nested : Nested stack.top stack.below) : settled.below = [] ↔ settled.top.kind = .root := by
  induction settles with
  | refl | known => exact nested.below_eq_nil_iff
  | around =>
    exact iff_of_false (cons_ne_nil _ _) (mt nested.below_eq_nil_iff.mpr (cons_ne_nil _ _))
  | close _ ih => exact ih (nested.close _)

/--
The tree is the first of some blocks; the second one is its last child, the third one the last
child of that, and so on.
-/
def EndsIn : Tree → List (NodeId × BlockKind) → Prop
  | _, [] => True
  | t, (id, kind) :: inner => t.id = id ∧ t.symbol = .block kind ∧
    (inner ≠ [] → ∃ last, t.children.getLast? = some last ∧ EndsIn last inner)

/-- When all blocks are closed, each of them is the last child of the one around it. -/
theorem endsIn_finish (top : OpenBlock) (below : List OpenBlock) (inner : List (NodeId × BlockKind))
    (ends : EndsIn top.tree ((top.id, top.kind) :: inner)) :
    EndsIn (finish top below)
      ((below.map fun block => (block.id, block.kind)).reverse ++ (top.id, top.kind) :: inner) := by
  induction below generalizing top inner with
  | nil => exact ends
  | cons outer rest ih =>
    rw [map_cons, reverse_cons, append_assoc]
    refine ih (outer.add top.tree) _ ⟨rfl, rfl, fun _ => ⟨top.tree, ?_, ends⟩⟩
    change (outer.children.push top.tree).toList.getLast? = some top.tree
    rw [Array.toList_push, getLast?_concat]

end BlockStack

namespace Block

open BlockStack

namespace Reader

variable {r : Reader}

/-- The open blocks are nested, and tokens can be added to the innermost one. -/
def InOrder (r : Reader) : Prop :=
  Nested r.stack.top r.stack.below ∧ IsRow r.stack.top

theorem InOrder.newLine (ordered : r.InOrder) (column : Nat) (loc : Loc) :
    (r.newLine column loc).InOrder := by
  have fits : (enter column false r.stack.top r.stack.below).Fits := ordered.1.fits_enter ordered.2
  unfold Reader.newLine
  generalize enter column false r.stack.top r.stack.below = entry at fits
  obtain ⟨nested, opens⟩ := fits
  dsimp only
  generalize same : (if entry.inconsistent = true then _ else _ : Reader) = before
  have stack : before.stack = entry.stack := by
    rw [← same]
    split <;> rfl
  rw [← stack] at nested opens
  rcases opens with ⟨opens, row⟩ | ⟨opens, lines⟩ | ⟨level, opens, isLine, right⟩
  · rw [opens]
    exact ⟨nested, row⟩
  · rw [opens]
    exact ⟨nested.push .line lines (by decide) _ _, .inl rfl⟩
  · rw [opens]
    have inner : Nested (.new before.numbering.next .block loc (some level))
        (before.stack.top :: before.stack.below) := by
      refine ⟨decide_eq_true isLine, fun _ => rfl, ?_, nested⟩
      rintro _ ⟨⟩
      exact ⟨rfl, right⟩
    exact ⟨inner.push .line rfl (by decide) _ _, .inl rfl⟩

theorem InOrder.comma (ordered : r.InOrder) (loc : Loc) : (r.comma loc).InOrder := by
  obtain ⟨nested, row⟩ := ordered
  unfold Reader.comma
  split
  case h_1 isComma =>
    obtain ⟨⟨top, below⟩, numbering, diagnostics⟩ := r
    replace isComma : top.kind = .comma := isComma
    cases below with
    | nil => cases isComma.symm.trans nested.1
    | cons outer rest =>
      exact ⟨(nested.close _).push .comma (isComma ▸ nested.1) (by decide) _ _, .inr rfl⟩
  case h_2 isLine =>
    have fits : BlockKind.comma.mayStandIn r.stack.top.kind = true := by
      rw [isLine]
      rfl
    refine ⟨Nested.push ?_ .comma ?_ (by decide) _ _, .inr rfl⟩
    · split
      · exact nested
      · exact nested.refill _
    · split
      all_goals exact fits
  all_goals simp_all [IsRow]

/-- A block that may stand in a line or in a group is opened with its first line or group. -/
theorem InOrder.opened (ordered : r.InOrder) {kind inner : BlockKind} (loc : Loc)
    (fits : kind.mayStandIn .line = true ∧ kind.mayStandIn .comma = true ∧ kind ≠ .block)
    (within : inner.mayStandIn kind = true ∧ inner ≠ .block ∧ (inner = .line ∨ inner = .comma)) :
    ((r.push kind none loc).push inner none loc).InOrder := by
  obtain ⟨nested, row⟩ := ordered
  refine ⟨Nested.push (nested.push kind ?_ fits.2.2 _ _) inner within.1 within.2.1 _ _, within.2.2⟩
  rcases row with isLine | isComma
  · exact isLine ▸ fits.1
  · exact isComma ▸ fits.2.1

theorem InOrder.token (ordered : r.InOrder) (t : Token) : (r.token t).InOrder := by
  unfold Reader.token
  dsimp only
  split
  case h_1 => exact ordered.opened _ (by decide) (by decide)
  case h_2 c _ =>
    split
    case h_1 kind found =>
      have isBracket : kind = .paren ∨ kind = .square ∨ kind = .curly := by
        grind [BlockKind.ofOpen?]
      rcases isBracket with rfl | rfl | rfl <;> exact ordered.opened _ (by decide) (by decide)
    case h_2 => exact ordered
  case h_3 c _ =>
    have closed := ordered.1.closing c (.inl ordered.2)
    unfold Reader.close
    generalize BlockStack.close c r.stack.top r.stack.below = result at closed
    obtain ⟨closing, stack⟩ := result
    cases closing <;> exact closed
  case h_4 => exact ordered.comma _
  all_goals exact ⟨ordered.1.refill _, ordered.2⟩

/-- A line can begin: nothing has been read yet, or the open blocks are nested. -/
def Ready (r : Reader) : Prop :=
  (∃ source, r = start source) ∨ r.InOrder

theorem Ready.newLine (ready : r.Ready) (column : Nat) (loc : Loc) :
    (r.newLine column loc).InOrder := by
  rcases ready with ⟨source, rfl⟩ | ordered
  · have root : Nested ((start source).stack.top.settleLevel column) [] := ⟨rfl, rfl⟩
    exact ⟨root.push .line rfl (by decide) _ _, .inl rfl⟩
  · exact ordered.newLine column loc

theorem Ready.line (ready : r.Ready) (line : TokenLine) : (r.line line).Ready := by
  unfold Reader.line
  split
  · exact ready
  · exact .inr (List.foldlRecOn _ _ (ready.newLine _ _) fun _ ordered t _ => ordered.token t)

/-- After every new line and every token of some lines the open blocks are nested. -/
theorem inOrder_foldl (source : SourceId) (lines : List TokenLine) (column : Nat) (loc : Loc)
    (tokens : List Token) :
    (tokens.foldl token ((lines.foldl line (start source)).newLine column loc)).InOrder := by
  have ready : (lines.foldl line (start source)).Ready :=
    List.foldlRecOn _ _ (.inl ⟨source, rfl⟩) fun _ ready l _ => ready.line l
  exact List.foldlRecOn _ _ (ready.newLine column loc) fun _ ordered t _ => ordered.token t

end Reader

/--
After every new line and every token: the open blocks are nested, the innermost one is a line or a
group, the known columns increase from the root inwards, each open block is the last child of the
one around it in the tree, and while a new line or a closing bracket closes blocks, all but the root
have one around them.
-/
theorem nested_foldl (source : SourceId) (lines : List TokenLine) (column : Nat) (loc : Loc)
    (tokens : List Token) :
    let r := tokens.foldl Reader.token
      ((lines.foldl Reader.line (.start source)).newLine column loc)
    let blocks := r.stack.top :: r.stack.below
    Nested r.stack.top r.stack.below ∧
    (r.stack.top.kind = .line ∨ r.stack.top.kind = .comma) ∧
    (blocks.reverse.filterMap OpenBlock.level).Pairwise (· < ·) ∧
    EndsIn (finish r.stack.top r.stack.below)
      (blocks.reverse.map fun block => (block.id, block.kind)) ∧
    (∀ column, r.stack.Settles (enter column false r.stack.top r.stack.below).stack) ∧
    (∀ c, r.stack.Settles (BlockStack.close c r.stack.top r.stack.below).2) ∧
    ∀ stack, r.stack.Settles stack → (stack.below = [] ↔ stack.top.kind = .root) := by
  intro r blocks
  obtain ⟨nested, row⟩ := Reader.inOrder_foldl source lines column loc tokens
  refine ⟨nested, row, ?_, ?_, fun column => settles_enter column false _ _,
    fun c => settles_close c _ _, fun stack settles => settles.below_eq_nil_iff nested⟩
  · rw [filterMap_reverse, pairwise_reverse]
    exact nested.levels.1
  · have ends := endsIn_finish r.stack.top r.stack.below [] ⟨rfl, rfl, fun more => absurd rfl more⟩
    simpa [blocks] using ends

end Block

end Offside
