import Mathlib.Order.Monotone.Basic
import Offside.Proofs.Block.Conservation
import Offside.Proofs.Block.Nesting

/-!
# Columns of lines

Only the order of the columns in which lines start matters. If every column is moved by one and
the same strictly increasing function, the blocks and the reports stay as they are: the readings
of the two sources differ in the columns that the open blocks remember and in nothing else. The
column that stands for a block around everything is never compared with, because the root has a
column from its first line on.
-/

namespace Offside

open List

namespace OpenBlock

def moved (f : Nat → Nat) (block : OpenBlock) : OpenBlock :=
  { block with level := block.level.map f }

variable (f : Nat → Nat) (block : OpenBlock)

@[simp] theorem kind_moved : (block.moved f).kind = block.kind := rfl

@[simp] theorem level_moved : (block.moved f).level = block.level.map f := rfl

@[simp] theorem tree_moved : (block.moved f).tree = block.tree := by rfl

@[simp] theorem moved_add (t : Tree) : (block.add t).moved f = (block.moved f).add t := by rfl

@[simp] theorem moved_settleLevel (column : Nat) :
    (block.settleLevel column).moved f = (block.moved f).settleLevel (f column) := by
  cases level : block.level <;> simp [settleLevel, moved, level]

end OpenBlock

namespace BlockStack

def moved (f : Nat → Nat) (stack : BlockStack) : BlockStack :=
  ⟨stack.top.moved f, stack.below.map (OpenBlock.moved f)⟩

def Entry.moved (f : Nat → Nat) (entry : Entry) : Entry :=
  ⟨entry.stack.moved f, entry.opens.map fun block => (block.1, block.2.map f), entry.inconsistent⟩

variable {f : Nat → Nat} {top outer : OpenBlock} {below rest : List OpenBlock}

theorem Nested.enclosingLevel_moved (nested : Nested top below) :
    enclosingLevel ((top :: below).map (OpenBlock.moved f)) =
      f (enclosingLevel (top :: below)) := by
  induction below generalizing top with
  | nil =>
    obtain ⟨level, known⟩ := Option.isSome_iff_exists.mp nested.2
    simp [enclosingLevel_cons, nested.1, known, BlockKind.opensScope]
  | cons outer rest ih =>
    rw [map_cons, enclosingLevel_cons, ih nested.around, @enclosingLevel_cons top, apply_ite f,
      OpenBlock.kind_moved, OpenBlock.level_moved, Option.getD_map]

/-- A block whose column is not known is not the outermost one. -/
theorem Nested.enclosing (nested : Nested outer rest) (unknown : outer.level = none) :
    enclosingLevel (rest.map (OpenBlock.moved f)) = f (enclosingLevel rest) := by
  cases rest with
  | nil =>
    have known := nested.2
    rw [unknown] at known
    cases known
  | cons next rest => exact nested.around.enclosingLevel_moved

/-- Below a line of a block without a column the tests on moved columns are those on the columns. -/
theorem enter_moved_of_unknown (increasing : StrictMono f) (column : Nat) (dedented : Bool)
    (nested : Nested top (outer :: rest)) (isLine : top.kind = .line)
    (unknown : outer.level = none) :
    enter (f column) dedented (top.moved f) ((outer :: rest).map (OpenBlock.moved f)) =
      if outer.kind = .doBlock && column ≤ enclosingLevel rest then
        match rest.map (OpenBlock.moved f) with
        | [] => ⟨⟨(outer.moved f).add top.tree, []⟩, [], false⟩
        | next :: rest => enter (f column) dedented (next.add (outer.add top.tree).tree) rest
      else if top.children.isEmpty then
        ⟨⟨top.moved f, (outer.moved f).settleLevel (f column) :: rest.map (OpenBlock.moved f)⟩, [],
          false⟩
      else
        ⟨⟨((outer.moved f).add top.tree).settleLevel (f column), rest.map (OpenBlock.moved f)⟩,
          [(.line, none)], false⟩ := by
  have around : decide (f column ≤ enclosingLevel (rest.map (OpenBlock.moved f))) =
      decide (column ≤ enclosingLevel rest) := by
    rw [nested.around.enclosing unknown]
    exact decide_eq_decide.mpr increasing.le_iff_le
  rw [map_cons, enter.eq_def]
  simp only [OpenBlock.kind_moved, isLine, OpenBlock.level_moved, unknown, Option.map_none, around]
  cases rest <;> rfl

/-- Below a line of a block with a column the tests on moved columns are those on the columns. -/
theorem enter_moved_of_known (increasing : StrictMono f) (column : Nat) (dedented : Bool)
    {level : Nat} (isLine : top.kind = .line) (known : outer.level = some level) :
    enter (f column) dedented (top.moved f) ((outer :: rest).map (OpenBlock.moved f)) =
      if level < column && !dedented then
        (Entry.mk ⟨top, outer :: rest⟩ [(.block, some column), (.line, none)] false).moved f
      else if level ≤ column then
        (Entry.mk ⟨outer.add top.tree, rest⟩ [(.line, none)] (column ≠ level)).moved f
      else
        match outer.kind, rest.map (OpenBlock.moved f) with
        | .root, _ | _, [] => (Entry.mk ⟨outer.add top.tree, rest⟩ [(.line, none)] true).moved f
        | _, next :: rest => enter (f column) true (next.add (outer.add top.tree).tree) rest := by
  rw [map_cons, enter.eq_def]
  simp only [OpenBlock.kind_moved, isLine, OpenBlock.level_moved, known, Option.map_some,
    increasing.lt_iff_lt, increasing.le_iff_le, increasing.injective.ne_iff]
  cases rest <;> rfl

/-- A line finds the same place if all columns are moved. -/
theorem enter_moved (increasing : StrictMono f) (column : Nat) (dedented : Bool)
    (top : OpenBlock) (below : List OpenBlock) (nested : Nested top below) :
    enter (f column) dedented (top.moved f) (below.map (OpenBlock.moved f)) =
      (enter column dedented top below).moved f := by
  fun_induction enter column dedented top below
  case case8 isComma isLine ih =>
    refine Eq.trans ?_ (ih (nested.close _))
    rw [map_cons, enter.eq_def]
    simp [isComma, isLine]
  case case13 unknown _ _ =>
    have known := nested.around.2
    rw [unknown] at known
    cases known
  case case14 isLine unknown _ _ _ empty ih =>
    rw [enter_moved_of_unknown increasing _ _ nested isLine unknown, if_pos empty]
    exact ih (nested.around.close _)
  case case15 isLine unknown goesOn empty =>
    rw [enter_moved_of_unknown increasing _ _ nested isLine unknown, if_neg goesOn, if_pos empty]
    simp [Entry.moved, moved]
  case case16 isLine closed unknown goesOn begun =>
    rw [enter_moved_of_unknown increasing _ _ nested isLine unknown, if_neg goesOn, if_neg begun]
    simp [Entry.moved, moved, closed]
  case case17 isLine _ known deeper =>
    rw [enter_moved_of_known increasing _ _ isLine known, if_pos deeper]
  case case18 isLine _ _ known notDeeper reached =>
    rw [enter_moved_of_known increasing _ _ isLine known, if_neg notDeeper, if_pos reached]
  case case19 isLine closed _ known notDeeper above isRoot =>
    rw [enter_moved_of_known increasing _ _ isLine known, if_neg notDeeper, if_neg above]
    simp [isRoot, closed]
  case case20 isLine _ known notDeeper above noRoot closed =>
    rw [enter_moved_of_known increasing _ _ isLine known, if_neg notDeeper, if_neg above]
    simp [closed]
  case case21 isLine _ known notDeeper above _ _ noRoot closed ih =>
    rw [enter_moved_of_known increasing _ _ isLine known, if_neg notDeeper, if_neg above]
    refine Eq.trans ?_ (ih (nested.around.close _))
    simp [closed]
  all_goals simp [*, enter, Entry.moved, moved]

theorem close_moved (c : Char) (top : OpenBlock) (below : List OpenBlock) :
    close c (top.moved f) (below.map (OpenBlock.moved f)) =
      ((close c top below).1, (close c top below).2.moved f) := by
  induction below generalizing top with
  | nil => rfl
  | cons outer rest ih =>
    have after := ih (outer.add top.tree)
    have brackets : (outer.moved f :: rest.map (OpenBlock.moved f)).any (·.kind.isBracket) =
        (outer :: rest).any (·.kind.isBracket) := by
      rw [any_cons, any_map, any_cons]
      rfl
    rw [map_cons, close.eq_def, close.eq_def c top]
    simp only [OpenBlock.kind_moved, brackets]
    split
    · exact after
    · split <;> rfl
    · split <;> rfl
    · split <;> rfl
    · split
      · exact after
      · rfl

theorem finish_moved (top : OpenBlock) (below : List OpenBlock) :
    finish (top.moved f) (below.map (OpenBlock.moved f)) = finish top below := by
  induction below generalizing top with
  | nil => rfl
  | cons outer rest ih => exact ih (outer.add top.tree)

end BlockStack

namespace Block

namespace Reader

def moved (f : Nat → Nat) (r : Reader) : Reader :=
  { r with stack := r.stack.moved f }

variable {f : Nat → Nat} {r : Reader}

theorem push_moved (r : Reader) (kind : BlockKind) (level : Option Nat) (loc : Loc) :
    (r.moved f).push kind (level.map f) loc = (r.push kind level loc).moved f := by
  rfl

theorem push_push_moved (outer inner : BlockKind) (loc : Loc) :
    ((r.moved f).push outer none loc).push inner none loc =
      ((r.push outer none loc).push inner none loc).moved f := by
  rw [← push_moved (r.push outer none loc), ← push_moved r]
  rfl

theorem leaf_moved (kind : TokenClass) (value : Value) (loc : Loc) :
    (r.moved f).leaf kind value loc = (r.leaf kind value loc).moved f := by
  rfl

theorem Ready.enter_moved (ready : r.Ready) (increasing : StrictMono f) (column : Nat) :
    BlockStack.enter (f column) false (r.moved f).stack.top (r.moved f).stack.below =
      (BlockStack.enter column false r.stack.top r.stack.below).moved f := by
  rcases ready with ⟨source, rfl⟩ | ordered
  · rfl
  · exact BlockStack.enter_moved increasing column false _ _ ordered.1

theorem Ready.newLine_moved (ready : r.Ready) (increasing : StrictMono f) (column : Nat)
    (loc : Loc) : (r.moved f).newLine (f column) loc = (r.newLine column loc).moved f := by
  have opened : ∀ (blocks : List (BlockKind × Option Nat)) (r : Reader),
      (blocks.map fun block => (block.1, block.2.map f)).foldl
          (fun r block => r.push block.1 block.2 loc) (r.moved f) =
        (blocks.foldl (fun r block => r.push block.1 block.2 loc) r).moved f := by
    intro blocks
    induction blocks with
    | nil => exact fun _ => rfl
    | cons block rest ih =>
      intro r
      rw [map_cons, foldl_cons, foldl_cons, ← ih, push_moved]
  unfold Reader.newLine
  rw [ready.enter_moved increasing]
  generalize BlockStack.enter column false r.stack.top r.stack.below = entry
  obtain ⟨stack, opens, inconsistent⟩ := entry
  cases inconsistent with
  | false => exact opened opens { r with stack }
  | true => exact opened opens (Reader.report { r with stack } (.inconsistentDedent loc))

theorem group_moved (loc : Loc) : (r.moved f).group loc = (r.group loc).moved f := by
  rfl

theorem comma_moved (loc : Loc) : (r.moved f).comma loc = (r.comma loc).moved f := by
  have popped : (r.moved f).stack.pop = r.stack.pop.moved f := by
    obtain ⟨⟨top, below⟩, numbering, diagnostics⟩ := r
    cases below <;> rfl
  cases kind : r.stack.top.kind <;>
    simp only [Reader.comma, show (r.moved f).stack.top.kind = _ from kind, kind]
  case comma =>
    rw [popped]
    exact push_moved { r with stack := r.stack.pop } .comma none loc
  case line =>
    rw [group_moved]
    change Reader.push (if r.stack.top.children.any (·.isBlock .comma) then _ else _) _ _ _ = _
    split <;> exact push_moved _ .comma none loc
  case paren | square | curly => exact push_moved r .comma none loc

theorem close_moved (c : Char) (loc : Loc) : (r.moved f).close c loc = (r.close c loc).moved f := by
  unfold Reader.close
  simp only [moved, BlockStack.moved]
  rw [BlockStack.close_moved]
  generalize BlockStack.close c r.stack.top r.stack.below = result
  obtain ⟨closing, stack⟩ := result
  cases closing <;> rfl

theorem token_moved (token : Token) : (r.moved f).token token = (r.token token).moved f := by
  obtain ⟨kind, loc, width⟩ := token
  cases kind with
  | doWord => exact push_push_moved .doBlock .line loc
  | openBracket c =>
    simp only [Reader.token]
    split
    · exact push_push_moved _ .comma loc
    · rfl
  | closeBracket c => exact close_moved c loc
  | comma => exact comma_moved loc
  | _ => exact leaf_moved _ _ loc

theorem foldl_token_moved (tokens : List Token) (r : Reader) :
    tokens.foldl token (r.moved f) = (tokens.foldl token r).moved f := by
  induction tokens generalizing r with
  | nil => rfl
  | cons first rest ih => rw [foldl_cons, foldl_cons, token_moved, ih]

/-- A line is read in the same way if all columns are moved. -/
theorem Ready.line_moved (ready : r.Ready) (increasing : StrictMono f) (line : TokenLine) :
    (r.moved f).line { line with indent := f line.indent } = (r.line line).moved f := by
  unfold Reader.line
  dsimp only
  split
  · rfl
  · rw [ready.newLine_moved increasing, foldl_token_moved]

theorem Ready.foldl_line_moved (ready : r.Ready) (increasing : StrictMono f)
    (lines : List TokenLine) :
    (lines.map fun line => { line with indent := f line.indent }).foldl Reader.line (r.moved f) =
      (lines.foldl Reader.line r).moved f := by
  induction lines generalizing r with
  | nil => rfl
  | cons first rest ih =>
    rw [map_cons, foldl_cons, foldl_cons, ready.line_moved increasing,
      ih (ready.line first)]

theorem finish_moved (r : Reader) : (r.moved f).finish = r.finish.moved f := by
  have reported : ∀ (blocks : List OpenBlock) (r : Reader),
      ((blocks.map (OpenBlock.moved f)).filter (·.kind.isBracket)).foldl
          (fun r block => r.report (.unclosedBracket block.loc)) (r.moved f) =
        ((blocks.filter (·.kind.isBracket)).foldl
          (fun r block => r.report (.unclosedBracket block.loc)) r).moved f := by
    intro blocks
    induction blocks with
    | nil => exact fun _ => rfl
    | cons block rest ih =>
      intro r
      rw [map_cons, filter_cons, filter_cons, OpenBlock.kind_moved]
      split
      · exact ih (r.report _)
      · exact ih r
  exact reported (r.stack.top :: r.stack.below) r

end Reader

/--
Reading lines and reading the same lines with all columns moved by a strictly increasing function
gives the same blocks, the same numbering and the same reports.
-/
theorem read_map_indent {f : Nat → Nat} (increasing : StrictMono f) (source : SourceId)
    (lines : List TokenLine) :
    read source (lines.map fun line => { line with indent := f line.indent }) =
      read source lines := by
  have ready : (Reader.start source).Ready := .inl ⟨source, rfl⟩
  have start : Reader.start source = (Reader.start source).moved f := rfl
  unfold read
  rw [start, ready.foldl_line_moved increasing, Reader.finish_moved]
  exact congrArg (·, _, _) (BlockStack.finish_moved _ _)

/-- The lines of a `do`, of a block below it, and one that is in no column of a block. -/
def stepped (first second third fourth : Nat) : List TokenLine :=
  [⟨first, 1, [⟨.doWord, .clamped 0 1 0, 2⟩]⟩, ⟨second, 2, [⟨.ident "a", .clamped 0 2 2, 1⟩]⟩,
   ⟨third, 3, [⟨.ident "b", .clamped 0 3 4, 1⟩]⟩, ⟨fourth, 4, [⟨.ident "c", .clamped 0 4 3, 1⟩]⟩]

theorem read_stepped_moved :
    StrictMono (fun column => 3 * column + 1) ∧
      read 0 (stepped 1 7 13 10) = read 0 (stepped 0 2 4 3) := by
  have increasing : StrictMono (fun column => 3 * column + 1) := by
    intro a b less
    show 3 * a + 1 < 3 * b + 1
    omega
  exact ⟨increasing, read_map_indent increasing 0 (stepped 0 2 4 3)⟩

end Block

end Offside
