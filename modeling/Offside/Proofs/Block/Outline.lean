import Mathlib.Data.List.Forall2
import Mathlib.Order.Monotone.Basic
import Offside.Proofs.Block.Conservation

/-!
# Lines below lines

A line stands below the closest line before it that is indented less. The lines below one line
make up the one block at its end, in their order, and the lines that are below no line make up
the root. A line is out of place if it is not indented deeper than the line before it and no line
that is still open has its column. The stack holds the last line and the lines around it, so a
new line finds its place by going through the lines that are indented less and less.
-/

namespace Offside.Block

open BlockStack List

section Indents

variable (indent : Nat → Nat)

/-- The line is below the other one, or below none. -/
def Under : Option Nat → Nat → Prop
  | none, k => ∀ m < k, indent k ≤ indent m
  | some j, k => j < k ∧ indent j < indent k ∧ ∀ m < k, j < m → indent k ≤ indent m

instance (host : Option Nat) : DecidablePred (Under indent host) := fun k =>
  match host with
  | none => inferInstanceAs (Decidable (∀ m < k, indent k ≤ indent m))
  | some j =>
    inferInstanceAs (Decidable (j < k ∧ indent j < indent k ∧ ∀ m < k, j < m → indent k ≤ indent m))

/-- The first lines that are below a line, or below none. -/
def linesUnder (host : Option Nat) (count : Nat) : List Nat :=
  (List.range count).filter fun k => Under indent host k

/-- The line is indented deeper than the one before it, or it continues an earlier line. -/
def Aligned (k : Nat) : Prop :=
  indent (k - 1) < indent k ∨
    ∃ j < k, indent j = indent k ∧ ∀ m < k, j < m → indent j ≤ indent m

instance : DecidablePred (Aligned indent) := fun k =>
  inferInstanceAs (Decidable (indent (k - 1) < indent k ∨
    ∃ j < k, indent j = indent k ∧ ∀ m < k, j < m → indent j ≤ indent m))

/-- All lines between the two are indented deeper than a column. -/
def Clear (column k n : Nat) : Prop :=
  ∀ m, k < m → m < n → column < indent m

variable {indent} {host : Option Nat} {j k m n : Nat}

theorem clear_succ (column : Nat) : Clear indent column k (k + 1) := by
  intro m after before
  omega

theorem Clear.mono {column inner : Nat} (clear : Clear indent inner k n) (less : column < inner) :
    Clear indent column k n := fun m behind before =>
  less.trans (clear m behind before)

/-- A line after an open line that is indented deeper is not beside it. -/
theorem Under.not_deeper (under : Under indent host k) (after : k < m)
    (deeper : indent k < indent m) : ¬ Under indent host m := by
  intro beside
  cases host with
  | none =>
    have := beside k after
    omega
  | some j =>
    have := beside.2.2 k after under.1
    omega

/-- A line in the column of an open line is beside it. -/
theorem Under.beside (under : Under indent host k) (after : k < n)
    (column : indent n = indent k) (clear : Clear indent (indent k) k n) :
    Under indent host n := by
  have above (m : Nat) (before : m < n) (behind : k ≤ m) : indent n ≤ indent m := by
    rcases Nat.eq_or_lt_of_le behind with rfl | behind
    · exact column.le
    · exact column.trans_le (clear m behind before).le
  cases host with
  | none =>
    intro m before
    rcases Nat.lt_or_ge m k with early | late
    · exact column.trans_le (under m early)
    · exact above m before late
  | some j =>
    refine ⟨under.1.trans after, column ▸ under.2.1, ?_⟩
    intro m before behind
    rcases Nat.lt_or_ge m k with early | late
    · exact column.trans_le (under.2.2 m early behind)
    · exact above m before late

/-- A line that closes another one keeps all later lines from being below it. -/
theorem not_under_closed (before : k < n) (closes : indent n ≤ indent k) (later : n ≤ m) :
    ¬ Under indent (some k) m := by
  rintro ⟨-, deeper, between⟩
  rcases Nat.eq_or_lt_of_le later with rfl | later
  · omega
  · have := between n later before
    omega

/-- What is deeper than a line is deeper than the line around it. -/
theorem Under.clear {column : Nat} (under : Under indent (some j) k) (less : column < indent k)
    (clear : Clear indent column k n) : Clear indent column j n := by
  intro m behind before
  rcases Nat.lt_trichotomy m k with early | rfl | late
  · exact less.trans_le (under.2.2 m early behind)
  · exact less
  · exact clear m late before

theorem linesUnder_succ (count : Nat) : linesUnder indent host (count + 1) =
    linesUnder indent host count ++ if Under indent host count then [count] else [] := by
  rw [linesUnder, List.range_succ, List.filter_append, ← linesUnder]
  by_cases under : Under indent host count <;> simp [under]

theorem linesUnder_eq_of_not_under (shorter : m ≤ n)
    (none : ∀ k, m ≤ k → k < n → ¬ Under indent host k) :
    linesUnder indent host n = linesUnder indent host m := by
  induction n, shorter using Nat.le_induction with
  | base => rfl
  | succ n longer ih =>
    rw [linesUnder_succ, if_neg (none n longer n.lt_succ_self), List.append_nil]
    exact ih fun k behind before => none k behind (before.trans n.lt_succ_self)

/-- Among the lines up to an open one it is the last of its block. -/
theorem Under.linesUnder_eq (under : Under indent host k) (after : k < n)
    (clear : Clear indent (indent k) k n) :
    linesUnder indent host n = linesUnder indent host k ++ [k] := by
  have upTo : linesUnder indent host n = linesUnder indent host (k + 1) := by
    refine linesUnder_eq_of_not_under after fun m behind before => ?_
    exact under.not_deeper behind (clear m behind before)
  rw [upTo, linesUnder_succ, if_pos under]

theorem linesUnder_self : linesUnder indent (some k) (k + 1) = [] := by
  have upTo : linesUnder indent (some k) (k + 1) = linesUnder indent (some k) 0 := by
    refine linesUnder_eq_of_not_under (Nat.zero_le _) fun m _ before under => ?_
    have := under.1
    omega
  exact upTo

/-- A line in no column of an open line is out of place. -/
theorem not_aligned (before : k < n) (clear : Clear indent (indent n) k n)
    (less : indent k < indent n ∧ k + 1 < n ∨ indent n < indent k ∧ Under indent none k) :
    ¬ Aligned indent n := by
  have last : indent n ≤ indent (n - 1) := by
    rcases Nat.eq_or_lt_of_le (Nat.le_sub_one_of_lt before) with rfl | early
    · omega
    · exact (clear (n - 1) early (by omega)).le
  rintro (deeper | ⟨j, early, same, between⟩)
  · omega
  · rcases Nat.lt_trichotomy j k with before_k | rfl | behind
    · rcases less with ⟨less, -⟩ | ⟨more, top⟩
      · have := between k before before_k
        omega
      · have := top j before_k
        omega
    · omega
    · have := clear j behind early
      omega

end Indents

/-- The column in which a line starts. -/
def indentAt (lines : List TokenLine) (k : Nat) : Nat :=
  (lines[k]?.map TokenLine.indent).getD 0

def IsLeafOf (token : Token) (t : Tree) : Prop :=
  ∃ id info, t = .node id info [] ∧ info.token? = some token.kind ∧ info.loc = token.loc

/--
The tree is a line with its tokens and, behind them, a block with the lines below it if there are
any.
-/
inductive Outlined (lines : List TokenLine) : Nat → Tree → Prop
  | alone {k line id loc leaves} (known : lines[k]? = some line)
      (tokens : Forall₂ IsLeafOf line.tokens leaves)
      (empty : linesUnder (indentAt lines) (some k) lines.length = []) :
      Outlined lines k (.node id (.new (.block .line) none loc) leaves)
  | above {k line id loc leaves blockId blockLoc inner} (known : lines[k]? = some line)
      (tokens : Forall₂ IsLeafOf line.tokens leaves)
      (filled : linesUnder (indentAt lines) (some k) lines.length ≠ [])
      (lower : Forall₂ (Outlined lines) (linesUnder (indentAt lines) (some k) lines.length)
        inner) :
      Outlined lines k (.node id (.new (.block .line) none loc)
        (leaves ++ [.node blockId (.new (.block .block) none blockLoc) inner]))

/-- The trees are the first lines that are below a line, or below none. -/
def Lists (lines : List TokenLine) (host : Option Nat) (count : Nat) (ts : List Tree) : Prop :=
  Forall₂ (Outlined lines) (linesUnder (indentAt lines) host count) ts

/-- An open line in which only its tokens stand. -/
def IsOpen (lines : List TokenLine) (k : Nat) (block : OpenBlock) : Prop :=
  block.kind = .line ∧
    ∃ line, lines[k]? = some line ∧ Forall₂ IsLeafOf line.tokens block.children.toList

/--
A line stands in an open block: the lines beside it that come before are closed in the block, and
the line around the block stands in the next one.
-/
inductive Inside (lines : List TokenLine) : Nat → OpenBlock → List OpenBlock → Prop
  | root {k block} (kind : block.kind = .root) (level : block.level = some (indentAt lines k))
      (under : Under (indentAt lines) none k)
      (before : Lists lines none k block.children.toList) :
      Inside lines k block []
  | block {k j block line around rest} (kind : block.kind = .block)
      (level : block.level = some (indentAt lines k)) (under : Under (indentAt lines) (some j) k)
      (before : Lists lines (some j) k block.children.toList)
      (opened : IsOpen lines j line) (outer : Inside lines j around rest) :
      Inside lines k block (line :: around :: rest)

/-- An open line that is complete if no further line is below it. -/
def Settles (lines : List TokenLine) (n k : Nat) (block : OpenBlock) : Prop :=
  block.kind = .line ∧
    (linesUnder (indentAt lines) (some k) lines.length = linesUnder (indentAt lines) (some k) n →
      Outlined lines k block.tree)

variable {lines : List TokenLine} {host : Option Nat} {j k n : Nat} {top block : OpenBlock}
  {rest : List OpenBlock}

theorem IsOpen.settles (opened : IsOpen lines k top) : Settles lines (k + 1) k top := by
  obtain ⟨isLine, line, known, tokens⟩ := opened
  refine ⟨isLine, fun closed => ?_⟩
  rw [OpenBlock.tree, isLine]
  exact .alone known tokens (closed.trans linesUnder_self)

/-- With the tree of an open line its block holds all lines so far that are beside it. -/
theorem lists_add {t : Tree} (under : Under (indentAt lines) host k) (after : k < n)
    (clear : Clear (indentAt lines) (indentAt lines k) k n)
    (before : Lists lines host k block.children.toList) (closed : Outlined lines k t) :
    Lists lines host n (block.add t).children.toList := by
  rw [Lists, under.linesUnder_eq after clear, OpenBlock.add, Array.toList_push]
  exact List.rel_append before (.cons closed .nil)

/-- A line with the block of the lines below it is complete if no further line is below it. -/
theorem IsOpen.settles_add {line : OpenBlock} {t : Tree} (opened : IsOpen lines j line)
    (kind : block.kind = .block) (under : Under (indentAt lines) (some j) k) (after : k < n)
    (clear : Clear (indentAt lines) (indentAt lines k) k n)
    (before : Lists lines (some j) k block.children.toList) (closed : Outlined lines k t) :
    Settles lines n j (line.add (block.add t).tree) := by
  obtain ⟨isLine, source, known, tokens⟩ := opened
  refine ⟨isLine, fun complete => ?_⟩
  have inner := lists_add under after clear before closed
  have filled : linesUnder (indentAt lines) (some j) n ≠ [] := by
    rw [under.linesUnder_eq after clear]
    exact List.append_ne_nil_of_right_ne_nil _ (List.cons_ne_nil _ _)
  have shape :
    (line.add (block.add t).tree).tree = .node line.id (.new (.block .line) none line.loc)
      (line.children.toList ++ [.node block.id (.new (.block .block) none block.loc)
        (block.add t).children.toList]) := by
    simp [OpenBlock.tree, OpenBlock.add, isLine, kind]
  rw [shape]
  rw [Lists, ← complete] at inner
  rw [← complete] at filled
  exact .above known tokens filled inner

/-- The line finds its place: it is beside an open line, or below the last one. -/
def Begins (lines : List TokenLine) (n : Nat) (entry : BlockStack.Entry) : Prop :=
  entry.opens = [(.line, none)] ∧ Inside lines n entry.stack.top entry.stack.below ∨
  entry.opens = [(.block, some (indentAt lines n)), (.line, none)] ∧
    Under (indentAt lines) (some (n - 1)) n ∧ IsOpen lines (n - 1) entry.stack.top ∧
    ∃ around rest, entry.stack.below = around :: rest ∧ Inside lines (n - 1) around rest

section Enter

variable {column level : Nat} {outer : OpenBlock}

section

variable (isLine : top.kind = .line) (known : outer.level = some level)
include isLine known

theorem enter_deeper (deeper : level < column) :
    enter column false top (outer :: rest) =
      ⟨⟨top, outer :: rest⟩, [(.block, some column), (.line, none)], false⟩ := by
  rw [enter.eq_def]
  simp [isLine, known, deeper]

theorem enter_reached {dedented : Bool} (reached : level ≤ column)
    (leaves : level < column → dedented = true) :
    enter column dedented top (outer :: rest) =
      ⟨⟨outer.add top.tree, rest⟩, [(.line, none)], column ≠ level⟩ := by
  rw [enter.eq_def]
  simpa [isLine, known, reached] using leaves

theorem enter_outside {dedented : Bool} (less : column < level) (isRoot : outer.kind = .root) :
    (enter column dedented top (outer :: rest)).inconsistent = true := by
  rw [enter.eq_def]
  simp [isLine, known, less.not_ge, less.not_gt, isRoot]

theorem enter_up {dedented : Bool} {next : OpenBlock} (less : column < level)
    (isBlock : outer.kind = .block) :
    enter column dedented top (outer :: next :: rest) =
      enter column true (next.add (outer.add top.tree).tree) rest := by
  rw [enter.eq_def]
  simp [isLine, known, less.not_ge, less.not_gt, isBlock]

end

end Enter

theorem Inside.level (inside : Inside lines k block rest) :
    block.level = some (indentAt lines k) := by
  cases inside <;> assumption

/-- With a line beside it a line stands where the line is. -/
theorem Inside.beside {t : Tree} (inside : Inside lines k block rest) (after : k < n)
    (column : indentAt lines n = indentAt lines k)
    (clear : Clear (indentAt lines) (indentAt lines k) k n) (closed : Outlined lines k t) :
    Inside lines n (block.add t) rest := by
  cases inside with
  | root kind level under before =>
    exact .root kind (level.trans (congrArg some column.symm)) (under.beside after column clear)
      (lists_add under after clear before closed)
  | block kind level under before opened outer =>
    exact .block kind (level.trans (congrArg some column.symm)) (under.beside after column clear)
      (lists_add under after clear before closed) opened outer

/-- What a new line finds: its place, or that it is out of place. -/
def Finds (lines : List TokenLine) (n : Nat) (entry : BlockStack.Entry) : Prop :=
  Aligned (indentAt lines) n ∧ entry.inconsistent = false ∧ Begins lines n entry ∨
    ¬ Aligned (indentAt lines) n ∧ entry.inconsistent = true

/--
A new line comes up to an open line. All lines between them are indented deeper than either, and if
the new line has left none of them, the open line is the last one.
-/
structure Arrives (lines : List TokenLine) (n k : Nat) (dedented : Bool) (top : OpenBlock) :
    Prop where
  settles : Settles lines n k top
  after : k < n
  short : n ≤ lines.length
  visible : Clear (indentAt lines) (indentAt lines k) k n
  clear : Clear (indentAt lines) (indentAt lines n) k n
  first : dedented = false → k + 1 = n ∧ IsOpen lines k top
  later : dedented = true → k + 1 < n

/-- An open line is complete when a line comes that is not below it. -/
theorem Arrives.closed {dedented : Bool} (arrives : Arrives lines n k dedented top)
    (closes : indentAt lines n ≤ indentAt lines k) : Outlined lines k top.tree :=
  arrives.settles.2 (linesUnder_eq_of_not_under arrives.short fun _ later _ =>
    not_under_closed arrives.after closes later)

/-- A new line that is indented at least as deep as an open line goes no further up. -/
theorem Inside.finds_reached {dedented : Bool} (inside : Inside lines k block rest)
    (arrives : Arrives lines n k dedented top) (reached : indentAt lines k ≤ indentAt lines n) :
    Finds lines n (enter (indentAt lines n) dedented top (block :: rest)) := by
  have isLine := arrives.settles.1
  rcases Nat.eq_or_lt_of_le reached with same | deeper
  · have stays : indentAt lines k < indentAt lines n → dedented = true := by
      rw [same]
      exact fun less => absurd less (Nat.lt_irrefl _)
    rw [enter_reached isLine inside.level reached stays]
    refine .inl ⟨.inr ⟨k, arrives.after, same, fun m before behind => ?_⟩, by simp [same],
      .inl ⟨rfl, ?_⟩⟩
    · exact (arrives.visible m behind before).le
    · exact inside.beside arrives.after same.symm arrives.visible (arrives.closed same.ge)
  · cases dedented with
    | false =>
      obtain ⟨rfl, opened⟩ := arrives.first rfl
      rw [enter_deeper isLine inside.level deeper]
      have under : Under (indentAt lines) (some k) (k + 1) :=
        ⟨arrives.after, deeper, fun m before behind => by omega⟩
      exact .inl ⟨.inl deeper, rfl, .inr ⟨rfl, under, opened, block, rest, rfl, inside⟩⟩
    | true =>
      rw [enter_reached isLine inside.level reached fun _ => rfl]
      exact .inr ⟨not_aligned arrives.after arrives.clear (.inl ⟨deeper, arrives.later rfl⟩),
        by simpa using deeper.ne'⟩

/--
A new line goes up through the open lines. The lines that it leaves are complete, because no later
line can be below them.
-/
theorem Inside.finds_enter {dedented : Bool} (inside : Inside lines k block rest)
    (arrives : Arrives lines n k dedented top) :
    Finds lines n (enter (indentAt lines n) dedented top (block :: rest)) := by
  have isLine := arrives.settles.1
  induction inside generalizing top dedented with
  | @root k block kind level under before =>
    rcases le_or_gt (indentAt lines k) (indentAt lines n) with reached | less
    · exact (Inside.root kind level under before).finds_reached arrives reached
    · exact .inr ⟨not_aligned arrives.after arrives.clear (.inr ⟨less, under⟩),
        enter_outside isLine level less kind⟩
  | @block k j block line around rest kind level under before opened outer ih =>
    rcases le_or_gt (indentAt lines k) (indentAt lines n) with reached | less
    · exact (Inside.block kind level under before opened outer).finds_reached arrives reached
    · rw [enter_up isLine level less kind]
      exact ih
        { settles :=
            opened.settles_add kind under arrives.after arrives.visible before
              (arrives.closed less.le)
          after := under.1.trans arrives.after
          short := arrives.short
          visible := under.clear under.2.1 (arrives.visible.mono under.2.1)
          clear := under.clear less arrives.clear
          first := by rintro ⟨⟩
          later := fun _ => (Nat.succ_le_of_lt under.1).trans_lt arrives.after }
        opened.1

/-- At the end all open lines are complete. -/
theorem Inside.finish (inside : Inside lines k block rest)
    (settles : Settles lines lines.length k top) (after : k < lines.length)
    (visible : Clear (indentAt lines) (indentAt lines k) k lines.length) :
    ∃ id loc children, BlockStack.finish top (block :: rest) =
        .node id (.new (.block .root) none loc) children ∧
      Lists lines none lines.length children := by
  induction inside generalizing top with
  | @root k block kind level under before =>
    refine ⟨block.id, block.loc, (block.add top.tree).children.toList, ?_,
      lists_add under after visible before (settles.2 rfl)⟩
    simp [BlockStack.finish, OpenBlock.tree, OpenBlock.add, kind]
  | @block k j block line around rest kind level under before opened outer ih =>
    exact ih (opened.settles_add kind under after visible before (settles.2 rfl))
      (under.1.trans after) (under.clear under.2.1 (visible.mono under.2.1))

/-- Decides whether a token opens or closes a block, or divides one. -/
def nests : TokenKind → Bool
  | .doWord | .openBracket _ | .closeBracket _ | .comma => true
  | _ => false

variable {r : Reader}

theorem token_leaf {token : Token} (plain : nests token.kind = false) :
    ∃ t, IsLeafOf token t ∧ (r.token token).stack = r.stack.add t ∧
      (r.token token).diagnostics = r.diagnostics := by
  obtain ⟨kind, loc, length⟩ := token
  cases kind with
  | doWord | openBracket c | closeBracket c | comma => cases plain
  | ident name | virtualIdent name | operator name | hashOperator name | number name | str name =>
    exact ⟨_, ⟨r.numbering.next, _, rfl, rfl, rfl⟩, rfl, rfl⟩

/-- The tokens of a line become leaves of the innermost block. -/
theorem foldl_token_leaves {tokens : List Token}
    (plain : ∀ token ∈ tokens, nests token.kind = false) :
    ∃ leaves, Forall₂ IsLeafOf tokens leaves ∧
      (tokens.foldl Reader.token r).stack.below = r.stack.below ∧
      (tokens.foldl Reader.token r).stack.top.kind = r.stack.top.kind ∧
      (tokens.foldl Reader.token r).stack.top.children.toList =
        r.stack.top.children.toList ++ leaves ∧
      (tokens.foldl Reader.token r).diagnostics = r.diagnostics := by
  induction tokens generalizing r with
  | nil => exact ⟨[], .nil, rfl, rfl, (List.append_nil _).symm, rfl⟩
  | cons token rest ih =>
    rw [List.forall_mem_cons] at plain
    obtain ⟨t, leaf, stack, kept⟩ := token_leaf (r := r) plain.1
    obtain ⟨leaves, isLeaf, around, kind, children, reports⟩ := ih (r := r.token token) plain.2
    rw [stack] at around kind children
    refine ⟨t :: leaves, .cons leaf isLeaf, around, kind, children.trans ?_, reports.trans kept⟩
    simp [BlockStack.add, OpenBlock.add]

/-- A reading whose last line is open, with the lines around it. -/
def Standing (lines : List TokenLine) (n : Nat) (r : Reader) : Prop :=
  ∃ block rest, r.stack.below = block :: rest ∧ IsOpen lines n r.stack.top ∧
    Inside lines n block rest

/-- The tokens of a line stand in a new line. -/
theorem standing_tokens {line : TokenLine} (known : lines[n]? = some line)
    (plain : ∀ token ∈ line.tokens, nests token.kind = false) (isLine : r.stack.top.kind = .line)
    (fresh : r.stack.top.children = #[]) (around : r.stack.below = block :: rest)
    (inside : Inside lines n block rest) :
    Standing lines n (line.tokens.foldl Reader.token r) := by
  obtain ⟨leaves, isLeaf, below, kind, children, -⟩ := foldl_token_leaves (r := r) plain
  refine ⟨block, rest, below.trans around, ⟨kind.trans isLine, line, known, ?_⟩, inside⟩
  rw [children, fresh]
  exact isLeaf

theorem standing_foldl_push {entry : BlockStack.Entry} {line : TokenLine} {loc : Loc}
    (begins : Begins lines n entry) (entered : r.stack = entry.stack)
    (known : lines[n]? = some line) (plain : ∀ token ∈ line.tokens, nests token.kind = false) :
    Standing lines n (line.tokens.foldl Reader.token
      (entry.opens.foldl (fun r block => r.push block.1 block.2 loc) r)) := by
  rcases begins with ⟨opens, inside⟩ | ⟨opens, under, last, around, rest, stack, inside⟩
  · rw [opens]
    exact standing_tokens known plain rfl rfl rfl (entered ▸ inside)
  · rw [opens]
    have below : r.stack.top :: r.stack.below = entry.stack.top :: around :: rest := by
      rw [entered, stack]
    have empty : linesUnder (indentAt lines) (some (n - 1)) n = [] := by
      have behind : linesUnder (indentAt lines) (some (n - 1)) (n - 1 + 1) = [] := linesUnder_self
      rwa [Nat.sub_add_cancel (Nat.zero_lt_of_lt under.1)] at behind
    refine standing_tokens known plain rfl rfl (congrArg (List.cons _) below)
      (.block rfl rfl under ?_ last inside)
    rw [Lists, empty]
    exact .nil

theorem diagnostics_newLine (column : Nat) (loc : Loc) :
    (r.newLine column loc).diagnostics =
      if (enter column false r.stack.top r.stack.below).inconsistent then
        r.diagnostics.push (.inconsistentDedent loc) else r.diagnostics := by
  have pushed (opens : List (BlockKind × Option Nat)) (r : Reader) :
      (opens.foldl (fun r block => r.push block.1 block.2 loc) r).diagnostics = r.diagnostics := by
    induction opens generalizing r with
    | nil => rfl
    | cons block rest ih => exact ih _
  rw [Reader.newLine, pushed]
  split <;> rfl

/-- A report about a line that is out of place. -/
def Reported (r : Reader) : Prop :=
  ∃ d ∈ r.diagnostics, d.code = .inconsistentDedent

/-- The lines so far stand in their places, or one of them is out of place and reported. -/
def Reads (lines : List TokenLine) (n : Nat) (r : Reader) : Prop :=
  ¬ Reported r ∧ (∀ k ≤ n, 0 < k → Aligned (indentAt lines) k) ∧ Standing lines n r ∨
    Reported r ∧ ∃ k ≤ n, 0 < k ∧ ¬ Aligned (indentAt lines) k

/-- A line with tokens is read where it starts. -/
theorem line_eq {line : TokenLine} (filled : line.tokens ≠ []) :
    ∃ loc, r.line line = line.tokens.foldl Reader.token (r.newLine line.indent loc) := by
  obtain ⟨indent, number, tokens⟩ := line
  cases tokens with
  | nil => exact absurd rfl filled
  | cons first rest => exact ⟨first.loc, rfl⟩

/-- A line is reported if it finds no place. -/
theorem reported_line {line : TokenLine} (filled : line.tokens ≠ [])
    (plain : ∀ token ∈ line.tokens, nests token.kind = false) :
    Reported (r.line line) ↔ Reported r ∨
      (enter line.indent false r.stack.top r.stack.below).inconsistent = true := by
  obtain ⟨loc, line_eq⟩ := line_eq (r := r) filled
  obtain ⟨_, -, -, -, -, reports⟩ :=
    foldl_token_leaves (r := r.newLine line.indent loc) plain
  rw [Reported, line_eq, reports, diagnostics_newLine]
  split
  case isTrue inconsistent =>
    exact iff_of_true ⟨_, Array.mem_push_self, rfl⟩ (.inr inconsistent)
  case isFalse consistent =>
    exact ⟨.inl, fun told => told.resolve_right consistent⟩

/-- A line that finds its place stands there. -/
theorem standing_line {line : TokenLine} (known : lines[n]? = some line)
    (filled : line.tokens ≠ []) (plain : ∀ token ∈ line.tokens, nests token.kind = false)
    (begins : Begins lines n (enter line.indent false r.stack.top r.stack.below)) :
    Standing lines n (r.line line) := by
  obtain ⟨loc, line_eq⟩ := line_eq (r := r) filled
  rw [line_eq, Reader.newLine]
  refine standing_foldl_push begins ?_ known plain
  split <;> rfl

/-- Lines of tokens that neither open nor close a block. -/
def IsPlain (lines : List TokenLine) : Prop :=
  ∀ line ∈ lines, line.tokens ≠ [] ∧ ∀ token ∈ line.tokens, nests token.kind = false

/-- One more line stands in its place, or is out of place and reported. -/
theorem Reads.line {line : TokenLine} (reads : Reads lines n r) (known : lines[n + 1]? = some line)
    (filled : line.tokens ≠ []) (plain : ∀ token ∈ line.tokens, nests token.kind = false) :
    Reads lines (n + 1) (r.line line) := by
  have column : line.indent = indentAt lines (n + 1) := by simp [indentAt, known]
  have short : n + 1 ≤ lines.length := (List.getElem?_eq_some_iff.mp known).1.le
  rcases reads with ⟨silent, aligned, block, rest, around, opened, inside⟩ | ⟨told, k, early, wrong⟩
  · have arrives : Arrives lines (n + 1) n false r.stack.top :=
      ⟨opened.settles, n.lt_succ_self, short, clear_succ _, clear_succ _, fun _ => ⟨rfl, opened⟩,
        by rintro ⟨⟩⟩
    have finds := inside.finds_enter arrives
    rw [← around, ← column] at finds
    rcases finds with ⟨here, consistent, begins⟩ | ⟨wrong, inconsistent⟩
    · refine .inl ⟨?_, ?_, standing_line known filled plain begins⟩
      · rw [reported_line filled plain, consistent]
        simpa using silent
      · intro k upTo positive
        rcases Nat.le_succ_iff.mp upTo with before | rfl
        · exact aligned k before positive
        · exact here
    · exact .inr ⟨(reported_line filled plain).mpr (.inr inconsistent), n + 1, le_rfl, n.succ_pos,
        wrong⟩
  · exact .inr ⟨(reported_line filled plain).mpr (.inl told), k, early.trans n.le_succ, wrong⟩

/-- The first line stands in the root. -/
theorem reads_first {line : TokenLine} (source : SourceId) (known : lines[0]? = some line)
    (filled : line.tokens ≠ []) (plain : ∀ token ∈ line.tokens, nests token.kind = false) :
    Reads lines 0 ((Reader.start source).line line) := by
  have column : line.indent = indentAt lines 0 := by simp [indentAt, known]
  have begins : Begins lines 0 (enter line.indent false (Reader.start source).stack.top []) := by
    refine .inl ⟨rfl, .root rfl (congrArg some column) ?_ .nil⟩
    exact fun m early => absurd early m.not_lt_zero
  refine .inl ⟨?_, fun k upTo positive => ?_, standing_line known filled plain begins⟩
  · rw [reported_line filled plain]
    rintro (⟨d, member, -⟩ | inconsistent)
    · exact absurd member (Array.not_mem_empty d)
    · cases inconsistent
  · omega

theorem reads_lines (source : SourceId) (plain : IsPlain lines) (known : n < lines.length) :
    Reads lines n ((lines.take (n + 1)).foldl Reader.line (.start source)) := by
  induction n with
  | zero =>
    obtain ⟨filled, leaves⟩ := plain _ (List.getElem_mem known)
    rw [List.take_succ_eq_append_getElem known]
    exact reads_first source (List.getElem?_eq_getElem known) filled leaves
  | succ n ih =>
    obtain ⟨filled, leaves⟩ := plain _ (List.getElem_mem known)
    rw [List.take_succ_eq_append_getElem known, List.foldl_append]
    exact (ih (Nat.lt_of_succ_lt known)).line (List.getElem?_eq_getElem known) filled leaves

/-- What is reported about brackets at the end is not about the columns of lines. -/
theorem reported_finish : Reported r.finish ↔ Reported r := by
  unfold Reader.finish
  generalize r.stack.openBrackets = brackets
  induction brackets generalizing r with
  | nil => rfl
  | cons block rest ih =>
    have other : (Diagnostic.unclosedBracket block.loc).code ≠ .inconsistentDedent := by
      change Code.unclosedBracket ≠ Code.inconsistentDedent
      decide
    refine ih.trans ⟨?_, ?_⟩
    · rintro ⟨d, member, code⟩
      rcases Array.mem_push.mp member with before | rfl
      · exact ⟨d, before, code⟩
      · exact absurd code other
    · rintro ⟨d, member, code⟩
      exact ⟨d, Array.mem_push_of_mem _ member, code⟩

/-- The reports say exactly whether all lines are in their places, where they then stand. -/
theorem read_plain (source : SourceId) {lines : List TokenLine} (plain : IsPlain lines) :
    ((∀ d ∈ (read source lines).2.2, d.code ≠ .inconsistentDedent) ↔
      ∀ k < lines.length, 0 < k → Aligned (indentAt lines) k) ∧
    ((∀ k < lines.length, 0 < k → Aligned (indentAt lines) k) →
      ∃ id loc children, (read source lines).1 = .node id (.new (.block .root) none loc) children ∧
        Forall₂ (Outlined lines) (linesUnder (indentAt lines) none lines.length) children) := by
  rcases List.eq_nil_or_concat lines with rfl | ⟨before, last, split⟩
  · exact ⟨iff_of_true (fun d member => absurd member (Array.not_mem_empty d))
      fun k short _ => absurd short k.not_lt_zero, fun _ => ⟨_, _, [], rfl, .nil⟩⟩
  have length : lines.length = before.length + 1 := by simp [split]
  have reads := reads_lines source plain (before.length.lt_succ_self.trans_eq length.symm)
  rw [← length, List.take_length] at reads
  have upTo {k : Nat} : k ≤ before.length ↔ k < lines.length := by omega
  simp only [Reads, upTo] at reads
  have silent_iff : (∀ d ∈ (read source lines).2.2, d.code ≠ .inconsistentDedent) ↔
      ¬ Reported (lines.foldl Reader.line (.start source)) := by
    rw [← reported_finish, Reported]
    push Not
    rfl
  rcases reads with ⟨silent, aligned, block, rest, around, opened, inside⟩ | ⟨told, k, early, wrong⟩
  · refine ⟨iff_of_true (silent_iff.mpr silent) aligned, fun _ => ?_⟩
    have settles := opened.settles
    rw [← length] at settles
    obtain finished := inside.finish settles (by omega) (by rw [length]; exact clear_succ _)
    rw [← around] at finished
    rw [read, Reader.stack_finish]
    exact finished
  · have broken : ¬ ∀ k < lines.length, 0 < k → Aligned (indentAt lines) k :=
      fun aligned => wrong.2 (aligned k early wrong.1)
    exact ⟨iff_of_false (fun silent => silent_iff.mp silent told) broken,
      fun aligned => absurd aligned broken⟩

/-- Lines of which the first is indented, the third is beside the first, and the last is not. -/
def uneven (last : Nat) : List TokenLine :=
  [⟨2, 1, [⟨.ident "a", .pack 0 1 2, 1⟩]⟩, ⟨6, 2, [⟨.ident "b", .pack 0 2 6, 1⟩]⟩,
    ⟨2, 3, [⟨.ident "c", .pack 0 3 2, 1⟩]⟩, ⟨4, 4, [⟨.ident "d", .pack 0 4 4, 1⟩]⟩,
    ⟨last, 5, [⟨.ident "e", .pack 0 5 last, 1⟩]⟩]

theorem isPlain_uneven (last : Nat) : IsPlain (uneven last) := by
  intro line member
  simp only [uneven, mem_cons, not_mem_nil, or_false] at member
  rcases member with rfl | rfl | rfl | rfl | rfl
  all_goals exact ⟨cons_ne_nil _ _, forall_mem_singleton.mpr rfl⟩

/-- Below `c` stand `d` and `e` if they have one column; between the columns `e` is out of place. -/
theorem read_plain_uneven :
    (∃ id loc children, (read 0 (uneven 4)).1 = .node id (.new (.block .root) none loc) children ∧
      Forall₂ (Outlined (uneven 4)) [0, 2] children) ∧
    ¬ ∀ d ∈ (read 0 (uneven 3)).2.2, d.code ≠ .inconsistentDedent := by
  constructor
  · exact (read_plain 0 (isPlain_uneven 4)).2 (by decide)
  · rw [(read_plain 0 (isPlain_uneven 3)).1]
    decide

end Offside.Block
