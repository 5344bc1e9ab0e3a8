import Offside.Proofs.Block.Moves
import Offside.Proofs.Tree.Preorder

/-!
# Conservation of tokens

An unread token, a `do` block and a bracket of a tree of blocks each stand for one token of the
source. Read in preorder they give back the tokens of the lines in order, less the closing
brackets and the commas. Closing a block moves its tree to the end of the block around it, which
is where its nodes were read before; what a line does to the stack only closes blocks and opens
blocks that stand for nothing.
-/

namespace Offside

open List

namespace TokenKind

/-- Decides whether a token has a node of its own: closing brackets and commas have none. -/
def isKept : TokenKind → Bool
  | .closeBracket _ | .comma => false
  | _ => true

/-- Decides whether a token, if it is an opening bracket, is one of the three that begin a block. -/
def opensBlock : TokenKind → Bool
  | .openBracket c => c = '(' || c = '[' || c = '\x7b'
  | _ => true

end TokenKind

namespace Info

def standsForToken (info : Info) : Bool :=
  match info.symbol with
  | .token _ => true
  | .block kind => kind = .doBlock || kind.isBracket
  | _ => false

def token? (info : Info) : Option TokenKind :=
  match info.symbol, info.value with
  | .token .identifier, some (.name name) => some (.ident name)
  | .token .virtualIdentifier, some (.name name) => some (.virtualIdent name)
  | .token .operator, some (.name text) => some (.operator text)
  | .token .hashOperator, some (.name text) => some (.hashOperator text)
  | .token .number, some (.number x) => some (.number x)
  | .token .str, some (.str text) => some (.str text)
  | .block .doBlock, none => some .doWord
  | .block .paren, none => some (.openBracket '(')
  | .block .square, none => some (.openBracket '[')
  | .block .curly, none => some (.openBracket '\x7b')
  | _, _ => none

end Info

/-- The nodes in a list that stand for tokens, each with its token and its place. -/
def readTokens (nodes : List (NodeId × Info)) : List (Option TokenKind × Loc) :=
  ((nodes.map Prod.snd).filter Info.standsForToken).map fun info => (info.token?, info.loc)

@[simp] theorem readTokens_nil : readTokens [] = [] :=
  by rfl

@[simp] theorem readTokens_append (first second : List (NodeId × Info)) :
    readTokens (first ++ second) = readTokens first ++ readTokens second := by
  simp [readTokens]

@[simp] theorem readTokens_cons (id : NodeId) (info : Info) (rest : List (NodeId × Info)) :
    readTokens ((id, info) :: rest) =
      (if info.standsForToken then [(info.token?, info.loc)] else []) ++ readTokens rest := by
  rw [readTokens, map_cons, filter_cons]
  split <;> rfl

def keptTokens (tokens : List Token) : List (Option TokenKind × Loc) :=
  (tokens.filter (·.kind.isKept)).map fun token => (some token.kind, token.loc)

@[simp] theorem keptTokens_append (first second : List Token) :
    keptTokens (first ++ second) = keptTokens first ++ keptTokens second := by
  simp [keptTokens]

namespace Tree

def readTokens (t : Tree) : List (Option TokenKind × Loc) :=
  Offside.readTokens t.nodes

end Tree

namespace OpenBlock

@[simp] theorem readTokens_tree (block : OpenBlock) :
    block.tree.readTokens =
      Offside.readTokens [(block.id, .new (.block block.kind) none block.loc)] ++
        Offside.readTokens (Tree.nodesAll block.children.toList) := by
  rw [Tree.readTokens, tree, Tree.nodes_node, ← readTokens_append]
  rfl

/-- A tree is read behind what stood in the block before. -/
theorem readTokens_add (block : OpenBlock) (t : Tree) :
    (block.add t).tree.readTokens = block.tree.readTokens ++ t.readTokens := by
  rw [readTokens_tree, readTokens_tree]
  simp [add, Tree.readTokens]

end OpenBlock

namespace BlockStack

def tokensBelow (below : List OpenBlock) : List (Option TokenKind × Loc) :=
  below.reverse.flatMap fun block => block.tree.readTokens

def tokens (stack : BlockStack) : List (Option TokenKind × Loc) :=
  tokensBelow stack.below ++ stack.top.tree.readTokens

theorem tokensBelow_cons (outer : OpenBlock) (rest : List OpenBlock) :
    tokensBelow (outer :: rest) = tokensBelow rest ++ outer.tree.readTokens := by
  simp [tokensBelow]

theorem tokens_push (stack : BlockStack) (block : OpenBlock) :
    (stack.push block).tokens = stack.tokens ++ block.tree.readTokens := by
  rw [tokens, push, tokensBelow_cons]
  rfl

theorem tokens_add (stack : BlockStack) (t : Tree) :
    (stack.add t).tokens = stack.tokens ++ t.readTokens := by
  rw [tokens, add, OpenBlock.readTokens_add, ← append_assoc]
  rfl

/-- Closing a block moves its tree to where its nodes are read already. -/
theorem tokens_close (top outer : OpenBlock) (rest : List OpenBlock) :
    tokens ⟨outer.add top.tree, rest⟩ = tokens ⟨top, outer :: rest⟩ := by
  rw [tokens, tokens, tokensBelow_cons, OpenBlock.readTokens_add, append_assoc]

theorem Settles.tokens {stack settled : BlockStack} (settles : stack.Settles settled) :
    settled.tokens = stack.tokens := by
  induction settles with
  | refl | known => rfl
  | around =>
    rw [BlockStack.tokens, BlockStack.tokens, tokensBelow_cons, tokensBelow_cons]
    rfl
  | close _ ih => exact ih.trans (tokens_close _ _ _)

/-- A line opens only blocks that stand for no token. -/
theorem opens_enter (column : Nat) (dedented : Bool) (top : OpenBlock) (below : List OpenBlock) :
    ∀ block ∈ (enter column dedented top below).opens, block.1 = .line ∨ block.1 = .block := by
  fun_induction enter column dedented top below
  case case8 ih | case14 ih | case21 ih => exact ih
  all_goals simp

theorem readTokens_finish (top : OpenBlock) (below : List OpenBlock) :
    (finish top below).readTokens = tokens ⟨top, below⟩ := by
  obtain ⟨root, settles, same⟩ := settles_finish top below
  rw [same, ← settles.tokens]
  rfl

end BlockStack

namespace Block

namespace Reader

variable {r : Reader}

theorem tokens_push (r : Reader) (kind : BlockKind) (level : Option Nat) (loc : Loc) :
    (r.push kind level loc).stack.tokens =
      r.stack.tokens ++ readTokens [(r.numbering.next, .new (.block kind) none loc)] := by
  rw [Reader.push, BlockStack.tokens_push, OpenBlock.readTokens_tree]
  simp [OpenBlock.new]

/-- Opening a block that stands for no token reads nothing new. -/
theorem tokens_push_of_silent (r : Reader) {kind : BlockKind} (level : Option Nat) (loc : Loc)
    (silent : (Info.new (.block kind) none loc).standsForToken = false) :
    (r.push kind level loc).stack.tokens = r.stack.tokens := by
  rw [tokens_push, readTokens_cons, silent]
  simp

theorem tokens_leaf (r : Reader) (kind : TokenClass) (value : Value) (loc : Loc) :
    (r.leaf kind value loc).stack.tokens =
      r.stack.tokens ++ [((Info.new (.token kind) (some value) loc).token?, loc)] := by
  rw [Reader.leaf, BlockStack.tokens_add, Tree.readTokens, Tree.nodes_node, readTokens_cons]
  rfl

theorem tokens_newLine (r : Reader) (column : Nat) (loc : Loc) :
    (r.newLine column loc).stack.tokens = r.stack.tokens := by
  have opened : ∀ (blocks : List (BlockKind × Option Nat)) (r : Reader),
      (∀ block ∈ blocks, block.1 = .line ∨ block.1 = .block) →
      (blocks.foldl (fun r block => r.push block.1 block.2 loc) r).stack.tokens =
        r.stack.tokens := by
    intro blocks
    induction blocks with
    | nil => exact fun _ _ => rfl
    | cons block rest ih =>
      intro r plain
      refine (ih _ fun b member => plain b (.tail _ member)).trans ?_
      refine tokens_push_of_silent r _ _ ?_
      rcases plain block mem_cons_self with isLine | isBlock
      · rw [isLine]
        rfl
      · rw [isBlock]
        rfl
  refine (opened _ _ (BlockStack.opens_enter column false r.stack.top r.stack.below)).trans ?_
  refine Eq.trans ?_ (BlockStack.settles_enter column false r.stack.top r.stack.below).tokens
  split <;> rfl

/-- The first group of a line stands around the trees of the line and for no token. -/
theorem tokens_group (r : Reader) (loc : Loc) : (r.group loc).stack.tokens = r.stack.tokens := by
  simp only [group, grouped, BlockStack.tokens, OpenBlock.readTokens_tree]
  simp [OpenBlock.tree, OpenBlock.new, Info.new, Info.standsForToken, BlockKind.isBracket]

theorem tokens_comma (r : Reader) (loc : Loc) : (r.comma loc).stack.tokens = r.stack.tokens := by
  unfold Reader.comma
  split
  · exact (tokens_push_of_silent _ _ _ rfl).trans (BlockStack.settles_pop r.stack).tokens
  · refine (tokens_push_of_silent _ _ _ rfl).trans ?_
    split
    · rfl
    · exact tokens_group r loc
  · exact tokens_push_of_silent _ _ _ rfl
  · exact tokens_push_of_silent _ _ _ rfl
  · exact tokens_push_of_silent _ _ _ rfl
  all_goals rfl

theorem tokens_close (r : Reader) (c : Char) (loc : Loc) :
    (r.close c loc).stack.tokens = r.stack.tokens := by
  have closed := (BlockStack.settles_close c r.stack.top r.stack.below).tokens
  unfold Reader.close
  generalize BlockStack.close c r.stack.top r.stack.below = result at closed ⊢
  obtain ⟨closing, stack⟩ := result
  cases closing <;> exact closed

/-- A token is read behind those before it, unless it has no node. -/
theorem tokens_token (r : Reader) {token : Token} (proper : token.kind.opensBlock = true) :
    (r.token token).stack.tokens = r.stack.tokens ++ keptTokens [token] := by
  obtain ⟨kind, loc, width⟩ := token
  cases kind with
  | doWord =>
    refine (tokens_push_of_silent _ _ _ rfl).trans ?_
    rw [tokens_push]
    rfl
  | openBracket c =>
    simp only [TokenKind.opensBlock, Bool.or_eq_true, decide_eq_true_eq] at proper
    rcases proper with (rfl | rfl) | rfl <;>
    · refine (tokens_push_of_silent _ _ _ rfl).trans ?_
      rw [tokens_push]
      rfl
  | closeBracket c => exact (tokens_close r c loc).trans (append_nil _).symm
  | comma => exact (tokens_comma r loc).trans (append_nil _).symm
  | _ => exact tokens_leaf r _ _ loc

theorem tokens_foldl_token (tokens : List Token) (r : Reader)
    (proper : ∀ token ∈ tokens, token.kind.opensBlock = true) :
    (tokens.foldl token r).stack.tokens = r.stack.tokens ++ keptTokens tokens := by
  induction tokens generalizing r with
  | nil => exact (append_nil _).symm
  | cons token rest ih =>
    rw [foldl_cons, ih _ fun t member => proper t (.tail _ member),
      tokens_token r (proper token mem_cons_self), append_assoc, ← keptTokens_append]
    rfl

theorem tokens_line (r : Reader) {line : TokenLine}
    (proper : ∀ token ∈ line.tokens, token.kind.opensBlock = true) :
    (r.line line).stack.tokens = r.stack.tokens ++ keptTokens line.tokens := by
  unfold Reader.line
  split
  case h_1 empty =>
    rw [empty]
    exact (append_nil _).symm
  case h_2 first rest tokens =>
    rw [tokens] at proper ⊢
    rw [tokens_foldl_token _ _ proper, tokens_newLine]

theorem tokens_foldl_line (lines : List TokenLine) (r : Reader)
    (proper : ∀ line ∈ lines, ∀ token ∈ line.tokens, token.kind.opensBlock = true) :
    (lines.foldl line r).stack.tokens =
      r.stack.tokens ++ keptTokens (lines.flatMap TokenLine.tokens) := by
  induction lines generalizing r with
  | nil => exact (append_nil _).symm
  | cons line rest ih =>
    rw [foldl_cons, ih _ fun l member => proper l (.tail _ member),
      tokens_line r (proper line mem_cons_self), append_assoc, ← keptTokens_append]
    rfl

end Reader

/--
The nodes of a tree of blocks that stand for tokens, read in preorder, are the tokens of the lines
in order, less the closing brackets and the commas.
-/
theorem readTokens_read (source : SourceId) {lines : List TokenLine}
    (proper : ∀ line ∈ lines, ∀ token ∈ line.tokens, token.kind.opensBlock = true) :
    (read source lines).1.readTokens = keptTokens (lines.flatMap TokenLine.tokens) := by
  refine (BlockStack.readTokens_finish _ _).trans ?_
  change (Reader.finish _).stack.tokens = _
  rw [Reader.stack_finish, Reader.tokens_foldl_line lines _ proper]
  rfl

/--
Lines whose brackets do not match: a `do` in parentheses has a line with a comma, and the closing
brackets are of the wrong kind, stray, or missing.
-/
def tangled : List TokenLine :=
  [⟨0, 1,
    [⟨.ident "f", .clamped 0 1 0, 1⟩, ⟨.openBracket '(', .clamped 0 1 1, 1⟩,
     ⟨.ident "a", .clamped 0 1 2, 1⟩, ⟨.comma, .clamped 0 1 3, 1⟩,
     ⟨.doWord, .clamped 0 1 5, 2⟩]⟩,
   ⟨4, 2,
    [⟨.ident "x", .clamped 0 2 4, 1⟩, ⟨.comma, .clamped 0 2 5, 1⟩,
     ⟨.str "y", .clamped 0 2 7, 3⟩]⟩,
   ⟨2, 3,
    [⟨.closeBracket ']', .clamped 0 3 2, 1⟩, ⟨.closeBracket ')', .clamped 0 3 3, 1⟩,
     ⟨.openBracket '[', .clamped 0 3 4, 1⟩]⟩]

theorem readTokens_read_tangled :
    (∀ line ∈ tangled, ∀ token ∈ line.tokens, token.kind.opensBlock = true) ∧
      (read 0 tangled).1.readTokens =
        [(some (.ident "f"), .clamped 0 1 0), (some (.openBracket '('), .clamped 0 1 1),
         (some (.ident "a"), .clamped 0 1 2), (some .doWord, .clamped 0 1 5),
         (some (.ident "x"), .clamped 0 2 4), (some (.str "y"), .clamped 0 2 7),
         (some (.openBracket '['), .clamped 0 3 4)] := by
  have proper : ∀ line ∈ tangled, ∀ token ∈ line.tokens, token.kind.opensBlock = true := by decide
  exact ⟨proper, (readTokens_read 0 proper).trans rfl⟩

end Block

end Offside
