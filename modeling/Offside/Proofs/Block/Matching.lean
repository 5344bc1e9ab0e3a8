import Offside.Proofs.Block.Conservation
import Offside.Proofs.Block.Nesting

/-!
# Matching of brackets

What is reported about the brackets of some lines depends on the brackets alone. A matcher with
one stack, which sees no line, no comma and no `do`, finds the same faults at the same places in
the same order. The open blocks that are brackets are at all times the stack of the matcher: a
line stands directly in a block with lines, so that a new line, which closes lines and the blocks
around them, closes no bracket. The matcher finds nothing exactly if the brackets are balanced.
-/

namespace Offside

open List

/-- A bracket of a source. -/
inductive Bracket where
  | opening (c : Char) (loc : Loc)
  | closing (c : Char) (loc : Loc)

def Token.bracket? (token : Token) : Option Bracket :=
  match token.kind with
  | .openBracket c => some (.opening c token.loc)
  | .closeBracket c => some (.closing c token.loc)
  | _ => none

/-- A fault in a source: its code, its place, and the places that explain it. -/
structure Finding where
  code : String
  loc : Loc
  related : List Loc
deriving DecidableEq

def Diagnostic.finding (d : Diagnostic) : Finding :=
  ⟨d.code.id, d.loc, d.secondary.map Label.loc⟩

/-- The faults that are reported other than lines in a wrong column. -/
def Diagnostics.bracketFindings (ds : Diagnostics) : List Finding :=
  (ds.toList.filter (·.code.id ≠ "E0104")).map Diagnostic.finding

namespace Bracket

/-- Decides whether two brackets are of one kind. -/
def pairs (opened closed : Char) : Bool :=
  (opened = '(' && closed = ')') || (opened = '[' && closed = ']') ||
    (opened = '\x7b' && closed = '\x7d')

/-- A word of brackets, each of which has its partner. -/
inductive Balanced : List Bracket → Prop where
  | empty : Balanced []
  | enclose {opened closed : Char} {place loc : Loc} {inner : List Bracket}
      (sameKind : pairs opened closed = true) (inside : Balanced inner) :
      Balanced (.opening opened place :: (inner ++ [.closing closed loc]))
  | append {first second : List Bracket} (left : Balanced first) (right : Balanced second) :
      Balanced (first ++ second)

def openAfter (opened : List (Char × Loc)) : Bracket → List (Char × Loc)
  | .opening c loc => (c, loc) :: opened
  | .closing _ _ => opened.tail

/--
The faults of a bracket. A closing bracket closes the innermost open one, which must be of its
kind; if none is open, it is misplaced.
-/
def faults : List (Char × Loc) → Bracket → List Finding
  | _, .opening _ _ => []
  | [], .closing _ loc => [⟨"E0101", loc, []⟩, ⟨"E0102", loc, []⟩]
  | (opened, place) :: _, .closing c loc => if pairs opened c then [] else [⟨"E0103", loc, [place]⟩]

/-- A matcher of brackets: those that are open, the innermost one first, and what was found. -/
structure Matcher where
  opened : List (Char × Loc)
  findings : List Finding

namespace Matcher

variable {word : List Bracket}

def step (m : Matcher) (bracket : Bracket) : Matcher :=
  ⟨bracket.openAfter m.opened, m.findings ++ faults m.opened bracket⟩

/-- What is found at the end: each bracket that is still open is a fault. -/
def finish (m : Matcher) : List Finding :=
  m.findings ++ m.opened.map fun bracket => ⟨"E0105", bracket.2, []⟩

def run (word : List Bracket) : List Finding :=
  (word.foldl step ⟨[], []⟩).finish

/-! ## Balanced words -/

theorem foldl_of_balanced (balanced : Balanced word) (m : Matcher) : word.foldl step m = m := by
  induction balanced generalizing m with
  | empty => rfl
  | enclose sameKind _ ih => simp [step, openAfter, faults, ih, sameKind]
  | append _ _ left right => rw [foldl_append, left, right]

/-- A word closes the brackets of a stack: balanced words with one closing bracket for each. -/
inductive Closes : List (Char × Loc) → List Bracket → Prop where
  | done {word : List Bracket} (balanced : Balanced word) : Closes [] word
  | next {opened closed : Char} {place loc : Loc} {stack : List (Char × Loc)}
      {first rest : List Bracket} (balanced : Balanced first)
      (sameKind : pairs opened closed = true) (closes : Closes stack rest) :
      Closes ((opened, place) :: stack) (first ++ .closing closed loc :: rest)

theorem Closes.prepend {stack : List (Char × Loc)} {first rest : List Bracket}
    (balanced : Balanced first) (closes : Closes stack rest) : Closes stack (first ++ rest) := by
  cases closes with
  | done other => exact .done (balanced.append other)
  | next other sameKind closes =>
    rw [← append_assoc]
    exact .next (balanced.append other) sameKind closes

/-- A bracket that is closed later makes a balanced word with its partner. -/
theorem Closes.opening {c : Char} {loc : Loc} {stack : List (Char × Loc)}
    (closes : Closes ((c, loc) :: stack) word) : Closes stack (.opening c loc :: word) := by
  cases closes with
  | @next _ closed _ place _ first rest balanced sameKind closes =>
    have pair : Balanced (.opening c loc :: (first ++ [.closing closed place])) :=
      .enclose sameKind balanced
    simpa using closes.prepend pair

/-- What was found is not forgotten. -/
theorem findings_prefix_foldl (word : List Bracket) (m : Matcher) :
    m.findings <+: (word.foldl step m).findings := by
  induction word generalizing m with
  | nil => exact prefix_rfl
  | cons bracket rest ih => exact (prefix_append _ _).trans (ih (m.step bracket))

theorem closes_of_finish_eq_nil (word : List Bracket) (opened : List (Char × Loc))
    (clean : (word.foldl step ⟨opened, []⟩).finish = []) : Closes opened word := by
  induction word generalizing opened with
  | nil =>
    have noneOpen : opened = [] := by simpa [finish] using clean
    rw [noneOpen]
    exact .done .empty
  | cons bracket rest ih =>
    have kept := findings_prefix_foldl rest (step ⟨opened, []⟩ bracket)
    rw [foldl_cons] at clean
    rw [(append_eq_nil_iff.mp clean).1] at kept
    have silent : faults opened bracket = [] := prefix_nil.mp kept
    have closes : Closes (bracket.openAfter opened) rest := by
      refine ih _ ?_
      rwa [step, silent] at clean
    cases bracket with
    | opening c loc => exact closes.opening
    | closing c loc =>
      cases opened with
      | nil => cases silent
      | cons innermost opened =>
        have sameKind : pairs innermost.1 c = true := by
          cases same : pairs innermost.1 c with
          | true => rfl
          | false => simp [faults, same] at silent
        exact Closes.next .empty sameKind closes

theorem run_eq_nil_iff : run word = [] ↔ Balanced word := by
  constructor
  · intro clean
    cases closes_of_finish_eq_nil word [] clean with
    | done balanced => exact balanced
  · intro balanced
    rw [run, foldl_of_balanced balanced]
    rfl

def codes : List String :=
  ["E0101", "E0102", "E0103", "E0105"]

theorem code_of_mem_faults {opened : List (Char × Loc)} {bracket : Bracket} {found : Finding}
    (member : found ∈ faults opened bracket) : found.code ∈ codes := by
  unfold faults at member
  split at member
  · cases member
  · simp only [mem_cons, not_mem_nil, or_false] at member
    rcases member with rfl | rfl <;> simp [codes]
  · split at member
    · cases member
    · rw [mem_singleton.mp member]
      simp [codes]

theorem code_of_mem_run {found : Finding} (member : found ∈ run word) : found.code ∈ codes := by
  have steps : ∀ f ∈ (word.foldl step ⟨[], []⟩).findings, f.code ∈ codes := by
    refine List.foldlRecOn (motive := fun m : Matcher => ∀ f ∈ m.findings, f.code ∈ codes)
      word step nofun ?_
    intro m known bracket _ f here
    exact (mem_append.mp here).elim (known f) code_of_mem_faults
  rcases mem_append.mp member with earlier | unclosed
  · exact steps found earlier
  · obtain ⟨bracket, -, rfl⟩ := mem_map.mp unclosed
    simp [codes]

end Matcher

end Bracket

/-! ## The brackets among the open blocks -/

def BlockKind.open? : BlockKind → Option Char
  | .paren => some '('
  | .square => some '['
  | .curly => some '\x7b'
  | _ => none

namespace BlockStack

variable {kind : BlockKind}

/-- The open brackets with their places, the innermost one first. -/
def opened (blocks : List OpenBlock) : List (Char × Loc) :=
  blocks.filterMap fun block => block.kind.open?.map fun c => (c, block.loc)

/-- A block that is no bracket is not seen. -/
theorem opened_cons_of_plain {block : OpenBlock} (plain : block.kind.open? = none)
    (rest : List OpenBlock) : opened (block :: rest) = opened rest := by
  rw [opened, filterMap_cons, plain]
  rfl

theorem opened_cons_of_bracket {block : OpenBlock} {c : Char} (bracket : block.kind.open? = some c)
    (rest : List OpenBlock) : opened (block :: rest) = (c, block.loc) :: opened rest := by
  rw [opened, filterMap_cons, bracket]
  rfl

variable {top outer : OpenBlock} {below rest : List OpenBlock}

theorem open?_of_opensScope (opens : kind.opensScope = true) : kind.open? = none := by
  revert opens
  cases kind <;> decide

theorem opened_line (isLine : top.kind = .line) (below : List OpenBlock) :
    opened (top :: below) = opened below :=
  opened_cons_of_plain (by rw [isLine]; rfl) below

/-- A line is closed together with the block around it: neither is a bracket. -/
theorem opened_closeLine (nested : Nested top (outer :: rest)) (isLine : top.kind = .line) :
    opened (top :: outer :: rest) = opened rest := by
  rw [opened_line isLine, opened_cons_of_plain (open?_of_opensScope (nested.opensScope isLine))]

/-- A new line closes no bracket. -/
theorem opened_enter (column : Nat) (dedented : Bool) (top : OpenBlock) (below : List OpenBlock)
    (nested : Nested top below) :
    opened ((enter column dedented top below).stack.top ::
      (enter column dedented top below).stack.below) = opened (top :: below) := by
  fun_induction enter column dedented top below
  case case8 isComma _ ih =>
    exact (ih (nested.close _)).trans (opened_cons_of_plain (by rw [isComma]; rfl) _).symm
  case case14 isLine _ _ _ _ _ ih | case21 isLine _ _ _ _ _ _ _ _ ih =>
    exact (ih (nested.around.close _)).trans (opened_closeLine nested isLine).symm
  case case13 isLine _ _ _ | case16 isLine _ _ _ _ | case18 isLine _ _ _ _ _ |
      case19 isLine _ _ _ _ _ _ | case20 isLine _ _ _ _ _ _ =>
    exact (opened_line isLine _).symm
  all_goals rfl

/-- A new line opens no bracket. -/
theorem open?_of_mem_opens (column : Nat) (dedented : Bool) (top : OpenBlock)
    (below : List OpenBlock) :
    ∀ block ∈ (enter column dedented top below).opens, block.1.open? = none := by
  fun_induction enter column dedented top below
  case case8 ih | case14 ih | case21 ih => exact ih
  all_goals simp [BlockKind.open?]

/-- What a closing bracket says about the innermost of the open brackets. -/
def Closing.Tells (closing : Closing) (c : Char) : List (Char × Loc) → Prop
  | [] => closing = .misplaced
  | (opened, place) :: _ =>
    if Bracket.pairs opened c then closing = .matched
    else ∃ expected, closing = .mismatched place expected

/-- What a closing bracket leaves open, and what it says. -/
structure Closed (c : Char) (result : Closing × BlockStack) (before : List (Char × Loc)) :
    Prop where
  brackets : opened (result.2.top :: result.2.below) = before.tail
  tells : result.1.Tells c before

theorem open?_eq_none_iff : kind.open? = none ↔ kind.isBracket = false := by
  cases kind <;> simp [BlockKind.open?, BlockKind.isBracket]

theorem opened_eq_nil {blocks : List OpenBlock}
    (noBracket : blocks.any (·.kind.isBracket) = false) : opened blocks = [] := by
  refine filterMap_eq_nil_iff.mpr fun block member => ?_
  have plain := any_eq_false.mp noBracket block member
  rw [open?_eq_none_iff.mpr (Bool.eq_false_iff.mpr plain)]
  rfl

/-- The kind of a bracket decides which bracket closes it. -/
theorem filter_close?_eq_none_iff {opened c : Char} (bracket : kind.open? = some opened) :
    kind.close?.filter (· ≠ c) = none ↔ Bracket.pairs opened c = true := by
  cases kind <;> cases bracket <;>
    simp [Bracket.pairs, BlockKind.close?, Option.filter_eq_none_iff, eq_comm (b := c)]

theorem open?_eq_none (noParen : kind ≠ .paren) (noSquare : kind ≠ .square)
    (noCurly : kind ≠ .curly) : kind.open? = none := by
  cases kind <;> first | rfl | contradiction

/-- A closing bracket closes the innermost bracket, if there is one, and no other. -/
theorem closed_close (c : Char) (top : OpenBlock) (below : List OpenBlock)
    (nested : Nested top below) : Closed c (close c top below) (opened (top :: below)) := by
  fun_induction close c top below
  case case1 top =>
    have noneOpen : opened [top] = [] :=
      opened_cons_of_plain (by rw [show top.kind = _ from nested.1]; rfl) []
    rw [noneOpen]
    exact ⟨noneOpen, rfl⟩
  case case2 isComma ih =>
    rw [opened_cons_of_plain (by rw [isComma]; rfl)]
    exact ih (nested.close _)
  case case3 | case5 | case7 =>
    rename_i kind expected found
    have bracket := congrArg BlockKind.open? kind
    have differs : ¬ Bracket.pairs _ c = true := fun same => by
      rw [(filter_close?_eq_none_iff bracket).mpr same] at found
      cases found
    rw [opened_cons_of_bracket bracket]
    exact ⟨rfl, (if_neg differs).mpr ⟨expected, rfl⟩⟩
  case case4 | case6 | case8 =>
    rename_i kind found
    have bracket := congrArg BlockKind.open? kind
    have same := (filter_close?_eq_none_iff (c := c) bracket).mp found
    rw [opened_cons_of_bracket bracket]
    exact ⟨rfl, (if_pos same).mpr rfl⟩
  case case9 noParen noSquare noCurly ih =>
    rw [opened_cons_of_plain (open?_eq_none noParen noSquare noCurly)]
    exact ih (nested.close _)
  case case10 noBracket _ noParen noSquare noCurly =>
    have noneBelow := opened_eq_nil (Bool.eq_false_iff.mpr noBracket)
    have noneOpen :=
      (opened_cons_of_plain (open?_eq_none noParen noSquare noCurly) _).trans noneBelow
    rw [noneOpen]
    exact ⟨noneOpen, rfl⟩

end BlockStack

theorem Diagnostics.bracketFindings_push (ds : Diagnostics) (d : Diagnostic) :
    bracketFindings (ds.push d) =
      bracketFindings ds ++ if d.code.id = "E0104" then [] else [d.finding] := by
  rw [bracketFindings, Array.toList_push, filter_append, map_append]
  congr 1
  by_cases dedent : d.code.id = "E0104" <;> simp [dedent]

namespace Block

namespace Reader

/-- A reading and a matcher have the same brackets open and have found the same faults. -/
structure Agrees (r : Reader) (m : Bracket.Matcher) : Prop where
  opened : BlockStack.opened (r.stack.top :: r.stack.below) = m.opened
  findings : r.diagnostics.bracketFindings = m.findings

variable {r : Reader} {m : Bracket.Matcher}

section

variable (agrees : r.Agrees m)
include agrees

/-- A block that is no bracket is opened. -/
theorem Agrees.push (kind : BlockKind) (level : Option Nat) (loc : Loc)
    (plain : kind.open? = none) : (r.push kind level loc).Agrees m :=
  ⟨(BlockStack.opened_cons_of_plain plain _).trans agrees.opened, agrees.findings⟩

theorem Agrees.push_bracket {kind : BlockKind} {c : Char} (level : Option Nat) (loc : Loc)
    (bracket : kind.open? = some c) : (r.push kind level loc).Agrees (m.step (.opening c loc)) := by
  constructor
  · refine (BlockStack.opened_cons_of_bracket bracket _).trans ?_
    exact congrArg ((c, loc) :: ·) agrees.opened
  · exact agrees.findings.trans (append_nil _).symm

/-- A line in a wrong column is no fault of a bracket. -/
theorem Agrees.dedent (loc : Loc) : (r.report (.inconsistentDedent loc)).Agrees m := by
  refine ⟨agrees.opened, ?_⟩
  rw [← agrees.findings]
  exact (Diagnostics.bracketFindings_push _ _).trans (append_nil _)

theorem Agrees.newLine (ready : r.Ready) (column : Nat) (loc : Loc) :
    (r.newLine column loc).Agrees m := by
  have plain := BlockStack.open?_of_mem_opens column false r.stack.top r.stack.below
  have brackets : BlockStack.opened
      ((BlockStack.enter column false r.stack.top r.stack.below).stack.top ::
        (BlockStack.enter column false r.stack.top r.stack.below).stack.below) = m.opened := by
    rw [← agrees.opened]
    rcases ready with ⟨source, rfl⟩ | ordered
    · rfl
    · exact BlockStack.opened_enter _ _ _ _ ordered.1
  unfold Reader.newLine
  generalize BlockStack.enter column false r.stack.top r.stack.below = entry at plain brackets
  have entered : Agrees { r with stack := entry.stack } m := ⟨brackets, agrees.findings⟩
  refine List.foldlRecOn (motive := (Agrees · m)) _ _ ?_ fun _ agrees block member =>
    agrees.push _ _ _ (plain block member)
  split
  · exact entered.dedent loc
  · exact entered

theorem Agrees.comma (loc : Loc) : (r.comma loc).Agrees m := by
  unfold Reader.comma
  split
  case h_1 isComma =>
    refine Agrees.push ?_ .comma none loc rfl
    obtain ⟨⟨top, below⟩, numbering, diagnostics⟩ := r
    cases below with
    | nil => exact agrees
    | cons outer rest =>
      refine ⟨Eq.trans ?_ agrees.opened, agrees.findings⟩
      exact (BlockStack.opened_cons_of_plain (by rw [isComma]; rfl) _).symm
  case h_2 =>
    refine Agrees.push ?_ .comma none loc rfl
    split
    · exact agrees
    · exact ⟨agrees.opened, agrees.findings⟩
  case h_3 | h_4 | h_5 => exact agrees.push .comma none loc rfl
  case h_6 | h_7 | h_8 => exact agrees

theorem Agrees.close (ordered : r.InOrder) (c : Char) (loc : Loc) :
    (r.close c loc).Agrees (m.step (.closing c loc)) := by
  obtain ⟨brackets, tells⟩ := BlockStack.closed_close c r.stack.top r.stack.below ordered.1
  rw [agrees.opened] at brackets tells
  unfold Reader.close
  generalize BlockStack.close c r.stack.top r.stack.below = result at *
  obtain ⟨closing, stack⟩ := result
  constructor
  · cases closing <;> exact brackets
  · rw [Bracket.Matcher.step, ← agrees.findings]
    obtain ⟨opened, found⟩ := m
    cases opened with
    | nil =>
      cases tells
      simp only [report, Diagnostics.bracketFindings_push, append_assoc]
      rfl
    | cons innermost rest =>
      obtain ⟨opened, place⟩ := innermost
      simp only [BlockStack.Closing.Tells] at tells
      simp only [Bracket.faults]
      split at tells
      case isTrue same =>
        rw [tells, if_pos same, append_nil]
      case isFalse differs =>
        obtain ⟨expected, rfl⟩ := tells
        rw [if_neg differs]
        exact Diagnostics.bracketFindings_push _ _

/-- A token that is no bracket leaves the brackets as they are. -/
theorem Agrees.token (ordered : r.InOrder) {token : Token} (proper : token.kind.opensBlock = true) :
    (r.token token).Agrees (token.bracket?.toList.foldl Bracket.Matcher.step m) := by
  obtain ⟨kind, loc, width⟩ := token
  cases kind with
  | doWord =>
    exact (agrees.push .doBlock none loc rfl).push .line none loc rfl
  | openBracket c =>
    simp only [TokenKind.opensBlock, Bool.or_eq_true, decide_eq_true_eq] at proper
    rcases proper with (rfl | rfl) | rfl <;>
      exact (agrees.push_bracket none loc rfl).push .comma none loc rfl
  | closeBracket c => exact agrees.close ordered c loc
  | comma => exact agrees.comma loc
  | _ => exact ⟨agrees.opened, agrees.findings⟩

theorem Agrees.foldl_token (tokens : List Token) (ordered : r.InOrder)
    (proper : ∀ token ∈ tokens, token.kind.opensBlock = true) :
    (tokens.foldl Reader.token r).Agrees
      ((tokens.filterMap Token.bracket?).foldl Bracket.Matcher.step m) := by
  induction tokens generalizing r m with
  | nil => exact agrees
  | cons token rest ih =>
    have after := ih (agrees.token ordered (proper token mem_cons_self)) (ordered.token token)
      fun t member => proper t (.tail _ member)
    rw [filterMap_cons]
    cases isBracket : token.bracket? <;> rw [isBracket] at after <;> exact after

theorem Agrees.line (ready : r.Ready) {line : TokenLine}
    (proper : ∀ token ∈ line.tokens, token.kind.opensBlock = true) :
    (r.line line).Agrees ((line.tokens.filterMap Token.bracket?).foldl Bracket.Matcher.step m) := by
  unfold Reader.line
  split
  case h_1 empty =>
    rw [empty]
    exact agrees
  case h_2 first rest tokens =>
    rw [tokens] at proper ⊢
    exact (agrees.newLine ready line.indent first.loc).foldl_token _ (ready.newLine _ _) proper

theorem Agrees.foldl_line (lines : List TokenLine) (ready : r.Ready)
    (proper : ∀ line ∈ lines, ∀ token ∈ line.tokens, token.kind.opensBlock = true) :
    (lines.foldl Reader.line r).Agrees
      (((lines.flatMap TokenLine.tokens).filterMap Token.bracket?).foldl
        Bracket.Matcher.step m) := by
  induction lines generalizing r m with
  | nil => exact agrees
  | cons line rest ih =>
    rw [flatMap_cons, filterMap_append, foldl_append]
    exact ih (agrees.line ready (proper line mem_cons_self)) (ready.line line)
      fun l member => proper l (.tail _ member)

/-- The brackets that are open at the end are the faults that the matcher adds. -/
theorem Agrees.finish : r.finish.diagnostics.bracketFindings = m.finish := by
  have each : ∀ (blocks : List OpenBlock) (r : Reader),
      ((blocks.filter (·.kind.isBracket)).foldl
        (fun r block => r.report (.unclosedBracket block.loc)) r).diagnostics.bracketFindings =
        r.diagnostics.bracketFindings ++
          (BlockStack.opened blocks).map fun bracket => ⟨"E0105", bracket.2, []⟩ := by
    intro blocks
    induction blocks with
    | nil => exact fun r => (append_nil _).symm
    | cons block rest ih =>
      intro r
      rw [filter_cons]
      cases isBracket : block.kind.isBracket with
      | false =>
        have plain := BlockStack.open?_eq_none_iff.mpr isBracket
        rw [BlockStack.opened_cons_of_plain plain]
        exact ih r
      | true =>
        have bracket : block.kind.open? ≠ none := by
          simp [BlockStack.open?_eq_none_iff, isBracket]
        obtain ⟨c, bracket⟩ := Option.ne_none_iff_exists'.mp bracket
        rw [if_pos rfl, foldl_cons, ih, BlockStack.opened_cons_of_bracket bracket,
          report, Diagnostics.bracketFindings_push, append_assoc]
        rfl
  rw [Reader.finish, BlockStack.openBrackets, each, agrees.findings, agrees.opened]
  rfl

end

end Reader

/--
What is reported about brackets is what a matcher with one stack finds in the brackets of the
lines. In particular nothing is reported about them exactly if they are balanced.
-/
theorem bracketFindings_read (source : SourceId) {lines : List TokenLine}
    (proper : ∀ line ∈ lines, ∀ token ∈ line.tokens, token.kind.opensBlock = true) :
    (read source lines).2.2.bracketFindings =
        Bracket.Matcher.run ((lines.flatMap TokenLine.tokens).filterMap Token.bracket?) ∧
      ((∀ d ∈ (read source lines).2.2, d.code.id ∉ ["E0101", "E0102", "E0103", "E0105"]) ↔
        Bracket.Balanced ((lines.flatMap TokenLine.tokens).filterMap Token.bracket?)) := by
  have start : (Reader.start source).Agrees ⟨[], []⟩ := ⟨rfl, rfl⟩
  have same : (read source lines).2.2.bracketFindings = Bracket.Matcher.run _ :=
    (start.foldl_line lines (.inl ⟨source, rfl⟩) proper).finish
  refine ⟨same, ?_⟩
  rw [← Bracket.Matcher.run_eq_nil_iff, ← same]
  constructor
  · intro silent
    refine eq_nil_iff_forall_not_mem.mpr fun found member => ?_
    have code := Bracket.Matcher.code_of_mem_run (same ▸ member)
    obtain ⟨d, reported, rfl⟩ := mem_map.mp member
    exact silent d (Array.mem_toList_iff.mp (mem_filter.mp reported).1) code
  · intro empty d member code
    have other : d.code.id ≠ "E0104" := by
      intro dedent
      rw [dedent] at code
      revert code
      decide
    have reported : d.finding ∈ (read source lines).2.2.bracketFindings :=
      mem_map_of_mem (mem_filter.mpr
        ⟨Array.mem_toList_iff.mpr member, decide_eq_true other⟩)
    rw [empty] at reported
    cases reported

theorem bracketFindings_read_tangled :
    (∀ line ∈ tangled, ∀ token ∈ line.tokens, token.kind.opensBlock = true) ∧
      (read 0 tangled).2.2.bracketFindings =
        [⟨"E0103", .clamped 0 3 2, [.clamped 0 1 1]⟩, ⟨"E0101", .clamped 0 3 3, []⟩,
         ⟨"E0102", .clamped 0 3 3, []⟩, ⟨"E0105", .clamped 0 3 4, []⟩] := by
  have proper : ∀ line ∈ tangled, ∀ token ∈ line.tokens, token.kind.opensBlock = true := by decide
  exact ⟨proper, (bracketFindings_read 0 proper).1.trans rfl⟩

end Block

end Offside
