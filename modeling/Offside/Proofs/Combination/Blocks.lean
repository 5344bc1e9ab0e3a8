import Offside.Expression
import Offside.Proofs.Computation
import Offside.Proofs.Contents.Everywhere
import Offside.Proofs.Contents.Nesting
import Mathlib.Data.List.Basic

/-!
# Rules of combination

What combination can make of the blocks of a source, as a relation between the blocks, the state
before them, what is made of them, and the state behind them. Every fact about combination is an
induction along these rules.
-/

namespace Offside

open List

namespace Combine

variable {scope : ScopeId}

/-! ## Tokens -/

/-- Known operators that make up some characters. -/
structure Cuts (keys : Scopes Symbol) (scope : ScopeId) (chars : List Char)
    (pieces : List (String × Symbol)) : Prop where
  known : ∀ piece ∈ pieces, keys.get? scope piece.1 = some piece.2 ∧ piece.2.isOperator = true
  whole : (pieces.flatMap fun piece => piece.1.toList) = chars

theorem of_longestOperator {keys : Scopes Symbol} {chars : List Char} {length : Nat} {text : String}
    {symbol : Symbol} (found : longestOperator keys scope chars length = some (text, symbol)) :
    text.toList <+: chars ∧ keys.get? scope text = some symbol ∧ symbol.isOperator = true := by
  induction length with
  | zero => cases found
  | succ length ih =>
    rw [longestOperator] at found
    split at found
    case h_1 filtered =>
      cases found
      rw [String.toList_ofList]
      exact ⟨ take_prefix _ _, Option.filter_eq_some_iff.mp filtered⟩
    case h_2 => exact ih found

/-- An operator text is cut into known operators. -/
theorem cuts_cutOperators {keys : Scopes Symbol} {fuel : Nat} {chars : List Char}
    {pieces : List (String × Symbol)} (cut : cutOperators keys scope fuel chars = some pieces) :
    Cuts keys scope chars pieces := by
  fun_induction cutOperators keys scope fuel chars generalizing pieces
  case case1 =>
    cases cut
    exact ⟨forall_mem_nil _, rfl⟩
  case case2 => cases cut
  case case3 fuel c rest ih =>
    obtain ⟨⟨text, symbol⟩, first, later⟩ := Option.bind_eq_some_iff.mp cut
    obtain ⟨others, behind, same⟩ := Option.bind_eq_some_iff.mp later
    cases same
    obtain ⟨begins, known⟩ := of_longestOperator first
    have cuts := ih text behind
    refine ⟨forall_mem_cons.mpr ⟨known, cuts.known⟩, ?_⟩
    rw [flatMap_cons, cuts.whole, ← String.length_toList]
    exact prefix_iff_eq_append.mp begins

/-- The symbol of an operand that a token becomes if its text means nothing else. -/
def operand? : TokenClass → Option Symbol
  | .identifier => some (.tag .use)
  | .virtualIdentifier => some (.tag TagKind.use.toVirtual)
  | .number | .str => some .value
  | .operator | .hashOperator => none

/-- The items that a token can become. -/
inductive Itemed (scope : ScopeId) (token : Tree) (kind : TokenClass) (value : Value)
    (s : Combination) : List Item → Combination → Prop
  | keyword {name literal} (named : value = .name name)
      (known : s.keys.get? scope name = some (.keyword literal)) :
      Itemed scope token kind value s [⟨token.withInfo fun info =>
        { info with symbol := .value, value := some literal }, .operand⟩] s
  | operand {symbol} (plain : operand? kind = some symbol) :
      Itemed scope token kind value s [⟨token.withSymbol symbol, .operand⟩] s
  | operator {text symbol} (named : value = .name text)
      (known : s.keys.get? scope text = some symbol) (isOperator : symbol.isOperator = true) :
      Itemed scope token kind value s [⟨token.withSymbol symbol, .operator symbol⟩] s
  | pieces {text pieces} (named : value = .name text)
      (isOperator : kind = .operator) (cuts : Cuts s.keys scope text.toList pieces) :
      Itemed scope token kind value s (pieceItems token.loc 0 pieces s.numbering).1
        { s with numbering := (pieceItems token.loc 0 pieces s.numbering).2 }
  | unknown (d : Diagnostic) :
      Itemed scope token kind value s [] { s with diagnostics := s.diagnostics.push d }

theorem runs_lookup (text : String) :
    Runs (lookup scope text) fun s found s' => s' = s ∧ s.keys.get? scope text = found :=
  fun _ => ⟨rfl, rfl⟩

section Token

variable {token : Tree}

theorem itemed_operatorItems {text : String} :
    Runs (operatorItems scope token text) fun s items s' =>
      Itemed scope token .operator (.name text) s items s' := by
  have same : Runs (get : Combine Combination) fun s read s' => s = read ∧ s' = read :=
    fun _ => ⟨rfl, rfl⟩
  refine .next same fun read => ?_
  dsimp only
  split
  case h_1 symbol filtered =>
    obtain ⟨known, isOperator⟩ := Option.filter_eq_some_iff.mp filtered
    rintro _ s ⟨rfl, rfl⟩
    exact .operator rfl known isOperator
  case h_2 =>
    split
    case h_1 pieces cut =>
      rintro _ s ⟨rfl, rfl⟩
      exact .pieces rfl rfl (cuts_cutOperators cut)
    case h_2 =>
      rintro _ s ⟨rfl, rfl⟩
      exact .unknown _

theorem itemed_tokenItems {kind : TokenClass} {value : Value} (named : token.name? = value.name?)
    (fits : kind.Fits value) :
    Runs (tokenItems scope token kind) fun s items s' =>
      Itemed scope token kind value s items s' := by
  unfold tokenItems
  match kind, value with
  | .identifier, .name name =>
    rw [show token.name? = some name from named]
    refine .next (runs_lookup name) fun found => ?_
    split
    case h_1 literal =>
      rintro _ s ⟨rfl, known⟩
      exact .keyword rfl known
    case h_2 symbol _ =>
      split
      case isTrue isOperator =>
        rintro _ s ⟨rfl, known⟩
        exact .operator rfl known isOperator
      case isFalse =>
        rintro _ s ⟨rfl, -⟩
        exact .operand rfl
    case h_3 =>
      rintro _ s ⟨rfl, -⟩
      exact .operand rfl
  | .virtualIdentifier, .name name => exact .pure fun _ => .operand rfl
  | .operator, .name text =>
    rw [show token.name? = some text from named]
    exact itemed_operatorItems
  | .hashOperator, .name text =>
    rw [show token.name? = some text from named]
    refine .next (runs_lookup text) fun found => ?_
    split
    case h_1 symbol filtered =>
      obtain ⟨same, isOperator⟩ := Option.filter_eq_some_iff.mp filtered
      rintro _ s ⟨rfl, known⟩
      exact .operator rfl (known.trans same) isOperator
    case h_2 =>
      rintro _ s ⟨rfl, -⟩
      exact .unknown _
  | .number, .number x => exact .pure fun _ => .operand rfl
  | .str, .str text => exact .pure fun _ => .operand rfl

end Token

/-! ## Brackets -/

/-- What a bracket can become that is more than its only element. -/
inductive Shape : Builtin → Role → Prop
  | tuple : Shape .tuple (.paren true)
  | array : Shape .array .square
  | object : Shape .object .curly

/-- The item that a bracket can become. -/
inductive Bracketed (loc : Loc) (elements : List Tree) (s : Combination) :
    Item → Combination → Prop
  | single {element} (alone : elements = [element]) :
      Bracketed loc elements s ⟨element, .paren false⟩ s
  | made {op role} (shape : Shape op role) (more : Diagnostics) :
      Bracketed loc elements s ⟨(Tree.new (.builtin op) none loc elements s.numbering).1, role⟩
        { s with
          numbering := (Tree.new (.builtin op) none loc elements s.numbering).2
          diagnostics := s.diagnostics ++ more }

/-- Reports are added. -/
def Reported (s s' : Combination) : Prop :=
  ∃ more, s' = { s with diagnostics := s.diagnostics ++ more }

theorem Reported.refl (s : Combination) : Reported s s :=
  ⟨#[], by rw [Array.append_empty]⟩

theorem Reported.trans {s s₁ s₂ : Combination} (first : Reported s s₁) (second : Reported s₁ s₂) :
    Reported s s₂ := by
  obtain ⟨more, rfl⟩ := first
  obtain ⟨others, rfl⟩ := second
  exact ⟨more ++ others, by rw [Array.append_assoc]⟩

/-- Every round of a loop only reports. -/
theorem runs_forIn_reported (ts : List Tree) {f : Tree → PUnit → Combine (ForInStep PUnit)}
    (each : ∀ t u, Runs (f t u) fun s next s' => next = .yield ⟨⟩ ∧ Reported s s') (u : PUnit) :
    Runs (forIn ts u f) fun s _ s' => Reported s s' :=
  Runs.forIn (P := fun _ => Reported) (Q := fun _ => Reported) .refl
    (fun _ _ _ _ _ first rest => first.trans rest) ts each u

theorem bracketed_bracketItem (kind : BlockKind) (loc : Loc) (groups : Nat) (elements : List Tree) :
    Runs (bracketItem kind loc groups elements) fun s item s' =>
      Bracketed loc elements s item s' := by
  have made {op : Builtin} {role : Role} (shape : Shape op role) :
      Runs (do return ⟨← supply (Tree.new (.builtin op) none loc elements), role⟩ : Combine Item)
        fun s item s' => Bracketed loc elements s item s' := by
    intro s
    have made : Bracketed loc elements s _ _ := .made shape #[]
    rwa [Array.append_empty] at made
  unfold bracketItem
  split
  case h_1 element =>
    split
    · exact .pure fun s => .single rfl
    · exact made .tuple
  case h_2 => exact made .tuple
  case h_3 => exact made .array
  case h_4 =>
    refine .bind (runs_forIn_reported elements (fun element u => ?_) _) ?_
    · split
      · exact fun s => ⟨rfl, #[_], by rw [← Array.push_eq_append]; rfl⟩
      · exact .pure fun s => ⟨rfl, .refl s⟩
    · rintro s - _ ⟨more, rfl⟩
      exact .made .object more

/-! ## Statements -/

end Combine

namespace Clause

/-- A clause is put into a tree, behind its last children all the way down to the owner. -/
inductive Attached (clause : Tree) (op : Builtin) : Tree → Tree → Prop
  | here {id info children} (taken : isTaken info.symbol children op = true) :
      Attached clause op (.node id info children) (.node id info (children ++ [clause]))
  | deeper {id info front last inner} (plain : last.isBlockLike = false)
      (inside : Attached clause op last inner) :
      Attached clause op (.node id info (front ++ [last])) (.node id info (front ++ [inner]))

theorem Attached.symbol_eq {clause t result : Tree} {op : Builtin}
    (attached : Attached clause op t result) : result.symbol = t.symbol := by
  cases attached <;> rfl

mutual

theorem attached_of_attach {clause t result : Tree} {op : Builtin}
    (attached : attach clause op t = some result) : Attached clause op t result := by
  match t with
  | .node id info children =>
    rw [attach] at attached
    split at attached
    case isTrue taken =>
      cases attached
      exact .here taken
    case isFalse =>
      obtain ⟨parts, found, rfl⟩ := Option.map_eq_some_iff.mp attached
      obtain ⟨front, last, inner, rfl, rfl, plain, inside⟩ := attached_of_attachLast found
      exact .deeper plain inside

theorem attached_of_attachLast {clause : Tree} {ts results : List Tree} {op : Builtin}
    (attached : attachLast clause op ts = some results) :
    ∃ front last inner, ts = front ++ [last] ∧ results = front ++ [inner] ∧
      last.isBlockLike = false ∧ Attached clause op last inner := by
  match ts with
  | [] => cases attached
  | [last] =>
    rw [attachLast] at attached
    split at attached
    case isTrue => cases attached
    case isFalse plain =>
      obtain ⟨inner, found, rfl⟩ := Option.map_eq_some_iff.mp attached
      exact ⟨[], last, inner, rfl, rfl, Bool.eq_false_iff.mpr plain, attached_of_attach found⟩
  | first :: next :: rest =>
    rw [attachLast] at attached
    obtain ⟨parts, found, rfl⟩ := Option.map_eq_some_iff.mp attached
    obtain ⟨front, last, inner, before, rfl, inside⟩ := attached_of_attachLast found
    exact ⟨first :: front, last, inner, congrArg (first :: ·) before, rfl, inside⟩

end

end Clause

namespace Combine

/-- The statements that a further expression can make of those of a block. -/
inductive Added (scope : ScopeId) (statements : Array Tree) (expr : Tree) (s : Combination) :
    Array Tree → Combination → Prop
  | attached {op last statement} (isClause : expr.symbol = .builtin op)
      (ends : statements.toList = statements.pop.toList ++ [last])
      (joins : Clause.Attached expr op last statement) :
      Added scope statements expr s (statements.pop.push statement) s
  | unattached (d : Diagnostic) :
      Added scope statements expr s statements { s with diagnostics := s.diagnostics.push d }
  | defined {remains template} (defines : expr.symbol = .builtin .defMacro)
      (made : Template.define expr = (remains, .ok template)) :
      Added scope statements expr s (statements.push remains) { s with
        keys := s.keys.insert scope template.name
          (.expander ⟨template.name, template.arity, .template s.templates.size⟩)
        templates := s.templates.push template }
  | undefined {remains d} (defines : expr.symbol = .builtin .defMacro)
      (failed : Template.define expr = (remains, .error d)) :
      Added scope statements expr s (statements.push remains)
        { s with diagnostics := s.diagnostics.push d }
  | pushed (other : expr.symbol ≠ .builtin .defMacro) :
      Added scope statements expr s (statements.push expr) s

theorem added_addStatement (scope : ScopeId) (statements : Array Tree) (expr : Tree) :
    Runs (addStatement scope statements expr) fun s all s' =>
      Added scope statements expr s all s' := by
  unfold addStatement
  split
  case h_1 op isBuiltin =>
    have isOp : expr.symbol = .builtin op := Symbol.eq_builtin_of_builtin? isBuiltin
    split
    · split
      case h_1 statement attached =>
        obtain ⟨last, isLast, joins⟩ := Option.bind_eq_some_iff.mp attached
        have ends : statements.toList = statements.pop.toList ++ [last] := by
          rw [Array.toList_pop]
          exact (dropLast_append_getLast? last (by simpa using isLast)).symm
        exact fun s => .attached isOp ends (Clause.attached_of_attach joins)
      case h_2 => exact fun s => .unattached _
    · split
      case isTrue isDefinition =>
        subst isDefinition
        rw [register]
        cases shares : Template.define expr with
        | mk remains result =>
          cases result with
          | error d => exact fun s => .undefined isOp shares
          | ok template => exact fun s => .defined isOp shares
      case isFalse other =>
        refine .pure fun s => .pushed fun same => other ?_
        exact Symbol.builtin.inj (isOp.symm.trans same)
  case h_2 none =>
    refine .pure fun s => .pushed fun same => ?_
    rw [Tree.builtin?, same] at none
    cases none

/-! ## Ends of blocks -/

mutual

/-- Faults are added to the reports that there are. -/
theorem exists_faults (parent : Option Builtin) (t : Tree) (ds : Diagnostics) :
    ∃ more, Clause.faults parent t ds = ds ++ more := by
  match t with
  | .node id info children =>
    rw [Clause.faults]
    cases Clause.fault? parent (.node id info children) with
    | none => exact exists_faultsOfAll _ children ds
    | some d =>
      obtain ⟨more, same⟩ := exists_faultsOfAll info.symbol.builtin? children (ds.push d)
      exact ⟨#[d] ++ more, same.trans (by rw [Array.push_eq_append, Array.append_assoc])⟩

theorem exists_faultsOfAll (parent : Option Builtin) (ts : List Tree) (ds : Diagnostics) :
    ∃ more, Clause.faultsOfAll parent ts ds = ds ++ more := by
  match ts with
  | [] => exact ⟨#[], by rw [Clause.faultsOfAll, Array.append_empty]⟩
  | t :: ts =>
    rw [Clause.faultsOfAll]
    obtain ⟨more, same⟩ := exists_faultsOfAll parent ts ds
    rw [same]
    split
    · exact ⟨more, rfl⟩
    · obtain ⟨others, last⟩ := exists_faults parent t (ds ++ more)
      exact ⟨more ++ others, by rw [last, Array.append_assoc]⟩

end

theorem finished_finishBlock (id : NodeId) (info : Info) (scope : ScopeId)
    (statements : Array Tree) :
    Runs (finishBlock id info scope statements) fun s t s' =>
      t = .node id { info with keyScope := some scope } statements.toList ∧
        ∃ more, s' = { s with diagnostics := s.diagnostics ++ more } := by
  rw [finishBlock, ← Array.forIn_toList]
  refine .next (runs_forIn_reported statements.toList (fun statement u s => ⟨rfl, ?_⟩) _)
    fun _ => ?_
  · obtain ⟨more, same⟩ := exists_faults none statement s.diagnostics
    exact ⟨more, congrArg (fun ds => { s with diagnostics := ds }) same⟩
  · rintro _ s ⟨more, rfl⟩
    exact ⟨rfl, more, rfl⟩

/-! ## Blocks -/

/-- What has to be combined, with what has been made before. -/
inductive Job where
  | lines (ts : List Tree) (scope : ScopeId) (statements : Array Tree)
  | line (parts : List Tree) (scope : ScopeId) (loc : Loc)
  | groups (ts : List Tree) (scope : ScopeId) (group : List Item) (elements : Array Tree)
  | bracket (ts : List Tree) (scope : ScopeId) (elements : Array Tree)
  | items (ts : List Tree) (scope : ScopeId)

/-- What is made. -/
inductive Product where
  | statements (all : Array Tree)
  | elements (all : Array Tree)
  | expr (made : Option Tree)
  | items (items : List Item)

def blockOf (id : NodeId) (kind : BlockKind) (loc : Loc) (parts : List Tree) : Tree :=
  .node id (.new (.block kind) none loc) parts

/-- What can be made of the blocks of a source. -/
inductive Combined : Job → Combination → Product → Combination → Prop
  | noLines {scope statements} (s : Combination) :
      Combined (.lines [] scope statements) s (.statements statements) s
  | emptyLine {id loc parts rest scope statements all s s₁ s'}
      (first : Combined (.line parts scope loc) s (.expr none) s₁)
      (onward : Combined (.lines rest scope statements) s₁ (.statements all) s') :
      Combined (.lines (blockOf id .line loc parts :: rest) scope statements) s (.statements all) s'
  | statement {id loc parts rest scope statements more all expr s s₁ s₂ s'}
      (first : Combined (.line parts scope loc) s (.expr (some expr)) s₁)
      (added : Added scope statements expr s₁ more s₂)
      (onward : Combined (.lines rest scope more) s₂ (.statements all) s') :
      Combined (.lines (blockOf id .line loc parts :: rest) scope statements) s (.statements all) s'
  | folded {parts scope loc items made s s₁ s'}
      (first : Combined (.items parts scope) s (.items items) s₁)
      (folds : fold items s₁ = (made, s')) : Combined (.line parts scope loc) s (.expr made) s'
  | tupled {parts scope loc elements expr s s₁ s'}
      (first : Combined (.groups parts scope [] #[]) s (.elements elements) s₁)
      (made : supply (Tree.new (.builtin .tuple) none loc elements.toList) s₁ = (expr, s')) :
      Combined (.line parts scope loc) s (.expr (some expr)) s'
  | lastGroup {scope group elements made s s'} (folds : fold group s = (made, s')) :
      Combined (.groups [] scope group elements) s (.elements (elements ++ made.toArray)) s'
  | nextGroup {id loc parts rest scope group items elements all made s s₁ s₂ s'}
      (folds : fold group s = (made, s₁))
      (first : Combined (.items parts scope) s₁ (.items items) s₂)
      (onward :
        Combined (.groups rest scope items (elements ++ made.toArray)) s₂ (.elements all) s') :
      Combined (.groups (blockOf id .comma loc parts :: rest) scope group elements) s
        (.elements all) s'
  | part {t rest scope group items elements all s s₁ s'}
      (first : Combined (.items [t] scope) s (.items items) s₁)
      (onward : Combined (.groups rest scope (group ++ items) elements) s₁ (.elements all) s') :
      Combined (.groups (t :: rest) scope group elements) s (.elements all) s'
  | noElements {scope elements} (s : Combination) :
      Combined (.bracket [] scope elements) s (.elements elements) s
  | element {id loc parts rest scope items elements all made s s₁ s₂ s'}
      (first : Combined (.items parts scope) s (.items items) s₁)
      (folds : fold items s₁ = (made, s₂))
      (onward : Combined (.bracket rest scope (elements ++ made.toArray)) s₂ (.elements all) s') :
      Combined (.bracket (blockOf id .comma loc parts :: rest) scope elements) s (.elements all) s'
  | noItems {scope} (s : Combination) : Combined (.items [] scope) s (.items []) s
  | items {t ts scope items more s s₁ s'} (first : Combined (.items [t] scope) s (.items items) s₁)
      (second : Combined (.items ts scope) s₁ (.items more) s') :
      Combined (.items (t :: ts) scope) s (.items (items ++ more)) s'
  | block {id kind loc parts scope inner statements whole role s s₁ s₂ s'}
      (opens : kind.opensScope = true) (plain : role = .operand ∨ role = .block)
      (extended : extend scope s = (inner, s₁))
      (first : Combined (.lines parts inner #[]) s₁ (.statements statements) s₂)
      (finished : finishBlock id (.new (.block kind) none loc) inner statements s₂ = (whole, s')) :
      Combined (.items [blockOf id kind loc parts] scope) s (.items [⟨whole, role⟩]) s'
  | bracket {id kind loc parts scope elements item s s₁ s'} (isBracket : kind.isBracket = true)
      (first : Combined (.bracket parts scope #[]) s (.elements elements) s₁)
      (made : Bracketed loc elements.toList s₁ item s') :
      Combined (.items [blockOf id kind loc parts] scope) s (.items [item]) s'
  | token {id kind value loc scope items s s'} (fits : kind.Fits value)
      (itemed :
        Itemed scope (.node id (.new (.token kind) (some value) loc) []) kind value s items s') :
      Combined (.items [.node id (.new (.token kind) (some value) loc) []] scope) s
        (.items items) s'

/-- A line without commas holds what a group holds. -/
theorem rawIn_comma {parts : List Tree} (raw : RawIn .line parts)
    (noComma : ¬ parts.any (·.isBlock .comma) = true) : RawIn .comma parts := by
  intro t member
  obtain ⟨holds, isRaw⟩ := raw t member
  rw [BlockKind.holds, Bool.or_eq_true] at holds
  refine ⟨holds.resolve_right fun isComma => noComma ?_, isRaw⟩
  refine any_eq_true.mpr ⟨t, member, ?_⟩
  rw [Tree.isBlock, Info.isBlock, show t.info.symbol = _ from of_decide_eq_true isComma]
  rfl

mutual

theorem combined_lines {ts : List Tree} (raw : RawIn .root ts) (scope : ScopeId)
    (statements : Array Tree) :
    Runs (lines ts scope statements) fun s all s' =>
      Combined (.lines ts scope statements) s (.statements all) s' := by
  match ts with
  | [] => exact .pure .noLines
  | .node number info parts :: rest =>
    obtain ⟨⟨isLine, line⟩, others⟩ := rawIn_cons.mp raw
    obtain ⟨⟨loc, rfl⟩, inner⟩ := line.of_block (of_decide_eq_true isLine)
    have onward (made : Option Tree) :
        Runs (match made with
          | none => lines rest scope statements
          | some expr => do lines rest scope (← addStatement scope statements expr))
          fun s₁ all s' => ∀ s, Combined (.line parts scope loc) s (.expr made) s₁ →
            Combined (.lines (blockOf number .line loc parts :: rest) scope statements) s
              (.statements all) s' := by
      cases made with
      | none => exact fun s₁ s first => .emptyLine first (combined_lines others scope statements s₁)
      | some expr =>
        refine .bind (added_addStatement scope statements expr) fun s₁ more s₂ added s first => ?_
        exact .statement first added (combined_lines others scope more s₂)
    rw [lines]
    split
    case isTrue =>
      refine .next (combined_groups inner scope none #[]) fun elements => ?_
      refine .bind (.self _) fun s₁ expr s₂ made s first => ?_
      exact onward (some expr) s₂ s (.tupled first made)
    case isFalse noComma =>
      refine .next (combined_items (rawIn_comma inner noComma) scope) fun read => ?_
      refine .bind (.self _) fun s₁ made s₂ folds s first => ?_
      exact onward made s₂ s (.folded first folds)

theorem combined_groups {ts : List Tree} (raw : RawIn .line ts) (scope : ScopeId)
    (group : Option (List Item)) (elements : Array Tree) :
    Runs (groups ts scope group elements) fun s all s' =>
      Combined (.groups ts scope (group.getD []) elements) s (.elements all) s' := by
  match ts with
  | [] =>
    rw [groups]
    exact .bind (.self _) fun s made s₁ folds => .lastGroup folds
  | .node number info parts :: rest =>
    obtain ⟨⟨holds, here⟩, others⟩ := rawIn_cons.mp raw
    rw [groups]
    split
    case isTrue isComma =>
      obtain ⟨⟨loc, rfl⟩, inner⟩ := here.of_block (Info.symbol_of_isBlock isComma)
      refine .next (.self _) fun made => .bind (combined_items inner scope) ?_
      intro s₁ read s₂ first s folds
      exact .nextGroup folds first (combined_groups others scope (some read) _ s₂)
    case isFalse noComma =>
      have isPart : info.symbol.isPart = true := by
        rw [BlockKind.holds, Bool.or_eq_true] at holds
        refine holds.resolve_right fun isComma => noComma ?_
        rw [Info.isBlock, show info.symbol = _ from of_decide_eq_true isComma]
        rfl
      refine .bind (combined_item (t := .node number info parts) isPart here scope) ?_
      intro s more s₁ first
      exact .part first (combined_groups others scope (some _) elements s₁)

theorem combined_bracket {ts : List Tree} (raw : RawIn .paren ts) (scope : ScopeId)
    (elements : Array Tree) :
    Runs (bracket ts scope elements) fun s all s' =>
      Combined (.bracket ts scope elements) s (.elements all) s' := by
  match ts with
  | [] => exact .pure .noElements
  | .node number info parts :: rest =>
    obtain ⟨⟨isComma, here⟩, others⟩ := rawIn_cons.mp raw
    obtain ⟨⟨loc, rfl⟩, inner⟩ := here.of_block (of_decide_eq_true isComma)
    rw [bracket]
    refine .next (combined_items inner scope) fun read => .bind (.self _) ?_
    intro s₁ made s₂ folds s first
    exact .element first folds (combined_bracket others scope _ s₂)

theorem combined_items {ts : List Tree} (raw : RawIn .comma ts) (scope : ScopeId) :
    Runs (items ts scope) fun s made s' => Combined (.items ts scope) s (.items made) s' := by
  match ts with
  | [] => exact .pure .noItems
  | t :: ts =>
    obtain ⟨⟨isPart, here⟩, others⟩ := rawIn_cons.mp raw
    rw [items]
    refine .bind (combined_item isPart here scope) fun s first s₁ combined => ?_
    exact .items combined (combined_items others scope s₁)

theorem combined_item {t : Tree} (isPart : t.symbol.isPart = true) (raw : Raw t) (scope : ScopeId) :
    Runs (item t scope) fun s made s' => Combined (.items [t] scope) s (.items made) s' := by
  match t with
  | .node number info parts =>
    have block {kind : BlockKind} {role : Role} (isBlock : info.symbol = .block kind)
        (opens : kind.opensScope = true) (plain : role = .operand ∨ role = .block) :
        Runs (do
            let inner ← extend scope
            let statements ← lines parts inner #[]
            return [⟨← finishBlock number info inner statements, role⟩] : Combine (List Item))
          fun s made s' =>
            Combined (.items [.node number info parts] scope) s (.items made) s' := by
      obtain ⟨⟨loc, rfl⟩, inner⟩ := raw.of_block isBlock
      have isLines := inner.of_holds (BlockKind.holds_of_opensScope opens)
      refine .next (.self _) fun deeper => .next (combined_lines isLines deeper #[]) ?_
      refine fun statements => .bind (.self _) fun s₂ whole s₃ finished s₁ first s extended => ?_
      exact .block opens plain extended first finished
    rw [item]
    split
    case h_1 isBlock => exact block isBlock rfl (.inr rfl)
    case h_2 isDo => exact block isDo rfl (.inl rfl)
    case h_3 kind noBlock noDo isBlock =>
      split
      case isTrue isBracket =>
        obtain ⟨⟨loc, rfl⟩, inner⟩ := raw.of_block isBlock
        have groups := inner.of_holds (BlockKind.holds_of_isBracket isBracket)
        refine .bind (combined_bracket groups scope #[]) fun s elements s₁ first => ?_
        exact .bracket isBracket first (bracketed_bracketItem kind loc parts.length _ s₁)
      case isFalse noBracket =>
        rw [show (Tree.node number info parts).symbol = _ from isBlock] at isPart
        rcases Symbol.cases_of_isPart isPart with isBlock | isDo | isBracket
        · exact absurd isBlock noBlock
        · exact absurd isDo noDo
        · exact absurd isBracket noBracket
    case h_4 kind isToken =>
      obtain ⟨value, loc, rfl, fits, rfl⟩ := raw.of_token isToken
      exact fun s => .token fits (itemed_tokenItems rfl fits s)
    case h_5 _ _ noBlock noToken =>
      cases raw with
      | leaf => exact absurd rfl (noToken _)
      | block => exact absurd rfl (noBlock _)

end

end Combine

end Offside
