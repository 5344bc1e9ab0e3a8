import Offside.Compilation
import Offside.Proofs.Binding.Frames

/-!
# Lexical visibility of macros

Combination keeps what spellings mean in layers, which it opens and fills on its way. Lexical
combination does without them: each line is given what the lines before it have defined, in its own
block and in the blocks around it, and what a line defines is handed on to the lines behind it in
the same block, and to nothing else. Both come to the same unit.
-/

namespace Offside

/-! ## Lexical combination -/

namespace Lexical

open Combine (supply report fold pieceItems bracketItem finishBlock)

/-- The macros that the lines of a block before a line have defined, the latest first. -/
abbrev Definitions := List (String × Symbol)

/-- The longest known operator at the start of some characters, from `length` characters down. -/
def longestOperator (meaning : String → Option Symbol) (chars : List Char) :
    Nat → Option (String × Symbol)
  | 0 => none
  | length + 1 =>
    let text := String.ofList (chars.take (length + 1))
    match (meaning text).filter Symbol.isOperator with
    | some symbol => some (text, symbol)
    | none => longestOperator meaning chars length

/-- Cuts an operator text into known operators, each the longest one where it starts. -/
def cutOperators (meaning : String → Option Symbol) :
    Nat → List Char → Option (List (String × Symbol))
  | _, [] => some []
  | 0, _ :: _ => none
  | fuel + 1, c :: rest => do
      let (text, symbol) ← longestOperator meaning (c :: rest) (rest.length + 1)
      let pieces ← cutOperators meaning fuel ((c :: rest).drop text.length)
      return (text, symbol) :: pieces

/-- The items of an operator token: one, or its pieces if it is not known as a whole. -/
def operatorItems (meaning : String → Option Symbol) (token : Tree) (text : String) :
    Combine (List Item) := do
  match (meaning text).filter Symbol.isOperator with
  | some symbol => return [⟨token.withSymbol symbol, .operator symbol⟩]
  | none =>
    match cutOperators meaning text.length text.toList with
    | some pieces => supply (pieceItems token.loc 0 pieces)
    | none =>
      report (.unknownOperator token.loc text)
      return []

def tokenItems (meaning : String → Option Symbol) (token : Tree) (kind : TokenClass) :
    Combine (List Item) := do
  match kind, token.name? with
  | .identifier, some name =>
    match meaning name with
    | some (.keyword literal) =>
      let node := token.withInfo fun info =>
        { info with symbol := .value, value := some literal }
      return [⟨node, .operand⟩]
    | some symbol =>
      if symbol.isOperator then return [⟨token.withSymbol symbol, .operator symbol⟩]
      else return [⟨token.withSymbol (.tag .use), .operand⟩]
    | none => return [⟨token.withSymbol (.tag .use), .operand⟩]
  | .virtualIdentifier, _ => return [⟨token.withSymbol (.tag TagKind.use.toVirtual), .operand⟩]
  | .operator, some text => operatorItems meaning token text
  | .hashOperator, some text =>
    match (meaning text).filter Symbol.isOperator with
    | some symbol => return [⟨token.withSymbol symbol, .operator symbol⟩]
    | none =>
      report (.unknownOperator token.loc text)
      return []
  | _, _ => return [⟨token.withSymbol .value, .operand⟩]

/-- What remains of a definition, and the macro that it makes if it is well-formed. -/
def register (definition : Tree) : Combine (Tree × Definitions) := do
  let (remains, result) := Template.define definition
  match result with
  | .error d =>
    report d
    return (remains, [])
  | .ok template =>
    let index := (← get).templates.size
    modify fun s => { s with templates := s.templates.push template }
    return (remains, [(template.name, .expander ⟨template.name, template.arity, .template index⟩)])

/-- Adds the expression of a line to the statements of its block, and says what it defines. -/
def addStatement (statements : Array Tree) (expr : Tree) :
    Combine (Array Tree × Definitions) := do
  if expr.is .defMacro then
    let (remains, defined) ← register expr
    return (statements.push remains, defined)
  else return (← Combine.addStatement Scopes.root statements expr, [])

mutual

/--
Combines the lines of a block: `own` is what the lines before have defined, and `around` what is
defined around the block.
-/
def lines (base : Table Symbol) :
    List Tree → Definitions → List Definitions → Array Tree → Combine (Array Tree)
  | [], _, _, statements => return statements
  | .node _ info parts :: rest, own, around, statements => do
      let expr ←
        if parts.any (·.isBlock .comma) then
          let elements ← groups base parts (own :: around) none #[]
          pure (some (← supply (Tree.new (.builtin .tuple) none info.loc elements.toList)))
        else fold (← items base parts (own :: around))
      match expr with
      | none => lines base rest own around statements
      | some expr =>
        let (statements, defined) ← addStatement statements expr
        lines base rest (defined ++ own) around statements

/-- Combines the groups of a line with commas; `items` belong to the group before. -/
def groups (base : Table Symbol) :
    List Tree → List Definitions → Option (List Item) → Array Tree → Combine (Array Tree)
  | [], _, group, elements => do
      return elements ++ (← fold (group.getD [])).toArray
  | .node id info parts :: rest, seen, group, elements => do
      if info.isBlock .comma then
        let elements := elements ++ (← fold (group.getD [])).toArray
        groups base rest seen (some (← items base parts seen)) elements
      else
        let more ← item base (.node id info parts) seen
        groups base rest seen (some (group.getD [] ++ more)) elements

def bracket (base : Table Symbol) :
    List Tree → List Definitions → Array Tree → Combine (Array Tree)
  | [], _, elements => return elements
  | .node _ _ parts :: rest, seen, elements => do
      let element ← fold (← items base parts seen)
      bracket base rest seen (elements ++ element.toArray)

def items (base : Table Symbol) : List Tree → List Definitions → Combine (List Item)
  | [], _ => return []
  | t :: ts, seen => do
      let first ← item base t seen
      return first ++ (← items base ts seen)

/--
The items of one part of a line. A block sees what its line sees, and defines nothing for it. A
layer is opened for the number of the block, and neither written nor read.
-/
def item (base : Table Symbol) : Tree → List Definitions → Combine (List Item)
  | .node id info parts, seen => do
      match info.symbol with
      | .block .block =>
        let inner ← Combine.extend Scopes.root
        let statements ← lines base parts [] seen #[]
        return [⟨← finishBlock id info inner statements, .block⟩]
      | .block .doBlock =>
        let inner ← Combine.extend Scopes.root
        let statements ← lines base parts [] seen #[]
        return [⟨← finishBlock id info inner statements, .operand⟩]
      | .block kind =>
        if kind.isBracket then
          let elements ← bracket base parts seen #[]
          return [← bracketItem kind info.loc parts.length elements.toList]
        else return [⟨.node id info parts, .operand⟩]
      | .token kind => tokenItems (Scopes.meaning seen base) (.node id info parts) kind
      | _ => return [⟨.node id info parts, .operand⟩]

end

def root (base : Table Symbol) : Tree → Combine Tree
  | .node id info parts => do
      let statements ← lines base parts [] [] #[]
      finishBlock id info Scopes.root statements

end Lexical

def SourceUnit.combineLexically (unit : SourceUnit) (env : Environment) (prelude : Bool) :
    SourceUnit :=
  let start : Combination := ⟨unit.numbering, .start .empty, unit.templates, unit.diagnostics⟩
  let (tree, final) := (Lexical.root (env.rootKeys prelude) unit.tree).run start
  ⟨tree, final.numbering, final.templates, final.diagnostics⟩

/-! ## Layers that stay as they are -/

namespace Scopes

variable {α : Type} {before middle after : Scopes α} {bound scope : Nat}
  {frame : List (String × α)} {frames : List (List (String × α))}

/-- The layers below a bound are as before, and no layer is gone. -/
structure Keeps (bound : Nat) (before after : Scopes α) : Prop where
  base : after.base = before.base
  size : before.size ≤ after.size
  parents : ∀ layer < bound, after.parent layer = before.parent layer
  entries : ∀ layer < bound, ∀ name, after.getLocal? layer name = before.getLocal? layer name

theorem Keeps.refl (bound : Nat) (scopes : Scopes α) : Keeps bound scopes scopes :=
  ⟨rfl, le_refl _, fun _ _ => rfl, fun _ _ _ => rfl⟩

theorem Keeps.trans (first : Keeps bound before middle) (second : Keeps bound middle after) :
    Keeps bound before after := by
  refine ⟨second.base.trans first.base, first.size.trans second.size, fun layer inside => ?_,
    fun layer inside name => ?_⟩
  · rw [second.parents layer inside, first.parents layer inside]
  · rw [second.entries layer inside, first.entries layer inside]

theorem Keeps.below {smaller : Nat} (keeps : Keeps bound before after) (le : smaller ≤ bound) :
    Keeps smaller before after :=
  { keeps with
    parents := fun layer inside => keeps.parents layer (inside.trans_le le)
    entries := fun layer inside => keeps.entries layer (inside.trans_le le) }

theorem Keeps.extend (before : Scopes α) (scope : ScopeId) :
    Keeps before.size before (before.extend scope).2 := by
  have gains := Gains.extend before before.size scope
  exact ⟨gains.base, gains.size, gains.parents, fun layer _ => getLocal?_extend before scope layer⟩

theorem size_insert (scopes : Scopes α) (scope : ScopeId) (name : String) (value : α) :
    (scopes.insert scope name value).size = scopes.size := by
  rw [size, size, insert, Array.size_modify]

theorem Keeps.insert (known : scope < before.size) (name : String) (value : α) :
    Keeps scope before (before.insert scope name value) := by
  refine ⟨rfl, (size_insert _ _ _ _).ge, fun layer _ => parent_insert layer name value,
    fun layer inside other => ?_⟩
  rw [getLocal?_insert known, if_neg fun both => inside.ne both.1]

/-- What can be seen from a scope is as before. -/
theorem Shows.of_keeps (shows : Shows before scope frames) (keeps : Keeps bound before after)
    (outside : scope < bound) : Shows after scope frames := by
  induction shows with
  | outermost inside noParent entries =>
    refine .outermost (inside.trans_le keeps.size) ?_ fun name => ?_
    · rw [keeps.parents _ outside, noParent]
    · rw [keeps.entries _ outside, entries]
  | within inside parent earlier entries _ ih =>
    refine .within (inside.trans_le keeps.size) ?_ earlier (fun name => ?_)
      (ih (earlier.trans outside))
    · rw [keeps.parents _ outside, parent]
    · rw [keeps.entries _ outside, entries]

/-- What is written last comes first. -/
theorem Shows.insert (shows : Shows before scope (frame :: frames)) (name : String) (value : α) :
    Shows (before.insert scope name value) scope (((name, value) :: frame) :: frames) := by
  have keeps := Keeps.insert shows.inside name value
  have entries (other : String) : (before.insert scope name value).getLocal? scope other =
      Table.find ((name, value) :: frame) other := by
    rw [getLocal?_insert shows.inside, shows.entries, Table.find]
    simp only [true_and]
  cases shows with
  | outermost inside noParent _ =>
    exact .outermost (inside.trans_le keeps.size) ((parent_insert _ _ _).trans noParent) entries
  | within inside parent earlier _ around =>
    exact .within (inside.trans_le keeps.size) ((parent_insert _ _ _).trans parent) earlier
      entries (around.of_keeps keeps earlier)

end Scopes

/-! ## Computations that know nothing of layers -/

namespace Lexical

open Combine (supply report fold leftovers pieceItems bracketItem finishBlock)

variable {base : Table Symbol} {scope : ScopeId} {seen : List Definitions} {α β : Type}

/-- A computation that neither reads nor changes the layers. -/
def Blind (x : Combine α) : Prop :=
  ∀ s keys, x { s with keys } = ((x s).1, { (x s).2 with keys })

namespace Blind

theorem pure (a : α) : Blind (Pure.pure a : Combine α) :=
  fun _ _ => rfl

theorem bind {x : Combine α} {f : α → Combine β} (first : Blind x) (second : ∀ a, Blind (f a)) :
    Blind (x >>= f) := by
  intro s keys
  change f (x { s with keys }).1 (x { s with keys }).2 = _
  rw [first s keys]
  exact second (x s).1 (x s).2 keys

theorem supply (x : Supply α) : Blind (supply x) :=
  fun _ _ => rfl

theorem report (d : Diagnostic) : Blind (report d) :=
  fun _ _ => rfl

theorem forIn (xs : List β) {body : β → PUnit → Combine (ForInStep PUnit)}
    (round : ∀ b u, Blind (body b u)) (u : PUnit) : Blind (ForIn.forIn xs u body) := by
  induction xs generalizing u with
  | nil => exact .pure u
  | cons b rest ih =>
    rw [List.forIn_cons]
    refine .bind (round b u) fun step => ?_
    cases step with
    | done u => exact .pure u
    | yield u => exact ih u

end Blind

theorem blind_leftovers (fuel : Nat) (items : List Item) : Blind (leftovers fuel items) := by
  induction fuel generalizing items with
  | zero => exact .pure ()
  | succ fuel ih =>
    cases items with
    | nil => exact .pure ()
    | cons item rest =>
      refine .bind (.report _) fun _ => ?_
      exact .bind (.supply _) fun result => ih result.2

theorem blind_fold (items : List Item) : Blind (fold items) := by
  refine .bind (.supply _) fun result => ?_
  exact .bind (blind_leftovers _ _) fun _ => .pure result.1

theorem blind_bracketItem (kind : BlockKind) (loc : Loc) (groups : Nat) (elements : List Tree) :
    Blind (bracketItem kind loc groups elements) := by
  unfold bracketItem
  repeat' first
    | exact .pure _
    | refine .bind (.supply _) fun _ => ?_
    | refine .bind (.report _) fun _ => ?_
    | refine .bind (.forIn _ (fun element u => ?_) _) fun _ => ?_
    | split

theorem blind_finishBlock (id : NodeId) (info : Info) (inner : ScopeId) (statements : Array Tree) :
    Blind (finishBlock id info inner statements) := by
  rw [finishBlock, ← Array.forIn_toList]
  refine .bind (.forIn _ (fun statement u => ?_) _) fun _ => .pure _
  exact .bind (fun _ _ => rfl) fun _ => .pure _

/-- An expression that defines no macro is added in the same way in every scope. -/
theorem addStatement_of_plain {expr : Tree} (plain : expr.is .defMacro = false) (scope : ScopeId)
    (statements : Array Tree) :
    Combine.addStatement scope statements expr =
      Combine.addStatement Scopes.root statements expr := by
  unfold Combine.addStatement
  split
  case h_1 op isBuiltin =>
    have other : op ≠ .defMacro := by
      rintro rfl
      rw [Tree.is, Info.is, show expr.info.symbol.builtin? = _ from isBuiltin] at plain
      cases plain
    rw [if_neg other, if_neg other]
  case h_2 => rfl

theorem blind_addStatement {expr : Tree} (plain : expr.is .defMacro = false)
    (statements : Array Tree) : Blind (Combine.addStatement scope statements expr) := by
  unfold Combine.addStatement
  split
  case h_1 op isBuiltin =>
    split
    · split
      · exact .pure _
      · exact .bind (.report _) fun _ => .pure _
    · split
      case isTrue defines =>
        rw [Tree.is, Info.is, show expr.info.symbol.builtin? = _ from isBuiltin, defines] at plain
        cases plain
      case isFalse => exact .pure _
  case h_2 => exact .pure _

theorem blind_tokenItems (meaning : String → Option Symbol) (token : Tree) (kind : TokenClass) :
    Blind (tokenItems meaning token kind) := by
  unfold tokenItems operatorItems
  repeat' first
    | exact .pure _
    | exact .supply _
    | refine .bind (.report _) fun _ => ?_
    | split

/-! ## States that differ in their layers -/

/-- States that differ in their layers only, and have the same number of them. -/
def Alike (s lexical : Combination) : Prop :=
  ∃ keys : Scopes Symbol, lexical = { s with keys } ∧ keys.size = s.keys.size

theorem Blind.keys_eq {x : Combine α} (blind : Blind x) (s : Combination) :
    (x s).2.keys = s.keys :=
  congrArg (fun after => after.2.keys) (blind s s.keys)

theorem Blind.alike {x : Combine α} (blind : Blind x) {s lexical : Combination}
    (alike : Alike s lexical) : (x s).1 = (x lexical).1 ∧ Alike (x s).2 (x lexical).2 := by
  obtain ⟨keys, rfl, size⟩ := alike
  rw [blind s keys]
  exact ⟨rfl, keys, rfl, by rw [blind.keys_eq, size]⟩

/--
Two computations do the same in states that differ in their layers, if a scope of the first one
shows what is seen; the first one leaves all layers that there are as they are.
-/
def Agrees (base : Table Symbol) (scope : ScopeId) (seen : List Definitions)
    (x y : Combine α) : Prop :=
  ∀ s lexical, Alike s lexical → s.keys.base = base → s.keys.Shows scope seen →
    (x s).1 = (y lexical).1 ∧ Alike (x s).2 (y lexical).2 ∧
      s.keys.Keeps s.keys.size (x s).2.keys

theorem Blind.agrees {x : Combine α} (blind : Blind x) : Agrees base scope seen x x := by
  intro s lexical alike _ _
  obtain ⟨same, after⟩ := blind.alike alike
  refine ⟨same, after, ?_⟩
  rw [blind.keys_eq]
  exact .refl _ _

theorem Agrees.bind {x y : Combine α} {f g : α → Combine β} (first : Agrees base scope seen x y)
    (second : ∀ a, Agrees base scope seen (f a) (g a)) :
    Agrees base scope seen (x >>= f) (y >>= g) := by
  intro s lexical alike isBase shows
  obtain ⟨same, between, keeps⟩ := first s lexical alike isBase shows
  have later := second (x s).1 (x s).2 (y lexical).2 between (keeps.base.trans isBase)
    (shows.of_keeps keeps shows.inside)
  change (f (x s).1 (x s).2).1 = (g (y lexical).1 (y lexical).2).1 ∧
    Alike (f (x s).1 (x s).2).2 (g (y lexical).1 (y lexical).2).2 ∧
    s.keys.Keeps s.keys.size (f (x s).1 (x s).2).2.keys
  rw [← same]
  exact ⟨later.1, later.2.1, keeps.trans (later.2.2.below keeps.size)⟩

theorem Agrees.pure (a : α) : Agrees base scope seen (Pure.pure a) (Pure.pure a) :=
  (Blind.pure a).agrees

/-! ## Tokens -/

section

variable (keys : Scopes Symbol) (scope : ScopeId)

theorem longestOperator_eq (chars : List Char) (length : Nat) :
    Combine.longestOperator keys scope chars length =
      longestOperator (keys.get? scope) chars length := by
  induction length with
  | zero => rfl
  | succ length ih =>
    rewrite [Combine.longestOperator, longestOperator, ih]
    rfl

theorem cutOperators_eq (fuel : Nat) (chars : List Char) :
    Combine.cutOperators keys scope fuel chars = cutOperators (keys.get? scope) fuel chars := by
  induction fuel generalizing chars with
  | zero => cases chars <;> rfl
  | succ fuel ih =>
    cases chars with
    | nil => rfl
    | cons c rest =>
      rw [Combine.cutOperators, cutOperators, longestOperator_eq]
      simp only [ih]

end

theorem operatorItems_eq (token : Tree) (text : String) (s : Combination) :
    Combine.operatorItems scope token text s =
      operatorItems (s.keys.get? scope) token text s := by
  rw [Combine.operatorItems, operatorItems]
  change (match (s.keys.get? scope text).filter Symbol.isOperator with
    | some symbol => pure [⟨token.withSymbol symbol, .operator symbol⟩]
    | none =>
      match Combine.cutOperators s.keys scope text.length text.toList with
      | some pieces => supply (pieceItems token.loc 0 pieces)
      | none => do
          report (.unknownOperator token.loc text)
          return [] : Combine (List Item)) s = _
  rw [cutOperators_eq]

/-- What a token becomes depends on what spellings mean in its scope. -/
theorem tokenItems_eq (token : Tree) (kind : TokenClass) (s : Combination) :
    Combine.tokenItems scope token kind s = tokenItems (s.keys.get? scope) token kind s := by
  unfold Combine.tokenItems tokenItems
  cases kind with
  | operator =>
    cases token.name? with
    | none => rfl
    | some text => exact operatorItems_eq token text s
  | _ => cases token.name? <;> rfl

theorem agrees_tokenItems (token : Tree) (kind : TokenClass) :
    Agrees base scope seen (Combine.tokenItems scope token kind)
      (tokenItems (Scopes.meaning seen base) token kind) := by
  intro s lexical alike isBase shows
  have meaning : s.keys.get? scope = Scopes.meaning seen base := by
    funext name
    rw [shows.get?_eq, isBase]
  rw [tokenItems_eq, meaning]
  exact (blind_tokenItems _ token kind).agrees s lexical alike isBase shows

/-! ## Lines -/

variable {own : Definitions} {around : List Definitions}

/--
Two computations do the same if a scope shows what the lines before have defined; the first one
leaves all layers before that of the scope as they are.
-/
def Continues (base : Table Symbol) (scope : ScopeId) (own : Definitions)
    (around : List Definitions) (x y : Combine α) : Prop :=
  ∀ s lexical, Alike s lexical → s.keys.base = base → s.keys.Shows scope (own :: around) →
    (x s).1 = (y lexical).1 ∧ Alike (x s).2 (y lexical).2 ∧ s.keys.Keeps scope (x s).2.keys

def Defines (base : Table Symbol) (scope : ScopeId) (own : Definitions)
    (around : List Definitions) (x : Combine α) (y : Combine (α × Definitions)) : Prop :=
  ∀ s lexical, Alike s lexical → s.keys.base = base → s.keys.Shows scope (own :: around) →
    (x s).1 = (y lexical).1.1 ∧ Alike (x s).2 (y lexical).2 ∧ s.keys.Keeps scope (x s).2.keys ∧
      (x s).2.keys.Shows scope (((y lexical).1.2 ++ own) :: around)

theorem Agrees.continues {x y : Combine α} (agrees : Agrees base scope (own :: around) x y) :
    Continues base scope own around x y := by
  intro s lexical alike isBase shows
  obtain ⟨same, after, keeps⟩ := agrees s lexical alike isBase shows
  exact ⟨same, after, keeps.below shows.inside.le⟩

theorem Agrees.defines {x y : Combine α} (agrees : Agrees base scope (own :: around) x y) :
    Defines base scope own around x (do return (← y, [])) := by
  intro s lexical alike isBase shows
  obtain ⟨same, after, keeps⟩ := agrees s lexical alike isBase shows
  exact ⟨same, after, keeps.below shows.inside.le, shows.of_keeps keeps shows.inside⟩

theorem Continues.bind {x y : Combine α} {f g : α → Combine β}
    (first : Agrees base scope (own :: around) x y)
    (second : ∀ a, Continues base scope own around (f a) (g a)) :
    Continues base scope own around (x >>= f) (y >>= g) := by
  intro s lexical alike isBase shows
  obtain ⟨same, between, keeps⟩ := first s lexical alike isBase shows
  have later := second (x s).1 (x s).2 (y lexical).2 between (keeps.base.trans isBase)
    (shows.of_keeps keeps shows.inside)
  change (f (x s).1 (x s).2).1 = (g (y lexical).1 (y lexical).2).1 ∧
    Alike (f (x s).1 (x s).2).2 (g (y lexical).1 (y lexical).2).2 ∧
    s.keys.Keeps scope (f (x s).1 (x s).2).2.keys
  rw [← same]
  exact ⟨later.1, later.2.1, (keeps.below shows.inside.le).trans later.2.2⟩

/-- What a line defines is known to the lines behind it. -/
theorem Continues.define {x : Combine α} {y : Combine (α × Definitions)} {f : α → Combine β}
    {g : α × Definitions → Combine β} (first : Defines base scope own around x y)
    (second : ∀ a defined, Continues base scope (defined ++ own) around (f a) (g (a, defined))) :
    Continues base scope own around (x >>= f) (y >>= g) := by
  intro s lexical alike isBase shows
  obtain ⟨same, between, keeps, after⟩ := first s lexical alike isBase shows
  have later := second (x s).1 (y lexical).1.2 (x s).2 (y lexical).2 between
    (keeps.base.trans isBase) after
  rw [same] at later
  change (f (x s).1 (x s).2).1 = (g (y lexical).1 (y lexical).2).1 ∧
    Alike (f (x s).1 (x s).2).2 (g (y lexical).1 (y lexical).2).2 ∧
    s.keys.Keeps scope (f (x s).1 (x s).2).2.keys
  rw [same]
  exact ⟨later.1, later.2.1, keeps.trans later.2.2⟩

theorem defines_register (definition : Tree) :
    Defines base scope own around (Combine.register scope definition) (register definition) := by
  rintro s - ⟨keys, rfl, size⟩ isBase shows
  rw [Combine.register, register]
  rcases Template.define definition with ⟨remains, result⟩
  cases result with
  | error d => exact ⟨rfl, ⟨keys, rfl, size⟩, .refl _ _, shows⟩
  | ok template =>
    have keeps := Scopes.Keeps.insert shows.inside template.name
      (Symbol.expander ⟨template.name, template.arity, .template s.templates.size⟩)
    refine ⟨rfl, ⟨keys, rfl, ?_⟩, keeps, shows.insert _ _⟩
    exact size.trans (Scopes.size_insert _ _ _ _).symm

theorem defines_addStatement (statements : Array Tree) (expr : Tree) :
    Defines base scope own around (Combine.addStatement scope statements expr)
      (addStatement statements expr) := by
  rw [addStatement]
  split
  case isTrue defines =>
    have isDefinition : expr.builtin? = some .defMacro := of_decide_eq_true defines
    have same : Combine.addStatement scope statements expr =
        (do return statements.push (← Combine.register scope expr)) := by
      rw [Combine.addStatement, isDefinition]
      rfl
    rw [same]
    intro s lexical alike isBase shows
    obtain ⟨remains, after, keeps, shown⟩ := defines_register expr s lexical alike isBase shows
    exact ⟨congrArg statements.push remains, after, keeps, shown⟩
  case isFalse plain =>
    rw [addStatement_of_plain (Bool.eq_false_iff.mpr plain) scope]
    exact (blind_addStatement (Bool.eq_false_iff.mpr plain) statements).agrees.defines

/-- A block sees what its line sees, and leaves all layers as they are. -/
theorem agrees_block {parts : List Tree}
    (inside : ∀ inner, Continues base inner [] seen (Combine.lines parts inner #[])
      (lines base parts [] seen #[])) (id : NodeId) (info : Info) (role : Role) :
    Agrees base scope seen
      (do
        let inner ← Combine.extend scope
        let statements ← Combine.lines parts inner #[]
        return [(⟨← finishBlock id info inner statements, role⟩ : Item)])
      (do
        let inner ← Combine.extend Scopes.root
        let statements ← lines base parts [] seen #[]
        return [(⟨← finishBlock id info inner statements, role⟩ : Item)]) := by
  rintro s - ⟨keys, rfl, size⟩ isBase shows
  let opened : Combination := { s with keys := (s.keys.extend scope).2 }
  let lexical : Combination := { s with keys := (keys.extend Scopes.root).2 }
  have extended := Scopes.Keeps.extend s.keys scope
  have alike : Alike opened lexical :=
    ⟨_, rfl, by rw [Scopes.size_extend, Scopes.size_extend, size]⟩
  let made := Combine.lines parts s.keys.size #[] opened
  let other := lines base parts [] seen #[] lexical
  obtain ⟨same, between, keeps⟩ : made.1 = other.1 ∧ Alike made.2 other.2 ∧ _ :=
    inside s.keys.size opened lexical alike isBase shows.extend
  have kept := extended.trans keeps
  have finish := blind_finishBlock id info s.keys.size made.1
  obtain ⟨block, after⟩ := finish.alike between
  have last : (finishBlock id info s.keys.size made.1 made.2).2.keys = made.2.keys :=
    finish.keys_eq made.2
  refine ⟨?_, ?_, last ▸ kept⟩
  · change [Item.mk (finishBlock id info s.keys.size made.1 made.2).1 role] =
      [Item.mk (finishBlock id info keys.size other.1 other.2).1 role]
    rw [size, ← same, block]
  · change Alike (finishBlock id info s.keys.size made.1 made.2).2
      (finishBlock id info keys.size other.1 other.2).2
    rw [size, ← same]
    exact after

mutual

theorem continues_lines (ts : List Tree) (scope : ScopeId) (own : Definitions)
    (around : List Definitions) (statements : Array Tree) :
    Continues base scope own around (Combine.lines ts scope statements)
      (lines base ts own around statements) := by
  cases ts with
  | nil =>
    rw [Combine.lines, lines]
    exact (Agrees.pure statements).continues
  | cons t rest =>
    cases t with
    | node id info parts =>
      have behind (expr : Option Tree) : Continues base scope own around
          (match expr with
            | none => Combine.lines rest scope statements
            | some expr => do
                Combine.lines rest scope (← Combine.addStatement scope statements expr))
          (match expr with
            | none => lines base rest own around statements
            | some expr => do
                let (statements, defined) ← addStatement statements expr
                lines base rest (defined ++ own) around statements) := by
        cases expr with
        | none => exact continues_lines rest scope own around statements
        | some expr =>
          refine .define (defines_addStatement statements expr) fun statements defined => ?_
          exact continues_lines rest scope (defined ++ own) around statements
      rw [Combine.lines, lines]
      split
      · refine .bind (agrees_groups parts scope (own :: around) none #[]) fun elements => ?_
        refine .bind (Blind.supply _).agrees fun t => ?_
        exact .bind (.pure (some t)) behind
      · refine .bind (agrees_items parts scope (own :: around)) fun items => ?_
        exact .bind (blind_fold items).agrees behind

theorem agrees_groups (ts : List Tree) (scope : ScopeId) (seen : List Definitions)
    (group : Option (List Item)) (elements : Array Tree) :
    Agrees base scope seen (Combine.groups ts scope group elements)
      (groups base ts seen group elements) := by
  cases ts with
  | nil =>
    rw [Combine.groups, groups]
    exact .bind (blind_fold _).agrees fun _ => .pure _
  | cons t rest =>
    cases t with
    | node id info parts =>
      rw [Combine.groups, groups]
      split
      · refine .bind (blind_fold _).agrees fun element => ?_
        refine .bind (agrees_items parts scope seen) fun items => ?_
        exact agrees_groups rest scope seen _ _
      · refine .bind (agrees_item (.node id info parts) scope seen) fun more => ?_
        exact agrees_groups rest scope seen _ _

theorem agrees_bracket (ts : List Tree) (scope : ScopeId) (seen : List Definitions)
    (elements : Array Tree) :
    Agrees base scope seen (Combine.bracket ts scope elements) (bracket base ts seen elements) := by
  cases ts with
  | nil =>
    rw [Combine.bracket, bracket]
    exact .pure elements
  | cons t rest =>
    cases t with
    | node id info parts =>
      rw [Combine.bracket, bracket]
      refine .bind (agrees_items parts scope seen) fun items => ?_
      refine .bind (blind_fold items).agrees fun element => ?_
      exact agrees_bracket rest scope seen _

theorem agrees_items (ts : List Tree) (scope : ScopeId) (seen : List Definitions) :
    Agrees base scope seen (Combine.items ts scope) (items base ts seen) := by
  cases ts with
  | nil =>
    rw [Combine.items, items]
    exact .pure []
  | cons t ts =>
    rw [Combine.items, items]
    refine .bind (agrees_item t scope seen) fun first => ?_
    exact .bind (agrees_items ts scope seen) fun others => .pure _

theorem agrees_item (t : Tree) (scope : ScopeId) (seen : List Definitions) :
    Agrees base scope seen (Combine.item t scope) (item base t seen) := by
  cases t with
  | node id info parts =>
    rw [Combine.item, item]
    cases info.symbol with
    | block kind =>
      cases kind with
      | block | doBlock =>
        exact agrees_block (fun inner => continues_lines parts inner [] seen #[]) id info _
      | paren | square | curly =>
        refine .bind (agrees_bracket parts scope seen #[]) fun elements => ?_
        exact .bind (blind_bracketItem _ _ _ _).agrees fun item => .pure _
      | _ => exact .pure _
    | token kind => exact agrees_tokenItems _ _
    | _ => exact .pure _

end

end Lexical

/-- Combination is lexical: it comes to what lexical combination comes to. -/
theorem SourceUnit.combine_eq_combineLexically (unit : SourceUnit) (env : Environment)
    (prelude : Bool) : unit.combine env prelude = unit.combineLexically env prelude := by
  obtain ⟨⟨id, info, parts⟩, numbering, templates, diagnostics⟩ := unit
  let base := env.rootKeys prelude
  let start : Combination := ⟨numbering, .start base, templates, diagnostics⟩
  let lexical : Combination := ⟨numbering, .start .empty, templates, diagnostics⟩
  let made := Combine.lines parts Scopes.root #[] start
  let other := Lexical.lines base parts [] [] #[] lexical
  obtain ⟨same, between, keeps⟩ : made.1 = other.1 ∧ Lexical.Alike made.2 other.2 ∧ _ :=
    Lexical.continues_lines parts Scopes.root [] [] #[] start lexical ⟨_, rfl, rfl⟩ rfl
      (Scopes.shows_start base)
  obtain ⟨root, keys, final, -⟩ :=
    (Lexical.blind_finishBlock id info Scopes.root made.1).alike between
  let unitOf (result : Tree × Combination) : SourceUnit :=
    ⟨result.1, result.2.numbering, result.2.templates, result.2.diagnostics⟩
  change unitOf (Combine.finishBlock id info Scopes.root made.1 made.2) =
    unitOf (Combine.finishBlock id info Scopes.root other.1 other.2)
  rw [← same]
  dsimp only [unitOf]
  rw [final, ← root]

end Offside
