import Offside.Proofs.Binding.Frames
import Offside.Proofs.Combination.Blocks
import Offside.Proofs.Contents.Proper
import Offside.Proofs.Macro.Definition

/-!
# Templates and spellings

The templates that combination takes out of definitions are expressions but for their holes, and
every hole stands for a parameter. What a spelling means at the start is a builtin, a keyword for a
value that is no name, or a macro of the environment.
-/

namespace Offside

open List Offside.Tree

/-! ## Templates -/

def Info.IsHole (holes : Table Nat) (info : Info) : Prop :=
  info.symbol = .nothing ∧ ∃ name index, info.name? = some name ∧ holes.get? name = some index

/-- Every hole stands for one of some parameters. -/
def Template.Bounded (count : Nat) (holes : Table Nat) : Prop :=
  ∀ name index, holes.get? name = some index → index < count

/-- All nodes of a template but its holes follow a law, and each hole has a parameter. -/
structure Template.Fits (law : Law) (template : Template) : Prop where
  body : template.body.Obeys fun info below => law info below ∨ info.IsHole template.holes
  bounded : Template.Bounded template.params.length template.holes

theorem Template.Fits.mono {law weaker : Law} {template : Template} (fits : template.Fits law)
    (weaken : ∀ info below, law info below → weaker info below) : template.Fits weaker :=
  ⟨fits.body.mono fun info below => Or.imp_left (weaken info below), fits.bounded⟩

variable {admitted : String → Prop}

namespace Template

def Grows (holes after : Table Nat) : Prop :=
  ∀ name index, holes.get? name = some index → ∃ later, after.get? name = some later

variable {params : List String} {holes middle after : Table Nat}

theorem Grows.refl (holes : Table Nat) : Grows holes holes :=
  fun _ index known => ⟨index, known⟩

theorem Grows.trans (first : Grows holes middle) (second : Grows middle after) :
    Grows holes after := by
  intro name index known
  obtain ⟨later, between⟩ := first name index known
  exact second name later between

theorem grows_insert (holes : Table Nat) (name : String) (index : Nat) :
    Grows holes (holes.insert name index) := by
  intro other old known
  rw [Table.get?_insert]
  split
  · exact ⟨index, rfl⟩
  · exact ⟨old, known⟩

theorem bounded_empty (count : Nat) : Bounded count .empty := by
  intro name index known
  cases known

theorem Bounded.insert {count index : Nat} (bounded : Bounded count holes) (name : String)
    (less : index < count) : Bounded count (holes.insert name index) := by
  intro other known found
  rw [Table.get?_insert] at found
  split at found
  · cases found
    exact less
  · exact bounded other known found

theorem Grows.isHole {info : Info} (grows : Grows holes after) (isHole : info.IsHole holes) :
    info.IsHole after := by
  obtain ⟨nothing, name, index, named, known⟩ := isHole
  obtain ⟨later, found⟩ := grows name index known
  exact ⟨nothing, name, later, named, found⟩

/-- A node that is no use of a parameter keeps its symbol. -/
theorem symbol_punch {t result : Tree} (punched : punch params t holes = .ok (result, after))
    (isClause : t.symbol.isClause = true) : result.symbol = t.symbol := by
  obtain ⟨id, info, children⟩ := t
  rcases punch_ok punched with ⟨_, _, _, unquotes, _, _, _, _⟩ | ⟨parts, _, _, rfl⟩
  · have isUnquote := Info.symbol_of_is unquotes
    rw [Tree.symbol, Tree.info, isUnquote] at isClause
    cases isClause
  · rfl

theorem passes_punchAll {ts results : List Tree} {holes : Table Nat}
    (punched : punchAll params ts holes = .ok (results, after)) :
    Symbol.Passes (ts.map symbol) (results.map symbol) := by
  induction ts generalizing holes results with
  | nil =>
    cases punched
    exact .nil
  | cons t ts ih =>
    obtain ⟨first, others, middle, here, there, rfl⟩ := punchAll_cons_ok punched
    exact .cons_toList (fun isClause => congrArg some (symbol_punch here isClause)) (ih there)

mutual

theorem fits_punch {t result : Tree} {holes after : Table Nat} (proper : t.IsProper admitted)
    (bounded : Bounded params.length holes)
    (punched : punch params t holes = .ok (result, after)) :
    result.Obeys (fun info below => info.Proper admitted below ∨ info.IsHole after) ∧
      Bounded params.length after ∧ Grows holes after := by
  cases t with
  | node id info children =>
    rw [IsProper, obeys_node] at proper
    rcases punch_ok punched with
      ⟨name, index, parts, _, found, rfl, inner, rfl⟩ | ⟨parts, _, inner, rfl⟩
    · have less := parameter?_lt found
      obtain ⟨_, within, grows⟩ := fits_punchAll proper.2 (bounded.insert _ less) inner
      have isNew : (holes.insert (holeName holes.size) index).get? (holeName holes.size) =
          some index := by
        rw [Table.get?_insert, if_pos rfl]
      obtain ⟨later, found⟩ := grows _ _ isNew
      rw [obeys_node]
      exact ⟨⟨.inr ⟨rfl, _, later, rfl, found⟩, obeyAll_nil⟩, within,
        (grows_insert holes _ index).trans grows⟩
    · obtain ⟨inside, within, grows⟩ := fits_punchAll proper.2 bounded inner
      rw [obeys_node]
      exact ⟨⟨.inl (Info.stable_proper admitted proper.1 (passes_punchAll inner)), inside⟩,
        within, grows⟩

theorem fits_punchAll {ts results : List Tree} {holes after : Table Nat}
    (proper : AllProper admitted ts) (bounded : Bounded params.length holes)
    (punched : punchAll params ts holes = .ok (results, after)) :
    ObeyAll (fun info below => info.Proper admitted below ∨ info.IsHole after) results ∧
      Bounded params.length after ∧ Grows holes after := by
  cases ts with
  | nil =>
    cases punched
    exact ⟨obeyAll_nil, bounded, .refl holes⟩
  | cons t ts =>
    rw [AllProper, obeyAll_cons] at proper
    obtain ⟨first, others, middle, here, there, rfl⟩ := punchAll_cons_ok punched
    obtain ⟨inside, within, grows⟩ := fits_punch proper.1 bounded here
    obtain ⟨behind, last, growsOn⟩ := fits_punchAll proper.2 within there
    rw [obeyAll_cons]
    exact ⟨⟨inside.mono fun _ _ => Or.imp_right growsOn.isHole, behind⟩, last,
      grows.trans growsOn⟩

end

end Template

/-! ## Spellings -/

/-- The macros that an environment provides call functions with admitted names only. -/
def Environment.CallsAdmitted (env : Environment) (admitted : String → Prop) : Prop :=
  ∀ entry ∈ env.provided.entries, entry.2.CallsAdmitted admitted

/-- All values of a table that is made of entries are among the entries. -/
theorem Table.forall_of_foldl {α : Type} (fact : String → α → Prop) {entries : List (String × α)}
    {table : Table α} (before : ∀ name value, table.get? name = some value → fact name value)
    (all : ∀ entry ∈ entries, fact entry.1 entry.2) (name : String) (value : α)
    (found : (entries.foldl (fun table entry => table.insert entry.1 entry.2) table).get? name =
      some value) : fact name value := by
  induction entries generalizing table with
  | nil => exact before name value found
  | cons entry rest ih =>
    have ⟨here, others⟩ := forall_mem_cons.mp all
    refine ih (fun other known inserted => ?_) others found
    rw [get?_insert] at inserted
    split at inserted
    case isTrue same =>
      cases inserted
      exact same ▸ here
    case isFalse => exact before other known inserted

/-- A spelling means what the language gives it, or a macro of the environment. -/
theorem Environment.forall_of_rootKeys {env : Environment} {prelude : Bool} (fact : Symbol → Prop)
    (language : ∀ entry ∈ spellings prelude, fact entry.2)
    (provided : ∀ entry ∈ env.provided.entries, fact (.expander entry.2)) {text : String}
    {symbol : Symbol} (found : (env.rootKeys prelude).get? text = some symbol) : fact symbol := by
  refine Table.forall_of_foldl (fun _ symbol => fact symbol) (fun name meaning known => ?_)
    (fun entry member => ?_) text symbol found
  · exact Table.forall_of_foldl (fun _ symbol => fact symbol) (fun _ _ absent => by cases absent)
      language name meaning known
  · obtain ⟨m, inside, rfl⟩ := mem_map.mp member
    exact provided m inside

theorem Environment.mem_spellings {prelude : Bool} {entry : String × Symbol}
    (member : entry ∈ spellings prelude) :
    (∃ op : Builtin, entry.1 ∈ op.spellings ∧ entry.2 = .builtin op) ∨
      ∃ literal : Value, literal.name? = none ∧ entry.2 = .keyword literal := by
  rw [spellings, mem_append] at member
  rcases member with operator | keyword
  · obtain ⟨op, _, inside⟩ := mem_flatMap.mp operator
    split at inside
    · cases inside
    · obtain ⟨text, spelled, rfl⟩ := mem_map.mp inside
      exact .inl ⟨op, spelled, rfl⟩
  · simp only [mem_cons, not_mem_nil, or_false] at keyword
    rcases keyword with rfl | rfl | rfl <;> exact .inr ⟨_, rfl, rfl⟩

namespace Scopes

variable {α : Type} {P : String → α → Prop} {scopes : Scopes α}

/-- Everything that is written in a layer or in the base table. -/
structure All (P : String → α → Prop) (scopes : Scopes α) : Prop where
  base : ∀ name value, scopes.base.get? name = some value → P name value
  layers : ∀ scope name value, scopes.getLocal? scope name = some value → P name value

theorem All.get? (all : scopes.All P) {scope : ScopeId} {name : String} {value : α}
    (known : scopes.get? scope name = some value) : P name value := by
  rw [Scopes.get?, Option.or_eq_some_iff] at known
  rcases known with layered | ⟨-, inBase⟩
  · obtain ⟨layer, -, found⟩ := exists_of_findSome?_eq_some layered
    exact all.layers layer name value found
  · exact all.base name value inBase

theorem all_start {base : Table α}
    (holds : ∀ name value, base.get? name = some value → P name value) :
    (start base).All P := by
  refine ⟨holds, fun scope name value known => ?_⟩
  rw [getLocal?_start] at known
  cases known

theorem All.extend (all : scopes.All P) (scope : ScopeId) : (scopes.extend scope).2.All P := by
  refine ⟨all.base, fun layer name value known => all.layers layer name value ?_⟩
  rwa [getLocal?_extend] at known

theorem All.insert (all : scopes.All P) (scope : ScopeId) {name : String} {value : α}
    (holds : P name value) : (scopes.insert scope name value).All P := by
  refine ⟨all.base, fun layer other found known => ?_⟩
  rw [getLocal?, Scopes.insert, Array.getElem?_modify] at known
  split at known
  case isTrue here =>
    obtain ⟨changed, isLayer, inside⟩ := Option.bind_eq_some_iff.mp known
    obtain ⟨old, present, rfl⟩ := Option.map_eq_some_iff.mp isLayer
    rw [Table.get?_insert] at inside
    split at inside
    case isTrue same =>
      cases inside
      exact same ▸ holds
    case isFalse =>
      exact all.layers layer other found (Option.bind_eq_some_iff.mpr ⟨old, present, inside⟩)
  case isFalse => exact all.layers layer other found known

end Scopes

/-! ## Blocks -/

namespace Combine

section Token

variable {kind : TokenClass} {value : Value} {symbol : Symbol}

/-- The name of a token is not marked. -/
theorem spelled_token (fits : kind.Fits value) (loc : Loc) :
    (Info.new (.token kind) (some value) loc).Spelled admitted := by
  refine ⟨Info.unbound_new _ _ _, fun name named => .inl ?_⟩
  match kind, value, named with
  | .identifier, .name _, rfl | .virtualIdentifier, .name _, rfl =>
    exact Text.StartsAsWord.unmarked fits.1
  | .operator, .name _, rfl | .hashOperator, .name _, rfl => exact Text.unmarked_of_not_mem fits

theorem carries_operand (plain : operand? kind = some symbol) (fits : kind.Fits value) :
    symbol.Carries admitted (some value) := by
  match kind, value with
  | .identifier, .name _ | .virtualIdentifier, .name _ =>
    cases plain
    exact .inl fits.1
  | .number, .number _ | .str, .str _ =>
    cases plain
    rfl

end Token

/-- The root of a unit stays what it is. -/
theorem symbol_root (t : Tree) : Yields (root t) (fun r => r.symbol = t.symbol) := by
  obtain ⟨id, info, parts⟩ := t
  rw [root]
  refine .after fun statements => ?_
  rw [finishBlock]
  refine .after fun _ => ?_
  exact .pure rfl

end Combine

end Offside
