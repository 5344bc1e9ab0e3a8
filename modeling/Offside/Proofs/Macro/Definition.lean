import Offside.Macro.Template

/-!
# What a definition of a macro does

The outcomes of reading a definition, told apart once: punching holes into a template, taking
the template from its body, and dividing a definition into its template and what remains.
-/

namespace Offside

/-- A computation succeeds only if its parts do. -/
theorem exists_of_bind_eq_ok {ε α β : Type} {x : Except ε α} {f : α → Except ε β} {b : β}
    (ok : (x >>= f) = .ok b) : ∃ a, x = .ok a ∧ f a = .ok b := by
  cases x with
  | error e => cases ok
  | ok a => exact ⟨a, rfl, ok⟩

namespace Template

def parameter? (params : List String) (operands : List Tree) : Option Nat :=
  (operands.head?.bind Tree.name?).bind fun name => params.findIdx? (· = name)

/-- A punched node is a hole, or the node with its children punched. -/
theorem punch_ok {params : List String} {id : NodeId} {info : Info} {children : List Tree}
    {holes after : Table Nat} {result : Tree}
    (punched : punch params (.node id info children) holes = .ok (result, after)) :
    (∃ (name : String) (index : Nat) (parts : List Tree),
      info.is .unquote = true ∧ parameter? params children = some index ∧
        name = holeName holes.size ∧
        punchAll params children (holes.insert name index) = .ok (parts, after) ∧
        result = .node id { info with symbol := .nothing, value := some (.name name) } []) ∨
    (∃ parts : List Tree,
      info.is .unquote = false ∧ punchAll params children holes = .ok (parts, after) ∧
        result = .node id info parts) := by
  rw [punch] at punched
  split at punched
  · rename_i unquoted
    dsimp only at punched
    split at punched
    · cases punched
    · rename_i index found
      obtain ⟨⟨parts, later⟩, inner, same⟩ := exists_of_bind_eq_ok punched
      cases same
      exact .inl ⟨_, index, parts, unquoted, found, rfl, inner, rfl⟩
  · rename_i plain
    obtain ⟨⟨parts, later⟩, inner, same⟩ := exists_of_bind_eq_ok punched
    cases same
    exact .inr ⟨parts, by simpa using plain, inner, rfl⟩

theorem parameter?_lt {params : List String} {operands : List Tree} {index : Nat}
    (found : parameter? params operands = some index) : index < params.length := by
  obtain ⟨name, _, located⟩ := Option.bind_eq_some_iff.mp found
  exact (List.findIdx?_eq_some_iff_getElem.mp located).1

theorem punchAll_cons_ok {params : List String} {t : Tree} {ts results : List Tree}
    {holes after : Table Nat} (punched : punchAll params (t :: ts) holes = .ok (results, after)) :
    ∃ (first : Tree) (others : List Tree) (middle : Table Nat),
      punch params t holes = .ok (first, middle) ∧
        punchAll params ts middle = .ok (others, after) ∧ results = first :: others := by
  rw [punchAll] at punched
  obtain ⟨⟨first, middle⟩, here, later⟩ := exists_of_bind_eq_ok punched
  obtain ⟨⟨others, last⟩, there, same⟩ := exists_of_bind_eq_ok later
  cases same
  exact ⟨first, others, middle, here, there, rfl⟩

/-- The only line of an indented block is taken out of it; all else is left whole. -/
theorem unwrapLine_cases (t : Tree) :
    (∃ line, t.isBlock .block = true ∧ t.children = [line] ∧
      unwrapLine t = (some (t.withChildren []), line)) ∨ unwrapLine t = (none, t) := by
  rw [unwrapLine]
  split
  · rename_i line isBlock parts
    exact .inl ⟨line, isBlock, parts, rfl⟩
  · exact .inr rfl

/-- A template is what a body quotes first, or the body itself, without the block around it. -/
theorem unwrap_ok {body template : Tree} {remains : Option Tree}
    (unwrapped : unwrap body = .ok (remains, template)) :
    (∃ (quoted : Tree) (rest : List Tree), body.is .quote = true ∧
      body.children = quoted :: rest ∧
      remains = some (body.withChildren ((unwrapLine quoted).1.toList ++ rest)) ∧
      template = (unwrapLine quoted).2) ∨
    (remains, template) = unwrapLine body := by
  rw [unwrap] at unwrapped
  split at unwrapped
  · rename_i quotes
    split at unwrapped
    · cases unwrapped
    · rename_i quoted rest parts
      have same := Except.ok.inj unwrapped
      exact .inl ⟨quoted, rest, quotes, parts, (congrArg Prod.fst same).symm,
        (congrArg Prod.snd same).symm⟩
  · exact .inr (Except.ok.inj unwrapped).symm

/-- A definition stays whole, or its template is taken from its third part. -/
theorem define_cases (definition : Tree) :
    (∃ d, define definition = (definition, .error d)) ∨
    (∃ (nameNode paramsNode body template : Tree) (remains : Option Tree) (name : String)
      (params : List String),
      definition.children = [nameNode, paramsNode, body] ∧ nameOf nameNode = .ok name ∧
        paramsOf paramsNode = .ok params ∧ unwrap body = .ok (remains, template) ∧
        define definition =
          (definition.withChildren (nameNode :: paramsNode :: remains.toList),
            (punch params template .empty).map fun (body, holes) =>
              { name, params, body, holes })) := by
  rw [define]
  split
  · rename_i nameNode paramsNode body parts
    dsimp only
    split
    · rename_i d _
      exact .inl ⟨d, rfl⟩
    · rename_i name params remains template read
      obtain ⟨_, named, later⟩ := exists_of_bind_eq_ok read
      obtain ⟨_, listed, last⟩ := exists_of_bind_eq_ok later
      obtain ⟨_, unwrapped, same⟩ := exists_of_bind_eq_ok last
      cases same
      exact .inr ⟨nameNode, paramsNode, body, template, remains, name, params, parts, named,
        listed, unwrapped, rfl⟩
  · exact .inl ⟨_, rfl⟩

end Template

end Offside
