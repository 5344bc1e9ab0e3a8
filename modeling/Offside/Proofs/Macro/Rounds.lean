import Offside.Macro.Expansion
import Offside.Proofs.Computation

/-!
# Rounds of expansion

Only macros are rewritten: a round invokes the macro of a node, or makes a member of the operand of
`@`, and does nothing but that and reports to the state. Every other node stays where it is with
what it holds, and expansion goes on below it.
-/

namespace Offside

/-- What is not rewritten is not quoted either. -/
theorem Symbol.not_quoting_of_plain {symbol : Symbol} (plain : symbol.isMacro = false) :
    symbol.flags.quoting = false := by
  cases symbol with
  | builtin op => cases op <;> first | rfl | cases plain
  | expander m => cases plain
  | _ => rfl

/-- The macros of the language and the macros with a name. -/
theorem Symbol.isMacro_cases {symbol : Symbol} (isMacro : symbol.isMacro = true) :
    (∃ m, symbol = .expander m) ∨ symbol = .builtin .defMacro ∨ symbol = .builtin .quote ∨
      symbol = .builtin .unquote ∨ symbol = .builtin .atSign := by
  cases symbol with
  | expander m => exact .inl ⟨m, rfl⟩
  | builtin op =>
    cases op with
    | defMacro => exact .inr (.inl rfl)
    | quote => exact .inr (.inr (.inl rfl))
    | unquote => exact .inr (.inr (.inr (.inl rfl)))
    | atSign => exact .inr (.inr (.inr (.inr rfl)))
    | _ => cases isMacro
  | _ => cases isMacro

namespace Expand

variable {settings : ExpansionSettings} {below : List Tree → Expand (List Tree)} {count : Nat}

theorem round_of_plain {node : Tree} (plain : node.symbol.isMacro = false) :
    round settings node = pure .stay := by
  unfold round
  split
  · rename_i op same
    rw [same] at plain
    rw [if_neg (by simpa [Symbol.isMacro, Symbol.flags] using plain)]
  · rename_i m same
    rw [same] at plain
    cases plain
  · rfl

/-- What a node is replaced by: what its macro makes of it, or a member of `this`. -/
inductive Attempts (settings : ExpansionSettings) (t : Tree) : Supply Outcome → Prop
  | invocation {m} (invokes : t.symbol = .expander m) : Attempts settings t (invoke settings m t)
  | member (isAt : t.symbol = .builtin .atSign) : Attempts settings t (memberOfThis t)

/-- What can come of a round on a node, and the state behind it. -/
inductive Rounded (settings : ExpansionSettings) (t : Tree) (s : Expanding) :
    Round → Expanding → Prop
  | plain (plain : t.symbol.isMacro = false) : Rounded settings t s .stay s
  | misplaced (d : Diagnostic) :
      Rounded settings t s .stay { s with diagnostics := s.diagnostics.push d }
  | definition : Rounded settings t s .vanish s
  | unchanged {x numbering} (attempts : Attempts settings t x)
      (ran : x s.numbering = (.unchanged, numbering)) :
      Rounded settings t s .stay { s with numbering }
  | failed {x outcome numbering} (attempts : Attempts settings t x)
      (ran : x s.numbering = (outcome, numbering))
      (fails : (∃ reason, outcome = .fail reason) ∨ ∃ reason, outcome = .crash reason)
      (d : Diagnostic) :
      Rounded settings t s .stay { s with numbering, diagnostics := s.diagnostics.push d }
  | deleted {x numbering} (attempts : Attempts settings t x)
      (ran : x s.numbering = (.delete, numbering)) :
      Rounded settings t s .vanish { s with numbering }
  | replaced {x remains new numbering} (attempts : Attempts settings t x)
      (ran : x s.numbering = (.replace remains new, numbering)) :
      Rounded settings t s (.become remains new) { s with numbering }

theorem supply_of_run {α : Type} {x : Supply α} {s : Expanding} {a : α} {numbering : Numbering}
    (ran : x s.numbering = (a, numbering)) : supply x s = (a, { s with numbering }) := by
  change ((x s.numbering).1, { s with numbering := (x s.numbering).2 }) = _
  rw [ran]

theorem rounded_round (t : Tree) (s : Expanding) :
    Rounded settings t s (round settings t s).1 (round settings t s).2 := by
  cases isMacro : t.symbol.isMacro with
  | false =>
    rw [round_of_plain isMacro]
    exact .plain isMacro
  | true =>
    rcases Symbol.isMacro_cases isMacro with ⟨m, known⟩ | known | known | known | known
    all_goals rw [round, known]
    · have attempts : Attempts settings t _ := .invocation known
      rcases ran : invoke settings m t s.numbering with ⟨outcome, numbering⟩
      simp only [Bind.bind, StateT.bind, supply_of_run ran]
      cases outcome with
      | unchanged => exact .unchanged attempts ran
      | delete => exact .deleted attempts ran
      | replace remains new => exact .replaced attempts ran
      | fail reason => cases reason <;> exact .failed attempts ran (.inl ⟨_, rfl⟩) _
      | crash reason => exact .failed attempts ran (.inr ⟨_, rfl⟩) _
    · exact .definition
    · exact .misplaced _
    · exact .misplaced _
    · have attempts : Attempts settings t _ := .member known
      rcases ran : memberOfThis t s.numbering with ⟨outcome, numbering⟩
      change Rounded settings t s (builtinRound .atSign t s).1 (builtinRound .atSign t s).2
      simp only [builtinRound, Bind.bind, StateT.bind, supply_of_run ran]
      have made := ran
      rw [memberOfThis] at made
      cases parts : t.children <;> rw [parts] at made <;> cases made
      · exact .unchanged attempts ran
      · exact .replaced attempts ran

/-- What a round made of a node, if its result is known. -/
theorem rounded_of_round {t : Tree} {s s₁ : Expanding} {outcome : Round}
    (result : round settings t s = (outcome, s₁)) : Rounded settings t s outcome s₁ := by
  have rounded : Rounded settings t s _ _ := rounded_round t s
  rwa [result] at rounded

/-- What is left of a node, and what it is replaced by. -/
inductive Replaced (settings : ExpansionSettings) (t : Tree) : Tree → Tree → Prop
  | filled {template arguments new n n'} (known : template ∈ settings.templates)
      (taken : template.arguments t = .ok arguments)
      (fills : Template.fill template.holes arguments t.info.expansionSite template.body n =
        (new, n')) :
      Replaced settings t t new
  | called {m callee} (invokes : t.symbol = .expander m) (calls : m.body = .call callee)
      (id function : NodeId) :
      Replaced settings t
        (t.withChildren ((t.children.filter (·.is .tuple)).map (·.withChildren [])))
        (.node id (.new (.builtin .call) none t.loc)
          (.node function (.new (.tag .external) (some (.name callee)) t.loc) [] ::
            t.children.flatMap fun operand =>
              if operand.is .tuple then operand.children else [operand]))
  | member {property rest} (isAt : t.symbol = .builtin .atSign)
      (parts : t.children = property :: rest) (id this : NodeId) :
      Replaced settings t (t.withChildren rest)
        (.node id (.new (.builtin .member) none t.loc)
          [.node this (.new (.tag .external) (some (.name "this")) t.loc) [], property])
  | host {routine remains new n n'} (known : routine ∈ settings.env.routines)
      (ran : routine.expand t n = (.replace remains new, n')) : Replaced settings t remains new

theorem forall_spread {P : Tree → Prop} {operands : List Tree} (each : ∀ t ∈ operands, P t)
    (below : ∀ t, P t → ∀ c ∈ t.children, P c) :
    ∀ c ∈ operands.flatMap fun operand => if operand.is .tuple then operand.children else [operand],
      P c := by
  intro c member
  obtain ⟨operand, known, inside⟩ := List.mem_flatMap.mp member
  split at inside
  · exact below operand (each operand known) c inside
  · exact List.mem_singleton.mp inside ▸ each operand known

theorem replaced_of_round {t remains new : Tree} {s s₁ : Expanding}
    (result : round settings t s = (.become remains new, s₁)) :
    Replaced settings t remains new := by
  cases rounded_of_round result with
  | replaced attempts ran =>
    cases attempts with
    | @invocation m invokes =>
      rw [invoke] at ran
      cases body : m.body with
      | template index =>
        rw [body] at ran
        rcases known : settings.templates[index]? with _ | template <;> simp only [known] at ran
        · cases ran
        · rw [Template.expand] at ran
          cases taken : template.arguments t <;> rw [taken] at ran <;> cases ran
          exact .filled (Array.mem_of_getElem? known) taken rfl
      | call callee =>
        rw [body] at ran
        cases ran
        exact .called invokes body _ _
      | host index =>
        rw [body] at ran
        rcases known : settings.env.routines[index]? with _ | routine <;> simp only [known] at ran
        · cases ran
        · exact .host (Array.mem_of_getElem? known) ran
    | member isAt =>
      rw [memberOfThis] at ran
      cases parts : t.children <;> rw [parts] at ran <;> cases ran
      exact .member isAt parts _ _

/-- Only macros are rewritten. -/
theorem isMacro_of_round {t : Tree} {s s₁ : Expanding} {outcome : Round}
    (result : round settings t s = (outcome, s₁)) (goes : outcome ≠ .stay) :
    t.symbol.isMacro = true := by
  cases isMacro : t.symbol.isMacro with
  | true => rfl
  | false =>
    rw [round_of_plain isMacro] at result
    cases result
    exact absurd rfl goes

theorem rounds_of_plain {node : Tree} (plain : node.symbol.isMacro = false) :
    rounds settings below count node = pure (some node) := by
  unfold rounds
  rw [round_of_plain plain]
  rfl

/-- Below a node that stays, expansion goes on. -/
theorem tree_of_plain {id : NodeId} {info : Info} {children : List Tree}
    (plain : info.symbol.isMacro = false) :
    tree (rounds settings below count) (.node id info children) =
      (do return some (.node id info (← trees (rounds settings below count) children))) := by
  rw [tree, if_neg (by simp [Symbol.not_quoting_of_plain plain])]
  refine congrArg _ (funext fun children => ?_)
  exact rounds_of_plain plain

/-- A tree whose root is no macro keeps the contents of its root. -/
theorem nested_of_plain (depth : Nat) {t : Tree} (plain : t.symbol.isMacro = false) :
    Yields (nested settings depth [t])
      (fun results => ∃ children, results = [t.withChildren children]) := by
  obtain ⟨id, info, children⟩ := t
  have stays (below : List Tree → Expand (List Tree)) (count : Nat) :
      Yields (trees (rounds settings below count) [.node id info children])
        (fun results => ∃ parts, results = [.node id info parts]) := by
    have plainRoot : info.symbol.isMacro = false := plain
    rw [trees, tree_of_plain plainRoot, trees]
    rw [bind_assoc]
    exact .after fun parts => .pure ⟨parts, rfl⟩
  cases depth with
  | zero | succ depth => exact stays _ _

theorem symbol_root {t : Tree} (plain : t.symbol.isMacro = false) :
    Yields (root settings t) (fun r => r.symbol = t.symbol) := by
  refine .bind (nested_of_plain _ plain) fun results known => ?_
  obtain ⟨children, rfl⟩ := known
  obtain ⟨id, info, parts⟩ := t
  exact .pure rfl

end Expand

end Offside
