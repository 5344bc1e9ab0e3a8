import Offside.Proofs.Contents.Compilation
import Offside.Proofs.Lowering.Names
import Offside.Proofs.Macro.Runs
import Offside.Proofs.Tree.Preorder

/-!
# Virtual names after expansion

A renaming goes through a tree in preorder. The first declaration of a virtual name makes its new
name, which all later tags of that name get; a use before that is reported and stays. The numbers
in new names are given out only once, so that no two renamings make the same name, and the dollar
sign keeps new names apart from all names of sources.
-/

namespace Offside

open List

/-- A node is a virtual tag with a name. -/
structure Info.IsVirtual (info : Info) (kind : TagKind) (name : String) : Prop where
  symbol : info.symbol = .tag kind
  virtual : kind.isVirtual = true
  name : info.name? = some name

def Info.DeclaresVirtual (info : Info) (name : String) : Prop :=
  ∃ kind, info.IsVirtual kind name ∧ kind.isDeclaration = true

/-- The contents of a virtual tag that has got its new name. -/
def Info.renamedTo (info : Info) (kind : TagKind) (new : String) : Info :=
  { info with symbol := .tag kind.toConcrete, value := some (.name new) }

theorem Info.IsVirtual.unique {info : Info} {kind other : TagKind} {name base : String}
    (first : info.IsVirtual kind name) (second : info.IsVirtual other base) :
    kind = other ∧ name = base := by
  have kinds := first.symbol.symm.trans second.symbol
  have names := first.name.symm.trans second.name
  exact ⟨Symbol.tag.inj kinds, Option.some.inj names⟩

/-! ## The spelling of new names -/

theorem toList_numbered (base : String) (n : Nat) :
    (s!"{base}${n}").toList = base.toList ++ '$' :: (toString n).toList := by
  have parts : s!"{base}${n}" = base ++ "$" ++ toString n := rfl
  rw [parts, String.toList_append, String.toList_append, append_assoc]
  rfl

theorem dollar_notMem_digits (n : Nat) : '$' ∉ (toString n).toList := by
  intro member
  rw [Nat.toString_eq_repr, Nat.toList_repr] at member
  have digit := Nat.isDigit_of_mem_toDigits (by decide) (by decide) member
  revert digit
  decide

/-- A new name tells the virtual name and the number that it is made of. -/
theorem numbered_inj {base other : String} {n m : Nat}
    (same : s!"{base}${n}" = s!"{other}${m}") : base = other ∧ n = m := by
  have lists := congrArg String.toList same
  rw [toList_numbered, toList_numbered] at lists
  -- No digit is a dollar sign, so the digits end, from behind, at the last dollar sign.
  have behind (text : String) (k : Nat) :
      (text.toList ++ '$' :: (toString k).toList).reverse.takeWhile (· ≠ '$') =
        (toString k).toList.reverse := by
    rw [reverse_append, reverse_cons, append_assoc, takeWhile_append_of_pos]
    · simp
    · intro c member
      exact decide_eq_true fun isDollar =>
        dollar_notMem_digits k (isDollar ▸ mem_reverse.mp member)
  have digits : (toString n).toList = (toString m).toList := by
    have reversed := congrArg (fun text => text.reverse.takeWhile (· ≠ '$')) lists
    rw [behind, behind] at reversed
    exact reverse_injective reversed
  rw [digits, append_cancel_right_eq] at lists
  cases String.toList_injective lists
  exact ⟨rfl, Lowering.number_inj same⟩

/-! ## One node -/

namespace Renaming

/-- What a renaming does at a node. -/
inductive Turn (r : Renaming) (info : Info) : Info → Renaming → Prop
  | plain (plain : ∀ kind name, ¬info.IsVirtual kind name) : Turn r info info r
  /-- The name has been declared before. -/
  | known {kind name new} (virtual : info.IsVirtual kind name)
      (known : r.renamed.get? name = some new) : Turn r info (info.renamedTo kind new) r
  /-- The first declaration makes the new name. -/
  | first {kind name} (virtual : info.IsVirtual kind name)
      (declares : kind.isDeclaration = true) (unknown : r.renamed.get? name = none) :
      Turn r info (info.renamedTo kind (r.names.fresh name).1)
        { r with renamed := r.renamed.insert name (r.names.fresh name).1
                 names := (r.names.fresh name).2 }
  | fault {kind name} (virtual : info.IsVirtual kind name)
      (uses : kind.isDeclaration = false) (unknown : r.renamed.get? name = none) :
      Turn r info info
        { r with faults :=
          r.faults.push (.undeclaredVirtual info.loc info.origin name .inTemplate) }

theorem turn_node (r : Renaming) (info : Info) : Turn r info (r.node info).1 (r.node info).2 := by
  unfold node
  split
  · rename_i kind name tagged named
    obtain ⟨isTag, isVirtual⟩ := Option.filter_eq_some_iff.mp tagged
    have virtual : info.IsVirtual kind name := ⟨Symbol.eq_tag_of_tag? isTag, isVirtual, named⟩
    unfold newName?
    cases unknown : r.renamed.get? name with
    | some new => exact .known virtual unknown
    | none =>
      cases declares : kind.isDeclaration with
      | true => exact .first virtual declares unknown
      | false => exact .fault virtual declares unknown
  · rename_i apart
    refine .plain fun kind name virtual => apart kind name ?_ virtual.name
    rw [virtual.symbol]
    exact Option.filter_eq_some_iff.mpr ⟨rfl, virtual.virtual⟩

/-! ## A list of nodes -/

def each : List (NodeId × Info) → Renaming → List (NodeId × Info) × Renaming
  | [], r => ([], r)
  | (id, info) :: rest, r =>
    ((id, (r.node info).1) :: (each rest (r.node info).2).1, (each rest (r.node info).2).2)

theorem each_append (front back : List (NodeId × Info)) (r : Renaming) :
    each (front ++ back) r =
      ((each front r).1 ++ (each back (each front r).2).1, (each back (each front r).2).2) := by
  induction front generalizing r with
  | nil => rfl
  | cons entry front ih =>
    obtain ⟨id, info⟩ := entry
    simp only [cons_append, each, ih]

mutual

/-- Renaming a tree is renaming its nodes in preorder. -/
theorem each_nodes (t : Tree) (r : Renaming) :
    each t.nodes r = ((tree t r).1.nodes, (tree t r).2) := by
  cases t with
  | node id info children =>
    rw [Tree.nodes_node, each, each_nodesAll children, tree]
    simp

theorem each_nodesAll (ts : List Tree) (r : Renaming) :
    each (Tree.nodesAll ts) r = (Tree.nodesAll (trees ts r).1, (trees ts r).2) := by
  cases ts with
  | nil =>
    rw [Tree.nodesAll_nil, each, trees]
    simp
  | cons t ts =>
    rw [Tree.nodesAll_cons, each_append, each_nodes t, each_nodesAll ts, trees]
    simp

end

/-- What becomes of a node depends on the nodes in front of it. -/
theorem getElem?_each (nodes : List (NodeId × Info)) (r : Renaming) (i : Nat) :
    (each nodes r).1[i]? =
      nodes[i]?.map fun entry => (entry.1, ((each (nodes.take i) r).2.node entry.2).1) := by
  induction nodes generalizing r i with
  | nil => rfl
  | cons entry rest ih =>
    obtain ⟨id, info⟩ := entry
    cases i with
    | zero => rfl
    | succ i => exact ih (r.node info).2 i

/-! ## What a renaming keeps -/

/-- The new names carry numbers that were given out since `start`. -/
def Numbered (start : NameSupply) (r : Renaming) : Prop :=
  start.issued ≤ r.names.issued ∧ ∀ base new, r.renamed.get? base = some new →
    ∃ n, start.issued < n ∧ n ≤ r.names.issued ∧ new = s!"{base}${n}"

/-- One renaming goes on where another one was. -/
structure Continues (r after : Renaming) : Prop where
  renamed : ∀ base new, r.renamed.get? base = some new → after.renamed.get? base = some new
  faults : ∀ d ∈ r.faults, d ∈ after.faults

theorem Continues.refl (r : Renaming) : Continues r r :=
  ⟨fun _ _ known => known, fun _ member => member⟩

theorem Continues.trans {r middle after : Renaming} (first : Continues r middle)
    (second : Continues middle after) : Continues r after :=
  ⟨fun base new known => second.renamed base new (first.renamed base new known),
    fun d member => second.faults d (first.faults d member)⟩

variable {start : NameSupply} {r after : Renaming} {info result : Info}

section

variable (turn : Turn r info result after)
include turn

theorem Turn.numbered (numbered : Numbered start r) : Numbered start after := by
  obtain ⟨later, all⟩ := numbered
  cases turn with
  | plain | known | fault => exact ⟨later, all⟩
  | @first kind name virtual declares unknown =>
    refine ⟨Nat.le_succ_of_le later, fun base new known => ?_⟩
    rw [Table.get?_insert] at known
    split at known
    case isTrue same =>
      cases same
      cases known
      exact ⟨r.names.issued + 1, Nat.lt_succ_of_le later, Nat.le_refl _, rfl⟩
    case isFalse =>
      obtain ⟨n, above, below, spelled⟩ := all base new known
      exact ⟨n, above, Nat.le_succ_of_le below, spelled⟩

theorem Turn.continues : Continues r after := by
  cases turn with
  | plain | known => exact .refl r
  | fault => exact ⟨fun _ _ known => known, fun d member => Array.mem_push_of_mem _ member⟩
  | @first kind name virtual declares unknown =>
    refine ⟨fun base new known => ?_, fun _ member => member⟩
    have apart : name ≠ base := by
      rintro rfl
      rw [unknown] at known
      cases known
    rw [Table.get?_insert, if_neg apart]
    exact known

/-- A name is known after a node if it was known before or the node declares it. -/
theorem Turn.isSome_get? (base : String) :
    (after.renamed.get? base).isSome = true ↔
      (r.renamed.get? base).isSome = true ∨ info.DeclaresVirtual base := by
  cases turn with
  | plain plain =>
    refine ⟨.inl, fun either => either.resolve_right ?_⟩
    rintro ⟨kind, virtual, -⟩
    exact plain kind base virtual
  | known virtual known =>
    refine ⟨.inl, fun either => either.elim id ?_⟩
    rintro ⟨other, again, -⟩
    rw [← (virtual.unique again).2, known]
    rfl
  | fault virtual uses unknown =>
    refine ⟨.inl, fun either => either.resolve_right ?_⟩
    rintro ⟨other, again, declares⟩
    rw [← (virtual.unique again).1, uses] at declares
    cases declares
  | @first kind name virtual declares unknown =>
    rw [Table.get?_insert]
    by_cases same : name = base
    · rw [if_pos same]
      exact ⟨fun _ => .inr ⟨kind, same ▸ virtual, declares⟩, fun _ => rfl⟩
    · rw [if_neg same]
      refine ⟨.inl, fun either => either.resolve_right ?_⟩
      rintro ⟨other, again, -⟩
      exact same (virtual.unique again).2

/-- What becomes of a virtual name, by whether it is known after the node. -/
theorem Turn.of_virtual {kind : TagKind} {name : String} (virtual : info.IsVirtual kind name) :
    (∃ new, after.renamed.get? name = some new ∧ result = info.renamedTo kind new) ∨
      after.renamed.get? name = none ∧ result = info ∧
        .undeclaredVirtual info.loc info.origin name .inTemplate ∈ after.faults := by
  cases turn with
  | plain plain => exact absurd virtual (plain kind name)
  | known again known =>
    obtain ⟨rfl, rfl⟩ := again.unique virtual
    exact .inl ⟨_, known, rfl⟩
  | first again =>
    obtain ⟨rfl, rfl⟩ := again.unique virtual
    refine .inl ⟨_, ?_, rfl⟩
    rw [Table.get?_insert, if_pos rfl]
  | fault again uses unknown =>
    obtain ⟨rfl, rfl⟩ := again.unique virtual
    exact .inr ⟨unknown, rfl, Array.mem_push_self⟩

theorem Turn.of_plain (plain : ∀ kind name, ¬info.IsVirtual kind name) : result = info := by
  cases turn with
  | plain => rfl
  | known virtual | first virtual => exact absurd virtual (plain _ _)
  | fault => rfl

end

theorem numbered_each (nodes : List (NodeId × Info)) (numbered : Numbered start r) :
    Numbered start (each nodes r).2 := by
  induction nodes generalizing r with
  | nil => exact numbered
  | cons entry rest ih => exact ih ((turn_node r entry.2).numbered numbered)

theorem continues_each (nodes : List (NodeId × Info)) (r : Renaming) :
    Continues r (each nodes r).2 := by
  induction nodes generalizing r with
  | nil => exact .refl r
  | cons entry rest ih => exact (turn_node r entry.2).continues.trans (ih _)

/-- The names that are known after some nodes are those that the nodes declare. -/
theorem isSome_get?_each (nodes : List (NodeId × Info)) (r : Renaming) (base : String) :
    ((each nodes r).2.renamed.get? base).isSome = true ↔
      (r.renamed.get? base).isSome = true ∨ ∃ entry ∈ nodes, entry.2.DeclaresVirtual base := by
  induction nodes generalizing r with
  | nil => simp [each]
  | cons entry rest ih =>
    refine (ih _).trans ?_
    rw [(turn_node r entry.2).isSome_get? base, or_assoc, exists_mem_cons_iff]

/-- The renaming at a node goes on until the end. -/
theorem continues_take (nodes : List (NodeId × Info)) (r : Renaming) (count : Nat) :
    Continues (each (nodes.take count) r).2 (each nodes r).2 := by
  conv =>
    rhs
    rw [← take_append_drop count nodes, each_append]
  exact continues_each _ _

end Renaming

/-! ## One renaming -/

namespace Expand

def Step.newName? (step : Step) (base : String) : Option String :=
  step.outcome.2.renamed.get? base

/-- A declaration of a virtual name stands at a place of the preorder or in front of it. -/
def Step.Declared (step : Step) (base : String) (i : Nat) : Prop :=
  ∃ j ≤ i, ∃ entry, step.tree.nodes[j]? = some entry ∧ entry.2.DeclaresVirtual base

namespace Step

variable {step : Step} {i : Nat} {id : NodeId} {info : Info}

theorem each_nodes (step : Step) :
    Renaming.each step.tree.nodes ⟨.empty, step.names, #[]⟩ =
      (step.outcome.1.nodes, step.outcome.2) :=
  Renaming.each_nodes _ _

theorem numbered (step : Step) : Renaming.Numbered step.names step.outcome.2 := by
  have start : Renaming.Numbered step.names ⟨.empty, step.names, #[]⟩ :=
    ⟨Nat.le_refl _, fun base new known => by cases known⟩
  have whole := Renaming.numbered_each step.tree.nodes start
  rwa [step.each_nodes] at whole

def reached (step : Step) (i : Nat) : Renaming :=
  (Renaming.each (step.tree.nodes.take i) ⟨.empty, step.names, #[]⟩).2

theorem getElem?_outcome (here : step.tree.nodes[i]? = some (id, info)) :
    step.outcome.1.nodes[i]? = some (id, ((step.reached i).node info).1) := by
  have whole := Renaming.getElem?_each step.tree.nodes ⟨.empty, step.names, #[]⟩ i
  rw [step.each_nodes, here] at whole
  exact whole

theorem reached_succ (here : step.tree.nodes[i]? = some (id, info)) :
    step.reached (i + 1) = ((step.reached i).node info).2 := by
  rw [reached, take_add_one, here, Option.toList_some, Renaming.each_append]
  rfl

theorem continues_reached (step : Step) (i : Nat) :
    Renaming.Continues (step.reached i) step.outcome.2 := by
  have whole := Renaming.continues_take step.tree.nodes ⟨.empty, step.names, #[]⟩ i
  rwa [step.each_nodes] at whole

/-- A virtual name is known behind a node if it is declared there or in front. -/
theorem isSome_reached (step : Step) (i : Nat) (base : String) :
    ((step.reached (i + 1)).renamed.get? base).isSome = true ↔ step.Declared base i := by
  rw [reached, Renaming.isSome_get?_each]
  constructor
  · rintro (absent | ⟨entry, member, declares⟩)
    · cases absent
    · obtain ⟨j, here⟩ := mem_iff_getElem?.mp member
      rw [List.getElem?_take] at here
      split at here
      case isTrue before => exact ⟨j, Nat.le_of_lt_succ before, entry, here, declares⟩
      case isFalse => cases here
  · rintro ⟨j, before, entry, here, declares⟩
    refine .inr ⟨entry, mem_iff_getElem?.mpr ⟨j, ?_⟩, declares⟩
    rw [List.getElem?_take, if_pos (Nat.lt_succ_of_le before)]
    exact here

section

variable (here : step.tree.nodes[i]? = some (id, info))
include here

/-- What is no virtual name stays. -/
theorem outcome_of_plain (plain : ∀ kind name, ¬info.IsVirtual kind name) :
    step.outcome.1.nodes[i]? = some (id, info) := by
  rw [getElem?_outcome here, (Renaming.turn_node (step.reached i) info).of_plain plain]

/-- The first declaration of a virtual name and all its tags after it get the same new name. -/
theorem outcome_of_declared {kind : TagKind} {base : String} (virtual : info.IsVirtual kind base)
    (declared : step.Declared base i) :
    ∃ new, step.newName? base = some new ∧
      step.outcome.1.nodes[i]? = some (id, info.renamedTo kind new) := by
  have known := (step.isSome_reached i base).mpr declared
  rw [reached_succ here] at known
  rcases (Renaming.turn_node (step.reached i) info).of_virtual virtual with
    ⟨new, found, same⟩ | ⟨unknown, -⟩
  · rw [getElem?_outcome here, same]
    rw [← reached_succ here] at found
    exact ⟨new, (step.continues_reached (i + 1)).renamed base new found, rfl⟩
  · rw [unknown] at known
    cases known

/-- A virtual name that no declaration stands in front of is reported and stays. -/
theorem outcome_of_undeclared {kind : TagKind} {base : String} (virtual : info.IsVirtual kind base)
    (undeclared : ¬step.Declared base i) :
    step.outcome.1.nodes[i]? = some (id, info) ∧
      .undeclaredVirtual info.loc info.origin base .inTemplate ∈ step.outcome.2.faults := by
  rcases (Renaming.turn_node (step.reached i) info).of_virtual virtual with
    ⟨new, found, -⟩ | ⟨-, same, reported⟩
  · rw [← reached_succ here] at found
    exact absurd ((step.isSome_reached i base).mp (Option.isSome_of_eq_some found)) undeclared
  · rw [getElem?_outcome here, same]
    rw [← reached_succ here] at reported
    exact ⟨rfl, (step.continues_reached (i + 1)).faults _ reported⟩

end

/-- A new name is made of one virtual name only. -/
theorem eq_of_newName? {base other new : String} (first : step.newName? base = some new)
    (second : step.newName? other = some new) : base = other := by
  obtain ⟨n, -, -, spelled⟩ := step.numbered.2 base new first
  obtain ⟨m, -, -, again⟩ := step.numbered.2 other new second
  exact (numbered_inj (spelled.symm.trans again)).1

/-- A new name is no name that scanning finds in a source. -/
theorem newName?_ne_name {base new : String} (made : step.newName? base = some new)
    {kind : TokenKind} (fits : kind.Fits) : kind ≠ .ident new ∧ kind ≠ .virtualIdent new := by
  obtain ⟨n, -, -, rfl⟩ := step.numbered.2 base new made
  have noWord : ¬Text.IsWord (s!"{base}${n}").toList := by
    intro word
    have part := word.2 '$' (by rw [toList_numbered]; simp)
    revert part
    decide
  constructor
  all_goals
    rintro rfl
    exact noWord fits

end Step

/-! ## All renamings of a run -/

variable {settings : ExpansionSettings}

/-- The numbers that renamings give out come one after the other, between two bounds. -/
def Spaced : Nat → List Step → Nat → Prop
  | low, [], high => low ≤ high
  | low, step :: rest, high =>
    low ≤ step.names.issued ∧ Spaced step.outcome.2.names.issued rest high

theorem Spaced.append {low middle high : Nat} {steps more : List Step}
    (first : Spaced low steps middle) (second : Spaced middle more high) :
    Spaced low (steps ++ more) high := by
  induction steps generalizing low with
  | nil =>
    cases more with
    | nil => exact Nat.le_trans first second
    | cons step rest => exact ⟨Nat.le_trans first second.1, second.2⟩
  | cons step rest ih => exact ⟨first.1, ih first.2⟩

theorem Spaced.lower {low high : Nat} {steps : List Step} (spaced : Spaced low steps high) :
    ∀ step ∈ steps, low ≤ step.names.issued := by
  induction steps generalizing low with
  | nil => exact nofun
  | cons first rest ih =>
    intro step member
    rcases mem_cons.mp member with rfl | later
    · exact spaced.1
    · exact Nat.le_trans (Nat.le_trans spaced.1 first.numbered.1) (ih spaced.2 step later)

/-- Different renamings make different names. -/
theorem Spaced.pairwise {low high : Nat} {steps : List Step} (spaced : Spaced low steps high) :
    steps.Pairwise fun earlier later => ∀ base other new,
      earlier.newName? base = some new → later.newName? other ≠ some new := by
  induction steps generalizing low with
  | nil => exact .nil
  | cons first rest ih =>
    refine .cons (fun later member base other new made again => ?_) (ih spaced.2)
    obtain ⟨n, -, below, spelled⟩ := first.numbered.2 base new made
    obtain ⟨m, above, -, respelled⟩ := later.numbered.2 other new again
    have same := (numbered_inj (spelled.symm.trans respelled)).2
    have order := spaced.2.lower later member
    omega

section

variable {depth : Nat} {task : Task} {s after : Expanding}
  {steps : List Step} {results : List Tree}

theorem Runs.spaced (run : Runs settings depth task s steps results after) :
    Spaced s.names.issued steps after.names.issued := by
  have placing {id : NodeId} {new placed : Tree} {s s₁ s₂ : Expanding}
      {more : List Step} {high : Nat} (besides : Besides s s₁)
      (settles : settle id new s₁ = (placed, s₂)) (onward : Spaced s₂.names.issued more high) :
      Spaced s.names.issued (⟨.node id new.info new.children, s₁.names⟩ :: more) high := by
    cases settles
    refine ⟨?_, onward⟩
    rw [besides.1]
  induction run with
  | nil => exact Nat.le_refl _
  | quoted _ _ _ here rest => exact here.append rest
  | entered _ _ _ _ inner here rest => exact (inner.append here).append rest
  | stay result | vanish result => exact Nat.le_of_eq (by rw [(besides_of_round result).1])
  | stop result _ =>
    exact Nat.le_of_eq (by rw [(besides_reportLimit _ _).1, (besides_of_round result).1])
  | again result _ _ settles _ _ onward => exact placing (besides_of_round result) settles onward
  | deeper result _ _ settles _ _ _ inner onward =>
    exact placing (besides_of_round result) settles (inner.append onward)

/-- The faults of all renamings are reported. -/
theorem Runs.reported (run : Runs settings depth task s steps results after) :
    ∀ step ∈ steps, ∀ d ∈ step.outcome.2.faults, d ∈ after.diagnostics := by
  have placing {id : NodeId} {new placed : Tree} {s₁ s₂ last : Expanding}
      {more : List Step} (settles : settle id new s₁ = (placed, s₂)) (follows : Follows s₂ last)
      (onward : ∀ step ∈ more, ∀ d ∈ step.outcome.2.faults, d ∈ last.diagnostics) :
      ∀ step ∈ (⟨.node id new.info new.children, s₁.names⟩ :: more : List Step),
        ∀ d ∈ step.outcome.2.faults, d ∈ last.diagnostics := by
    intro step member d fault
    rcases mem_cons.mp member with rfl | later
    · cases settles
      exact follows.mem (Array.mem_append_right _ fault)
    · exact onward step later d fault
  have joining {first second : List Step} {between last : Expanding}
    (follows : Follows between last)
      (early : ∀ step ∈ first, ∀ d ∈ step.outcome.2.faults, d ∈ between.diagnostics)
      (late : ∀ step ∈ second, ∀ d ∈ step.outcome.2.faults, d ∈ last.diagnostics) :
      ∀ step ∈ first ++ second, ∀ d ∈ step.outcome.2.faults, d ∈ last.diagnostics := by
    intro step member d fault
    rcases mem_append.mp member with before | behind
    · exact follows.mem (early step before d fault)
    · exact late step behind d fault
  induction run with
  | nil => exact nofun
  | quoted _ _ others here rest => exact joining others.follows here rest
  | entered _ _ here others inner ihHere rest =>
    exact joining others.follows (joining here.follows inner ihHere) rest
  | stay | vanish | stop => exact nofun
  | again _ _ _ settles _ next onward => exact placing settles next.follows onward
  | deeper _ _ _ settles _ children next inner onward =>
    exact placing settles (children.follows.trans next.follows)
      (joining next.follows inner onward)

end

/-- The renamings of an expansion, which ends with some reports, keep all virtual names apart. -/
structure Hygienic (steps : List Step) (reports : Diagnostics) : Prop where
  /-- Different renamings make different names. -/
  apart : steps.Pairwise fun earlier later => ∀ base other new,
    earlier.newName? base = some new → later.newName? other ≠ some new
  /-- One renaming makes different names of different virtual names. -/
  inj : ∀ step ∈ steps, ∀ base other new,
    step.newName? base = some new → step.newName? other = some new → base = other
  /-- The first declaration of a virtual name and all its tags behind it get the same name. -/
  declared : ∀ step ∈ steps, ∀ (i : Nat) id (info : Info) kind base,
    step.tree.nodes[i]? = some (id, info) → info.IsVirtual kind base → step.Declared base i →
    ∃ new, step.newName? base = some new ∧
      step.outcome.1.nodes[i]? = some (id, info.renamedTo kind new)
  /-- Every other tag of a virtual name is reported and stays. -/
  undeclared : ∀ step ∈ steps, ∀ (i : Nat) id (info : Info) kind base,
    step.tree.nodes[i]? = some (id, info) → info.IsVirtual kind base → ¬step.Declared base i →
    step.outcome.1.nodes[i]? = some (id, info) ∧
      ∃ report ∈ reports, report.code.id = "E0303" ∧
        report = .undeclaredVirtual info.loc info.origin base .inTemplate
  /-- All other nodes stay. -/
  plain : ∀ step ∈ steps, ∀ (i : Nat) id (info : Info), step.tree.nodes[i]? = some (id, info) →
    (∀ kind base, ¬info.IsVirtual kind base) → step.outcome.1.nodes[i]? = some (id, info)
  /-- No new name is a name of a source. -/
  fresh : ∀ step ∈ steps, ∀ base new, step.newName? base = some new →
    ∀ settings text, ∀ line ∈ (Scan.source settings text).1, ∀ token ∈ line.tokens,
      token.kind ≠ .ident new ∧ token.kind ≠ .virtualIdent new

theorem Runs.hygienic {depth : Nat} {task : Task} {s after : Expanding}
    {steps : List Step} {results : List Tree}
    (run : Runs settings depth task s steps results after) :
    Hygienic steps after.diagnostics where
  apart := run.spaced.pairwise
  inj _ _ _ _ _ first second := Step.eq_of_newName? first second
  declared _ _ _ _ _ _ _ here virtual declared := Step.outcome_of_declared here virtual declared
  undeclared step member _ _ _ _ _ here virtual undeclared := by
    obtain ⟨same, fault⟩ := Step.outcome_of_undeclared here virtual undeclared
    exact ⟨same, _, run.reported step member _ fault, rfl, rfl⟩
  plain _ _ _ _ _ here plain := Step.outcome_of_plain here plain
  fresh _ _ _ _ made settings text line member token inside :=
    Step.newName?_ne_name made (Scan.allFit_source settings text line member token inside)

end Expand

namespace SourceUnit

/--
Every source has an expansion, and the renamings of every expansion of it keep all virtual names
apart.
-/
theorem hygienic_expand (settings : Scan.Settings) (source : List Char) (env : Environment)
    (prelude trace : Bool) (text : Option (List Char)) :
    let unit := (read settings source).combine env prelude
    (∃ steps final, Expand.Runs (unit.expansionSettings env trace text) 0 (.trees [unit.tree])
      unit.expansionStart steps [(unit.expand env trace text).tree] final ∧
        (unit.expand env trace text).diagnostics = final.diagnostics) ∧
      ∀ steps results final, Expand.Runs (unit.expansionSettings env trace text) 0
        (.trees [unit.tree]) unit.expansionStart steps results final →
          Expand.Hygienic steps final.diagnostics := by
  have plain := isMacro_combine settings source env prelude
  exact ⟨runs_expand plain env trace text, fun steps results final run => run.hygienic⟩

/-- A source in which a macro with a virtual name is expanded twice. -/
def keepingTwice : SourceUnit :=
  (read ⟨0, none⟩
    "#macro keep x #quote\n  var `t = #unquote x\nvar t = 1\nkeep 2\nkeep 3".toList).combine
    .standard true

theorem hygienic_keepingTwice :
    (keepingTwice.expand .standard false none).tree.text =
        "(<root> (= (var t) 1) (= (var t$1) 2) (= (var t$2) 3))" ∧
      ∃ steps final, Expand.Runs (keepingTwice.expansionSettings .standard false none) 0
        (.trees [keepingTwice.tree]) keepingTwice.expansionStart steps
        [(keepingTwice.expand .standard false none).tree] final ∧
          Expand.Hygienic steps final.diagnostics := by
  have text : (keepingTwice.expand .standard false none).tree.text =
      "(<root> (= (var t) 1) (= (var t$1) 2) (= (var t$2) 3))" := by decide +kernel
  obtain ⟨⟨steps, final, run, -⟩, hygienic⟩ := hygienic_expand ⟨0, none⟩
    "#macro keep x #quote\n  var `t = #unquote x\nvar t = 1\nkeep 2\nkeep 3".toList .standard true
    false none
  exact ⟨text, steps, final, run, hygienic steps _ final run⟩

end SourceUnit

end Offside
