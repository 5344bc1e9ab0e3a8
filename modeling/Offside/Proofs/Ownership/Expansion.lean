import Offside.Proofs.Macro.Runs
import Offside.Proofs.Ownership.Combination

/-!
# Numbers of an expanded unit

An expansion copies its template and the arguments, so nothing is shared with the templates or
between two copies. The node that is expanded keeps its number and takes the place of the new
root.
-/

namespace Offside

open Offside.Tree

namespace Template

mutual

/-- A filled template shares no number with the template or the arguments. -/
theorem keeps_fill (holes : Table Nat) (arguments : List Tree) (origin : Loc) (t : Tree) :
    Keeps Supply.ledger 0 (fill holes arguments origin t) numbers := by
  cases t with
  | node id info children =>
    rw [fill]
    split
    · exact keeps_copy _
    · refine .bind 0 Supply.keeps_fresh (by simp) fun id => ?_
      refine .bind {id} (keeps_fillAll holes arguments origin children) (by simp)
        fun copies => ?_
      exact .pure (by simp [add_comm])

theorem keeps_fillAll (holes : Table Nat) (arguments : List Tree) (origin : Loc)
    (ts : List Tree) :
    Keeps Supply.ledger 0 (fillAll holes arguments origin ts) numbersOfAll := by
  cases ts with
  | nil => exact .pure (by simp)
  | cons t ts =>
    rw [fillAll]
    refine .bind 0 (keeps_fill holes arguments origin t) (by simp) fun first => ?_
    refine .bind first.numbers (keeps_fillAll holes arguments origin ts) (by simp)
      fun others => ?_
    exact .pure (by simp [add_comm])

end

end Template

namespace Outcome

def numbers (invocation : Multiset NodeId) : Outcome → Multiset NodeId
  | .replace remains result => remains.numbers + result.numbers
  | .delete => 0
  | .unchanged | .fail _ | .crash _ => invocation

def KeepsRoot (id : NodeId) : Outcome → Prop
  | .replace remains _ => remains.id = id
  | _ => True

end Outcome

/-- A routine of the host that holds no number twice and leaves an invocation in its place. -/
structure HostRoutine.Owns (routine : HostRoutine) : Prop where
  numbers : ∀ invocation : Tree, Offside.Keeps Supply.ledger invocation.numbers
    (routine.expand invocation) (Outcome.numbers invocation.numbers)
  root : ∀ invocation : Tree, Yields (routine.expand invocation) (Outcome.KeepsRoot invocation.id)

/-- All routines of an environment hold no number twice. -/
def Environment.Owning (env : Environment) : Prop :=
  ∀ routine ∈ env.routines, routine.Owns

@[simp] theorem Tree.id_withChildren (t : Tree) (children : List Tree) :
    (t.withChildren children).id = t.id := by
  obtain ⟨id, info, old⟩ := t
  rfl

/-- The arguments of a call and what remains of the tuples share out the operands. -/
theorem Expand.numbers_spread (operands : List Tree) :
    numbersOfAll (operands.flatMap fun operand =>
        if operand.is .tuple then operand.children else [operand]) +
      numbersOfAll ((operands.filter (·.is .tuple)).map (·.withChildren [])) =
        numbersOfAll operands := by
  induction operands with
  | nil => rfl
  | cons operand rest ih =>
    rw [numbersOfAll_cons, ← ih, numbers_eq operand]
    by_cases tuple : operand.is .tuple = true
    · simp only [List.flatMap_cons, tuple, ↓reduceIte, List.filter_cons_of_pos, List.map_cons,
        numbersOfAll_append, numbersOfAll_cons, numbers_withChildren,
        numbersOfAll_nil]
      abel
    · simp only [List.flatMap_cons, tuple, List.filter_cons_of_neg, Bool.false_eq_true,
        not_false_eq_true, ↓reduceIte, numbersOfAll_append, numbersOfAll_cons,
        numbersOfAll_nil, numbers_eq operand]
      abel

namespace Expand

theorem keeps_callOutside (callee : String) (invocation : Tree) :
    Keeps Supply.ledger invocation.numbers (callOutside callee invocation)
      (Outcome.numbers invocation.numbers) := by
  have shared := numbers_spread invocation.children
  rw [callOutside]
  refine .bind invocation.numbers (keeps_new _ _ _ _) (by simp) fun function => ?_
  refine .bind ({invocation.id} + numbersOfAll
      ((invocation.children.filter (·.is .tuple)).map (·.withChildren [])))
    (keeps_new _ _ _ _) (le_of_eq ?_) fun call => ?_
  · rw [numbersOfAll_cons, numbers_eq invocation, ← shared]
    abel
  · exact .pure (by simp [Outcome.numbers, add_comm])

theorem keeps_memberOfThis (node : Tree) :
    Keeps Supply.ledger node.numbers (memberOfThis node) (Outcome.numbers node.numbers) := by
  rw [memberOfThis]
  split
  · exact .pure (le_refl _)
  · rename_i property rest parts
    refine .bind node.numbers (keeps_new _ _ _ _) (by simp) fun this => ?_
    refine .bind ({node.id} + numbersOfAll rest) (keeps_new _ _ _ _) (le_of_eq ?_)
      fun member => ?_
    · rw [numbers_eq node, parts]
      simp only [numbersOfAll_cons, numbersOfAll_nil]
      abel
    · exact .pure (by simp [Outcome.numbers, add_comm])

theorem keeps_expandTemplate (template : Template) (invocation : Tree) :
    Keeps Supply.ledger invocation.numbers (template.expand invocation)
      (Outcome.numbers invocation.numbers) := by
  rw [Template.expand]
  split
  · exact .pure (le_refl _)
  · refine .bind invocation.numbers (Template.keeps_fill _ _ _ _) (by simp)
      fun result => ?_
    exact .pure (by simp [Outcome.numbers, add_comm])

variable {settings : ExpansionSettings}

theorem keeps_invoke (owning : settings.env.Owning) (m : Macro)
    (invocation : Tree) :
    Keeps Supply.ledger invocation.numbers (invoke settings m invocation)
      (Outcome.numbers invocation.numbers) := by
  rw [invoke]
  split
  · split
    · exact keeps_expandTemplate _ invocation
    · exact .pure (le_refl _)
  · exact keeps_callOutside _ invocation
  · split
    case h_1 routine known =>
      exact (owning routine (Array.mem_of_getElem? known)).numbers invocation
    case h_2 => exact .pure (le_refl _)

/-! ## Rounds -/

def Round.numbers (node : Multiset NodeId) : Round → Multiset NodeId
  | .stay => node
  | .vanish => 0
  | .become remains result => remains.numbers + result.numbers

section

variable {t : Tree} {s s₁ : Expanding}

theorem Attempts.keeps {x : Supply Outcome} (owning : settings.env.Owning)
    (attempts : Attempts settings t x) :
    Keeps Supply.ledger t.numbers x (Outcome.numbers t.numbers) := by
  cases attempts with
  | invocation => exact keeps_invoke owning _ t
  | member => exact keeps_memberOfThis t

theorem owns_of_round (owning : settings.env.Owning) {outcome : Round} {rest : Multiset NodeId}
    (result : round settings t s = (outcome, s₁)) (owns : s.numbering.Owns (t.numbers + rest)) :
    s₁.numbering.Owns (outcome.numbers t.numbers + rest) := by
  cases rounded_of_round result with
  | plain | misplaced => exact owns
  | definition => exact owns.mono (by gcongr; exact Multiset.zero_le _)
  | unchanged attempts ran | deleted attempts ran | replaced attempts ran =>
    exact (attempts.keeps owning).of_run ran owns
  | failed attempts ran fails =>
    have after := (attempts.keeps owning).of_run ran owns
    rcases fails with ⟨reason, rfl⟩ | ⟨reason, rfl⟩ <;> exact after

/-- What is left of a node stands in its place. -/
theorem id_of_become (owning : settings.env.Owning) {remains new : Tree}
    (result : round settings t s = (.become remains new, s₁)) : remains.id = t.id := by
  cases replaced_of_round result with
  | filled => rfl
  | called | member => exact id_withChildren t _
  | host known ran => exact ((owning _ known).root t).of_run ran

end

end Expand

namespace Renaming

mutual

/-- Renaming moves no node. -/
@[simp] theorem numbers_tree (t : Tree) (r : Renaming) : (tree t r).1.numbers = t.numbers := by
  cases t with
  | node id info children =>
    rw [tree, numbers_node, numbers_node, numbersOfAll_trees children]

@[simp] theorem numbersOfAll_trees (ts : List Tree) (r : Renaming) :
    numbersOfAll (trees ts r).1 = numbersOfAll ts := by
  cases ts with
  | nil => rfl
  | cons t ts =>
    rw [trees, numbersOfAll_cons, numbersOfAll_cons, numbers_tree t,
      numbersOfAll_trees ts]

end

end Renaming

namespace Expand

variable {settings : ExpansionSettings}

section

variable {s s₁ : Expanding}

/--
What is put into the place of an invocation has the numbers of the new tree, but for its root.
-/
theorem owns_of_placed (owning : settings.env.Owning) {t remains new placed : Tree}
    {s₂ : Expanding} {rest : Multiset NodeId}
    (result : round settings t s = (.become remains new, s₁))
    (settles : settle t.id new s₁ = (placed, s₂)) (owns : s.numbering.Owns (t.numbers + rest)) :
    s₂.numbering.Owns (placed.numbers + rest) := by
  cases settles
  refine (owns_of_round owning result owns).mono ?_
  have root := remains.singleton_id_le
  rw [id_of_become owning result] at root
  have parts := new.numbersOfAll_children_le
  change (Renaming.tree (.node t.id new.info new.children) _).1.numbers + rest ≤ _
  rw [Renaming.numbers_tree, numbers_node, Round.numbers]
  gcongr

/-- A run shares out the numbers of its trees among the trees that come of it. -/
theorem Runs.owns (owning : settings.env.Owning) {depth : Nat} {task : Task} {after : Expanding}
    {steps : List Step} {results : List Tree}
    (run : Runs settings depth task s steps results after) (rest : Multiset NodeId)
    (owns : s.numbering.Owns (numbersOfAll task.subjects + rest)) :
    after.numbering.Owns (numbersOfAll results + rest) := by
  induction run generalizing rest with
  | nil => exact owns
  | @quoted _ _ _ _ ts first _ _ _ _ _ _ _ _ _ here behind =>
    have one := here (numbersOfAll ts + rest) (owns.mono (le_of_eq ?_))
    · have two := behind (numbersOfAll first + rest) (one.mono (le_of_eq ?_))
      · refine two.mono (le_of_eq ?_)
        rw [numbersOfAll_append]
        abel
      · rw [Task.subjects]
        abel
    · simp only [Task.subjects, numbersOfAll_cons, numbersOfAll_nil]
      abel
  | @entered _ id _ _ ts _ first _ _ _ _ _ _ _ _ _ _ _ _ inner here behind =>
    have parts := inner ({id} + numbersOfAll ts + rest) (owns.mono (le_of_eq ?_))
    · have one := here (numbersOfAll ts + rest) (parts.mono (le_of_eq ?_))
      · have two := behind (numbersOfAll first + rest) (one.mono (le_of_eq ?_))
        · refine two.mono (le_of_eq ?_)
          rw [numbersOfAll_append]
          abel
        · rw [Task.subjects]
          abel
      · simp only [Task.subjects, numbersOfAll_cons, numbersOfAll_nil, numbers_node]
        abel
    · simp only [Task.subjects, numbersOfAll_cons, numbers_node]
      abel
  | stay result | vanish result =>
    simp only [Task.subjects, numbersOfAll_cons, numbersOfAll_nil, add_zero] at owns ⊢
    exact owns_of_round owning result owns
  | @stop _ _ t _ _ s s₁ result =>
    simp only [Task.subjects, numbersOfAll_cons, numbersOfAll_nil, add_zero] at owns ⊢
    have same : (reportLimit t s₁).2.numbering = s₁.numbering := by
      change (if s₁.limited then s₁ else _).numbering = _
      split <;> rfl
    rw [same]
    refine (owns_of_round owning result owns).mono ?_
    gcongr
    exact Multiset.le_add_right _ _
  | again result _ _ settles _ _ onward =>
    simp only [Task.subjects, numbersOfAll_cons, numbersOfAll_nil, add_zero] at owns onward
    exact onward rest (owns_of_placed owning result settles owns)
  | @deeper _ _ _ _ _ placed _ _ _ _ _ _ _ _ _ result _ _ settles _ _ _ inner onward =>
    simp only [Task.subjects, numbersOfAll_cons, numbersOfAll_nil, add_zero] at owns inner onward
    have before := owns_of_placed owning result settles owns
    have parts := inner ({placed.id} + rest) (before.mono (le_of_eq ?_))
    · refine onward rest (parts.mono (le_of_eq ?_))
      rw [numbers_withChildren]
      abel
    · rw [numbers_eq]
      abel

end

end Expand

end Offside
