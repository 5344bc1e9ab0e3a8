import Offside.Proofs.Program.Parts
import Mathlib.Data.List.Basic

/-!
# Paths through a program

A path through statements is what a run can do if nothing is known of the values of expressions:
every test can turn out either way, but for the literal `true` of an endless loop, and every
statement can fail. Of a path it is known which names it assigns and how it ends.
-/

namespace Offside

/-- How a path ends. -/
inductive Exit where
  /-- Behind the last statement. -/
  | normal
  | leave (label : Option String)
  | next (label : Option String)
  | ret
  | fail
deriving DecidableEq

def Expr.assigned : Expr → List String
  | .assign target _ => target.name?.toList
  | .located _ e => e.assigned
  | _ => []

def Expr.isTrue : Expr → Bool
  | .literal (.bool true) => true
  | .located _ e => e.isTrue
  | _ => false

/-- Decides whether a path that ends so in the body of a loop goes on with the next round. -/
def Exit.repeats (own : List String) : Exit → Bool
  | .normal | .next none => true
  | .next (some label) => label ∈ own
  | _ => false

/-- Paths through a loop, given those through its body and the labels of the loop. -/
inductive Rounds (round : List String → Exit → Prop) (own : List String) (endless : Bool) :
    List String → Exit → Prop
  | done (test : endless = false) : Rounds round own endless [] .normal
  | failed : Rounds round own endless [] .fail
  | again {first rest exit last} (once : round first exit) (goesOn : exit.repeats own = true)
      (more : Rounds round own endless rest last) : Rounds round own endless (first ++ rest) last
  | left {trace} (once : round trace (.leave none)) : Rounds round own endless trace .normal
  | away {trace exit} (once : round trace exit) (stops : exit.repeats own = false)
      (outer : exit ≠ .leave none) : Rounds round own endless trace exit

mutual

/-- Paths through a statement, with the labels right in front of it. -/
def Stmt.Runs (own : List String) : Stmt → List String → Exit → Prop
  | .expr e, trace, exit => trace = e.assigned ∧ exit = .normal
  | .decl _, trace, exit => trace = [] ∧ exit = .normal
  | .block body, trace, exit => Stmt.RunsAll body trace exit
  | .ifThen _ consequent alternate, trace, exit =>
    consequent.Runs [] trace exit ∨ Stmt.RunsAlternate alternate trace exit
  | .whileLoop test body, trace, exit => Rounds (body.Runs []) own test.isTrue trace exit
  | .labeled label body, trace, exit =>
    body.Runs (label :: own) trace exit ∧ exit ≠ .leave (some label) ∨
      body.Runs (label :: own) trace (.leave (some label)) ∧ exit = .normal
  | .leave label, trace, exit => trace = [] ∧ exit = .leave label
  | .next label, trace, exit => trace = [] ∧ exit = .next label
  | .ret _, trace, exit => trace = [] ∧ exit = .ret
  | .throw _, trace, exit => trace = [] ∧ exit = .fail
  | .tryBlock block handler finalizer, trace, exit =>
    ∃ first last inner, trace = first ++ last ∧
      (Stmt.RunsAll block first inner ∧ (inner = .fail → handler.isNone) ∨
        ∃ before after, first = before ++ after ∧ Stmt.RunsAll block before .fail ∧
          Handler.RunsHandler handler after inner) ∧
      Stmt.RunsFinalizer finalizer inner last exit
  | .located _ s, trace, exit => s.Runs own trace exit

def Stmt.RunsAll : List Stmt → List String → Exit → Prop
  | [], trace, exit => trace = [] ∧ exit = .normal
  | s :: rest, trace, exit =>
    trace = [] ∧ exit = .fail ∨ s.Runs [] trace exit ∧ exit ≠ .normal ∨
      ∃ first last, trace = first ++ last ∧ s.Runs [] first .normal ∧ Stmt.RunsAll rest last exit

def Stmt.RunsAlternate : Option Stmt → List String → Exit → Prop
  | none, trace, exit => trace = [] ∧ exit = .normal
  | some s, trace, exit => s.Runs [] trace exit

def Handler.RunsHandler : Option Handler → List String → Exit → Prop
  | none, _, _ => False
  | some (.mk _ body), trace, exit => Stmt.RunsAll body trace exit

def Stmt.RunsFinalizer : Option (List Stmt) → Exit → List String → Exit → Prop
  | none, inner, trace, exit => trace = [] ∧ exit = inner
  | some body, inner, trace, exit =>
    Stmt.RunsAll body trace .normal ∧ exit = inner ∨ Stmt.RunsAll body trace exit ∧ exit ≠ .normal

end

def Stmt.CanEnd (body : List Stmt) : Prop :=
  ∃ trace, Stmt.RunsAll body trace .normal

namespace Stmt

variable {a b : List Stmt} {trace : List String} {exit : Exit}

theorem runsAll_append : RunsAll (a ++ b) trace exit ↔
    RunsAll a trace exit ∧ exit ≠ .normal ∨
      ∃ first last, trace = first ++ last ∧ RunsAll a first .normal ∧ RunsAll b last exit := by
  induction a generalizing trace with
  | nil =>
    constructor
    · exact fun later => .inr ⟨[], trace, rfl, ⟨rfl, rfl⟩, later⟩
    · rintro (⟨⟨_, ends⟩, differs⟩ | ⟨_, _, rfl, ⟨rfl, _⟩, later⟩)
      · exact absurd ends differs
      · exact later
  | cons s rest ih =>
    rw [List.cons_append, RunsAll, RunsAll]
    constructor
    · rintro (⟨rfl, rfl⟩ | away | ⟨first, last, rfl, here, there⟩)
      · exact .inl ⟨.inl ⟨rfl, rfl⟩, by rintro ⟨⟩⟩
      · exact .inl ⟨.inr (.inl away), away.2⟩
      · rcases ih.mp there with ⟨stops, differs⟩ | ⟨middle, last, rfl, passes, later⟩
        · exact .inl ⟨.inr (.inr ⟨first, last, rfl, here, stops⟩), differs⟩
        · refine .inr ⟨first ++ middle, last, (List.append_assoc ..).symm, ?_, later⟩
          exact .inr (.inr ⟨first, middle, rfl, here, passes⟩)
    · rintro (⟨failed | away | ⟨first, last, rfl, here, there⟩, differs⟩ |
        ⟨_, last, rfl, ⟨_, failed⟩ | ⟨_, differs⟩ | ⟨first, middle, rfl, here, there⟩, later⟩)
      · exact .inl failed
      · exact .inr (.inl away)
      · exact .inr (.inr ⟨first, last, rfl, here, ih.mpr (.inl ⟨there, differs⟩)⟩)
      · cases failed
      · exact absurd rfl differs
      · refine .inr (.inr ⟨first, middle ++ last, List.append_assoc .., here, ih.mpr (.inr ?_)⟩)
        exact ⟨middle, last, rfl, there, later⟩

theorem runs_withSpan {own : List String} {span : Span} {s : Stmt} :
    (s.withSpan span).Runs own trace exit ↔ s.Runs own trace exit := by
  cases s <;> rfl

@[simp] theorem runsAll_map_withSpan {span : Span} :
    RunsAll (a.map (withSpan span)) trace exit ↔ RunsAll a trace exit := by
  induction a generalizing trace with
  | nil => rfl
  | cons s rest ih => simp only [List.map_cons, RunsAll, runs_withSpan, ih]

theorem canEnd_append : CanEnd (a ++ b) ↔ CanEnd a ∧ CanEnd b := by
  constructor
  · rintro ⟨trace, runs⟩
    rcases runsAll_append.mp runs with ⟨_, differs⟩ | ⟨first, last, _, here, there⟩
    · exact absurd rfl differs
    · exact ⟨⟨first, here⟩, last, there⟩
  · rintro ⟨⟨first, here⟩, last, there⟩
    exact ⟨first ++ last, runsAll_append.mpr (.inr ⟨first, last, rfl, here, there⟩)⟩

@[simp] theorem canEnd_map_withSpan {span : Span} : CanEnd (a.map (withSpan span)) ↔ CanEnd a := by
  simp only [CanEnd, runsAll_map_withSpan]

theorem ne_normal_of_isTerminal {own : List String} {s : Stmt} (terminal : s.isTerminal = true)
    (runs : s.Runs own trace exit) : exit ≠ .normal := by
  induction s using isTerminal.induct with
  | case1 | case2 | case3 | case4 =>
    rw [runs.2]
    rintro ⟨⟩
  | case5 _ _ ih => exact ih terminal runs
  | case6 => simp_all [isTerminal]

theorem runsAll_singleton {s : Stmt} : RunsAll [s] trace exit ↔
    trace = [] ∧ exit = .fail ∨ s.Runs [] trace exit := by
  rw [RunsAll]
  constructor
  · rintro (failed | ⟨here, _⟩ | ⟨first, _, rfl, here, rfl, rfl⟩)
    · exact .inl failed
    · exact .inr here
    · exact .inr (by rwa [List.append_nil])
  · rintro (failed | here)
    · exact .inl failed
    · by_cases ends : exit = .normal
      · subst ends
        exact .inr (.inr ⟨trace, [], (List.append_nil _).symm, here, rfl, rfl⟩)
      · exact .inr (.inl ⟨here, ends⟩)

theorem not_canEnd_of_isTerminal {s : Stmt} (terminal : s.isTerminal = true) : ¬CanEnd [s] := by
  rintro ⟨trace, runs⟩
  rcases runsAll_singleton.mp runs with ⟨_, failed⟩ | here
  · cases failed
  · exact ne_normal_of_isTerminal terminal here rfl

end Stmt

end Offside
