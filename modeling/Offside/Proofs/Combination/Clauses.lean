import Mathlib.Data.List.Count
import Offside.Proofs.Contents.Compilation

/-!
# Places of clauses

If combination reports nothing, every `else` belongs to an `if`, and every `catch` and every
`finally` to a `try`, in their order and each at most once. Combination looks at the clauses of a
block when the block ends. It passes over the blocks inside, which ended before, and sees only
clauses that were put into a place; that they have an order there comes from how they are put.
-/

namespace Offside

open List

/-! ## Clauses in their places -/

/-- The clauses among the children of a node belong to it, are well-formed and stand in order. -/
structure Tree.ClausesInPlace (t : Tree) : Prop where
  /-- An `else` stands in an `if` and has an `if` or an indented block. -/
  elseClause : ∀ c ∈ t.children, c.is .elseClause = true →
    t.is .ifThen = true ∧
      ∃ body, c.children = [body] ∧ (body.is .ifThen = true ∨ body.isBlock .block = true)
  /-- A `catch` stands in a `try` and has a name and a body. -/
  catchClause : ∀ c ∈ t.children, c.is .catchClause = true →
    t.is .tryBlock = true ∧ ∃ name body, c.children = [name, body] ∧ name.isTag = true
  /-- A `finally` stands in a `try`. -/
  finallyClause : ∀ c ∈ t.children, c.is .finallyClause = true → t.is .tryBlock = true
  elseOnce : t.is .ifThen = true → t.children.countP (·.is .elseClause) ≤ 1
  catchOnce : t.is .tryBlock = true → t.children.countP (·.is .catchClause) ≤ 1
  finallyOnce : t.is .tryBlock = true → t.children.countP (·.is .finallyClause) ≤ 1
  finallyLast : t.is .tryBlock = true → t.children.Pairwise fun earlier later =>
    ¬(earlier.is .finallyClause = true ∧ later.is .catchClause = true)
  notAlone : t.is .tryBlock = true →
    ∃ c ∈ t.children, c.is .catchClause = true ∨ c.is .finallyClause = true

namespace Clause

variable {parent : Option Builtin} {t : Tree}

theorem elseClause_of_seated (seated : Seated parent t) (isElse : t.is .elseClause = true) :
    parent = some .ifThen ∧
      ∃ body, t.children = [body] ∧ (body.is .ifThen = true ∨ body.isBlock .block = true) := by
  have fine := (seated_iff.mp seated).1
  have known : t.builtin? = some .elseClause := of_decide_eq_true isElse
  rw [fault?, known] at fine
  dsimp only at fine
  split at fine
  · cases fine
  · rename_i owned
    refine ⟨Decidable.not_not.mp owned, ?_⟩
    split at fine
    · rename_i body parts
      split at fine
      · rename_i shaped
        exact ⟨body, parts, Bool.or_eq_true _ _ ▸ shaped⟩
      · cases fine
    · cases fine

theorem catchClause_of_seated (seated : Seated parent t) (isCatch : t.is .catchClause = true) :
    parent = some .tryBlock ∧ ∃ name body, t.children = [name, body] ∧ name.isTag = true := by
  have fine := (seated_iff.mp seated).1
  have known : t.builtin? = some .catchClause := of_decide_eq_true isCatch
  rw [fault?, known] at fine
  dsimp only at fine
  split at fine
  · cases fine
  · rename_i owned
    refine ⟨Decidable.not_not.mp owned, ?_⟩
    split at fine
    · rename_i name body parts
      split at fine
      · rename_i isTag
        exact ⟨name, body, parts, isTag⟩
      · cases fine
    · cases fine

theorem finallyClause_of_seated (seated : Seated parent t)
    (isFinally : t.is .finallyClause = true) :
    parent = some .tryBlock := by
  have fine := (seated_iff.mp seated).1
  have known : t.builtin? = some .finallyClause := of_decide_eq_true isFinally
  rw [fault?, known] at fine
  dsimp only at fine
  split at fine
  · cases fine
  · rename_i owned
    exact Decidable.not_not.mp owned

theorem tryBlock_of_seated (seated : Seated parent t) (isTry : t.is .tryBlock = true) :
    ∃ c ∈ t.children, c.is .catchClause = true ∨ c.is .finallyClause = true := by
  have fine := (seated_iff.mp seated).1
  have known : t.builtin? = some .tryBlock := of_decide_eq_true isTry
  rw [fault?, known] at fine
  dsimp only at fine
  split at fine
  · rename_i some
    obtain ⟨c, member, either⟩ := any_eq_true.mp some
    exact ⟨c, member, (Bool.or_eq_true _ _).mp either⟩
  · cases fine

theorem is_iff {op : Builtin} : t.is op = true ↔ t.symbol = .builtin op := by
  constructor
  · exact fun isOp => Info.symbol_of_is isOp
  · intro isOp
    rw [Tree.is, Info.is, show t.info.symbol = _ from isOp]
    exact decide_eq_true rfl

section

variable (seats : t.symbol.Seats (t.children.map Tree.symbol))
include seats

/-- The clauses of a builtin in the order of its children. -/
theorem sublist_of_seats {op : Builtin} (isOp : t.is op = true) :
    ((t.children.map Tree.symbol).filter (· ∈ op.arity.dependents.map Symbol.builtin)).Sublist
      (op.arity.dependents.map Symbol.builtin) :=
  seats op (is_iff.mp isOp)

/-- Each clause of a builtin is there at most once. -/
theorem countP_le_one {op clause : Builtin} (isOp : t.is op = true)
    (listed : (op.arity.dependents.map Symbol.builtin).count (.builtin clause) = 1) :
    t.children.countP (·.is clause) ≤ 1 := by
  have inside : Symbol.builtin clause ∈ op.arity.dependents.map Symbol.builtin :=
    count_pos_iff.mp (by omega)
  calc
    t.children.countP (·.is clause) = (t.children.map Tree.symbol).count (.builtin clause) := by
      rw [List.count, countP_map]
      refine countP_congr fun c _ => ?_
      rw [Function.comp_apply, beq_iff_eq, is_iff]
    _ = ((t.children.map Tree.symbol).filter
          (· ∈ op.arity.dependents.map Symbol.builtin)).count (.builtin clause) := by
      exact (count_filter (by simpa using inside)).symm
    _ ≤ (op.arity.dependents.map Symbol.builtin).count (.builtin clause) :=
      (sublist_of_seats seats isOp).count_le _
    _ = 1 := listed

/-- No `catch` stands behind a `finally`. -/
theorem pairwise_of_seats (isTry : t.is .tryBlock = true) :
    t.children.Pairwise fun earlier later =>
      ¬(earlier.is .finallyClause = true ∧ later.is .catchClause = true) := by
  have ordered :
    (Builtin.tryBlock.arity.dependents.map Symbol.builtin).Pairwise fun earlier later =>
      ¬(earlier = .builtin .finallyClause ∧ later = .builtin .catchClause) := by decide
  have symbols := pairwise_filter.mp (ordered.sublist (sublist_of_seats seats isTry))
  refine (pairwise_map.mp symbols).imp fun {earlier later} apart => ?_
  rintro ⟨isFinally, isCatch⟩
  rw [is_iff] at isFinally isCatch
  rw [isFinally, isCatch] at apart
  exact apart (by decide) (by decide) ⟨rfl, rfl⟩

end

/-- What is looked at and how clauses are put together tell where they are. -/
theorem clausesInPlace {asks : Demands} (orderly : t.OrderlyHere asks) (seated : Seated parent t) :
    t.ClausesInPlace where
  elseClause c member isElse := by
    obtain ⟨owner, shape⟩ := elseClause_of_seated ((seated_iff.mp seated).2 c member) isElse
    exact ⟨decide_eq_true owner, shape⟩
  catchClause c member isCatch := by
    obtain ⟨owner, shape⟩ := catchClause_of_seated ((seated_iff.mp seated).2 c member) isCatch
    exact ⟨decide_eq_true owner, shape⟩
  finallyClause c member isFinally :=
    decide_eq_true (finallyClause_of_seated ((seated_iff.mp seated).2 c member) isFinally)
  elseOnce isIf := countP_le_one orderly.seats isIf (by decide)
  catchOnce isTry := countP_le_one orderly.seats isTry (by decide)
  finallyOnce isTry := countP_le_one orderly.seats isTry (by decide)
  finallyLast isTry := pairwise_of_seats orderly.seats isTry
  notAlone := tryBlock_of_seated seated

theorem seated_of_subtree (seated : Seated parent t) {path : List Nat} {u : Tree}
    (found : t.subtree? path = some u) : ∃ above, Seated above u := by
  induction path generalizing t parent with
  | nil =>
    cases found
    exact ⟨parent, seated⟩
  | cons index path ih =>
    obtain ⟨c, child, inside⟩ := Tree.subtree?_cons.mp found
    exact ih ((seated_iff.mp seated).2 c (mem_of_getElem? child)) inside

end Clause

namespace SourceUnit

/-- If combination reports nothing, the root is no clause, and all clauses are in their places. -/
theorem clausesInPlace_combine (settings : Scan.Settings) (text : List Char) (env : Environment)
    (prelude : Bool)
    (quiet : ((read settings text).combine env prelude).diagnostics =
      (read settings text).diagnostics) :
    ((read settings text).combine env prelude).tree.symbol = .block .root ∧
      ∀ path node, ((read settings text).combine env prelude).tree.subtree? path = some node →
        node.ClausesInPlace := by
  have isRoot := symbol_combine settings text env prelude
  have orderly := (orderly_combine settings text (fun _ _ _ _ => trivial :
    env.CallsAdmitted fun _ => True) prelude).1
  have isBlock : ((read settings text).combine env prelude).tree.isBlockLike = true := by
    rw [Tree.isBlockLike, isRoot]
    rfl
  have seated : Clause.Seated none ((read settings text).combine env prelude).tree :=
    Clause.seated_of_closed isBlock (orderly.here.closed isBlock quiet)
  refine ⟨isRoot, fun path node found => ?_⟩
  obtain ⟨above, here⟩ := Clause.seated_of_subtree seated found
  exact Clause.clausesInPlace (orderly.of_subtree found) here

/-- A source with all clauses, on lines of their own and behind an operand. -/
def clauseText : List Char :=
  "try\n  if a\n    b\n  else if c\n    d\n  else\n    e\ncatch e\n  f\nfinally\n  g".toList

theorem clausesInPlace_clauseText :
    ((read ⟨0, none⟩ clauseText).combine .standard true).diagnostics =
        (read ⟨0, none⟩ clauseText).diagnostics ∧
      ∃ node, ((read ⟨0, none⟩ clauseText).combine .standard true).tree.subtree? [0] = some node ∧
        node.text =
          "(try (<block> (if a (<block> b) (else (if c (<block> d) (else (<block> e)))))) " ++
          "(catch e (<block> f)) (finally (<block> g)))" ∧
        node.ClausesInPlace := by
  have quiet : ((read ⟨0, none⟩ clauseText).combine .standard true).diagnostics =
      (read ⟨0, none⟩ clauseText).diagnostics := by decide +kernel
  have found : (((read ⟨0, none⟩ clauseText).combine .standard true).tree.subtree? [0]).any
      (fun node => node.text =
        "(try (<block> (if a (<block> b) (else (if c (<block> d) (else (<block> e)))))) " ++
          "(catch e (<block> f)) (finally (<block> g)))") = true := by decide +kernel
  obtain ⟨node, isNode, text⟩ := (Option.any_eq_true _ _).mp found
  exact ⟨quiet, node, isNode, of_decide_eq_true text,
    (clausesInPlace_combine ⟨0, none⟩ clauseText .standard true quiet).2 [0] node isNode⟩

end SourceUnit

end Offside
