import Offside.Proofs.Combination.Blocks
import Offside.Proofs.Macro.Definition
import Offside.Proofs.Ownership.Climbing

/-!
# Numbers of a combined unit

Combination makes expressions of the blocks of a source. The statements that have been made, the
templates that were taken from definitions and the blocks that are still to come hold no number
twice.
-/

namespace Offside

open List

open Offside.Tree hiding id

namespace Keeps

variable {σ α : Type} {ledger : Ledger σ} {taken : Multiset NodeId}

/-- A computation that changes neither the numbering nor what is held. -/
theorem of_same {x : StateM σ α}
    (same : ∀ s, ledger.numbering (x s).2 = ledger.numbering s ∧
      ledger.held (x s).2 = ledger.held s) : Keeps ledger taken x (fun _ => taken) := by
  intro s rest owns
  rw [(same s).1, (same s).2]
  exact owns

end Keeps

namespace Clause

/-- A clause that is attached joins the numbers of its owner. -/
theorem Attached.numbers_eq {clause t result : Tree} {op : Builtin}
    (attached : Attached clause op t result) : result.numbers = t.numbers + clause.numbers := by
  induction attached with
  | here => simp
  | deeper _ _ ih => simp [ih, add_assoc]

end Clause

namespace Template

mutual

/-- Holes are made of the nodes that ask for them. -/
theorem numbers_punch_le {params : List String} {t result : Tree} {holes after : Table Nat}
    (punched : punch params t holes = .ok (result, after)) : result.numbers ≤ t.numbers := by
  cases t with
  | node id info children =>
    rcases punch_ok punched with ⟨_, _, _, _, _, _, _, rfl⟩ | ⟨parts, _, inner, rfl⟩
    · simp
    · have less := numbersOfAll_punchAll_le inner
      rw [numbers_node, numbers_node]
      gcongr

theorem numbersOfAll_punchAll_le {params : List String} {ts results : List Tree}
    {holes after : Table Nat} (punched : punchAll params ts holes = .ok (results, after)) :
    numbersOfAll results ≤ numbersOfAll ts := by
  cases ts with
  | nil =>
    cases punched
    exact le_refl _
  | cons t ts =>
    obtain ⟨first, others, middle, here, there, rfl⟩ := punchAll_cons_ok punched
    have less := numbers_punch_le here
    have lessAll := numbersOfAll_punchAll_le there
    rw [numbersOfAll_cons, numbersOfAll_cons]
    gcongr

end

/-- A line is taken from its block as a whole. -/
theorem numbers_unwrapLine (t : Tree) :
    numbersOfAll (unwrapLine t).1.toList + (unwrapLine t).2.numbers = t.numbers := by
  rcases unwrapLine_cases t with ⟨line, _, parts, same⟩ | same
  · simp [same, numbers_eq t, parts]
  · simp [same]

theorem numbers_unwrap {body template : Tree} {remains : Option Tree}
    (unwrapped : unwrap body = .ok (remains, template)) :
    numbersOfAll remains.toList + template.numbers = body.numbers := by
  rcases unwrap_ok unwrapped with ⟨quoted, rest, _, parts, rfl, rfl⟩ | same
  · have whole := numbers_unwrapLine quoted
    rw [numbers_eq body, parts, numbersOfAll_cons, ← whole]
    simp only [Option.toList_some, numbersOfAll_cons, numbersOfAll_nil,
      numbers_withChildren, numbersOfAll_append]
    abel
  · have whole := numbers_unwrapLine body
    rw [← same] at whole
    exact whole

def bodyNumbers : Except Diagnostic Template → Multiset NodeId
  | .error _ => 0
  | .ok template => template.body.numbers

/-- A definition is shared out between what remains of it and its template. -/
theorem numbers_define_le (definition : Tree) :
    (define definition).1.numbers + bodyNumbers (define definition).2 ≤ definition.numbers := by
  rcases define_cases definition with
    ⟨d, same⟩ | ⟨nameNode, paramsNode, body, template, remains, name, params, parts, _, _,
      unwrapped, same⟩
  · rw [same]
    exact le_of_eq (add_zero _)
  · have whole := numbers_unwrap unwrapped
    have less : bodyNumbers ((punch params template .empty).map fun punched =>
        ({ name, params, body := punched.1, holes := punched.2 } : Template)) ≤
          template.numbers := by
      cases punched : punch params template .empty with
      | error d => exact Multiset.zero_le _
      | ok result =>
        obtain ⟨punctured, holes⟩ := result
        exact numbers_punch_le punched
    rw [same, numbers_eq definition, parts]
    simp only [numbers_withChildren, numbersOfAll_cons, numbersOfAll_nil, add_zero]
    rw [← whole, add_assoc, add_assoc, add_assoc]
    gcongr

end Template

namespace Combine

/-- Combination holds the templates that it has taken from definitions. -/
def ledger : Ledger Combination :=
  ⟨Combination.numbering, fun s => numbersOfAll (s.templates.toList.map Template.body)⟩

variable {α : Type}

theorem keeps_supply {x : Supply α} {taken : Multiset NodeId} {given : α → Multiset NodeId}
    (keeps : Keeps Supply.ledger taken x given) : Keeps ledger taken (supply x) given := by
  intro s rest owns
  have before : s.numbering.Owns (taken + 0 + (ledger.held s + rest)) :=
    owns.mono (le_of_eq (by rw [add_zero, add_assoc]))
  refine (keeps s.numbering _ before).mono (le_of_eq ?_)
  change given (x s.numbering).1 + ledger.held s + rest =
    given (x s.numbering).1 + 0 + (ledger.held s + rest)
  rw [add_zero, add_assoc]

theorem keeps_report (d : Diagnostic) (taken : Multiset NodeId) :
    Keeps ledger taken (report d) (fun _ => taken) :=
  Keeps.of_same fun _ => ⟨rfl, rfl⟩

/-! ## States -/

/-- The trees with the numbers `taken` have become trees with the numbers `given`. -/
def Exchanges (s s' : Combination) (taken given : Multiset NodeId) : Prop :=
  ∀ rest, s.numbering.Owns (taken + ledger.held s + rest) →
    s'.numbering.Owns (given + ledger.held s' + rest)

namespace Exchanges

variable {s s₁ s' : Combination} {taken given more less : Multiset NodeId}

theorem of_le (enough : given ≤ taken) : Exchanges s s taken given :=
  fun _ owns => owns.mono (by gcongr)

theorem of_run {x : Combine α} {numbers : α → Multiset NodeId} {a : α}
    (keeps : Keeps ledger taken x numbers) (ran : x s = (a, s')) :
    Exchanges s s' taken (numbers a) := by
  intro rest owns
  have after := keeps s rest owns
  rwa [ran] at after

theorem mono (becomes : Exchanges s s' taken given) (enough : taken ≤ more) :
    Exchanges s s' more given :=
  fun rest owns => becomes rest (owns.mono (by gcongr))

/-- What is kept while one thing is made is there for the next one. -/
theorem next {middle : Multiset NodeId} (first : Exchanges s s₁ taken middle)
    (kept : Multiset NodeId) (second : Exchanges s₁ s' (middle + kept) given) :
    Exchanges s s' (taken + kept) given := by
  intro rest owns
  have before := first (kept + rest) (owns.mono (le_of_eq (by abel)))
  exact second rest (before.mono (le_of_eq (by abel)))

end Exchanges

/-! ## Items -/

theorem keeps_leftovers (fuel : Nat) (items : List Item) :
    Keeps ledger (Item.numbers items) (leftovers fuel items) (fun _ => 0) := by
  induction fuel generalizing items with
  | zero => exact .pure (Multiset.zero_le _)
  | succ fuel ih =>
    cases items with
    | nil => exact .pure (Multiset.zero_le _)
    | cons item rest =>
      rw [leftovers]
      refine .bind 0 (keeps_report _ (Item.numbers rest)) ?_ fun _ => ?_
      · rw [add_zero, Item.numbers_cons]
        exact Multiset.le_add_left _ _
      · refine .bind 0 (keeps_supply (Climb.keeps_first rest)) (by simp) fun read => ?_
        refine (ih read.2).mono ?_ fun _ => le_refl _
        rw [add_zero]
        exact Multiset.le_add_left _ _

theorem keeps_fold (items : List Item) :
    Keeps ledger (Item.numbers items) (fold items) (fun r => numbersOfAll r.toList) := by
  refine .bind 0 (keeps_supply (Climb.keeps_first items)) (by simp) fun read => ?_
  refine .bind (numbersOfAll read.1.toList) (keeps_leftovers _ read.2)
    (by simp [add_comm]) fun _ => ?_
  exact .pure (by simp)

theorem Added.becomes {scope : ScopeId} {statements all : Array Tree} {expr : Tree}
    {s s' : Combination} (added : Added scope statements expr s all s') :
    Exchanges s s' (numbersOfAll statements.toList + expr.numbers) (numbersOfAll all.toList) := by
  intro rest owns
  have push (before : Array Tree) (t : Tree) :
      numbersOfAll (before.push t).toList = numbersOfAll before.toList + t.numbers := by
    simp
  cases added with
  | attached _ ends joins =>
    rw [ends, numbersOfAll_append, numbersOfAll_cons, numbersOfAll_nil] at owns
    rw [push, joins.numbers_eq]
    exact owns.mono (le_of_eq (by abel))
  | unattached =>
    change s.numbering.Owns (_ + ledger.held s + rest)
    refine owns.mono ?_
    gcongr
    exact Multiset.le_add_right _ _
  | @defined remains template _ made =>
    have shared := Template.numbers_define_le expr
    rw [made] at shared
    refine owns.mono (le_trans (le_of_eq ?_) (add_le_add_left (add_le_add_left
      (add_le_add_right shared (numbersOfAll statements.toList)) (ledger.held s)) rest))
    change _ + numbersOfAll ((s.templates.push template).toList.map Template.body) + rest = _
    rw [push, Array.toList_push, map_append, numbersOfAll_append]
    simp only [map_cons, map_nil, numbersOfAll_cons, numbersOfAll_nil,
      Template.bodyNumbers, ledger]
    abel
  | undefined _ failed =>
    have shared := (Multiset.le_add_right _ _).trans (Template.numbers_define_le expr)
    rw [failed] at shared
    rw [push]
    change s.numbering.Owns (_ + ledger.held s + rest)
    refine owns.mono ?_
    gcongr
  | pushed =>
    rw [push]
    exact owns

theorem keeps_finishBlock (id : NodeId) (info : Info) (scope : ScopeId)
    (statements : Array Tree) :
    Keeps ledger ({id} + numbersOfAll statements.toList)
      (finishBlock id info scope statements) numbers := by
  intro s rest owns
  obtain ⟨same, more, behind⟩ := finished_finishBlock id info scope statements s
  rw [same, behind]
  exact owns.mono (le_of_eq (by simp [ledger]))

/-! ## Blocks -/

theorem keeps_pieceItems (loc : Loc) (offset : Nat) (pieces : List (String × Symbol)) :
    Keeps Supply.ledger 0 (pieceItems loc offset pieces) Item.numbers := by
  induction pieces generalizing offset with
  | nil => exact .pure (le_refl _)
  | cons piece rest ih =>
    obtain ⟨text, symbol⟩ := piece
    rw [pieceItems]
    refine .bind 0 (keeps_new _ _ _ _) (by simp) fun node => ?_
    refine .bind node.numbers (ih _) (by simp) fun items => ?_
    exact .pure (by simp [add_comm])

/-- The items of a token hold no number but its own and new ones. -/
theorem Itemed.becomes {scope : ScopeId} {token : Tree} {kind : TokenClass} {value : Value}
    {s s' : Combination} {items : List Item} (itemed : Itemed scope token kind value s items s') :
    Exchanges s s' token.numbers (Item.numbers items) := by
  cases itemed with
  | keyword | operand | operator => exact .of_le (by simp)
  | pieces =>
    exact (Exchanges.of_run (keeps_supply (keeps_pieceItems _ _ _)) rfl).mono (Multiset.zero_le _)
  | unknown d => exact (Exchanges.of_run (keeps_report d 0) rfl).mono (Multiset.zero_le _)

theorem Bracketed.becomes {loc : Loc} {elements : List Tree} {item : Item} {s s' : Combination}
    (bracketed : Bracketed loc elements s item s') :
    Exchanges s s' (numbersOfAll elements) item.tree.numbers := by
  cases bracketed with
  | single alone => exact .of_le (by simp [alone])
  | made => exact fun rest owns => keeps_supply (keeps_new _ _ _ _) s rest owns

@[simp] def Job.numbers : Job → Multiset NodeId
  | .lines ts _ made | .bracket ts _ made => numbersOfAll ts + numbersOfAll made.toList
  | .line ts _ _ | .items ts _ => numbersOfAll ts
  | .groups ts _ group made => numbersOfAll ts + (Item.numbers group + numbersOfAll made.toList)

@[simp] def Product.numbers : Product → Multiset NodeId
  | .statements all | .elements all => numbersOfAll all.toList
  | .expr made => numbersOfAll made.toList
  | .items made => Item.numbers made

theorem numbers_blockOf_le (id : NodeId) (kind : BlockKind) (loc : Loc) (parts rest : List Tree)
    (kept : Multiset NodeId) :
    numbersOfAll parts + (numbersOfAll rest + kept) ≤
      numbersOfAll (blockOf id kind loc parts :: rest) + kept := by
  rw [numbersOfAll_cons, ← add_assoc]
  gcongr
  exact numbersOfAll_children_le (blockOf id kind loc parts)

/-- The blocks of a source and what has been made of them hold no number twice. -/
theorem Combined.becomes {job : Job} {product : Product} {s s' : Combination}
    (combined : Combined job s product s') : Exchanges s s' job.numbers product.numbers := by
  induction combined with
  | noLines | noElements | noItems => exact .of_le (by simp)
  | emptyLine _ _ first onward =>
    exact (first.next _ (onward.mono (by simp))).mono (numbers_blockOf_le _ _ _ _ _ _)
  | @statement _ _ _ rest _ statements _ _ expr _ _ _ _ _ added _ first onward =>
    refine (first.next _ ?_).mono (numbers_blockOf_le _ _ _ _ rest (numbersOfAll statements.toList))
    refine (added.becomes.next (numbersOfAll rest) (onward.mono ?_)).mono (le_of_eq ?_)
    · simp [add_comm]
    · simp
      abel
  | folded _ folds first =>
    exact (first.next 0 ((Exchanges.of_run (keeps_fold _) folds).mono (by simp))).mono (by simp)
  | tupled _ made first =>
    have whole := Exchanges.of_run (keeps_supply (keeps_new _ _ _ _)) made
    refine (first.next 0 ?_).mono (by simp)
    simpa using whole
  | @lastGroup _ _ elements _ _ _ folds =>
    refine ((Exchanges.of_run (keeps_fold _) folds).next (numbersOfAll elements.toList)
      (.of_le ?_)).mono ?_
    · simp [add_comm]
    · simp
  | @nextGroup _ _ parts rest _ group _ elements _ made _ _ _ _ folds _ _ first onward =>
    refine ((Exchanges.of_run (keeps_fold _) folds).next
      (numbersOfAll parts + (numbersOfAll rest + numbersOfAll elements.toList)) ?_).mono
      ((le_of_eq ?_).trans (numbers_blockOf_le _ _ _ _ rest _))
    · refine (first.next (numbersOfAll rest + numbersOfAll (elements ++ made.toArray).toList)
        (onward.mono (le_of_eq ?_))).mono (le_of_eq ?_)
      all_goals
        simp
        abel
    · abel
  | @part t rest _ group _ elements _ _ _ _ _ _ first onward =>
    refine (first.next (numbersOfAll rest + (Item.numbers group + numbersOfAll elements.toList))
      (onward.mono (le_of_eq ?_))).mono (le_of_eq ?_)
    all_goals
      simp
      abel
  | @element _ _ parts rest _ _ elements _ _ _ _ _ _ _ folds _ first onward =>
    refine (first.next _ ?_).mono (numbers_blockOf_le _ _ _ _ rest (numbersOfAll elements.toList))
    refine (Exchanges.of_run (keeps_fold _) folds).next _ (onward.mono (le_of_eq ?_))
    simp
    abel
  | @items _ ts _ made _ _ _ _ _ _ first second =>
    refine (first.next (numbersOfAll ts)
      ((second.next (Item.numbers made) (.of_le ?_)).mono ?_)).mono
      (by simp)
    all_goals simp [add_comm]
  | @block id _ _ parts _ _ _ _ _ _ _ _ _ _ _ extended _ finished first =>
    have opened (numbers : Multiset NodeId) := Exchanges.of_run
      (.of_same fun _ => ⟨rfl, rfl⟩ : Keeps ledger numbers _ fun _ => numbers) extended
    have closed := Exchanges.of_run (keeps_finishBlock _ _ _ _) finished
    have inside := first.next {id} (closed.mono (by simp [add_comm]))
    have whole := (opened _).next 0 (inside.mono (add_zero _).ge)
    simpa [blockOf, add_comm] using whole
  | @bracket id kind loc parts _ _ _ _ _ _ _ _ made first =>
    have whole := (first.next 0 (made.becomes.mono (by simp))).mono
      ((by simp : _ ≤ numbersOfAll parts).trans
        (numbersOfAll_children_le (blockOf id kind loc parts)))
    simpa using whole
  | token _ itemed => simpa using itemed.becomes

theorem becomes_root {t : Tree} (raw : Raw t) (isRoot : t.symbol = .block .root) (s : Combination) :
    Exchanges s (root t s).2 t.numbers (root t s).1.numbers := by
  obtain ⟨id, info, parts⟩ := t
  have made := (combined_lines (raw.of_block isRoot).2 Scopes.root #[] s).becomes
  refine (made.next {id} ?_).mono (by simp [add_comm])
  exact (Exchanges.of_run (keeps_finishBlock id info _ _) rfl).mono (by simp [add_comm])

end Combine

end Offside
