import Offside.Proofs.Computation
import Offside.Proofs.Contents.Everywhere

/-!
# Laws for nodes

A law says what the contents of a node and the symbols of its children must be. Steps that only
replace or drop children that are no clauses keep a law that does not look at such children.
-/

namespace Offside

open List

/-- What the contents of a node and the symbols of its children must be. -/
abbrev Law := Info → List Symbol → Prop

namespace Tree

variable {t : Tree}

variable {law weaker : Law}

mutual

def Obeys (law : Law) : Tree → Prop
  | .node _ info children => law info (children.map symbol) ∧ ObeyAll law children

def ObeyAll (law : Law) : List Tree → Prop
  | [] => True
  | t :: ts => Obeys law t ∧ ObeyAll law ts

end

@[simp] theorem obeys_node (id : NodeId) (info : Info) (children : List Tree) :
    Obeys law (.node id info children) ↔
      law info (children.map symbol) ∧ ObeyAll law children := by
  rw [Obeys]

@[simp] theorem obeyAll_nil : ObeyAll law [] := by
  rw [ObeyAll]
  exact trivial

@[simp] theorem obeyAll_cons (t : Tree) (ts : List Tree) :
    ObeyAll law (t :: ts) ↔ Obeys law t ∧ ObeyAll law ts := by
  rw [ObeyAll]

theorem obeyAll_iff {ts : List Tree} : ObeyAll law ts ↔ ∀ t ∈ ts, Obeys law t := by
  induction ts with
  | nil => simp
  | cons t ts ih => simp [ih]

theorem obeys_iff : Obeys law t ↔ law t.info (t.children.map symbol) ∧ ObeyAll law t.children := by
  obtain ⟨id, info, children⟩ := t
  exact obeys_node id info children

theorem Obeys.merge {both : Law} {t : Tree} (first : Obeys law t) (second : Obeys weaker t)
    (merge : ∀ info below, law info below → weaker info below → both info below) :
    Obeys both t := by
  induction t with
  | node id info children ih =>
    rw [obeys_node, obeyAll_iff] at first second ⊢
    exact ⟨merge info _ first.1 second.1, fun child member =>
      ih child member (first.2 child member) (second.2 child member)⟩

theorem Obeys.mono {t : Tree} (obeys : Obeys law t)
    (weaken : ∀ info below, law info below → weaker info below) : Obeys weaker t :=
  obeys.merge obeys fun info below here _ => weaken info below here

theorem ObeyAll.mono {ts : List Tree} (obey : ObeyAll law ts)
    (weaken : ∀ info below, law info below → weaker info below) : ObeyAll weaker ts :=
  obeyAll_iff.mpr fun t member => (obeyAll_iff.mp obey t member).mono weaken

/-- A law that looks at no children is a property of contents. -/
theorem obeys_contents {P : Info → Prop} {t : Tree} :
    Obeys (fun info _ => P info) t ↔ Everywhere P t := by
  induction t with
  | node id info children ih =>
    rw [obeys_node, everywhere_node, obeyAll_iff, everywhereAll_iff]
    exact and_congr_right fun _ => forall₂_congr ih

theorem obeyAll_contents {P : Info → Prop} {ts : List Tree} :
    ObeyAll (fun info _ => P info) ts ↔ EverywhereAll P ts := by
  simp only [obeyAll_iff, everywhereAll_iff, obeys_contents]

theorem ObeyAll.append {ts us : List Tree} (first : ObeyAll law ts) (second : ObeyAll law us) :
    ObeyAll law (ts ++ us) := by
  rw [obeyAll_iff] at first second ⊢
  intro t member
  rcases mem_append.mp member with here | there
  · exact first t here
  · exact second t there

theorem obeyAll_singleton (obeys : Obeys law t) : ObeyAll law [t] := by
  rw [obeyAll_cons]
  exact ⟨obeys, obeyAll_nil⟩

theorem Obeys.root (obeys : Obeys law t) : law t.info (t.children.map symbol) :=
  (obeys_iff.mp obeys).1

theorem Obeys.children (obeys : Obeys law t) : ObeyAll law t.children :=
  (obeys_iff.mp obeys).2

theorem Obeys.withChildren {children : List Tree} (root : law t.info (children.map symbol))
    (parts : ObeyAll law children) : Obeys law (t.withChildren children) := by
  obtain ⟨id, info, old⟩ := t
  rw [Tree.withChildren, obeys_node]
  exact ⟨root, parts⟩

/-! ### All parts of a tree -/

mutual

def Throughout (P : Tree → Prop) : Tree → Prop
  | .node id info children => P (.node id info children) ∧ ThroughoutAll P children

def ThroughoutAll (P : Tree → Prop) : List Tree → Prop
  | [] => True
  | t :: ts => Throughout P t ∧ ThroughoutAll P ts

end

variable {P Q : Tree → Prop} {ts : List Tree}

theorem throughoutAll_iff : ThroughoutAll P ts ↔ ∀ t ∈ ts, t.Throughout P := by
  induction ts with
  | nil => simp [ThroughoutAll]
  | cons t ts ih => simp [ThroughoutAll, ih]

theorem throughout_iff : t.Throughout P ↔ P t ∧ ∀ c ∈ t.children, c.Throughout P := by
  obtain ⟨id, info, children⟩ := t
  rw [Throughout, throughoutAll_iff]; rfl

theorem Throughout.here (throughout : t.Throughout P) : P t :=
  (throughout_iff.mp throughout).1

theorem Throughout.below (throughout : t.Throughout P) : ∀ c ∈ t.children, c.Throughout P :=
  (throughout_iff.mp throughout).2

theorem Throughout.mono {t : Tree} (throughout : t.Throughout P) (weaken : ∀ t, P t → Q t) :
    t.Throughout Q := by
  induction t with
  | node id info children ih =>
    rw [throughout_iff] at throughout ⊢
    exact ⟨weaken _ throughout.1, fun child member => ih child member (throughout.2 child member)⟩

/-- What holds of all parts of a tree is a law for its nodes. -/
theorem Throughout.obeys {law : Law} {t : Tree} (throughout : t.Throughout P)
    (weaken : ∀ t, P t → law t.info (t.children.map symbol)) : t.Obeys law := by
  induction t with
  | node id info children ih =>
    rw [throughout_iff] at throughout
    rw [obeys_node, obeyAll_iff]
    exact ⟨weaken _ throughout.1, fun child member => ih child member (throughout.2 child member)⟩

/-! ### Copies -/

mutual

theorem yields_copy {t : Tree} (obeys : Obeys law t) :
    Yields t.copy (fun u => Obeys law u ∧ u.symbol = t.symbol) := by
  cases t with
  | node id info children =>
    rw [obeys_node] at obeys
    rw [copy]
    refine .after fun _ => .bind (yields_copyAll obeys.2) fun copies facts => ?_
    refine .pure ⟨?_, rfl⟩
    rw [obeys_node, facts.2]
    exact ⟨obeys.1, facts.1⟩

theorem yields_copyAll {ts : List Tree} (obey : ObeyAll law ts) :
    Yields (copyAll ts) (fun us => ObeyAll law us ∧ us.map symbol = ts.map symbol) := by
  cases ts with
  | nil => exact .pure ⟨obeyAll_nil, rfl⟩
  | cons t ts =>
    rw [obeyAll_cons] at obey
    rw [copyAll]
    refine .bind (yields_copy obey.1) fun first here => ?_
    refine .bind (yields_copyAll obey.2) fun others there => .pure ⟨?_, ?_⟩
    · rw [obeyAll_cons]
      exact ⟨here.1, there.1⟩
    · rw [map_cons, map_cons, here.2, there.2]

end

end Tree

/-! ## Children that come and go -/

namespace Symbol

def isClause (symbol : Symbol) : Bool :=
  symbol.flags.dependentClause

/-- What may become of the symbols of some children: only clauses are sure to stay. -/
inductive Passes : List Symbol → List Symbol → Prop where
  | nil : Passes [] []
  | keep (symbol : Symbol) {before after : List Symbol} :
      Passes before after → Passes (symbol :: before) (symbol :: after)
  | change {symbol} (other : Symbol) {before after : List Symbol} :
      symbol.isClause = false → Passes before after → Passes (symbol :: before) (other :: after)
  | drop {symbol before after} :
      symbol.isClause = false → Passes before after → Passes (symbol :: before) after

namespace Passes

variable {symbol : Symbol} {before after : List Symbol}

theorem refl (symbols : List Symbol) : Passes symbols symbols := by
  induction symbols with
  | nil => exact .nil
  | cons symbol rest ih => exact .keep symbol ih

theorem append {others behind : List Symbol} (first : Passes before after)
    (second : Passes others behind) : Passes (before ++ others) (after ++ behind) := by
  induction first with
  | nil => exact second
  | keep symbol _ ih => exact .keep symbol ih
  | change other isPlain _ ih => exact .change other isPlain ih
  | drop isPlain _ ih => exact .drop isPlain ih

/-- What can become of one child can become of any other one that is no clause. -/
theorem of_single {other : Symbol} (passes : Passes [other] after)
    (isPlain : symbol.isClause = false) :
    Passes [symbol] after := by
  cases passes with
  | keep _ rest | change _ _ rest => exact .change _ isPlain rest
  | drop _ rest => exact .drop isPlain rest

/-- One child becomes another one or goes, unless it is a clause. -/
theorem cons_toList {result : Option Symbol} (stays : symbol.isClause = true → result = some symbol)
    (rest : Passes before after) : Passes (symbol :: before) (result.toList ++ after) := by
  cases isClause : symbol.isClause with
  | true =>
    rw [stays isClause]
    exact .keep symbol rest
  | false =>
    cases result with
    | none => exact .drop isClause rest
    | some other => exact .change other isClause rest

/-- Clauses at the end stay, and there are not more children in front of them than before. -/
theorem exists_of_append {operands clauses : List Symbol}
    (passes : Passes (operands ++ clauses) after)
    (all : ∀ clause ∈ clauses, clause.isClause = true) :
    ∃ others, after = others ++ clauses ∧ others.length ≤ operands.length := by
  induction operands generalizing after with
  | nil =>
    rw [nil_append] at passes
    induction clauses generalizing after with
    | nil =>
      cases passes
      exact ⟨[], rfl, Nat.le_refl 0⟩
    | cons clause rest ih =>
      have ⟨isClause, others⟩ := forall_mem_cons.mp all
      cases passes with
      | keep _ later =>
        obtain ⟨front, rfl, none⟩ := ih others later
        have isNil := eq_nil_of_length_eq_zero (Nat.le_zero.mp none)
        subst isNil
        exact ⟨[], rfl, Nat.le_refl 0⟩
      | change _ noClause _ | drop noClause _ =>
        rw [isClause] at noClause
        cases noClause
  | cons operand rest ih =>
    rw [cons_append] at passes
    cases passes with
    | keep _ later =>
      obtain ⟨others, rfl, fewer⟩ := ih later
      exact ⟨operand :: others, rfl, Nat.succ_le_succ fewer⟩
    | change other _ later =>
      obtain ⟨others, rfl, fewer⟩ := ih later
      exact ⟨other :: others, rfl, Nat.succ_le_succ fewer⟩
    | drop _ later =>
      obtain ⟨others, rfl, fewer⟩ := ih later
      exact ⟨others, rfl, Nat.le_succ_of_le fewer⟩

end Passes

end Symbol

/-- A law that does not look at children that are no clauses. -/
def Law.Stable (law : Law) : Prop :=
  ∀ ⦃info : Info⦄ ⦃before after : List Symbol⦄, law info before → Symbol.Passes before after →
    law info after

/-- A node keeps a stable law if only children that are no clauses are replaced or dropped. -/
theorem Tree.Obeys.replace {law : Law} {t : Tree} (obeys : t.Obeys law) (stable : law.Stable)
    {children : List Tree} (parts : ObeyAll law children)
    (passes : Symbol.Passes (t.children.map symbol) (children.map symbol)) :
    (t.withChildren children).Obeys law :=
  .withChildren (stable obeys.root passes) parts

end Offside
