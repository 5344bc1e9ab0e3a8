import Offside.Proofs.Lowering.Growth
import Offside.Proofs.Program.Binders

/-!
# How often something is introduced

Generation introduces what the tree has, the temporaries and the labels, and nothing more often
than it is there: what is still owed to the innermost host is counted with what has been
generated.
-/

namespace Offside

open List

open Offside.Tree hiding id

def Tree.parameters (info : Info) (children : List Tree) : List String :=
  match info.symbol, children with
  | .builtin .fn, [params, _] | .builtin .catchClause, [params, _] => params.spelled
  | _, _ => []

mutual

/-- How often the nodes of a tree introduce something. -/
def Tree.tally (b : Binder) : Tree → Nat
  | .node _ info children =>
    (info.declaredNames.map Binder.hoisted).count b +
      ((parameters info children).map Binder.param).count b + tallyAll b children

def Tree.tallyAll (b : Binder) : List Tree → Nat
  | [] => 0
  | t :: ts => t.tally b + tallyAll b ts

end

namespace Tree

variable {b : Binder} {t : Tree} {parts : List Tree}

theorem tally_node {id : NodeId} {info : Info} :
    (node id info parts).tally b =
      (info.declaredNames.map Binder.hoisted).count b +
        ((parameters info parts).map Binder.param).count b + tallyAll b parts := by
  rw [tally]

@[simp] theorem tallyAll_nil : tallyAll b [] = 0 := by
  rw [tallyAll]

@[simp] theorem tallyAll_cons : tallyAll b (t :: parts) = t.tally b + tallyAll b parts := by
  rw [tallyAll]

@[simp] theorem tallyAll_append {more : List Tree} :
    tallyAll b (parts ++ more) = tallyAll b parts + tallyAll b more := by
  induction parts with
  | nil => simp
  | cons t parts ih => simp [ih, Nat.add_assoc]

theorem tally_le_of_mem (member : t ∈ parts) : t.tally b ≤ tallyAll b parts := by
  induction parts with
  | nil => cases member
  | cons first parts ih =>
    rw [tallyAll_cons]
    rcases mem_cons.mp member with rfl | later
    · exact Nat.le_add_right _ _
    · exact Nat.le_trans (ih later) (Nat.le_add_left _ _)

theorem tallyAll_le_of_sublist {fewer : List Tree} (sub : fewer.Sublist parts) :
    tallyAll b fewer ≤ tallyAll b parts := by
  induction sub with
  | slnil => exact Nat.le_refl _
  | cons t _ ih =>
    rw [tallyAll_cons]
    exact Nat.le_trans ih (Nat.le_add_left _ _)
  | cons_cons t _ ih =>
    rw [tallyAll_cons, tallyAll_cons]
    exact Nat.add_le_add_left ih _

theorem tally_host (same : t.children = parts) :
    (t.info.declaredNames.map Binder.hoisted).count b + tallyAll b parts ≤ t.tally b := by
  obtain ⟨id, info, children⟩ := t
  change children = _ at same
  subst same
  rw [tally_node]
  change (info.declaredNames.map _).count b + _ ≤ _
  omega

theorem tallyAll_children (same : t.children = parts) : tallyAll b parts ≤ t.tally b :=
  Nat.le_trans (Nat.le_add_left _ _) (tally_host same)

theorem tally_code {params code : Tree} (isHost : t.is .fn ∨ t.is .catchClause)
    (same : t.children = [params, code]) :
    (t.info.declaredNames.map Binder.hoisted).count b +
      (params.spelled.map Binder.param).count b + code.tally b ≤ t.tally b := by
  obtain ⟨id, info, children⟩ := t
  change children = _ at same
  subst same
  rw [tally_node]
  change (info.declaredNames.map _).count b + _ + _ ≤ _
  have params : parameters info [params, code] = params.spelled := by
    unfold parameters
    rcases isHost with isOp | isOp
    all_goals rw [symbol_of_is isOp]
  simp only [params, tallyAll_cons]
  omega

theorem tallyAll_eq_zero (none : ∀ part ∈ parts, part.tally b = 0) : tallyAll b parts = 0 := by
  induction parts with
  | nil => exact tallyAll_nil
  | cons part parts ih =>
    have ⟨here, others⟩ := forall_mem_cons.mp none
    rw [tallyAll_cons, here, ih others]

/-- What no node introduces is not introduced by a tree. -/
theorem tally_eq_zero {P : Tree → Prop}
    (none : ∀ id info children, P (.node id info children) →
      b ∉ info.declaredNames.map Binder.hoisted ∧ b ∉ (parameters info children).map Binder.param ∧
        ∀ child ∈ children, P child) (holds : P t) : t.tally b = 0 := by
  induction t with
  | node id info children ih =>
    obtain ⟨hoisted, params, below⟩ := none id info children holds
    rw [tally_node, count_eq_zero.mpr hoisted, count_eq_zero.mpr params,
      tallyAll_eq_zero fun child member => ih child member (below child member)]

/-- Trees have no labels. -/
theorem tally_label {text : String} (t : Tree) : t.tally (.label text) = 0 :=
  tally_eq_zero (P := fun _ => True) (by simp) trivial

end Tree

namespace Lowering

namespace GenState

/-- How often the innermost host still has to introduce something. -/
def held (b : Binder) (s : GenState) : Nat :=
  (s.frame.map Binder.hoisted).count b

/-- How often something has been given out; a label can be that of a block or of a loop. -/
def given (b : Binder) (s : GenState) : Nat :=
  ((List.range s.temps).map fun n => Binder.hoisted s!"$t{n + 1}").count b +
    ((List.range s.labels).flatMap fun n =>
      [Binder.label s!"do${n + 1}", Binder.label s!"loop${n + 1}"]).count b

variable {b : Binder} {s : GenState}

theorem given_withTemp : s.withTemp.given b = s.given b + [Binder.hoisted s.nextTemp].count b := by
  simp only [given, withTemp, range_succ, map_append, count_append, nextTemp,
    map_cons, map_nil]
  omega

theorem held_withTemp_le :
    s.withTemp.held b ≤ s.held b + [Binder.hoisted s.nextTemp].count b := by
  rw [held, held, frame, frame, withTemp]
  cases s.hosts with
  | nil => exact Nat.zero_le _
  | cons host outer => simp [count_append]

/-- A temporary that is given out is at most owed to the innermost host. -/
theorem balance_withTemp : s.withTemp.held b + s.given b ≤ s.held b + s.withTemp.given b := by
  have held := held_withTemp_le (b := b) (s := s)
  rw [given_withTemp]
  omega

theorem balance_withTemps (count : Nat) :
    (s.withTemps count).held b + s.given b ≤ s.held b + (s.withTemps count).given b := by
  induction count generalizing s with
  | zero => exact Nat.le_refl _
  | succ count ih =>
    have first := balance_withTemp (b := b) (s := s)
    have rest := ih (s := s.withTemp)
    rw [withTemps]
    omega

@[simp] theorem held_withLabel : s.withLabel.held b = s.held b := by rfl

@[simp] theorem held_enter (target : JumpTarget) : (s.enter target).held b = s.held b := by rfl

@[simp] theorem given_enter (target : JumpTarget) : (s.enter target).given b = s.given b := by rfl

@[simp] theorem held_exit : s.exit.held b = s.held b := by rfl

@[simp] theorem given_exit : s.exit.given b = s.given b := by rfl

@[simp] theorem held_mark (label : String) : (s.mark label).held b = s.held b := by rfl

@[simp] theorem given_mark (label : String) : (s.mark label).given b = s.given b := by rfl

@[simp] theorem held_enterHost : s.enterHost.held b = 0 := by rfl

@[simp] theorem given_enterHost : s.enterHost.given b = s.given b := by rfl

@[simp] theorem given_exitHost : s.exitHost.given b = s.given b := by rfl

@[simp] theorem held_jumps {jumps : List JumpTarget} :
    held b { s with jumps } = s.held b := by rfl

@[simp] theorem given_jumps {jumps : List JumpTarget} :
    given b { s with jumps } = s.given b := by rfl

theorem given_withLabel (kind : JumpKind) :
    s.given b + [Binder.label (s.nextLabel kind)].count b ≤ s.withLabel.given b := by
  simp only [given, withLabel, range_succ, flatMap_append, count_append,
    flatMap_cons, flatMap_nil, append_nil]
  cases kind <;> simp only [nextLabel, count_cons, count_nil] <;> omega

end GenState

variable {b : Binder} {t : Tree} {ts : List Tree}

theorem Opens.tally {parts : List Tree} (opens : Opens t parts) : tallyAll b parts ≤ t.tally b := by
  cases opens with
  | literal => exact Nat.zero_le _
  | parts => exact tallyAll_children rfl
  | line _ same | member _ same => exact tallyAll_children same
  | entry _ same =>
    exact Nat.le_trans (tallyAll_le_of_sublist (sublist_cons_self _ _)) (tallyAll_children same)
  | other _ found =>
    refine Nat.le_trans (tallyAll_le_of_sublist ?_) (tallyAll_children rfl)
    exact singleton_sublist.mpr (mem_of_getElem? found)
  | pattern _ same =>
    refine Nat.le_trans (tallyAll_le_of_sublist ?_) (tallyAll_children same)
    exact singleton_sublist.mpr (.head _)

/-- What a node is opened to introduces nothing that the node does not introduce. -/
theorem Unfolds.tally {us : List Tree} (unfolds : Unfolds ts us) :
    tallyAll b us ≤ tallyAll b ts := by
  induction unfolds with
  | nil => exact Nat.le_refl _
  | keep t _ ih => exact Nat.add_le_add_left ih _
  | opened opens _ ih =>
    rw [tallyAll_append] at ih
    exact Nat.le_trans ih (Nat.add_le_add_right opens.tally _)

@[simp] theorem map_fst_lines (dest : Dest) (ts : List Tree) :
    (lines dest ts).map Prod.fst = ts := by
  induction ts using lines.induct with
  | case1 | case2 => rfl
  | case3 t next ts ih => rw [lines, map_cons, ih]

@[simp] theorem fst_comp_pair (dest : Dest) : (Prod.fst ∘ fun t : Tree => (t, dest)) = id :=
  rfl

@[simp] theorem map_fst_zip_nextTemps (s : GenState) :
    (ts.zip (s.nextTemps ts.length)).map Prod.fst = ts :=
  map_fst_zip (Nat.le_of_eq (length_nextTemps s _).symm)

theorem tally_take (t : Tree) : tallyAll b (t.children.take 1) ≤ t.tally b :=
  Nat.le_trans (tallyAll_le_of_sublist (take_sublist 1 _)) (tallyAll_children rfl)

/-! ## Statements -/

section Statements

variable {names : List String} {es : List Expr} {body start : List Stmt} {label : String}

theorem tally_assigns (fits : names.length = es.length) :
    Stmt.tally b (assigns names es) = Expr.tally b es := by
  induction names generalizing es with
  | nil =>
    cases es with
    | nil => simp [assigns]
    | cons => cases fits
  | cons name names ih =>
    cases es with
    | nil => cases fits
    | cons e es =>
      have rest := ih (Nat.succ.inj fits)
      rw [assigns] at rest
      rw [assigns, zip_cons_cons, map_cons, Stmt.tally_cons, Stmt.tally_assign, rest,
        ← Expr.tally_cons]

theorem Delivered.tally {dest : Dest} (delivered : Delivered dest es body) :
    Stmt.tally b body = Expr.tally b es := by
  cases delivered with
  | discard e | dropped names | ret e => simp
  | into fits => exact tally_assigns fits

@[simp] theorem tally_declaring :
    Stmt.tally b (declaring names body) =
      (names.map Binder.hoisted).count b + Stmt.tally b body := by
  unfold declaring
  split
  · simp
  · rw [Stmt.tally_cons, Stmt.tally_decl]

theorem tally_marked {used : Bool} :
    Stmt.tally b (marked label used body) ≤ [Binder.label label].count b + Stmt.tally b body := by
  cases used with
  | false | true => simp [marked]

theorem tally_leaving : Stmt.tally b (leaving label body) = Stmt.tally b body := by
  unfold leaving
  split
  · rfl
  · simp

theorem tally_endlessly :
    Stmt.tally b [endlessly label body] = [Binder.label label].count b + Stmt.tally b body := by
  simp [endlessly, tally_leaving, Expr.tally, Expr.parts]

@[simp] theorem tally_looping :
    Stmt.tally b (looping label names start body) =
      (names.map Binder.hoisted).count b + Stmt.tally b start +
        ([Binder.label label].count b + Stmt.tally b body) := by
  unfold looping
  rw [← tally_declaring, ← tally_endlessly]
  split
  case h_1 none => simp [none]
  case h_2 => rw [Stmt.tally_block, Stmt.tally_append]

end Statements

/-! ## Tasks -/

/-- How often the trees of a task introduce something. -/
@[simp] def Task.tally (b : Binder) : Task → Nat
  | .values ts => tallyAll b ts
  | .runs jobs => tallyAll b (jobs.map Prod.fst)
  | .body t _ | .other t _ => t.tally b
  | .hosted host inner => (host.declaredNames.map Binder.hoisted).count b + inner.tally b
  | .targets pairs => tallyAll b (pairs.map Prod.fst)
  | .tried code _ clauses => code.tally b + tallyAll b clauses

/--
What has been generated for a task and what is owed to the host behind it, against what the task
and the host had before it.
-/
def Balanced (b : Binder) (task : Task) (s : GenState) (a : List Stmt) (es : List Expr)
    (s' : GenState) : Prop :=
  Stmt.tally b a + Expr.tally b es + s'.held b + s.given b ≤
    task.tally b + s.held b + s'.given b

theorem Made.balanced {task : Task} {s s' : GenState} {a : List Stmt} {es : List Expr}
    (made : Made task s a es s') : Balanced b task s a es s' := by
  unfold Balanced
  induction made with
  | noValues | name | declared | noTargets | noRuns | silent | returnedNothing => simp
  | moreValues _ _ before after | moreRuns _ _ before after =>
    simp at before after ⊢
    omega
  | @spilled _ _ s₁ _ _ _ _ _ before =>
    have temp := GenState.balance_withTemp (b := b) (s := s₁)
    rw [Expr.tally_append, Expr.tally_cons] at before
    rw [Stmt.tally_append, Stmt.tally_assign, Expr.tally_append, Expr.tally_ident_cons]
    omega
  | valuePlaced _ _ before =>
    rwa [Expr.tally_withSpan]
  | @through _ s _ _ _ _ before =>
    have temp := GenState.balance_withTemp (b := b) (s := s)
    simp at before ⊢
    omega
  | composed operands _ composed before =>
    have whole := operands.unfolds.tally (b := b)
    simp [composed.tally_eq] at before whole ⊢
    omega
  | @lazily _ _ _ _ s₁ _ _ _ _ _ test _ parts _ _ tests before after =>
    have temp := GenState.balance_withTemp (b := b) (s := s₁)
    have whole := tallyAll_children (b := b) parts
    have tested : Expr.tally b [test] = 0 := by
      rcases tests with rfl | rfl
      · exact Expr.tally_ident
      · exact Expr.tally_unary.trans Expr.tally_ident
    rw [Stmt.tally_append, Stmt.tally_cons, Stmt.tally_assign, Stmt.tally_ifThen, tested,
      Stmt.tally_block, Stmt.tally_append, Stmt.tally_assign, Expr.tally_ident]
    simp at before after whole ⊢
    omega
  | function isFunction parts _ _ before =>
    have whole := tally_code (b := b) (.inl isFunction) parts
    simp at before ⊢
    omega
  | @elements t _ _ _ _ _ _ before | @dropped t _ _ _ _ _ before =>
    have whole := tallyAll_children (b := b) (t := t) rfl
    simp at before ⊢
    omega
  | property _ parts _ _ _ before | assigned _ parts _ _ _ before =>
    have whole := tallyAll_children (b := b) parts
    simp at before whole ⊢
    omega
  | @assignedThrough _ _ _ elements s _ _ _ _ _ parts several run _ before after =>
    have whole := tallyAll_children (b := b) parts
    have temps := GenState.balance_withTemps (b := b) (s := s) elements.length
    have targets := several.unfolds.tally (b := b)
    simp at before after whole targets ⊢
    omega
  | moreTargets target _ before after =>
    rw [Stmt.tally_append, Stmt.tally_cons, Stmt.tally_expr,
      (Expr.Composed.assign _ _).tally_eq, Expr.tally_cons, Expr.tally_ident]
    simp at before after ⊢
    omega
  | placed _ _ ih => simpa only [Stmt.tally_map_withSpan] using ih
  | delivered _ delivered before =>
    simp [delivered.1.tally] at before ⊢
    omega
  | alone _ parts _ before | tried _ parts _ before | returned _ parts _ before
  | thrown _ parts _ before =>
    have whole := tallyAll_children (b := b) parts
    simp at before whole ⊢
    omega
  | @block t _ _ _ _ _ _ before | @bodyBlock t _ _ _ _ _ _ before =>
    have whole := tally_host (b := b) (t := t) rfl
    simp at before ⊢
    omega
  | @hosted host inner s s₁ _ inside before =>
    have outer : s₁.exitHost.held b = s.held b := by
      rw [GenState.held, GenState.frame, inside.grows.hosts_exitHost]
      rfl
    simp [outer, count_append] at before ⊢
    rw [GenState.held] at before
    omega
  | bodyLine _ ih | otherOnly _ ih | otherBlock _ ih => simpa using ih
  | chosen _ parts _ first _ before after =>
    have whole := tallyAll_children (b := b) parts
    simp at before after whole ⊢
    omega
  | chosenElse _ parts found contents first second _ before middle after =>
    have whole := tallyAll_children (b := b) parts
    have clause := tally_le_of_mem (b := b) (mem_of_find?_eq_some found)
    have other := tallyAll_children (b := b) contents
    simp at before middle after whole other ⊢
    omega
  | whilst _ parts first _ before after | whilstTrue _ parts first _ before after =>
    have whole := tallyAll_children (b := b) parts
    simp [-append_assoc] at before after whole ⊢
    omega
  | @doBlock t _ s _ a _ _ before =>
    have whole := tally_host (b := b) (t := t) rfl
    have label := GenState.given_withLabel (b := b) (s := s) .doBlock
    refine Nat.le_trans (Nat.add_le_add_right (Nat.add_le_add_right
      (Nat.add_le_add_right tally_marked _) _) _) ?_
    simp at before ⊢
    omega
  | @endless t _ _ s _ _ _ parts _ before =>
    have whole := tally_host (b := b) parts
    have label := GenState.given_withLabel (b := b) (s := s) .loop
    simp at before whole ⊢
    omega
  | @started t _ _ _ _ _ s _ _ _ _ _ parts starts first _ before after =>
    have whole := tally_host (b := b) parts
    have head := tallyAll_children (b := b) starts
    have label := GenState.given_withLabel (b := b) (s := s) .loop
    simp at before after whole head ⊢
    omega
  | @startedOutside t _ names _ _ _ s _ _ _ _ _ parts starts first _ before after =>
    have whole := tally_host (b := b) parts
    have head := tallyAll_children (b := b) starts
    have label := GenState.given_withLabel (b := b) (s := s) .loop
    have temps := GenState.balance_withTemps (b := b) (s := s.withLabel) names.spelled.length
    have copies : names.spelled.length =
        ((s.withLabel.nextTemps names.spelled.length).map Expr.ident).length := by
      rw [length_map, length_nextTemps]
    simp [tally_assigns copies] at before after whole head temps ⊢
    omega
  | tryCode _ ih => simpa [Stmt.tallyHandler, Stmt.tallyFinalizer] using ih
  | tryCatch isCatch parts spelled first _ before after =>
    have whole := tally_code (b := b) (.inr isCatch) parts
    simp [spelled, Stmt.tallyHandler] at before after whole ⊢
    omega
  | tryFinally _ parts first _ before after =>
    have whole := tallyAll_children (b := b) parts
    simp [Stmt.tallyFinalizer] at before after whole ⊢
    omega
  | @given t _ _ _ _ _ _ _ _ _ before | @givenBack t _ _ _ _ _ _ _ _ _ _ before
  | @next t _ _ _ _ _ _ _ _ _ _ before =>
    have whole := tally_take (b := b) t
    simp at before ⊢
    omega
  | left => simp

end Lowering

end Offside
