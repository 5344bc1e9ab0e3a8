import Offside.Proofs.Lowering.Values

/-!
# Generation follows the rules

Whatever generation makes of a tree, the rules make it too, and if it makes nothing of it, it comes
to a spot that does not fit.
-/

namespace Offside.Lowering

open List Offside.Tree
open Fares (Returns)

variable {t : Tree} {op : Builtin} {s : GenState} {reason : Prop} {aims : List Aim} {sink : Sink}

namespace Below

variable {left : Tree} {ts : List Tree} {level : Nat}

variable {below : Below} (sound : below.Sound level)
include sound

/-! ## Statements -/

/-- The values of a node for temporaries. -/
theorem fares_lower_temps (t : Tree) (count : Nat) (here : s.aims = aims) :
    Makes level ⟨.into count, aims, t⟩ (s.withTemps count)
      (below.lower t (.into (s.nextTemps count)))
      (.run t (.into (s.nextTemps count))) := by
  have made := sound.lower t (.into (s.nextTemps count)) ((s.aims_withTemps count).trans here)
  rwa [Dest.sink, length_nextTemps] at made

theorem fares_choice (isIf : t.symbol = .builtin .ifThen) (dest : Dest) (here : s.aims = aims) :
    Makes (level + 1) ⟨dest.sink, aims, t⟩ s (below.choice t dest) (.run t dest) := by
  have found : t.is .ifThen = true := Info.is_of_symbol isIf
  unfold choice
  rcases parts : t.children with _ | ⟨condition, _ | ⟨branch, rest⟩⟩
  case cons.cons =>
    refine .bind ((fares_value sound condition here).blame
      (.above (Spot.parts_choice isIf parts) (.head _))) fun ⟨before, test⟩ s₁ first => ?_
    refine .bind ((fares_body sound branch dest (first.stays here)).blame
      (.above (Spot.parts_choice isIf parts) (.tail _ (.head _)))) fun consequent s₂ second => ?_
    replace here := second.stays (first.stays here)
    dsimp only
    split
    case h_1 noElse =>
      rw [pure_bind]
      exact .pure (.chosen found parts noElse first second)
    case h_2 clause isElse =>
      split
      case h_1 inside =>
        exact .malformed (.unfit (by simp [Spot.isFit, isIf, parts, isElse, inside]))
      case h_2 inner more inside =>
        have isPart : (⟨dest.sink, aims, inner⟩ : Spot) ∈ Spot.parts ⟨dest.sink, aims, t⟩ := by
          simp [Spot.parts_choice isIf parts, isElse, inside]
        split
        case isTrue innerIf =>
          refine .bind ((sound.branch inner dest here innerIf).blame (.above rfl isPart))
            fun stmts s₃ third => ?_
          split
          case h_1 only =>
            exact .pure (.chosenElse found parts isElse inside first second third.otherOnly)
          case h_2 =>
            exact .pure (.chosenElse found parts isElse inside first second
              third.bodyLine.otherBlock)
        case isFalse =>
          refine .bind ((fares_body sound inner dest here).blame (.above rfl isPart))
            fun stmts s₃ third => ?_
          exact .pure (.chosenElse found parts isElse inside first second third.otherBlock)
  all_goals exact .malformed (.unfit (by simp [Spot.isFit, isIf, parts, takesOperands, binaryOp?]))

theorem fares_whileLoop (isWhile : t.symbol = .builtin .whileLoop) (dest : Dest)
    (here : s.aims = aims) :
    Makes (level + 1) ⟨sink, aims, t⟩ s (below.whileLoop t) (.run t dest) := by
  have found : t.is .whileLoop = true := Info.is_of_symbol isWhile
  unfold whileLoop
  rcases parts : t.children with _ | ⟨condition, _ | ⟨code, _ | ⟨third, rest⟩⟩⟩
  case cons.cons.nil =>
    have body {s' : GenState} (here : s'.aims = aims) :
        Makes (level + 1) ⟨sink, aims, t⟩ s' (below.body code .discard) (.body code .discard) :=
      (fares_body sound code .discard here).blame
        (.above (Spot.parts_whileLoop isWhile parts) (.tail _ (.head _)))
    dsimp only
    split
    case isTrue pure =>
      refine .bind ((sound.build condition here (by rintro ⟨⟩) (isExpression_of_isPure pure)).blame
        (.above (Spot.parts_whileLoop isWhile parts) (.head _))) fun ⟨before, test⟩ s₁ first => ?_
      refine .bind (body (first.stays here)) fun stmts s₂ second => ?_
      exact .pure (.whilst found parts first second)
    · refine .bind ((fares_value sound condition here).blame
        (.above (Spot.parts_whileLoop isWhile parts) (.head _))) fun ⟨before, test⟩ s₁ first => ?_
      refine .bind (body (first.stays here)) fun stmts s₂ second => ?_
      exact .pure (.whilstTrue found parts first second)
  all_goals
    exact .malformed (.unfit (by simp [Spot.isFit, isWhile, parts, takesOperands, binaryOp?]))

theorem fares_doBlock (isDo : t.symbol = .block .doBlock) (dest : Dest) (here : s.aims = aims) :
    Makes (level + 1) ⟨dest.sink, aims, t⟩ s (below.doBlock t dest) (.run t dest) := by
  rw [doBlock]
  refine .next (fares_freshLabel .doBlock s) ?_
  let target : JumpTarget := ⟨.doBlock, s.nextLabel .doBlock, dest, [], false⟩
  have inside : (s.withLabel.enter target).aims = ⟨.doBlock, dest.sink, 0⟩ :: aims :=
    congrArg (_ :: ·) here
  refine .bind (P := fun (r : List Stmt × JumpTarget) s' =>
    Made (.run t dest) s (marked (s.nextLabel .doBlock) r.2.used r.1) [] s') ?_ ?_
  · refine fares_inTarget ((fares_sequence sound t dest (fun job member =>
      .above (Spot.parts_doBlock isDo) (mem_map_of_mem member)) inside).mono fun a s₂ made => ?_)
    have same : (s₂.jumps.headD target).used = s₂.jumps.head?.any JumpTarget.used := by
      cases s₂.jumps <;> rfl
    rw [same]
    exact .doBlock (decide_eq_true (congrArg Symbol.block? isDo)) made
  · rintro ⟨a, left⟩ s₂ made
    rw [marked] at made
    dsimp only at made ⊢
    split at made
    · rw [if_pos ‹_›]
      exact .pure made
    · rw [if_neg ‹_›]
      exact .pure made

theorem fares_looping {code : Tree} {target : JumpTarget} {label : String} {names : List String}
    {before start : List Stmt} {post : List Stmt → GenState → Prop}
    (blamed : Spot.Blocks level ⟨.dropped, target.aim :: aims, code⟩ → reason)
    (here : s.aims = aims) (made : ∀ b s', Made (.body code .discard) (s.enter target) b [] s' →
      post (before ++ looping label names start b) s'.exit) :
    Fares s (do
      let (stmts, _) ← inTarget target (below.body code .discard)
      let stmts :=
        if stmts.getLast?.any Stmt.isTerminal then stmts else stmts ++ [.leave (some label)]
      let start := match names with
        | [] => start
        | names => .decl names :: start
      let whole := Stmt.labeled label (.whileLoop (.literal (.bool true)) (.block stmts))
      match start with
      | [] => return before ++ [whole]
      | start => return before ++ [.block (start ++ [whole])]) reason post := by
  refine .bind (P := fun (r : List Stmt × JumpTarget) s' =>
    post (before ++ looping label names start r.1) s') ?_ ?_
  · have inside : (s.enter target).aims = target.aim :: aims := congrArg (_ :: ·) here
    exact fares_inTarget (((fares_body sound code .discard inside).blame blamed).mono made)
  · rintro ⟨b, left⟩ s' holds
    unfold looping declaring at holds
    dsimp only at holds ⊢
    cases names with
    | cons name rest => exact .pure holds
    | nil =>
      cases start with
      | nil | cons first rest => exact .pure holds

theorem fares_loop (isLoop : t.symbol = .builtin .loop) (dest : Dest) (here : s.aims = aims) :
    Makes (level + 1) ⟨dest.sink, aims, t⟩ s (below.loop t dest) (.run t dest) := by
  have found : t.is .loop = true := Info.is_of_symbol isLoop
  unfold loop
  rcases parts : t.children with _ | ⟨first, _ | ⟨code, _ | ⟨third, rest⟩⟩⟩
  case nil | cons.cons.cons =>
    exact .malformed (.unfit (by simp [Spot.isFit, isLoop, parts, takesOperands, binaryOp?]))
  case cons.nil =>
    dsimp only
    rw [pure_bind]
    refine .next (fares_freshLabel .loop s) ?_
    dsimp only
    rw [pure_bind]
    refine fares_looping (s := s.withLabel) sound
      (.above (Spot.parts_endless isLoop parts) (.head _))
      here fun b s' made => ?_
    exact .endless found parts made
  case cons.cons.nil =>
    dsimp only
    rw [pure_bind]
    refine .next (fares_freshLabel .loop s) ?_
    dsimp only
    unfold loopHead
    obtain ⟨id, info, children⟩ := first
    rcases children with _ | ⟨names, _ | ⟨init, _ | ⟨more, others⟩⟩⟩
    case cons.cons.nil =>
      refine .bind (P := fun (r : List String × List Stmt × List Stmt) s₁ =>
        r.1 = names.spelled ∧ s₁.aims = aims ∧ ∀ b s', Made (.body code .discard) (s₁.enter
          ⟨.loop, s.nextLabel .loop, dest, names.spelled, false⟩) b [] s' →
          Made (.run t dest) s
            (r.2.1 ++ looping (s.nextLabel .loop) t.info.declaredNames r.2.2 b) [] s'.exit) ?_ ?_
      · refine .next ((fares_namesOf names _).blame fun no =>
          .unfit (by simp [Spot.isFit, isLoop, parts, no])) ?_
        split
        · refine .next (fares_freshTemps names.spelled _) ?_
          refine .bind ((fares_lower_temps (s := s.withLabel) sound init _ here).blame
            (.above (Spot.parts_loop isLoop parts) (.head _))) fun before s₃ first => ?_
          have after := first.stays ((s.withLabel.aims_withTemps _).trans here)
          refine .pure ⟨rfl, after, fun b s' made => ?_⟩
          have copies := Made.startedOutside found parts rfl first made
          rw [assigns, zip_map_right, map_map] at copies
          exact copies
        · refine .bind ((sound.lower (s := s.withLabel) init (.into _) here).blame
            (.above (Spot.parts_loop isLoop parts) (.head _))) fun start s₂ first => ?_
          exact .pure ⟨rfl, first.stays here, fun b s' made => .started found parts rfl first made⟩
      · rintro ⟨loopVars, before, start⟩ s₁ ⟨rfl, here, made⟩
        exact fares_looping sound
          (.above (Spot.parts_loop isLoop parts) (.tail _ (.head _))) here made
    all_goals
      exact .malformed (.unfit (by simp [Spot.isFit, isLoop, parts, takesOperands, binaryOp?]))

theorem fares_tryClauses {code : Tree} {dest : Dest} {seen clauses : List Tree} {s₀ : GenState}
    {a : List Stmt} {handler : Option Handler} {finalizer : Option (List Stmt)}
    (fit : ∀ clause ∈ clauses, isTryClause clause = false → reason)
    (each : ∀ clause ∈ clauses, ∀ job, clauseBody? dest.sink clause = some job →
      Spot.Blocks level ⟨job.1, aims, job.2⟩ → reason)
    (made : Made (.tried code dest seen) s₀ [.tryBlock a handler finalizer] [] s)
    (here : s.aims = aims) :
    Fares s (below.tryClauses dest clauses handler finalizer) reason fun r s' =>
      Made (.tried code dest (seen ++ clauses)) s₀ [.tryBlock a r.1 r.2] [] s' := by
  induction clauses generalizing seen s handler finalizer with
  | nil => exact .pure (by rwa [append_nil])
  | cons clause rest ih =>
    obtain ⟨fit, fits⟩ := forall_mem_cons.mp fit
    obtain ⟨blamed, others⟩ := forall_mem_cons.mp each
    rw [tryClauses, append_cons]
    split
    case h_1 param inner isCatch parts =>
      refine .next ((fares_namesOf param s).blame fun no =>
        fit (by simp [isTryClause, isCatch, parts, no])) ?_
      have body (name : Option String) (spelled : param.spelled = name.toList) :
          Fares s (do
            let stmts ← inHost clause.info (below.body inner dest)
            below.tryClauses dest rest (some (.mk name stmts)) finalizer) reason fun r s'' =>
            Made (.tried code dest (seen ++ [clause] ++ rest)) s₀ [.tryBlock a r.1 r.2] [] s'' := by
        refine .bind (P := fun b s'' => Made (.hosted clause.info (.body inner dest)) s b [] s'')
          ?_ fun b s₂ within => ?_
        · refine fares_inHost (((fares_body (s := s.enterHost) sound inner dest here).blame ?_).mono
            fun _ _ made => made.hosted)
          exact blamed (dest.sink, inner) (by simp [clauseBody?, parts])
        · exact ih fits others (.tryCatch (decide_eq_true isCatch) parts spelled made within)
            (within.stays here)
      split
      case h_1 none =>
        rw [pure_bind]
        exact body _ none
      case h_2 name one =>
        rw [pure_bind]
        exact body (some name) one
      case h_3 several single =>
        refine .malformed (fit ?_)
        rcases spelled : param.spelled with _ | ⟨first, _ | ⟨second, more⟩⟩
        · exact (several spelled).elim
        · exact (single first spelled).elim
        · simp [isTryClause, isCatch, parts, spelled]
    case h_2 inner isFinally parts =>
      refine .bind ((fares_body sound inner .discard here).blame
        (blamed (.dropped, inner) (by simp [clauseBody?, parts]))) fun b s₁ within => ?_
      exact ih fits others (.tryFinally (decide_eq_true isFinally) parts made within)
        (within.stays here)
    case h_3 =>
      refine .malformed (fit ?_)
      unfold isTryClause
      split
      · exact absurd ‹_› (by simp_all)
      · simp_all
      · rfl

theorem fares_tryBlock (isTry : t.symbol = .builtin .tryBlock) (dest : Dest)
    (here : s.aims = aims) :
    Makes (level + 1) ⟨dest.sink, aims, t⟩ s (below.tryBlock t dest) (.run t dest) := by
  unfold tryBlock
  cases parts : t.children with
  | nil => exact .malformed (.unfit (by simp [Spot.isFit, isTry, parts, takesOperands, binaryOp?]))
  | cons code clauses =>
    refine .bind ((fares_body sound code dest here).blame
      (.above (Spot.parts_tryBlock isTry parts) (.head _))) fun block s₁ made => ?_
    refine .bind
      (fares_tryClauses sound (fun clause member no => .unfit ?_) (fun clause member job found =>
      .above (Spot.parts_tryBlock isTry parts)
        (mem_cons_of_mem _ (mem_map_of_mem (mem_filterMap.mpr ⟨clause, member, found⟩))))
      made.tryCode (made.stays here)) fun r s₂ whole => ?_
    · have some : clauses.all isTryClause = false := all_eq_false.mpr ⟨clause, member, by simp [no]⟩
      simp only [Spot.isFit, isTry, parts, some]
    · exact .pure (.tried (Info.is_of_symbol isTry) parts whole)

theorem fares_discardAll (each : ∀ t ∈ ts, Spot.Blocks level ⟨.dropped, aims, t⟩ → reason)
    (here : s.aims = aims) :
    Fares s (below.discardAll ts) reason fun a s' =>
      Made (.runs (ts.map (·, .discard))) s a [] s' := by
  induction ts generalizing s with
  | nil => exact .pure (.noRuns s)
  | cons t ts ih =>
    obtain ⟨blamed, others⟩ := forall_mem_cons.mp each
    rw [discardAll]
    refine .bind ((sound.lower t .discard here).blame blamed) fun first s₁ made => ?_
    refine .bind (ih others (made.stays here)) fun later s₂ there => ?_
    exact .pure (made.moreRuns there)

theorem fares_tuple (isTuple : t.symbol = .builtin .tuple) (dest : Dest) (here : s.aims = aims) :
    Makes (level + 1) ⟨dest.sink, aims, t⟩ s (below.tuple t dest) (.run t dest) := by
  have found : t.is .tuple = true := Info.is_of_symbol isTuple
  have all : Spot.parts ⟨dest.sink, aims, t⟩ = _ := Spot.parts_tuple isTuple
  unfold tuple
  split
  case h_1 =>
    exact (fares_discardAll sound (fun _ member => .above all (mem_map_of_mem member)) here).mono
      fun _ _ made => made.dropped found
  case h_2 name element only =>
    rw [only] at all
    exact ((sound.lower element (.into [name]) here).mono
      fun _ _ made => made.alone found only).blame
      (.above all (.head _))
  case h_3 names _ _ =>
    split
    case isTrue wrong =>
      exact .malformed_bind (.unfit (by simp [Spot.isFit, isTuple, Dest.sink, Sink.admits, wrong]))
    case isFalse same =>
      refine .bind (fares_keepAll sound (fun _ member => .above all (mem_map_of_mem member)) here)
        fun r s₁ made => ?_
      refine .pure ((made.1.elements found).delivered ⟨.into ?_, ?_⟩)
      · rw [made.2]
        exact not_not.mp same
      · rw [isHanded, isTuple]
        rfl
  case h_4 => exact .malformed (.unfit (by simp [Spot.isFit, isTuple, Dest.sink]))

theorem fares_assignAll {pairs : List (Tree × String)}
    (each : ∀ pair ∈ pairs,
      (isPlace pair.1 = true → Spot.Blocks level ⟨.one, aims, pair.1⟩) → reason)
    (here : s.aims = aims) :
    Fares s (below.assignAll pairs) reason fun a s' => Made (.targets pairs) s a [] s' := by
  induction pairs generalizing s with
  | nil => exact .pure (.noTargets s)
  | cons pair rest ih =>
    obtain ⟨blamed, others⟩ := forall_mem_cons.mp each
    rw [assignAll]
    refine .bind ((fares_target sound pair.1 false here).blame blamed)
      fun ⟨before, place⟩ s₁ made => ?_
    refine .bind (ih others (made.stays here)) fun later s₂ there => ?_
    exact .pure (.moreTargets made there)

omit sound in
theorem isHanded_assign (isAssign : t.symbol = .builtin .assign) (dest : Dest) :
    isHanded dest t = true := by
  rw [isHanded, isAssign]
  rfl

omit sound in
/-- The values of names that have been assigned are handed on. -/
theorem fares_handOn {s₀ : GenState} {a : List Stmt} {results : List String} {dest : Dest}
    (made : Made (.values [t]) s₀ a (results.map .ident) s) (isAssign : t.symbol = .builtin .assign)
    (unfit : dest.sink.admits results.length = false ∨ dest.sink = .returned → reason) :
    Fares s (do
      match dest with
      | .discard => return a
      | .into names =>
        if names.length ≠ results.length then malformed left .tupleWidth
        return a ++ (names.zip results).map fun pair => .assign pair.1 (.ident pair.2)
      | .ret => malformed left .tupleWidth) reason fun b s' => Made (.run t dest) s₀ b [] s' := by
  have handed (dest : Dest) := isHanded_assign isAssign dest
  cases dest with
  | discard =>
    refine .pure ?_
    have dropped := made.delivered ⟨.dropped results, handed _⟩
    rwa [append_nil] at dropped
  | into names =>
    dsimp only
    split
    case isTrue wrong => exact .malformed_bind (unfit (.inl (decide_eq_false wrong)))
    case isFalse same =>
      refine .pure ?_
      have fits : names.length = (results.map Expr.ident).length := by
        rw [length_map]
        exact not_not.mp same
      have delivered := made.delivered ⟨.into fits, handed _⟩
      rw [assigns, zip_map_right, map_map] at delivered
      exact delivered
  | ret => exact .malformed (unfit (.inr rfl))

omit sound in
theorem targets_of_elements {elements : List Tree} (several : Elements left elements) :
    targets left = elements := by
  have builtin {op : Builtin} (isOp : left.is op) :
      left.builtin? = some op := of_decide_eq_true isOp
  cases several with
  | tuple isTuple => rw [targets, builtin isTuple]
  | declared declares parts isTuple =>
    rcases declares with isOp | isOp <;> rw [targets, builtin isOp, parts]

omit sound in
theorem pattern_of_isNamed (named : isNamed t = true) :
    t.isPattern = true ∧ ∃ name, t.spelled = [name] := by
  rw [isNamed, Bool.and_eq_true] at named
  obtain ⟨id, info, children⟩ := t
  obtain ⟨kind, isSymbol⟩ := Info.exists_tag named.1
  obtain ⟨name, found⟩ := Option.isSome_iff_exists.mp named.2
  replace found : info.name? = some name := found
  replace isSymbol : info.symbol = .tag kind := isSymbol
  unfold isPattern spelled
  rw [isSymbol, found]
  exact ⟨rfl, name, rfl⟩

omit sound in
/-- As many names are assigned as there are targets. -/
theorem fares_namesOf_elements {elements : List Tree} (several : Elements left elements)
    (tags : ∀ element ∈ elements, element.isTag) (s : GenState) :
    Fares s (namesOf left) (∃ element ∈ elements, isNamed element = false) fun names _ =>
      names.length = elements.length := by
  have all {ts : List Tree} (tags : ∀ t ∈ ts, t.isTag) (s : GenState) :
      Fares s (namesOfAll ts) (∃ t ∈ ts, isNamed t = false) fun names _ =>
        names.length = ts.length := by
    induction ts generalizing s with
    | nil => exact .pure rfl
    | cons t ts ih =>
      obtain ⟨isTag, rest⟩ := forall_mem_cons.mp tags
      obtain ⟨kind, isSymbol⟩ := Info.exists_tag isTag
      have first : Fares s (namesOf t) (isNamed t = false) fun names _ => names.length = 1 := by
        rw [Tree.eq_node isSymbol rfl]
        refine .bind ((fares_tagName _ s).blame fun none => ?_) fun _ _ _ => .pure rfl
        rw [isNamed, none, Bool.and_false]
      rw [namesOfAll]
      refine .bind (first.blame fun no => ⟨t, .head _, no⟩) fun _ s₁ one => ?_
      refine .bind ((ih rest s₁).blame ?_) fun _ _ same => .pure ?_
      · rintro ⟨other, member, no⟩
        exact ⟨other, .tail _ member, no⟩
      · rw [length_append, one, same, length_cons, Nat.add_comm]
  cases several with
  | tuple isTuple =>
    rw [Tree.eq_node (Info.symbol_of_is isTuple) rfl]
    exact all tags s
  | declared declares parts isTuple =>
    rcases declares with isOp | isOp
    all_goals
      rw [Tree.eq_node (Info.symbol_of_is isOp) parts, Tree.eq_node (Info.symbol_of_is isTuple) rfl]
      exact all tags s

theorem fares_assignElements {right : Tree} {elements : List Tree} {dest : Dest}
    (isAssign : t.symbol = .builtin .assign) (parts : t.children = [left, right])
    (single : isSingleTarget left = false) (several : Elements left elements)
    (here : s.aims = aims) :
    Makes (level + 1) ⟨dest.sink, aims, t⟩ s (do
      let (stmts, results) ←
        if elements.all Tree.isTag then do
          let names ← namesOf left
          let stmts ← below.lower right (.into names)
          pure (stmts, names)
        else do
          let temps ← freshTemps elements
          let stmts ← below.lower right (.into temps)
          pure (stmts ++ (← below.assignAll (elements.zip temps)), temps)
      match dest with
      | .discard => return stmts
      | .into names =>
        if names.length ≠ results.length then malformed left .tupleWidth
        return stmts ++ (names.zip results).map fun pair => .assign pair.1 (.ident pair.2)
      | .ret => malformed left .tupleWidth) (.run t dest) := by
  have found : t.is .assign = true := Info.is_of_symbol isAssign
  have same := targets_of_elements several
  have all : Spot.parts ⟨dest.sink, aims, t⟩ = _ := Spot.parts_several isAssign parts single
  rw [same] at all
  have noPlace (wrong : ∃ element ∈ elements, isPlace element = false) :
      Spot.Blocks (level + 1) ⟨dest.sink, aims, t⟩ := by
    obtain ⟨element, member, no⟩ := wrong
    have some : elements.all isPlace = false := all_eq_false.mpr ⟨element, member, by simp [no]⟩
    exact .unfit (by simp [Spot.isFit, isAssign, parts, single, same, some])
  have width {results : List String} (count : results.length = elements.length)
      (no : dest.sink.admits results.length = false ∨ dest.sink = .returned) :
      Spot.Blocks (level + 1) ⟨dest.sink, aims, t⟩ := by
    rw [count] at no
    refine .unfit ?_
    rcases no with no | no <;> simp [Spot.isFit, isAssign, parts, single, same, no]
  by_cases tags : elements.all Tree.isTag
  · rw [if_pos tags]
    have isTag := all_eq_true.mp tags
    refine .bind
      (((fares_namesOf_elements several isTag s).blame ?_).and (fares_namesOf left s).ensures) ?_
    · rintro ⟨element, member, no⟩
      refine noPlace ⟨element, member, Bool.eq_false_iff.mpr fun place => ?_⟩
      rw [isNamed_of_isPlace place (isTag element member)] at no
      cases no
    rintro names s' ⟨count, rfl, rfl⟩
    have made := sound.lower right (.into left.spelled) here
    rw [Dest.sink, count] at made
    refine .bind (made.blame (.above all (.head _))) fun a s₁ run => ?_
    rw [pure_bind]
    have received : left.spelled.length = received left := by
      rw [Lowering.received, single, if_neg Bool.false_ne_true, same, count]
    have made :=
      Made.assigned found parts ⟨several.takesNames isTag, received⟩ (fun _ member => member) run
    exact fares_handOn made isAssign (width count)
  · rw [if_neg tags]
    refine .next (fares_freshTemps elements s) ?_
    refine .bind ((fares_lower_temps sound right _ here).blame (.above all (.head _)))
      fun a s₂ run => ?_
    have after := run.stays ((s.aims_withTemps _).trans here)
    refine .bind (fares_assignAll sound (fun pair member blocks => ?_) after) fun b s₃ copies => ?_
    · have isElement : pair.1 ∈ elements := (of_mem_zip member).1
      cases place : isPlace pair.1 with
      | true => exact .above all (mem_cons_of_mem _ (mem_map_of_mem isElement)) (blocks place)
      | false => exact noPlace ⟨pair.1, isElement, place⟩
    rw [pure_bind]
    exact fares_handOn (.assignedThrough found parts several run copies) isAssign
      (width (length_nextTemps s _))

omit sound in
theorem elements_of_several (several : isSingleTarget left = false) :
    (∀ inner rest, left.builtin? = some .var ∨ left.builtin? = some .const →
      left.children = inner :: rest → Elements left inner.children) ∧
    (left.builtin? ≠ some .var → left.builtin? ≠ some .const → Elements left left.children) := by
  unfold isSingleTarget at several
  constructor
  · intro inner rest declares parts
    have isTuple : inner.is .tuple := by
      rcases declares with isOp | isOp
      all_goals simpa [isOp, Tree.child?, parts] using several
    exact .declared (declares.imp decide_eq_true decide_eq_true) parts isTuple
  · intro notVar notConst
    split at several
    case h_1 isTuple => exact .tuple (decide_eq_true isTuple)
    case h_2 isVar => exact absurd isVar notVar
    case h_3 isConst => exact absurd isConst notConst
    case h_4 => cases several

theorem fares_multipleAssign {right : Tree} {dest : Dest} (isAssign : t.symbol = .builtin .assign)
    (parts : t.children = [left, right]) (several : isSingleTarget left = false)
    (here : s.aims = aims) :
    Makes (level + 1) ⟨dest.sink, aims, t⟩ s (below.multipleAssign left right dest)
      (.run t dest) := by
  obtain ⟨declared, tuple⟩ := elements_of_several several
  have nameless (declares : left.is .var ∨ left.is .const) (empty : left.children = [])
      (alone : targets left = [left]) : Spot.Blocks (level + 1) ⟨dest.sink, aims, t⟩ := by
    have noPlace : isPlace left = false := by
      refine Bool.eq_false_iff.mpr fun place => ?_
      obtain ⟨_, _, some, _⟩ := exists_of_declaring place declares
      cases empty.symm.trans some
    exact .unfit (by simp [Spot.isFit, isAssign, parts, several, alone, noPlace])
  unfold multipleAssign
  dsimp only
  split
  case h_1 inner rest isVar inside =>
    rw [pure_bind]
    exact fares_assignElements sound isAssign parts several (declared _ _ (.inl isVar) inside) here
  case h_2 inner rest isConst inside =>
    rw [pure_bind]
    exact fares_assignElements sound isAssign parts several
      (declared _ _ (.inr isConst) inside) here
  case h_3 isVar inside =>
    exact .malformed_bind
      (nameless (.inl (decide_eq_true isVar)) inside (by rw [targets, isVar, inside]))
  case h_4 isConst inside =>
    exact .malformed_bind
      (nameless (.inr (decide_eq_true isConst)) inside (by rw [targets, isConst, inside]))
  case h_5 notVar notConst noVar noConst =>
    rw [pure_bind]
    refine fares_assignElements sound isAssign parts several (tuple ?_ ?_) here
    · intro isVar
      cases inside : left.children with
      | nil => exact noVar isVar inside
      | cons inner rest => exact notVar inner rest isVar inside
    · intro isConst
      cases inside : left.children with
      | nil => exact noConst isConst inside
      | cons inner rest => exact notConst inner rest isConst inside

omit sound in
/-- A name that is assigned, perhaps where it is declared. -/
theorem fares_namesOf_place (isName : left.isTag ∨ left.is .var ∨ left.is .const) (s : GenState) :
    Returns s (namesOf left) (isPlace left = false) left.spelled s ∧
      (isPlace left = true → ∃ name, left.spelled = [name]) := by
  cases place : isPlace left with
  | false => exact ⟨(fares_namesOf left s).blame fun _ => rfl, by rintro ⟨⟩⟩
  | true =>
    have named {inner : Tree} (isNamed : isNamed inner = true) :
        Returns s (namesOf inner) (true = false) inner.spelled s ∧
          (true = true → ∃ name, inner.spelled = [name]) := by
      obtain ⟨pattern, single⟩ := pattern_of_isNamed isNamed
      exact ⟨(fares_namesOf inner s).blame fun no => pattern.symm.trans no, fun _ => single⟩
    rcases isName with isTag | declares
    · exact named (isNamed_of_isPlace place isTag)
    · obtain ⟨inner, rest, parts, isNamed⟩ := exists_of_declaring place declares
      have inside := named isNamed
      rcases declares with isOp | isOp
      all_goals
        rw [Tree.eq_node (Info.symbol_of_is isOp) parts]
        exact inside

theorem fares_assign {dest : Dest} (isAssign : t.symbol = .builtin .assign) (here : s.aims = aims) :
    Makes (level + 1) ⟨dest.sink, aims, t⟩ s (below.assign t dest) (.run t dest) := by
  have found : t.is .assign = true := Info.is_of_symbol isAssign
  unfold assign
  rcases parts : t.children with _ | ⟨left, _ | ⟨right, _ | ⟨third, rest⟩⟩⟩
  case cons.cons.nil =>
    dsimp only
    split
    case isTrue several =>
      exact fares_multipleAssign sound isAssign parts (Bool.not_eq_true' _ |>.mp several) here
    case isFalse several =>
      have single : isSingleTarget left = true := by simpa using several
      have unplaced (no : isPlace left = false) : Spot.Blocks (level + 1) ⟨dest.sink, aims, t⟩ :=
        .unfit (by simp [Spot.isFit, isAssign, parts, single, no])
      split
      case isTrue through =>
        have isName : left.isTag ∨ left.is .var ∨ left.is .const := by
          simp only [Bool.and_eq_true, Bool.or_eq_true, or_assoc] at through
          exact through.1
        have takes : TakesNames left := isName.imp_right (Or.imp_right .inl)
        obtain ⟨names, place⟩ := fares_namesOf_place isName s
        refine .next (names.blame unplaced) ?_
        split
        case h_1 none =>
          refine .malformed (unplaced (Bool.eq_false_iff.mpr fun yes => ?_))
          obtain ⟨name, same⟩ := place yes
          rw [same] at none
          cases none
        case h_2 name last =>
          refine .bind ((sound.lower right (.into [name]) here).blame
            (.above (Spot.parts_single isAssign parts single) (.tail _ (.head _))))
              fun a s₁ run => ?_
          have spelled : ∀ found ∈ [name], found ∈ left.spelled := by
            intro found member
            rw [mem_singleton.mp member]
            exact mem_of_getLast? last
          have made : Made (.values [t]) s a [.ident name] s₁ :=
            .assigned found parts ⟨takes, (if_pos single).symm⟩ spelled run
          split
          · refine .pure ?_
            have dropped := made.delivered ⟨.dropped [name], isHanded_assign isAssign _⟩
            rwa [append_nil] at dropped
          · refine .bind ((fares_emit made (isHanded_assign isAssign _)).blame fun no => .unfit ?_)
              fun b s₂ whole => .pure whole
            simp [Spot.isFit, isAssign, parts, single, no]
      case isFalse =>
        refine fares_plain sound (isHanded_assign isAssign dest) (isWritten_of_builtin isAssign rfl
          (fun _ => by rw [parts]; exact single) ?_ ?_) here
        · rintro ⟨⟩
        · simp
  all_goals
    exact .malformed (.unfit (by simp [Spot.isFit, isAssign, parts, takesOperands, binaryOp?]))

/-! ## Jumps -/

omit sound in
theorem fares_markUsed (label : String) (s : GenState) :
    Returns s (markUsed label) reason () (s.mark label) :=
  fares_modifyGet (fun s => ((), s.mark label)) s

/-- The value of a jump, if it has one. -/
theorem fares_handed {ts : List Tree} {dest : Dest} {after : List Stmt → Gen (List Stmt)}
    {post : List Stmt → GenState → Prop} (here : s.aims = aims)
    (blamed :
      ∀ value rest, ts = value :: rest → Spot.Blocks level ⟨dest.sink, aims, value⟩ → reason)
    (made : ∀ a s', Made (.runs ((ts.take 1).map (·, dest))) s a [] s' →
      Fares s' (after a) reason post) :
    Fares s (match ts with
      | value :: _ => below.lower value dest >>= after
      | [] => pure [] >>= after) reason post := by
  cases ts with
  | nil =>
    rw [pure_bind]
    exact made [] s (.noRuns s)
  | cons value rest =>
    exact .bind ((sound.lower value dest here).blame (blamed value rest rfl)) made

omit sound in
theorem JumpTarget.sink_round (target : JumpTarget) :
    Dest.sink (if target.loopVars.isEmpty then .discard else .into target.loopVars) =
      target.aim.round := by
  rw [Aim.round, JumpTarget.aim]
  cases target.loopVars <;> rfl

theorem fares_jump (isOp : t.symbol = .builtin op)
    (isJump : op = .give ∨ op = .nextRound ∨ op = .leave) (dest : Dest) (here : s.aims = aims) :
    Makes (level + 1) ⟨sink, aims, t⟩ s (below.jump t op) (.run t dest) := by
  subst here
  have found : t.builtin? = some op := congrArg Symbol.builtin? isOp
  unfold jump
  refine .next (fares_get s) ?_
  dsimp only
  rcases isJump with rfl | rfl | rfl
  case inl =>
    cases nearest : s.jumps with
    | nil => exact .malformed (.unfit (by simp [Spot.isFit, isOp, GenState.aims, nearest]))
    | cons target outer =>
      have aimed :
          s.aims.head? = some target.aim := by rw [GenState.aims, nearest, map_cons, head?_cons]
      refine fares_handed sound rfl (fun value rest parts =>
        .above (Spot.parts_give isOp parts aimed) (.head _)) fun a s₁ values => ?_
      split
      case isTrue returns =>
        exact .pure (.givenBack (decide_eq_true found) nearest returns (returns ▸ values))
      case isFalse =>
        refine .next (fares_markUsed target.label s₁) ?_
        exact .pure (.given (decide_eq_true found) nearest values)
  case inr.inl =>
    rw [if_pos rfl]
    cases isTarget : s.jumps.find? (·.kind = .loop) with
    | none =>
      have none : s.aims.any (·.kind = .loop) = false := by
        rw [GenState.aims, any_map]
        exact any_eq_false.mpr (find?_eq_none.mp isTarget)
      exact .malformed (.unfit (by simp only [Spot.isFit, isOp, none]))
    | some target =>
      have aimed : s.aims.find? (·.kind = .loop) = some target.aim := by
        rw [GenState.aims, find?_map]
        exact congrArg (Option.map JumpTarget.aim) isTarget
      refine fares_handed sound rfl (fun value rest parts =>
        .above (Spot.parts_nextRound isOp parts aimed) ?_) fun a s₁ values => ?_
      · rw [JumpTarget.sink_round]
        exact .head _
      refine .next (fares_markUsed target.label s₁) ?_
      exact .pure (.next (decide_eq_true found) isTarget rfl values)
  case inr.inr =>
    cases nearest : s.jumps with
    | nil => exact .malformed (.unfit (by simp [Spot.isFit, isOp, GenState.aims, nearest]))
    | cons target outer =>
      refine .next (fares_markUsed target.label s) ?_
      exact .pure (.left dest s (decide_eq_true found) nearest)

/-! ## Nodes -/

theorem fares_builtinStatements (isOp : t.symbol = .builtin op) (dest : Dest)
    (here : s.aims = aims) :
    Makes (level + 1) ⟨dest.sink, aims, t⟩ s (below.builtinStatements t op dest) (.run t dest) := by
  have found : t.builtin? = some op := congrArg Symbol.builtin? isOp
  have plain (handed : isHanded dest t = true) (noStatement : isStatement op = false)
      (noAssign : op ≠ .assign) (pure : op = .ifThen → isPure t = true)
      (used : op = .ifThen ∨ op = .var ∨ op = .const → dest.sink ≠ .dropped) :=
    fares_plain sound handed
      (isWritten_of_builtin isOp noStatement (absurd · noAssign) pure used) here
  have used (used : dest ≠ .discard) : dest.sink ≠ .dropped := by
    cases dest with
    | discard => exact absurd rfl used
    | _ => rintro ⟨⟩
  unfold builtinStatements
  split
  case h_1 =>
    split
    case isTrue pure =>
      rw [Bool.and_eq_true, decide_eq_true_eq] at pure
      exact plain (by rw [isHanded, isOp]; exact pure.2) rfl (by decide) (fun _ => pure.2)
        fun _ => used pure.1
    case isFalse => exact fares_choice sound isOp dest here
  case h_2 => exact fares_whileLoop sound isOp dest here
  case h_3 => exact fares_loop sound isOp dest here
  case h_4 => exact fares_tryBlock sound isOp dest here
  case h_5 => exact fares_tuple sound isOp dest here
  case h_6 => exact fares_assign sound isOp here
  case h_7 => exact fares_jump sound isOp (.inl rfl) dest here
  case h_8 => exact fares_jump sound isOp (.inr (.inl rfl)) dest here
  case h_9 => exact fares_jump sound isOp (.inr (.inr rfl)) dest here
  case h_10 =>
    split
    case h_1 parts => exact .pure (.returnedNothing dest s (decide_eq_true found) parts)
    case h_2 value rest parts =>
      refine .bind ((fares_value sound value here).blame
        (.above (Spot.parts_result isOp (.inl rfl) parts) (.head _))) fun r s₁ made => ?_
      exact .pure (.returned (decide_eq_true found) parts made)
  case h_11 =>
    split
    case h_1 parts =>
      exact .malformed (.unfit (by simp [Spot.isFit, isOp, parts, takesOperands, binaryOp?]))
    case h_2 value rest parts =>
      refine .bind ((fares_value sound value here).blame
        (.above (Spot.parts_result isOp (.inr rfl) parts) (.head _))) fun r s₁ made => ?_
      exact .pure (.thrown (decide_eq_true found) parts made)
  case h_12 => exact .pure (.silent dest s (.inl (decide_eq_true found)))
  case h_13 =>
    split
    case isTrue dropped =>
      exact .pure (.silent dest s (.inr ⟨dropped, .inl (decide_eq_true found)⟩))
    case isFalse kept =>
      exact plain (by rw [isHanded, isOp]; rfl) rfl (by decide) (by rintro ⟨⟩) fun _ => used kept
  case h_14 =>
    split
    case isTrue dropped =>
      exact .pure (.silent dest s (.inr ⟨dropped, .inr (decide_eq_true found)⟩))
    case isFalse kept =>
      exact plain (by rw [isHanded, isOp]; rfl) rfl (by decide) (by rintro ⟨⟩) fun _ => used kept
  case h_15 noIf _ _ _ _ noAssign _ _ _ _ _ _ noVar noConst =>
    refine plain ?_ ?_ noAssign (fun isIf => (noIf isIf).elim) ?_
    · rw [isHanded, isOp]
      cases op <;> first | rfl | contradiction
    · cases op <;> first | rfl | contradiction
    · rintro (isIf | isVar | isConst)
      · exact (noIf isIf).elim
      · exact (noVar isVar).elim
      · exact (noConst isConst).elim

theorem fares_node (t : Tree) (dest : Dest) (here : s.aims = aims) :
    Makes (level + 1) ⟨dest.sink, aims, t⟩ s (below.node t dest) (.run t dest) := by
  have placed (a : List Stmt) (s' : GenState) (made : Made (.run t dest) s a [] s') :
      Fares s' (pure (a.map (Stmt.withSpan (spanOf t))))
        (Spot.Blocks (level + 1) ⟨dest.sink, aims, t⟩)
        fun a s' => Made (.run t dest) s a [] s' :=
    .pure (made.placed _)
  unfold node
  split
  case h_1 isDo => exact .bind (fares_doBlock sound isDo dest here) placed
  case h_2 isBlock =>
    refine .bind (fares_sequence sound t dest (fun job member =>
      .above (Spot.parts_block isBlock) (mem_map_of_mem member)) here) fun a s₁ made => ?_
    rw [pure_bind]
    exact placed _ _ (.block (decide_eq_true (congrArg Symbol.block? isBlock)) made)
  case h_3 kind noDo noIndented isBlock =>
    refine .bind (P := fun _ _ => False) (.unsupported (.unfit ?_)) fun _ _ impossible =>
      impossible.elim
    cases kind <;> first | contradiction | simp [Spot.isFit, isBlock]
  case h_4 isSymbol | h_5 isSymbol =>
    exact .bind (P := fun _ _ => False) (.unsupported (.unfit (by simp [Spot.isFit, isSymbol])))
      fun _ _ impossible => impossible.elim
  case h_6 op isOp => exact .bind (fares_builtinStatements sound isOp dest here) placed
  case h_7 noBlock _ _ noOp =>
    have written : IsWritten dest.sink t :=
      ⟨noBlock, fun op isOp => (noOp op isOp).elim, fun isOp => (noOp _ isOp).elim,
        fun isOp => (noOp _ isOp).elim, by rintro (isOp | isOp | isOp) <;> exact (noOp _ isOp).elim⟩
    refine .bind (fares_plain sound ?_ written here) placed
    unfold isHanded
    cases isSymbol : t.symbol with
    | block kind => exact absurd isSymbol (noBlock kind)
    | builtin op => exact absurd isSymbol (noOp op)
    | _ => rfl

end Below

/-! ## Whole trees -/

theorem sound_upTo (height : Nat) : (upTo height).Sound height := by
  induction height with
  | zero =>
    have blocks (spot : Spot) : spot.Blocks 0 := by
      obtain ⟨_, _, id, info, children⟩ := spot
      intro low
      cases low
    exact ⟨fun _ _ _ => .unsupported (blocks _), fun _ _ _ _ => .unsupported (blocks _),
      fun _ _ _ _ => .unsupported (blocks _)⟩
  | succ height ih =>
    exact ⟨Below.fares_node ih,
      fun _ here used isExpression =>
        Below.fares_expression ih (isWritten_of_isExpression used isExpression) here,
      fun _ dest here isIf => Below.fares_choice ih (Info.symbol_of_is isIf) dest here⟩

/-- The program of a tree is made by the rules, inside of the root as its host. -/
theorem made_of_run {t : Tree} {program : Program} (ran : run t = .ok program) :
    ∃ s, Made (.hosted t.info (.runs (lines .discard t.children))) .start program [] s := by
  unfold run at ran
  cases result : Lowering.program t .start with
  | error e =>
    rw [StateT.run', result] at ran
    cases ran
  | ok r =>
    rw [StateT.run', result] at ran
    cases ran
    have fares : Fares .start (Lowering.program t) True fun a s =>
        Made (.hosted t.info (.runs (lines .discard t.children))) .start a [] s :=
      Below.fares_sequence (sound_upTo t.height) t .discard (fun _ _ _ => trivial) rfl
    exact ⟨r.2, fares.ensures r.1 r.2 result⟩

/-- If generation comes to no line that does not fit, there is a program. -/
theorem exists_program {t : Tree}
    (clear : ∀ job ∈ flows .dropped t.children, Spot.IsClear ⟨job.2, [], job.1⟩) :
    ∃ program, run t = .ok program := by
  have fares : Fares .start (Lowering.program t) False fun _ _ => True := by
    refine (Below.fares_sequence (sound_upTo t.height) t .discard
      (fun job member blocks => ?_) rfl).mono
      fun _ _ _ => trivial
    exact blocks (Nat.le_of_lt (Tree.height_lt_of_mem (Spot.mem_of_flows member)))
      (clear job member)
  unfold run
  cases result : Lowering.program t .start with
  | error e => exact (fares.fails e result).elim
  | ok r =>
    rw [StateT.run', result]
    exact ⟨r.1, rfl⟩

end Offside.Lowering
