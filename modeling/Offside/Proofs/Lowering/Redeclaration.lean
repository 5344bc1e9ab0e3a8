import Offside.Proofs.Binding.Distinct
import Offside.Proofs.Lowering.Temporaries
import Offside.Proofs.Program.Bodies

/-!
# Names that a program declares again

A list of statements declares its names at one place, and no name twice. The names of a function
body differ from the parameters, but for a name that an indented body declares again: the body has
a scope of its own in the source, and none in the program.
-/

namespace Offside

open List

/--
A list of statements with one declaration at most, of different names. Parameters are different
names and are not declared again, apart from those of a function or handler that binding has not
looked at, and those that an indented body declares.
-/
structure Body.Distinct (t : Tree) (body : Body) : Prop where
  single : body.declarations.length ≤ 1
  distinct : body.declared.Nodup
  params : body.params.Nodup ∨ t.Overlooks body.params
  apart : ∀ name ∈ body.params, name ∈ body.declared →
    t.Redeclares body.params name ∨ t.Overlooks body.params ∧ Lowering.IsTemp name

namespace Lowering

/-! ## Temporaries of hosts -/

namespace GenState.Orderly

variable {s : GenState}

theorem enterHost (orderly : s.Orderly) : s.enterHost.Orderly := by
  intro host member
  rcases mem_cons.mp member with rfl | outer
  · exact ⟨[], ⟨nodup_nil, forall_mem_nil _⟩, rfl⟩
  · exact orderly host outer

/-- The temporaries of the innermost host. -/
theorem frame (orderly : s.Orderly) : s.frame.Nodup ∧ ∀ name ∈ s.frame, IsTemp name := by
  rw [GenState.frame]
  cases hosts : s.hosts with
  | nil => exact ⟨nodup_nil, forall_mem_nil _⟩
  | cons first outer =>
    obtain ⟨given, between, rfl⟩ := orderly first (hosts ▸ mem_cons_self)
    refine ⟨between.1.map fun n m => number_inj, fun name listed => ?_⟩
    obtain ⟨n, _, same⟩ := mem_map.mp listed
    exact ⟨n, same.symm⟩

end GenState.Orderly

theorem Made.orderly {task : Task} {s s' : GenState} {a : List Stmt} {es : List Expr}
    (made : Made task s a es s') (orderly : s.Orderly) : s'.Orderly :=
  made.grows.orderly orderly

/-! ## Declarations of a list -/

/-- Statements that declare nothing, or some names and temporaries at one place. -/
def Hoists (names : List String) (a : List Stmt) : Prop :=
  a.filterMap Stmt.decl? = [] ∨ ∃ temps, a.filterMap Stmt.decl? = [names ++ temps] ∧
    (names ++ temps).Nodup ∧ ∀ temp ∈ temps, IsTemp temp

namespace Hoists

variable {names params : List String} {a b : List Stmt} {whole : Tree} {label : String}

theorem of_quiet (quiet : Stmt.Quiet a) : Hoists names a :=
  .inl (Stmt.filterMap_decl? quiet)

theorem append (hoists : Hoists names a) (quiet : Stmt.Quiet b) : Hoists names (a ++ b) := by
  rwa [Hoists, filterMap_append, Stmt.filterMap_decl? quiet, append_nil]

theorem behind (hoists : Hoists names b) (quiet : Stmt.Quiet a) : Hoists names (a ++ b) := by
  rwa [Hoists, filterMap_append, Stmt.filterMap_decl? quiet, nil_append]

theorem leaving (hoists : Hoists names a) : Hoists names (leaving label a) := by
  unfold Lowering.leaving
  split
  · exact hoists
  · exact hoists.append (by simp [Stmt.Quiet, Stmt.opens])

/-- The names of a host and its temporaries in front of statements that declare nothing. -/
theorem declaring {temps : List String} (quiet : Stmt.Quiet a) (distinct : names.Nodup)
    (unmarked : ∀ name ∈ names, Text.Unmarked name) (fresh : temps.Nodup)
    (isTemp : ∀ temp ∈ temps, IsTemp temp) : Hoists names (declaring (names ++ temps) a) := by
  have both : (names ++ temps).Nodup := by
    refine nodup_append.mpr ⟨distinct, fresh, ?_⟩
    rintro name listed _ given rfl
    exact not_isTemp_of_unmarked (unmarked name listed) (isTemp name given)
  unfold Lowering.declaring
  split
  case h_1 => exact of_quiet quiet
  case h_2 =>
    refine .inr ⟨temps, ?_, both, isTemp⟩
    have declares : (Stmt.decl (names ++ temps)).decl? = some (names ++ temps) := rfl
    rw [filterMap_cons_some declares, Stmt.filterMap_decl? quiet]

/-- The body of a function or of a handler that has not been looked at, or has proper parameters. -/
theorem body (hoists : Hoists names a)
    (known : (params.Nodup ∧ ∀ name ∈ params, Text.Unmarked name) ∨ whole.Overlooks params)
    (apart : ∀ name ∈ params, name ∈ names → whole.Redeclares params name) :
    Body.Distinct whole ⟨params, a⟩ := by
  have noParams : params.Nodup ∨ whole.Overlooks params := known.imp_left And.left
  rcases hoists with none | ⟨temps, one, distinct, isTemp⟩
  · have nothing : Body.declared ⟨params, a⟩ = [] := congrArg List.flatten none
    constructor
    · exact (congrArg List.length none).trans_le (Nat.zero_le 1)
    · exact nothing ▸ nodup_nil
    · exact noParams
    · exact fun name _ declared => absurd (nothing ▸ declared) not_mem_nil
  · have same : Body.declared ⟨params, a⟩ = names ++ temps := by
      rw [Body.declared, Body.declarations, one, flatten_singleton]
    constructor
    · exact Nat.le_of_eq (congrArg List.length one)
    · exact same ▸ distinct
    · exact noParams
    · intro name isParam declared
      rw [same, mem_append] at declared
      rcases declared with listed | given
      · exact .inl (apart name isParam listed)
      · rcases known with proper | overlooked
        · exact absurd (isTemp name given) (not_isTemp_of_unmarked (proper.2 name isParam))
        · exact .inr ⟨overlooked, isTemp name given⟩

theorem listed (hoists : Hoists names a) : Body.Distinct whole ⟨[], a⟩ :=
  hoists.body (.inl ⟨nodup_nil, forall_mem_nil _⟩) (forall_mem_nil _)

theorem listed_of_quiet (quiet : Stmt.Quiet a) : Body.Distinct whole ⟨[], a⟩ :=
  (of_quiet quiet : Hoists [] a).listed

end Hoists

/-! ## Hosts and bodies -/

section Hosts

variable {t : Tree} {host : Info} {inner : Task} {dest : Dest} {s s' : GenState} {a : List Stmt}
  {es : List Expr}

def Tidy (host : Info) : Prop :=
  host.declaredNames.Nodup ∧ host.Owns Text.Unmarked

theorem Tidy.declaring (tidy : Tidy host) (quiet : Stmt.Quiet a) (orderly : s.Orderly) :
    Hoists host.declaredNames (declaring (host.declaredNames ++ s.frame) a) :=
  .declaring quiet tidy.1 tidy.2 orderly.frame.1 orderly.frame.2

theorem Made.hoists_hosted (made : Made (.hosted host inner) s a es s') (quiet : inner.isQuiet)
    (tidy : Tidy host) (orderly : s.Orderly) : Hoists host.declaredNames a := by
  cases made with
  | hosted inside => exact tidy.declaring (inside.quiet quiet) (inside.orderly orderly.enterHost)

/-- A body declares what it hosts if it is an indented block, and nothing otherwise. -/
theorem Made.hoists_body (made : Made (.body t dest) s a es s') (tidy : Tidy t.info)
    (orderly : s.Orderly) :
    Stmt.Quiet a ∨ t.isBlock .block = true ∧ s'.hosts = s.hosts ∧
      Hoists t.info.declaredNames a := by
  cases made with
  | bodyBlock isBlock hosted =>
    refine .inr ⟨isBlock, ?_, hosted.hoists_hosted trivial tidy orderly⟩
    cases hosted with
    | hosted inside => exact inside.grows.hosts_exitHost
  | bodyLine run => exact .inl (run.quiet trivial)

theorem Made.exists_hoists (made : Made (.body t dest) s a es s') (tidy : Tidy t.info)
    (orderly : s.Orderly) : ∃ names, Hoists names a := by
  rcases made.hoists_body tidy orderly with quiet | ⟨_, _, hoists⟩
  · exact ⟨[], .of_quiet quiet⟩
  · exact ⟨_, hoists⟩

/-- The host of a body has nothing of its own if the body is an indented block. -/
theorem Made.hoists_code (made : Made (.hosted host (.body t dest)) s a es s') (tidy : Tidy host)
    (tidyBody : Tidy t.info) (bare : t.isBlock .block = true → host.Bare) (orderly : s.Orderly) :
    Hoists host.declaredNames a ∨ t.isBlock .block = true ∧ Hoists t.info.declaredNames a := by
  cases made with
  | @hosted _ _ _ s₁ _ inside =>
    rcases inside.hoists_body tidyBody orderly.enterHost with quiet | ⟨isBlock, hosts, hoists⟩
    · exact .inl (tidy.declaring quiet (inside.orderly orderly.enterHost))
    · have noTemps : s₁.frame = [] := by
        rw [GenState.frame, hosts]
        rfl
      have noNames : host.declaredNames = [] := bare isBlock
      rw [noTemps, noNames]
      exact .inr ⟨isBlock, hoists⟩

end Hosts

/-! ## Parts of a tree -/

end Lowering

/-- A part of a tree that generation can come to. -/
def Tree.Within (whole t : Tree) : Prop :=
  ∀ sub ∈ t.reached, sub ∈ whole.reached

theorem Tree.code?_eq {t params code : Tree} (isCode : t.is .fn = true ∨ t.is .catchClause = true)
    (parts : t.children = [params, code]) : t.code? = some (params.spelled, code) := by
  rw [code?, parts]
  exact if_pos (Bool.or_eq_true_iff.mpr isCode)

namespace Tree.Within

open Lowering

variable {whole t : Tree} {ts : List Tree} {op : Builtin}

section

variable (within : whole.Within t)
include within

theorem here : t ∈ whole.reached :=
  within t (mem_reached_self t)

theorem below {child : Tree} (noPair : t.symbol ≠ .builtin .pair) (member : child ∈ t.children) :
    whole.Within child :=
  fun sub inside => within sub (mem_reached_of_child (absurd · noPair) member inside)

theorem parts (isOp : t.is op = true) (noPair : op ≠ .pair) (parts : t.children = ts) :
    ∀ child ∈ ts, whole.Within child := by
  intro child member
  refine within.below (fun isPair => ?_) (parts ▸ member)
  rw [is, Info.is, show t.info.symbol = _ from isPair] at isOp
  exact noPair (Option.some.inj (of_decide_eq_true isOp)).symm

/-- The second of two children can be reached also if the first is a key. -/
theorem second {first second : Tree} (parts : t.children = [first, second]) :
    whole.Within second := by
  by_cases isPair : t.symbol = .builtin .pair
  · exact fun sub inside => within sub (mem_reached_of_value isPair parts mem_cons_self inside)
  · exact within.below isPair (parts ▸ mem_cons_of_mem first mem_cons_self)

theorem taken {dest : Dest} (isOp : t.is op = true) (noPair : op ≠ .pair) :
    ∀ child ∈ ((t.children.take 1).map (·, dest)).map Prod.fst, whole.Within child := by
  rw [map_map, fst_comp_pair, map_id]
  exact fun child member => within.parts isOp noPair rfl child (mem_of_mem_take member)

theorem lines {kind : BlockKind} {dest : Dest} (isBlock : t.isBlock kind = true) :
    ∀ child ∈ (lines dest t.children).map Prod.fst, whole.Within child := by
  intro child member
  rw [map_fst_lines] at member
  refine within.below (fun isPair => ?_) member
  rw [Tree.isBlock, Info.isBlock, show t.info.symbol = _ from isPair] at isBlock
  cases of_decide_eq_true isBlock

omit within in
theorem opens (within : whole.Within t) (opens : Opens t ts) : ∀ part ∈ ts, whole.Within part := by
  cases opens with
  | literal => exact forall_mem_nil _
  | parts isOp simple =>
    refine within.parts isOp ?_ rfl
    rintro rfl
    cases simple
  | entry _ same => exact forall_mem_singleton.mpr (within.second same)
  | line isBlock same =>
    rw [← same, ← map_fst_lines .discard t.children]
    exact within.lines isBlock
  | member isMember same => exact within.parts isMember (by decide) same
  | other isElse found =>
    exact forall_mem_singleton.mpr (within.parts isElse (by decide) rfl _ (mem_of_getElem? found))
  | pattern declares same =>
    refine forall_mem_singleton.mpr ?_
    rcases declares with isOp | isOp
    all_goals exact within.parts isOp (by decide) same _ (.head _)

theorem unfolds (unfolds : Unfolds [t] ts) : ∀ part ∈ ts, whole.Within part :=
  unfolds.all opens (forall_mem_singleton.mpr within)

end

end Tree.Within

namespace Lowering

def Task.trees : Task → List Tree
  | .values ts => ts
  | .runs jobs => jobs.map Prod.fst
  | .body t _ | .other t _ => [t]
  | .hosted _ inner => inner.trees
  | .targets pairs => pairs.map Prod.fst
  | .tried code _ clauses => code :: clauses

section Loops

variable {P : Body → Prop} {names : List String} {a b : List Stmt} {es : List Expr} {label : String}

theorem holds_declaring (holds : Stmt.Holds P a) : Stmt.Holds P (declaring names a) := by
  unfold declaring
  split
  · exact holds
  · exact Stmt.holds_cons.mpr ⟨Stmt.holds_decl, holds⟩

theorem holds_assigns (holds : Expr.Holds P es) : Stmt.Holds P (assigns names es) := by
  induction names generalizing es with
  | nil => exact Stmt.holds_nil
  | cons name names ih =>
    cases es with
    | nil => exact Stmt.holds_nil
    | cons e es =>
      have parts := Expr.holds_cons.mp holds
      exact Stmt.holds_cons.mpr ⟨Stmt.holds_assign.mpr parts.1, ih parts.2⟩

theorem Delivered.holds {dest : Dest} (delivered : Delivered dest es a) (holds : Expr.Holds P es) :
    Stmt.Holds P a := by
  cases delivered with
  | discard => exact Stmt.holds_expr.mpr holds
  | dropped => exact Stmt.holds_nil
  | ret => exact Stmt.holds_ret.mpr holds
  | into => exact holds_assigns holds

/-- A loop is a list of statements of its own, in a block with its variables if it has any. -/
theorem holds_looping (start : Stmt.Holds P a) (body : Stmt.Holds P b)
    (round : P ⟨[], leaving label b⟩)
    (whole : P ⟨[], declaring names a ++ [endlessly label b]⟩) :
    Stmt.Holds P (looping label names a b) := by
  have rounds : Stmt.Holds P (leaving label b) := by
    unfold leaving
    split
    · exact body
    · exact Stmt.holds_append.mpr ⟨body, Stmt.holds_leave⟩
  have loop : Stmt.Holds P [endlessly label b] := by
    rw [endlessly, Stmt.holds_labeled, Stmt.holds_whileLoop, Stmt.holds_block]
    exact ⟨Expr.holds_literal, round, rounds⟩
  unfold looping
  split
  · exact loop
  · exact Stmt.holds_block.mpr ⟨whole, Stmt.holds_append.mpr ⟨holds_declaring start, loop⟩⟩

end Loops

section Whole

variable {whole t : Tree} {dest : Dest} {s s' : GenState} {a : List Stmt} {es : List Expr}

/-- A tree whose names are introduced properly wherever generation can come. -/
structure Sound (whole : Tree) : Prop where
  parted : whole.Parted
  owns : whole.Everywhere (Info.Owns Text.Unmarked)

section

variable (sound : Sound whole) (within : whole.Within t)
include sound within

theorem Sound.tidy : Tidy t.info :=
  ⟨(sound.parted t within.here).distinct, sound.owns.reached t within.here⟩

theorem Sound.body (made : Made (.body t dest) s a es s') (orderly : s.Orderly) :
    Body.Distinct whole ⟨[], a⟩ := by
  obtain ⟨names, hoists⟩ := made.exists_hoists (sound.tidy within) orderly
  exact hoists.listed

/-- The body of a function or of a handler, with its parameters. -/
theorem Sound.code {params : List String} {code : Tree} (isCode : t.code? = some (params, code))
    (inside : whole.Within code) (made : Made (.hosted t.info (.body code dest)) s a es s')
    (orderly : s.Orderly) : Body.Distinct whole ⟨params, a⟩ := by
  have apart := sound.parted t within.here
  have known := apart.params _ isCode
  rcases made.hoists_code (sound.tidy within) (sound.tidy inside) (apart.block _ isCode) orderly
    with hoists | ⟨isBlock, hoists⟩
  · exact hoists.body known fun name isParam listed =>
      absurd listed (apart.apart _ isCode name isParam)
  · refine hoists.body known fun name _ listed => ⟨(params, code), ?_, rfl, isBlock, listed⟩
    exact mem_filterMap.mpr ⟨t, within.here, isCode⟩

/-- The variables of a loop in front of what starts it. -/
theorem Sound.loop (quiet : Stmt.Quiet a) {label : String} {b : List Stmt} :
    Body.Distinct whole ⟨[], declaring t.info.declaredNames a ++ [endlessly label b]⟩ := by
  have tidy := sound.tidy within
  have hoists : Hoists _ (declaring (t.info.declaredNames ++ []) a) :=
    .declaring quiet tidy.1 tidy.2 nodup_nil (forall_mem_nil _)
  rw [append_nil] at hoists
  exact (hoists.append (by simp [endlessly, Stmt.Quiet, Stmt.opens])).listed

end

end Whole

theorem Made.distinct {whole : Tree} (sound : Sound whole) {task : Task} {s s' : GenState}
    {a : List Stmt} {es : List Expr} (made : Made task s a es s') (orderly : s.Orderly)
    (within : ∀ t ∈ task.trees, whole.Within t) :
    Stmt.Holds (Body.Distinct whole) a ∧ Expr.Holds (Body.Distinct whole) es := by
  induction made with
  | noValues | noTargets | noRuns | silent => exact ⟨Stmt.holds_nil, Expr.holds_nil⟩
  | name | declared => exact ⟨Stmt.holds_nil, Expr.holds_ident⟩
  | returnedNothing => exact ⟨Stmt.holds_retNone, Expr.holds_nil⟩
  | left => exact ⟨Stmt.holds_leave, Expr.holds_nil⟩
  | moreValues first _ before after =>
    have parts := forall_mem_append.mp within
    have one := before orderly parts.1
    have two := after (first.orderly orderly) parts.2
    exact ⟨Stmt.holds_append.mpr ⟨one.1, two.1⟩, Expr.holds_append.mpr ⟨one.2, two.2⟩⟩
  | spilled _ ih =>
    have inside := ih orderly within
    rw [Expr.holds_append, Expr.holds_cons] at inside ⊢
    rw [Stmt.holds_append, Stmt.holds_assign]
    exact ⟨⟨inside.1, inside.2.2.1⟩, inside.2.1, Expr.holds_ident, inside.2.2.2⟩
  | valuePlaced _ _ ih =>
    rw [Expr.holds_withSpan]
    exact ih orderly within
  | through _ _ ih => exact ⟨(ih ((Grows.withTemp _).orderly orderly) within).1, Expr.holds_ident⟩
  | composed operands _ composed ih =>
    have inside := ih orderly ((within _ (.head _)).unfolds operands.unfolds)
    exact ⟨inside.1, inside.2.composed composed⟩
  | property isMember parts _ _ _ ih =>
    have below := (within _ (.head _)).parts isMember (by decide) parts
    rw [Expr.holds_property]
    exact ih orderly (forall_mem_singleton.mpr (below _ (.head _)))
  | @lazily t left right _ _ _ _ _ _ _ test isLogical parts first second tests before after =>
    have here := within t mem_cons_self
    have below : ∀ child ∈ [left, right], whole.Within child := by
      rcases isLogical with isOp | isOp
      all_goals exact here.parts isOp (by decide) parts
    rw [forall_mem_cons] at below
    have one := before orderly (forall_mem_singleton.mpr below.1)
    have two := after ((Grows.withTemp _).orderly (first.orderly orderly)) below.2
    have tested : Expr.Holds (Body.Distinct whole) [test] := by
      rcases tests with rfl | rfl
      · exact Expr.holds_ident
      · exact Expr.holds_unary.mpr Expr.holds_ident
    rw [Stmt.holds_append, Stmt.holds_cons, Stmt.holds_assign, Stmt.holds_ifThen,
      Stmt.holds_block, Stmt.holds_append, Stmt.holds_assign]
    refine ⟨⟨one.1, one.2, tested, Hoists.listed_of_quiet ?_, two.1, two.2⟩, Expr.holds_ident⟩
    exact (second.quiet trivial).append (by simp [Stmt.Quiet, Stmt.opens, Stmt.assign])
  | function isFunction parts _ inner ih =>
    have here := within _ (.head _)
    have code := (forall_mem_cons.mp (here.parts isFunction (by decide) parts)).2
    have distinct := sound.code here (Tree.code?_eq (.inl isFunction) parts)
      (code _ (.head _)) inner orderly
    exact ⟨Stmt.holds_nil, Expr.holds_function.mpr ⟨distinct, (ih orderly code).1⟩⟩
  | elements isTuple _ ih =>
    exact ih orderly ((within _ (.head _)).parts isTuple (by decide) rfl)
  | assigned isAssign parts _ _ _ ih =>
    have below := (within _ (.head _)).parts isAssign (by decide) parts
    exact ⟨(ih orderly (forall_mem_cons.mp below).2).1, Expr.holds_idents _⟩
  | assignedThrough isAssign parts several run _ before after =>
    have below := (within _ (.head _)).parts isAssign (by decide) parts
    rw [forall_mem_cons] at below
    have one := before ((Grows.withTemps _ _).orderly orderly) below.2
    have two := after (run.orderly ((Grows.withTemps _ _).orderly orderly)) (by
      rw [Task.trees, map_fst_zip_nextTemps]
      exact below.1.unfolds several.unfolds)
    exact ⟨Stmt.holds_append.mpr ⟨one.1, two.1⟩, Expr.holds_idents _⟩
  | @moreTargets _ temp _ _ _ _ _ _ _ target _ before after =>
    have parts := forall_mem_cons.mp within
    have one := before orderly (forall_mem_singleton.mpr parts.1)
    have two := after (target.orderly orderly) parts.2
    have copy : Expr.Holds (Body.Distinct whole) [.ident temp] := Expr.holds_ident
    have copied := Expr.holds_cons.mpr ⟨one.2, copy⟩
    rw [Stmt.holds_append, Stmt.holds_cons, Stmt.holds_expr]
    exact ⟨⟨one.1, copied.composed (.assign _ _), two.1⟩, Expr.holds_nil⟩
  | moreRuns first _ before after =>
    have parts := forall_mem_cons.mp within
    have one := before orderly (forall_mem_singleton.mpr parts.1)
    have two := after (first.orderly orderly) parts.2
    exact ⟨Stmt.holds_append.mpr ⟨one.1, two.1⟩, Expr.holds_nil⟩
  | placed _ _ ih => exact ⟨(ih orderly within).1.map_withSpan _, Expr.holds_nil⟩
  | delivered _ delivered ih =>
    have inside := ih orderly within
    exact ⟨Stmt.holds_append.mpr ⟨inside.1, delivered.1.holds inside.2⟩, Expr.holds_nil⟩
  | dropped isTuple _ ih =>
    have below := (within _ (.head _)).parts isTuple (by decide) rfl
    rw [Task.trees, map_map, fst_comp_pair, map_id] at ih
    exact ih orderly below
  | alone isTuple only _ ih =>
    exact ih orderly ((within _ (.head _)).parts isTuple (by decide) only)
  | returned isOp parts _ ih | thrown isOp parts _ ih =>
    have below := (within _ (.head _)).parts isOp (by decide) parts
    have inside := ih orderly (forall_mem_singleton.mpr (below _ (.head _)))
    refine ⟨Stmt.holds_append.mpr ⟨inside.1, ?_⟩, Expr.holds_nil⟩
    simpa only [Stmt.holds_ret, Stmt.holds_throw] using inside.2
  | block isBlock inner ih =>
    have here := within _ (.head _)
    have hoists := inner.hoists_hosted trivial (sound.tidy here) orderly
    have lines := (ih orderly (here.lines isBlock)).1
    exact ⟨Stmt.holds_block.mpr ⟨hoists.listed, lines⟩, Expr.holds_nil⟩
  | hosted _ ih => exact ⟨holds_declaring (ih orderly.enterHost within).1, Expr.holds_nil⟩
  | bodyBlock isBlock _ ih => exact ih orderly ((within _ (.head _)).lines isBlock)
  | bodyLine _ ih | otherOnly _ ih => exact ih orderly within
  | otherBlock body ih =>
    have listed := sound.body (within _ (.head _)) body orderly
    exact ⟨Stmt.holds_block.mpr ⟨listed, (ih orderly within).1⟩, Expr.holds_nil⟩
  | chosen isIf parts _ first second before after =>
    have below := (within _ (.head _)).parts isIf (by decide) parts
    simp only [forall_mem_cons] at below
    have one := before orderly (forall_mem_singleton.mpr below.1)
    have two := after (first.orderly orderly) (forall_mem_singleton.mpr below.2.1)
    have listed := sound.body below.2.1 second (first.orderly orderly)
    rw [Stmt.holds_append, Stmt.holds_ifThen, Stmt.holds_block]
    exact ⟨⟨one.1, one.2, listed, two.1⟩, Expr.holds_nil⟩
  | @chosenElse _ _ _ clause _ _ _ _ _ _ _ _ _ _ _ _ isIf parts found contents first second _ before
      middle after =>
    have below := (within _ (.head _)).parts isIf (by decide) parts
    simp only [forall_mem_cons] at below
    have inside := below.2.2 clause (mem_of_find?_eq_some found)
    have isElse := List.find?_some found
    have other := inside.parts isElse (by decide) contents _ (.head _)
    have one := before orderly (forall_mem_singleton.mpr below.1)
    have two := middle (first.orderly orderly) (forall_mem_singleton.mpr below.2.1)
    have three := after (second.orderly (first.orderly orderly))
      (forall_mem_singleton.mpr other)
    have listed := sound.body below.2.1 second (first.orderly orderly)
    rw [Stmt.holds_append, Stmt.holds_ifElse, Stmt.holds_block]
    exact ⟨⟨one.1, one.2, ⟨listed, two.1⟩, three.1⟩, Expr.holds_nil⟩
  | whilst isWhile parts first second before after =>
    have below := (within _ (.head _)).parts isWhile (by decide) parts
    rw [forall_mem_cons] at below
    have one := before orderly (forall_mem_singleton.mpr below.1)
    have two := after (first.orderly orderly) below.2
    have listed := sound.body (below.2 _ (.head _)) second (first.orderly orderly)
    rw [Stmt.holds_append, Stmt.holds_whileLoop, Stmt.holds_block]
    exact ⟨⟨one.1, one.2, listed, two.1⟩, Expr.holds_nil⟩
  | @whilstTrue _ _ _ _ _ _ _ _ _ test isWhile parts first second before after =>
    have below := (within _ (.head _)).parts isWhile (by decide) parts
    rw [forall_mem_cons] at below
    have one := before orderly (forall_mem_singleton.mpr below.1)
    have two := after (first.orderly orderly) below.2
    obtain ⟨names, hoists⟩ := second.exists_hoists
      (sound.tidy (below.2 _ (.head _))) (first.orderly orderly)
    have round := hoists.behind ((first.quiet trivial).append
      (b := [.ifThen (.unary .not test) (.leave none) none]) (by simp [Stmt.Quiet, Stmt.opens]))
    rw [Stmt.holds_whileLoop, Stmt.holds_block, Stmt.holds_append, Stmt.holds_append,
      Stmt.holds_ifThen, Expr.holds_unary]
    exact ⟨⟨Expr.holds_literal, round.listed,
      ⟨one.1, one.2, Stmt.holds_leave⟩, two.1⟩, Expr.holds_nil⟩
  | doBlock isDo inner ih =>
    have here := within _ (.head _)
    have hoists := inner.hoists_hosted trivial (sound.tidy here) orderly
    have block := Stmt.holds_block.mpr ⟨hoists.listed, (ih orderly (here.lines isDo)).1⟩
    unfold marked
    split
    · exact ⟨Stmt.holds_labeled.mpr block, Expr.holds_nil⟩
    · exact ⟨block, Expr.holds_nil⟩
  | endless isLoop parts inner ih =>
    have here := within _ (.head _)
    have below := here.parts isLoop (by decide) parts
    obtain ⟨names, hoists⟩ := inner.exists_hoists
      (sound.tidy (below _ (.head _))) orderly
    refine ⟨holds_looping Stmt.holds_nil (ih orderly below).1 hoists.leaving.listed ?_,
      Expr.holds_nil⟩
    exact sound.loop here (forall_mem_nil _)
  | started isLoop parts starts first inner before after =>
    have here := within _ (.head _)
    have below := forall_mem_cons.mp (here.parts isLoop (by decide) parts)
    have one := before orderly (forall_mem_singleton.mpr (below.1.second starts))
    have two := after (first.orderly orderly) below.2
    obtain ⟨names, hoists⟩ := inner.exists_hoists
      (sound.tidy (below.2 _ (.head _))) (first.orderly orderly)
    refine ⟨holds_looping one.1 two.1 hoists.leaving.listed ?_, Expr.holds_nil⟩
    exact sound.loop here (first.quiet trivial)
  | @startedOutside _ _ names _ _ _ s _ _ _ _ isLoop parts starts first inner before after =>
    have here := within _ (.head _)
    have below := forall_mem_cons.mp (here.parts isLoop (by decide) parts)
    have filled := (Grows.withTemps s.withLabel names.spelled.length).orderly orderly
    have reached := first.orderly filled
    have one := before filled
      (forall_mem_singleton.mpr (below.1.second starts))
    have two := after reached below.2
    obtain ⟨names, hoists⟩ := inner.exists_hoists
      (sound.tidy (below.2 _ (.head _))) reached
    refine ⟨Stmt.holds_append.mpr ⟨one.1, ?_⟩, Expr.holds_nil⟩
    refine holds_looping (holds_assigns (Expr.holds_idents _)) two.1 hoists.leaving.listed ?_
    exact sound.loop here (quiet_assigns _ _)
  | tried isTry parts _ ih =>
    exact ih orderly ((within _ (.head _)).parts isTry (by decide) parts)
  | tryCode body ih =>
    have listed := sound.body (within _ (.head _)) body orderly
    exact ⟨Stmt.holds_tryBlock.mpr ⟨⟨listed, (ih orderly within).1⟩, trivial, trivial⟩,
      Expr.holds_nil⟩
  | tryCatch isCatch parts spelled first body before after =>
    have inside := forall_mem_append.mp (forall_mem_cons.mp within).2
    have here := inside.2 _ (.head _)
    have code := (forall_mem_cons.mp (here.parts isCatch (by decide) parts)).2
    have one := (before orderly
      (forall_mem_cons.mpr ⟨within _ (.head _), inside.1⟩)).1
    have two := after (first.orderly orderly) code
    have distinct := sound.code here (Tree.code?_eq (.inr isCatch) parts)
      (code _ (.head _)) body (first.orderly orderly)
    rw [spelled] at distinct
    rw [Stmt.holds_tryBlock] at one ⊢
    exact ⟨⟨one.1, ⟨distinct, two.1⟩, one.2.2⟩, Expr.holds_nil⟩
  | tryFinally isFinally parts first body before after =>
    have inside := forall_mem_append.mp (forall_mem_cons.mp within).2
    have code := (inside.2 _ (.head _)).parts isFinally (by decide) parts
    have one := (before orderly
      (forall_mem_cons.mpr ⟨within _ (.head _), inside.1⟩)).1
    have two := after (first.orderly orderly) code
    have listed := sound.body (code _ (.head _)) body (first.orderly orderly)
    rw [Stmt.holds_tryBlock] at one ⊢
    exact ⟨⟨one.1, one.2.1, listed, two.1⟩, Expr.holds_nil⟩
  | given isGive _ _ ih =>
    have inside := ih orderly ((within _ (.head _)).taken isGive (by decide))
    exact ⟨Stmt.holds_append.mpr ⟨inside.1, Stmt.holds_leave⟩, Expr.holds_nil⟩
  | givenBack isGive _ _ _ ih =>
    exact ih orderly ((within _ (.head _)).taken isGive (by decide))
  | next isNext _ _ _ ih =>
    have inside := ih orderly ((within _ (.head _)).taken isNext (by decide))
    exact ⟨Stmt.holds_append.mpr ⟨inside.1, Stmt.holds_next⟩, Expr.holds_nil⟩

/-- The program of a tree whose names are introduced properly. -/
theorem distinct_of_run {t : Tree} {program : Program} (sound : Sound t) (isRoot : t.isBlock .root)
    (generated : run t = .ok program) : ∀ body ∈ program.bodies, body.Distinct t := by
  obtain ⟨s, made⟩ := made_of_run generated
  have within : t.Within t := fun _ inside => inside
  have orderly : GenState.start.Orderly := forall_mem_nil _
  intro body member
  rcases mem_cons.mp member with rfl | inside
  · exact (made.hoists_hosted trivial (sound.tidy within) orderly).listed
  · exact (made.distinct sound orderly (within.lines isRoot)).1 body inside

end Lowering

/--
Every list of statements in a compiled program declares its names at one place and no name twice.
The parameters of a function or handler are different names, and its body declares none of them,
unless it is an indented body that declares the name again, or binding has not looked at it.
-/
theorem distinct_of_compile {env : Environment}
    (respecting : ∀ routine ∈ env.routines, routine.Respects (Info.Proper fun _ => True))
    {name : String} {text : List Char} {options : CompileOptions} {program : Program}
    (compiled : (compile name text env options).program = some program) :
    ∀ body ∈ program.bodies, body.Distinct (compile name text env options).unit.tree := by
  have calls : env.CallsAdmitted fun _ => True := fun _ _ _ _ => trivial
  obtain ⟨unit, proper, isRoot, clean, same, generated⟩ :=
    proper_of_compile calls trivial respecting compiled
  obtain ⟨final, bound⟩ := SourceUnit.bound_check proper isRoot clean
  have ready := SourceUnit.ready_check proper isRoot clean
  have sound : Lowering.Sound (unit.bind env).check.tree :=
    ⟨bound.isParted ready.formed, ready.owned⟩
  have isBlock := decide_eq_true (congrArg Symbol.block? ready.isRoot)
  rw [same] at generated ⊢
  exact Lowering.distinct_of_run sound isBlock generated

/-- The indented body of a function declares its parameter again. -/
def shadowing : Compilation :=
  compile "main" "var f = fn (x)\n  var x = 1\n  x".toList .standard ⟨true, false, true, none⟩

theorem distinct_shadowing :
    ∃ program ∈ shadowing.program, ∃ body ∈ program.bodies, body.params = ["x"] ∧
      body.Distinct shadowing.unit.tree := by
  have found : ∃ program ∈ shadowing.program, ∃ body ∈ program.bodies, body.params = ["x"] := by
    decide +kernel
  obtain ⟨program, compiled, body, member, params⟩ := found
  have respecting : ∀ routine ∈ Environment.standard.routines,
      routine.Respects (Info.Proper fun _ => True) :=
    fun routine member => absurd member (Array.not_mem_empty routine)
  refine ⟨program, compiled, body, member, params, ?_⟩
  unfold shadowing at compiled ⊢
  exact distinct_of_compile respecting compiled body member

/-- The function declares a name that is its parameter. -/
theorem redeclared_shadowing :
    ∃ program ∈ shadowing.program, ∃ body ∈ program.bodies, "x" ∈ body.params ∧
      "x" ∈ body.declared := by
  decide +kernel

end Offside
