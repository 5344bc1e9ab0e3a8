import Offside.Proofs.Lowering.Closed
import Offside.Proofs.Lowering.Places
import Offside.Proofs.Program.Scope

/-!
# Generated parts are well placed

Every jump that is generated has its target around it, and every name can be seen where it
stands. The induction goes over the rules from the end to the start: the state behind a task knows
which targets have been used and which temporaries its host declares.
-/

namespace Offside.Lowering

open List Enclosure

/-! ## Tasks -/

def Dest.names : Dest → List String
  | .into names => names
  | _ => []

namespace Task

def Closed (tied known : String → Prop) : Task → Prop
  | .values ts => ∀ t ∈ ts, t.Closed tied known
  | .runs jobs => ∀ job ∈ jobs, job.1.Closed tied known
  | .body t _ | .other t _ => t.Closed tied known
  | .hosted host inner => inner.Closed tied (Adding tied known host.declaredNames)
  | .targets pairs => ∀ pair ∈ pairs, pair.1.Closed tied known
  | .tried code _ clauses => code.Closed tied known ∧ ∀ clause ∈ clauses, clause.Closed tied known

def names : Task → List String
  | .values _ => []
  | .runs jobs => jobs.flatMap fun job => job.2.names
  | .body _ dest | .other _ dest | .tried _ dest _ => dest.names
  | .hosted _ inner => inner.names
  | .targets pairs => pairs.map Prod.snd

end Task

theorem mem_lines {dest : Dest} {ts : List Tree} {job : Tree × Dest}
    (member : job ∈ lines dest ts) :
    job.1 ∈ ts ∧ (job.2 = dest ∨ job.2 = .discard) := by
  induction ts using lines.induct with
  | case1 => cases member
  | case2 last =>
    cases mem_singleton.mp member
    exact ⟨mem_singleton.mpr rfl, .inl rfl⟩
  | case3 t next ts ih =>
    rcases mem_cons.mp member with rfl | later
    · exact ⟨.head _, .inr rfl⟩
    · exact ⟨mem_cons_of_mem t (ih later).1, (ih later).2⟩

theorem names_lines {dest : Dest} {ts : List Tree} {name : String}
    (member : name ∈ (Task.runs (lines dest ts)).names) : name ∈ dest.names := by
  obtain ⟨job, found, named⟩ := mem_flatMap.mp member
  rcases (mem_lines found).2 with same | dropped
  · rwa [same] at named
  · rw [dropped] at named
    cases named

/-! ## Places -/

variable {tied base known : String → Prop} {task : Task} {s s₁ s' : GenState}
  {cx : List Enclosure} {names : List String}

/-- The targets of jumps that have been used have their labels around a place. -/
def Fits (jumps : List JumpTarget) (cx : List Enclosure) : Prop :=
  ∀ target ∈ jumps, target.used → .labeled target.label (target.kind = .loop) ∈ near cx

namespace Fits

variable {jumps after : List JumpTarget}

theorem cons (fits : Fits jumps cx) {e : Enclosure} (inside : e.isFunction = false) :
    Fits jumps (e :: cx) := by
  intro target member used
  rw [near_cons inside]
  exact mem_cons_of_mem e (fits target member used)

/-- What fits the targets at the end fits them at the start. -/
theorem of_kept (kept : List.Forall₂ JumpTarget.Kept jumps after) (fits : Fits after cx) :
    Fits jumps cx := by
  induction kept with
  | nil => exact nofun
  | cons same _ ih =>
    have ⟨here, rest⟩ := forall_mem_cons.mp fits
    refine forall_mem_cons.mpr ⟨fun used => ?_, ih rest⟩
    have found := here (same.used used)
    rwa [same.kind, same.label] at found

theorem opens (fits : Fits jumps cx) (s : Stmt) : Fits jumps (s.opens ++ cx) := by
  induction s using Stmt.opens.induct with
  | case1 names => exact fits.cons rfl
  | case2 span s ih => exact ih
  | case3 s noDecl noPlace =>
    rw [Stmt.opens]
    · exact fits
    · exact noDecl
    · exact noPlace

theorem opening (fits : Fits jumps cx) (body : List Stmt) :
    Fits jumps (Stmt.opening body ++ cx) := by
  induction body generalizing cx with
  | nil => exact fits
  | cons s rest ih =>
    rw [Stmt.opening, append_assoc]
    exact ih (fits.opens s)

end Fits

/-- A place with the names and the targets of jumps that a task needs there. -/
structure Sees (tied base known : String → Prop) (s : GenState) (cx : List Enclosure) : Prop where
  fits : Fits s.jumps cx
  known : ∀ name, known name → ¬tied name ∧ Visible tied base cx name
  jumps : ∀ target ∈ s.jumps, ∀ name ∈ target.results.names ++ target.loopVars,
    Visible tied base cx name

/-- A place where the temporaries of the innermost host can be seen. -/
structure Framed (tied base : String → Prop) (s : GenState) (cx : List Enclosure) : Prop where
  hosts : s.hosts ≠ []
  frame : ∀ name ∈ s.frame, Visible tied base cx name

namespace Sees

variable {target : JumpTarget} {outer : List JumpTarget}

theorem cons (sees : Sees tied base known s cx) {e : Enclosure} (inside : e.isFunction = false) :
    Sees tied base known s (e :: cx) :=
  ⟨sees.fits.cons inside, fun name isKnown => (sees.known name isKnown).imp_right (·.cons inside),
    fun target member name named => (sees.jumps target member name named).cons inside⟩

theorem of_grows (sees : Sees tied base known s' cx) (grows : Grows s s') :
    Sees tied base known s cx := by
  refine ⟨sees.fits.of_kept grows.jumps, sees.known, fun target member name named => ?_⟩
  obtain ⟨after, found, kept⟩ := JumpTarget.exists_kept grows.jumps member
  rw [← kept.results, ← kept.loopVars] at named
  exact sees.jumps after found name named

theorem adding (sees : Sees tied base known s cx)
    (shown : ∀ name ∈ names, ¬tied name → Visible tied base cx name) :
    Sees tied base (Adding tied known names) s cx := by
  refine ⟨sees.fits, fun name isKnown => ?_, sees.jumps⟩
  rcases isKnown with before | ⟨member, free⟩
  · exact sees.known name before
  · exact ⟨free, shown name member free⟩

/-- The place inside of a target of jumps. -/
theorem enter (sees : Sees tied base known s.exit cx) (entered : s.jumps = target :: outer)
    (labeled : target.used → .labeled target.label (target.kind = .loop) ∈ near cx)
    (names : ∀ name ∈ target.results.names ++ target.loopVars, Visible tied base cx name) :
    Sees tied base known s cx := by
  have behind : s.exit.jumps = outer := by rw [GenState.exit, entered, tail_cons]
  refine ⟨?_, sees.known, ?_⟩
  · rw [entered]
    exact forall_mem_cons.mpr ⟨labeled, behind ▸ sees.fits⟩
  · rw [entered]
    exact forall_mem_cons.mpr ⟨names, behind ▸ sees.jumps⟩

/-- The label of a target that a jump needs is around the jump. -/
theorem labeled (sees : Sees tied base known (s'.mark target.label) cx) (grows : Grows s s')
    (found : target ∈ s.jumps) : .labeled target.label (target.kind = .loop) ∈ near cx := by
  obtain ⟨same, member, kept⟩ := JumpTarget.exists_kept grows.jumps found
  have marked : { same with used := true } ∈ (s'.mark target.label).jumps :=
    mem_map.mpr ⟨same, member, if_pos kept.label⟩
  have around := sees.fits _ marked rfl
  rwa [kept.label, kept.kind] at around

/-- The place of a loop, whose variables are declared there. -/
theorem around (sees : Sees tied base known s cx) {cx' : List Enclosure}
    (around : Around cx names cx') : Sees tied base (Adding tied known names) s cx' := by
  cases around with
  | bare none => exact sees.adding (none ▸ nofun)
  | list none => exact (sees.cons rfl).adding (none ▸ nofun)
  | behind =>
    exact ((sees.cons (e := .list _) rfl).cons rfl).adding fun name member _ => .inl member

/-- The place inside of a `do` block, which has a label if a jump has used it. -/
theorem block (sees : Sees tied base known s.exit cx) {label : String} {dest : Dest} {used : Bool}
    (entered : s.jumps = target :: outer)
    (kept : JumpTarget.Kept ⟨.doBlock, label, dest, [], used⟩ target)
    (visible : ∀ name ∈ dest.names, Visible tied base cx name) (listed : List String) :
    Sees tied base known s
      (.list listed :: if target.used then .labeled label false :: cx else cx) := by
  have names : ∀ name ∈ target.results.names ++ target.loopVars, Visible tied base cx name := by
    rw [kept.results, kept.loopVars, append_nil]
    exact visible
  refine .cons ?_ rfl
  split
  case isTrue =>
    refine (sees.cons rfl).enter entered (fun _ => ?_) names
    rw [kept.label, kept.kind, near_cons rfl]
    exact .head _
  case isFalse unused => exact sees.enter entered (fun used => absurd used unused) names

/-- The place inside of a loop. -/
theorem round (sees : Sees tied base known s.exit cx) {cx' : List Enclosure}
    (around : Around cx names cx') (entered : s.jumps = target :: outer)
    (isLoop : target.kind = .loop)
    (visible : ∀ name ∈ target.results.names ++ target.loopVars, Visible tied base cx' name)
    (listed : List String) :
    Sees tied base (Adding tied known names) s
      (.list listed :: .round :: .labeled target.label true :: cx') := by
  have inside : Sees tied base (Adding tied known names) s.exit
      (.list listed :: .round :: .labeled target.label true :: cx') :=
    (((sees.around around).cons rfl).cons rfl).cons rfl
  refine inside.enter entered (fun _ => ?_) visible
  rw [near_cons rfl, near_cons rfl, near_cons rfl, isLoop]
  simp

end Sees

theorem Around.visible {cx' : List Enclosure} (around : Around cx names cx') {name : String}
    (visible : Visible tied base cx name) : Visible tied base cx' name := by
  cases around with
  | bare | list => exact visible
  | behind => exact .inr visible

namespace Framed

theorem cons (framed : Framed tied base s cx) {e : Enclosure} (inside : e.isFunction = false) :
    Framed tied base s (e :: cx) :=
  ⟨framed.hosts, fun name member => (framed.frame name member).cons inside⟩

theorem around (framed : Framed tied base s cx) {cx' : List Enclosure}
    (around : Around cx names cx') : Framed tied base s cx' :=
  ⟨framed.hosts, fun name member => around.visible (framed.frame name member)⟩

theorem of_grows (framed : Framed tied base s' cx) (grows : Grows s s') : Framed tied base s cx :=
  ⟨grows.hosts_ne.mp framed.hosts, fun name member => framed.frame name (grows.frame name member)⟩

theorem nextTemp (framed : Framed tied base s' cx) (grows : Grows s.withTemp s') :
    Visible tied base cx s.nextTemp := by
  have before := framed.of_grows ((Grows.withTemp s).trans grows)
  exact framed.frame _ (grows.frame _ (GenState.nextTemp_mem_frame before.hosts))

theorem nextTemps {count : Nat} (framed : Framed tied base s' cx)
    (grows : Grows (s.withTemps count) s') :
    ∀ name ∈ s.nextTemps count, Visible tied base cx name := by
  intro name member
  have before := framed.of_grows ((Grows.withTemps s count).trans grows)
  exact framed.frame _ (grows.frame _ (GenState.nextTemps_subset_frame before.hosts name member))

end Framed

/-- A task at a place where all that it needs can be seen; the state is that behind the task. -/
structure Stands (tied base known : String → Prop) (task : Task) (s : GenState)
    (cx : List Enclosure) : Prop where
  closed : task.Closed tied known
  sees : Sees tied base known s cx
  framed : task.Spills → Framed tied base s cx
  names : ∀ name ∈ task.names, Visible tied base cx name

namespace Stands

variable {t : Tree} {dest : Dest} {code : Tree}

variable {inner : Task} {ts : List Tree}

theorem cons (stands : Stands tied base known task s cx) {e : Enclosure}
    (inside : e.isFunction = false) : Stands tied base known task s (e :: cx) :=
  ⟨stands.closed, stands.sees.cons inside, fun spills => (stands.framed spills).cons inside,
    fun name member => (stands.names name member).cons inside⟩

section

variable (stands : Stands tied base known task s' cx) (spills : task.Spills) (grows : Grows s s')
include stands spills grows

/-- A part of a task, which ends in an earlier state. -/
theorem within (closed : inner.Closed tied known)
    (names : ∀ name ∈ inner.names, Visible tied base cx name) : Stands tied base known inner s cx :=
  ⟨closed, stands.sees.of_grows grows, fun _ => (stands.framed spills).of_grows grows, names⟩

/-- A part of a task that is some values. -/
theorem values (closed : ∀ t ∈ ts, t.Closed tied known) :
    Stands tied base known (.values ts) s cx :=
  stands.within spills grows closed nofun

theorem value (closed : t.Closed tied known) : Stands tied base known (.values [t]) s cx :=
  stands.values spills grows (forall_mem_singleton.mpr closed)

/-- A part of a task that is a node with a destination. -/
theorem run (closed : t.Closed tied known)
    (names : ∀ name ∈ dest.names, Visible tied base cx name) :
    Stands tied base known (.run t dest) s cx :=
  stands.within spills grows (forall_mem_singleton.mpr closed) (by
    intro name member
    rw [Task.names, flatMap_singleton] at member
    exact names name member)

end

theorem only (stands : Stands tied base known (.run t dest) s cx) :
    t.Closed tied known ∧ ∀ name ∈ dest.names, Visible tied base cx name := by
  refine ⟨stands.closed _ (mem_singleton.mpr rfl), fun name member => stands.names name ?_⟩
  rw [Task.names, flatMap_singleton]
  exact member

theorem single (stands : Stands tied base known (.values [t]) s cx) : t.Closed tied known :=
  stands.closed t (mem_singleton.mpr rfl)

/-- The body of a function. Nothing around the function is a target of its jumps. -/
theorem function {params : Tree} (stands : Stands tied base known (.values [t]) s cx)
    (isFunction : t.is .fn) (parts : t.children = [params, code])
    (returns : dest = .ret ∨ dest = .discard) (noJumps : s₁.jumps = []) (listed : List String) :
    Stands tied base (Adding tied known params.spelled) (.hosted t.info (.body code dest)) s₁
      (.list listed :: .function params.spelled :: cx) := by
  refine ⟨?_, ⟨?_, ?_, ?_⟩, False.elim, ?_⟩
  · exact (stands.single.code (.inl isFunction) parts).mono fun _ adding => adding.swap
  · rw [noJumps]
    exact nofun
  · rintro name (isKnown | ⟨member, free⟩)
    · have seen := stands.sees.known name isKnown
      exact ⟨seen.1, seen.1, .inr seen.2⟩
    · exact ⟨free, free, .inl member⟩
  · rw [noJumps]
    exact nofun
  · rcases returns with rfl | rfl <;> exact nofun

/-- The body of a handler. -/
theorem handler {clause params : Tree} {param : Option String}
    (stands : Stands tied base known task s cx) (closed : clause.Closed tied known)
    (isCatch : clause.is .catchClause) (parts : clause.children = [params, code])
    (spelled : params.spelled = param.toList)
    (names : ∀ name ∈ dest.names, Visible tied base cx name) (listed : List String) :
    Stands tied base (Adding tied known params.spelled) (.hosted clause.info (.body code dest)) s
      (.list listed :: .handler param :: cx) := by
  have inside : Sees tied base known s (.list listed :: .handler param :: cx) :=
    (stands.sees.cons rfl).cons rfl
  refine ⟨?_, inside.adding fun name member free => ?_, False.elim, fun name member => ?_⟩
  · exact (closed.code (.inr isCatch) parts).mono fun _ adding => adding.swap
  · rw [spelled, Option.mem_toList] at member
    exact .inl ⟨free, member⟩
  · exact .inr (names name member)

/-- What stands inside of a host, where all that the host declares can be seen. -/
theorem inside {host : Info} (stands : Stands tied base known (.hosted host inner) s.exitHost cx)
    (hosts : s.hosts ≠ [])
    (shown : ∀ name ∈ host.declaredNames ++ s.frame, Visible tied base cx name) :
    Stands tied base (Adding tied known host.declaredNames) inner s cx := by
  have ⟨declared, frame⟩ := forall_mem_append.mp shown
  have sees : Sees tied base known s cx := ⟨stands.sees.fits, stands.sees.known, stands.sees.jumps⟩
  exact ⟨stands.closed, sees.adding fun name member _ => declared name member,
    fun _ => ⟨hosts, frame⟩, stands.names⟩

/-- The values that a jump brings to its target. -/
theorem brought {target : Dest} {op : Builtin} (stands : Stands tied base known (.run t dest) s' cx)
    (grows : Grows s s') (isOp : t.is op) (simple : Tree.isOpen op)
    (names : ∀ name ∈ target.names, Visible tied base cx name) :
    Stands tied base known (.runs ((t.children.take 1).map (·, target))) s cx := by
  have closed := stands.only.1.parts isOp simple rfl
  refine stands.within trivial grows (forall_mem_map.mpr fun part member => ?_) ?_
  · exact closed part (mem_of_mem_take member)
  · intro name member
    obtain ⟨job, found, named⟩ := mem_flatMap.mp member
    obtain ⟨part, _, rfl⟩ := mem_map.mp found
    exact names name named

/-- The round of a loop, whose variables are declared around it. -/
theorem round {label : String} {used : Bool} {target : JumpTarget} {outer : List JumpTarget}
    (stands : Stands tied base known (.run t dest) s.exit cx)
    (closed : code.Closed tied (Adding tied known t.info.declaredNames)) {cx' : List Enclosure}
    (around : Around cx t.info.declaredNames cx') (entered : s.jumps = target :: outer)
    (kept : JumpTarget.Kept ⟨.loop, label, dest, names, used⟩ target)
    (bound : ∀ name ∈ names, Adding tied known t.info.declaredNames name) (listed : List String) :
    Stands tied base (Adding tied known t.info.declaredNames) (.body code .discard) s
      (.list listed :: .round :: .labeled label true :: cx') := by
  have visible : ∀ name ∈ target.results.names ++ target.loopVars, Visible tied base cx' name := by
    rw [kept.results, kept.loopVars]
    refine forall_mem_append.mpr ⟨fun name member => ?_, fun name member => ?_⟩
    · exact around.visible (stands.only.2 name member)
    · exact ((stands.sees.around around).known name (bound name member)).2
  have sees := stands.sees.round around entered kept.kind visible listed
  rw [kept.label] at sees
  have framed := (stands.framed trivial).around around
  exact ⟨closed, sees, fun _ => (((⟨framed.hosts, framed.frame⟩ : Framed tied base s cx').cons
    rfl).cons rfl).cons rfl, nofun⟩

end Stands

/-- The lines of a block, which is a host. -/
theorem Sees.lines (sees : Sees tied base known s cx) {t : Tree} {kind : BlockKind} {dest : Dest}
    (isBlock : t.isBlock kind) (closed : t.Closed tied known)
    (names : ∀ name ∈ dest.names, Visible tied base cx name) :
    Stands tied base known (.hosted t.info (.runs (lines dest t.children))) s cx :=
  ⟨fun _ member => closed.lines isBlock _ (mem_lines member).1, sees, False.elim,
    fun name member => names name (names_lines member)⟩

def Placed (tied base : String → Prop) (cx : List Enclosure) (a : List Stmt) (es : List Expr) :
    Prop :=
  Stmt.Each (Site.Well tied base) cx a ∧ Expr.Each (Site.Well tied base) cx es

theorem well_leave {label : String} {cx : List Enclosure} {body : List Stmt}
    (around : .labeled label true ∈ near cx) :
    Site.Well tied base ⟨Stmt.opening body ++ cx, .leave (some label)⟩ := by
  have fits : Fits [⟨.loop, label, .discard, [], true⟩] cx :=
    forall_mem_singleton.mpr fun _ => around
  exact Site.well_nameless ⟨true, fits.opening body _ (mem_singleton.mpr rfl) rfl⟩ rfl

theorem placed_looping {label : String} {start body : List Stmt} (quiet : Stmt.Quiet start)
    (starts : ∀ cx', Around cx names cx' → Stmt.Each (Site.Well tied base) cx' start)
    (inside : ∀ cx', Around cx names cx' → ∀ listed,
      Stmt.Each (Site.Well tied base) (.list listed :: .round :: .labeled label true :: cx') body) :
    Placed tied base cx (looping label names start body) [] := by
  refine ⟨each_looping quiet (fun _ => Site.well_nameless trivial rfl) ?_, Expr.each_nil⟩
  intro cx' around
  refine ⟨starts cx' around, Site.well_nameless trivial rfl, ?_⟩
  refine each_leaving (well_leave ?_) (inside cx' around _)
  rw [Stmt.listed, near_cons rfl, near_cons rfl, near_cons rfl]
  simp

/-- Whatever is generated at a place where all that it needs can be seen is well placed. -/
theorem Made.wellPlaced {a : List Stmt} {es : List Expr} (made : Made task s a es s')
    (stands : Stands tied base known task s' cx) : Placed tied base cx a es := by
  induction made generalizing known cx with
  | noValues | noTargets | noRuns | silent => exact ⟨Stmt.each_nil, Expr.each_nil⟩
  | name _ isTag named =>
    have isKnown := stands.single.name isTag named
    exact ⟨Stmt.each_nil,
      Expr.each_ident.mpr (Site.well_name rfl (stands.sees.known _ isKnown).2)⟩
  | declared _ declares parts named =>
    have isKnown := (stands.single.declared declares parts).1 _ named
    exact ⟨Stmt.each_nil,
      Expr.each_ident.mpr (Site.well_name rfl (stands.sees.known _ isKnown).2)⟩
  | returnedNothing => exact ⟨Stmt.each_retNone, Expr.each_nil⟩
  | moreValues first rest ihFirst ihRest =>
    obtain ⟨closedFirst, closedRest⟩ := forall_mem_append.mp stands.closed
    have before := ihFirst (stands.values trivial rest.grows closedFirst)
    have after := ihRest (stands.values trivial (.refl _) closedRest)
    exact ⟨(Stmt.each_append (first.quiet trivial)).mpr ⟨before.1, after.1⟩,
      Expr.each_append.mpr ⟨before.2, after.2⟩⟩
  | spilled values ih =>
    have temp := (stands.framed trivial).nextTemp (.refl _)
    have before := ih (stands.values trivial (.withTemp _) stands.closed)
    obtain ⟨first, rest⟩ := Expr.each_append.mp before.2
    obtain ⟨here, others⟩ := Expr.each_cons.mp rest
    refine ⟨(Stmt.each_append (values.quiet trivial)).mpr ⟨before.1, ?_⟩, ?_⟩
    · exact Stmt.each_assign.mpr ⟨Site.well_name rfl temp, here⟩
    · exact Expr.each_append.mpr
        ⟨first, Expr.each_cons.mpr ⟨Expr.each_ident.mpr (Site.well_name rfl temp), others⟩⟩
  | valuePlaced _ _ ih => exact ⟨(ih stands).1, Expr.each_withSpan.mpr (ih stands).2⟩
  | through _ run ih =>
    have temp := (stands.framed trivial).nextTemp run.grows
    have inside := ih (stands.run trivial (.refl _) stands.single
      (forall_mem_singleton.mpr temp))
    exact ⟨inside.1, Expr.each_ident.mpr (Site.well_name rfl temp)⟩
  | composed operands _ composed ih =>
    have inside := ih (stands.values trivial (.refl _) (operands.unfolds.closed stands.single))
    exact ⟨inside.1, .composed (fun _ => Site.well_plain) composed inside.2⟩
  | property isMember parts _ named _ ih =>
    obtain ⟨closed, _, free⟩ := stands.single.member isMember parts
    have inside := ih (stands.value trivial (.refl _) closed)
    exact ⟨inside.1, Expr.each_property.mpr ⟨inside.2, Site.well_property (free _ named)⟩⟩
  | lazily isLogical parts first second tests ihFirst ihSecond =>
    have temp := (stands.framed trivial).nextTemp second.grows
    have closed :=
      isLogical.elim (stands.single.parts · rfl parts) (stands.single.parts · rfl parts)
    have before := ihFirst (stands.value trivial ((Grows.withTemp _).trans second.grows)
      (closed _ (.head _)))
    have inside (listed : List String) :=
      ihSecond ((stands.cons (e := .list listed) rfl).value trivial (.refl _)
        (closed _ (.tail _ (.head _))))
    refine ⟨(Stmt.each_append (first.quiet trivial)).mpr ⟨before.1, ?_⟩,
      Expr.each_ident.mpr (Site.well_name rfl temp)⟩
    refine (Stmt.each_cons rfl).mpr
      ⟨Stmt.each_assign.mpr ⟨Site.well_name rfl temp, before.2⟩, ?_⟩
    refine Stmt.each_ifThen.mpr ⟨?_, Stmt.each_block.mpr ?_⟩
    · rcases tests with rfl | rfl
      · exact Expr.each_ident.mpr (Site.well_name rfl temp)
      · exact Expr.each_unary.mpr (Expr.each_ident.mpr (Site.well_name rfl temp))
    · exact (Stmt.each_append (second.quiet trivial)).mpr
        ⟨(inside _).1, Stmt.each_assign.mpr ⟨Site.well_name rfl temp, (inside _).2⟩⟩
  | function isFunction parts returns inner ih =>
    have noJumps := List.forall₂_nil_left_iff.mp inner.grows.jumps
    have inside (listed : List String) :=
      ih (stands.function isFunction parts returns noJumps listed)
    exact ⟨Stmt.each_nil,
      Expr.each_function.mpr ⟨Site.well_nameless trivial rfl, (inside _).1⟩⟩
  | elements isTuple _ ih =>
    exact ih (stands.values trivial (.refl _) (stands.single.parts isTuple rfl rfl))
  | assigned isAssign parts _ spelled _ ih =>
    have closed := stands.single.parts isAssign rfl parts
    have visible (name : String) (member : name ∈ _) : Visible tied base cx name :=
      (stands.sees.known name ((closed _ (.head _)).spelled name (spelled name member))).2
    have inside := ih (stands.run trivial (.refl _)
      (closed _ (.tail _ (.head _))) visible)
    exact ⟨inside.1,
      Expr.each_idents.mpr fun name member => Site.well_name rfl (visible name member)⟩
  | assignedThrough isAssign parts several run copies ihRun ihCopies =>
    have closed := stands.single.parts isAssign rfl parts
    have temps := (stands.framed trivial).nextTemps (run.grows.trans copies.grows)
    have before := ihRun (stands.run trivial copies.grows
      (closed _ (.tail _ (.head _))) temps)
    have after := ihCopies (stands.within trivial (.refl _)
      (fun pair member => several.unfolds.closed (closed _ (.head _)) _
        (of_mem_zip (Prod.eta pair ▸ member)).1) ?_)
    · exact ⟨(Stmt.each_append (run.quiet trivial)).mpr ⟨before.1, after.1⟩,
        Expr.each_idents.mpr fun name member => Site.well_name rfl (temps name member)⟩
    · intro name member
      obtain ⟨pair, found, rfl⟩ := mem_map.mp member
      exact temps _ (of_mem_zip (Prod.eta pair ▸ found)).2
  | moreTargets target rest ihTarget ihRest =>
    obtain ⟨closedHere, closedRest⟩ := forall_mem_cons.mp stands.closed
    obtain ⟨temp, others⟩ := forall_mem_cons.mp stands.names
    have before := ihTarget (stands.value trivial rest.grows closedHere)
    have after := ihRest (stands.within trivial (.refl _) closedRest others)
    refine ⟨(Stmt.each_append (target.quiet trivial)).mpr ⟨before.1, ?_⟩, Expr.each_nil⟩
    refine (Stmt.each_cons rfl).mpr ⟨Stmt.each_expr.mpr ?_, after.1⟩
    exact .composed (fun _ => Site.well_plain) (.assign _ _)
      (Expr.each_cons.mpr ⟨before.2, Expr.each_ident.mpr (Site.well_name rfl temp)⟩)
  | moreRuns first rest ihFirst ihRest =>
    obtain ⟨closedHere, closedRest⟩ := forall_mem_cons.mp stands.closed
    have names := stands.names
    rw [Task.names, flatMap_cons, forall_mem_append] at names
    have before := ihFirst (stands.run trivial rest.grows closedHere names.1)
    have after := ihRest (stands.within trivial (.refl _) closedRest names.2)
    exact ⟨(Stmt.each_append (first.quiet trivial)).mpr ⟨before.1, after.1⟩, Expr.each_nil⟩
  | placed _ _ ih => exact ⟨Stmt.each_map_withSpan.mpr (ih stands).1, Expr.each_nil⟩
  | delivered values delivered ih =>
    have inside := ih (stands.value trivial (.refl _) stands.only.1)
    refine ⟨(Stmt.each_append (values.quiet trivial)).mpr ⟨inside.1, ?_⟩, Expr.each_nil⟩
    refine delivered.1.each (fun names same name member => Site.well_name rfl ?_) inside.2
    exact stands.only.2 name (same ▸ member)
  | dropped isTuple _ ih =>
    have closed := stands.only.1.parts isTuple rfl rfl
    refine ih (stands.within trivial (.refl _) (forall_mem_map.mpr closed) ?_)
    intro name member
    simp [Task.names, Dest.names] at member
  | alone isTuple only _ ih =>
    have closed := stands.only.1.parts isTuple rfl only
    exact ih (stands.run trivial (.refl _) (closed _ (.head _)) stands.only.2)
  | returned isOp parts value ih | thrown isOp parts value ih =>
    have closed := stands.only.1.parts isOp rfl parts
    have inside := ih (stands.value trivial (.refl _) (closed _ (.head _)))
    refine ⟨(Stmt.each_append (value.quiet trivial)).mpr ⟨inside.1, ?_⟩, Expr.each_nil⟩
    simpa only [Stmt.each_ret, Stmt.each_throw] using inside.2
  | block isBlock _ ih =>
    have inside (listed : List String) :=
      ih ((stands.cons (e := .list listed) rfl).sees.lines isBlock stands.only.1 stands.only.2)
    exact ⟨Stmt.each_block.mpr (inside _).1, Expr.each_nil⟩
  | @hosted host _ _ s₁ _ inside ih =>
    have hosts : s₁.hosts ≠ [] := by
      obtain ⟨issued, _, same⟩ := inside.grows.hosts
      rw [same, GenState.enterHost]
      simp
    refine ⟨each_declaring (Site.well_nameless trivial rfl) (fun none => ?_) ?_, Expr.each_nil⟩
    · exact (ih (stands.inside hosts (none ▸ forall_mem_nil _))).1
    · exact (ih ((stands.cons (e := .behind _) rfl).inside hosts fun name => .inl)).1
  | bodyBlock isBlock _ ih => exact ih (stands.sees.lines isBlock stands.closed stands.names)
  | bodyLine _ ih | otherOnly _ ih =>
    exact ih (stands.run trivial (.refl _) stands.closed stands.names)
  | chosen isIf parts noElse first second ihFirst ihSecond =>
    have closed := stands.only.1.parts isIf rfl parts
    have before := ihFirst (stands.value trivial second.grows (closed _ (.head _)))
    have inside (listed : List String) :=
      ihSecond ((stands.cons (e := .list listed) rfl).within trivial (.refl _)
        (closed _ (.tail _ (.head _))) stands.only.2)
    refine ⟨(Stmt.each_append (first.quiet trivial)).mpr ⟨before.1, ?_⟩, Expr.each_nil⟩
    exact Stmt.each_ifThen.mpr ⟨before.2, Stmt.each_block.mpr (inside _).1⟩
  | chosenElse isIf parts found contents first second third ihFirst ihSecond ihThird =>
    have closed := stands.only.1.parts isIf rfl parts
    have isElse := List.find?_some found
    have closedClause := closed _ (.tail _ (mem_cons_of_mem _
      (mem_of_find?_eq_some found)))
    have closedOther := closedClause.parts isElse rfl contents _ (.head _)
    have before := ihFirst (stands.value trivial (second.grows.trans third.grows)
      (closed _ (.head _)))
    have inside (listed : List String) :=
      ihSecond ((stands.cons (e := .list listed) rfl).within trivial third.grows
        (closed _ (.tail _ (.head _))) stands.only.2)
    have other := ihThird (stands.within trivial (.refl _) closedOther stands.only.2)
    refine ⟨(Stmt.each_append (first.quiet trivial)).mpr ⟨before.1, ?_⟩, Expr.each_nil⟩
    exact Stmt.each_ifElse.mpr ⟨before.2, Stmt.each_block.mpr (inside _).1, other.1⟩
  | otherBlock _ ih =>
    have inside (listed : List String) :=
      ih ((stands.cons (e := .list listed) rfl).within trivial (.refl _) stands.closed stands.names)
    exact ⟨Stmt.each_block.mpr (inside _).1, Expr.each_nil⟩
  | whilst isWhile parts first second ihFirst ihSecond =>
    have closed := stands.only.1.parts isWhile rfl parts
    have before := ihFirst (stands.value trivial second.grows (closed _ (.head _)))
    have inside (listed : List String) :=
      ihSecond (((stands.cons (e := .round) rfl).cons (e := .list listed) rfl).within trivial
        (.refl _) (closed _ (.tail _ (.head _))) (forall_mem_nil _))
    refine ⟨(Stmt.each_append (first.quiet trivial)).mpr ⟨before.1, ?_⟩, Expr.each_nil⟩
    exact Stmt.each_whileLoop.mpr ⟨before.2, Stmt.each_block.mpr (inside _).1⟩
  | whilstTrue isWhile parts first second ihFirst ihSecond =>
    have closed := stands.only.1.parts isWhile rfl parts
    have around (listed : List String) :=
      (stands.cons (e := .round) rfl).cons (e := .list listed) rfl
    have before (listed : List String) :=
      ihFirst ((around listed).value trivial second.grows (closed _ (.head _)))
    have after (listed : List String) :=
      ihSecond ((around listed).within trivial (.refl _)
        (closed _ (.tail _ (.head _))) (forall_mem_nil _))
    refine ⟨Stmt.each_whileLoop.mpr ⟨Expr.each_literal, Stmt.each_block.mpr ?_⟩, Expr.each_nil⟩
    rw [append_assoc]
    refine (Stmt.each_append (first.quiet trivial)).mpr ⟨(before _).1, ?_⟩
    refine (Stmt.each_cons rfl).mpr ⟨?_, (after _).1⟩
    refine Stmt.each_ifThen.mpr ⟨Expr.each_unary.mpr (before _).2, ?_⟩
    refine Stmt.each_leave.mpr (Site.well_nameless ?_ rfl)
    rw [Site.JumpsWell, Stmt.listed, near_cons rfl, near_cons rfl]
    simp
  | doBlock isDo inner ih =>
    obtain ⟨target, outer, kept, _, entered⟩ := List.forall₂_cons_left_iff.mp inner.grows.jumps
    rw [entered]
    have inside (listed : List String) := ih ((stands.sees.block entered kept
      stands.only.2 listed).lines isDo stands.only.1 ?_)
    · exact ⟨each_marked (fun _ => Site.well_nameless trivial rfl) (inside _).1, Expr.each_nil⟩
    · intro name member
      split
      all_goals exact stands.only.2 name member
  | endless isLoop parts inner ih =>
    obtain ⟨target, outer, kept, _, entered⟩ := List.forall₂_cons_left_iff.mp inner.grows.jumps
    have closed := stands.only.1.endless isLoop parts
    refine placed_looping (forall_mem_nil _) (fun _ _ => Stmt.each_nil) ?_
    intro cx' around listed
    exact (ih (stands.round closed around entered kept (forall_mem_nil _) listed)).1
  | started isLoop parts starts first inner ihFirst ihInner =>
    obtain ⟨target, outer, kept, _, entered⟩ := List.forall₂_cons_left_iff.mp inner.grows.jumps
    have closed := stands.only.1.loop isLoop parts starts
    refine placed_looping (first.quiet trivial) (fun cx' around => ?_) fun cx' around listed => ?_
    · have sees := (stands.sees.of_grows inner.grows.exit).around around
      have framed := ((stands.framed trivial).of_grows inner.grows.exit).around around
      have outside : Stands tied base _ (.values []) _ cx' :=
        ⟨forall_mem_nil _, sees, fun _ => framed, forall_mem_nil _⟩
      exact (ihFirst (outside.run trivial (.refl _) (closed.2.1.mono fun _ => .inl)
        fun name member => (sees.known name (closed.1 name member)).2)).1
    · exact (ihInner (stands.round closed.2.2 around entered kept closed.1 listed)).1
  | startedOutside isLoop parts starts first inner ihFirst ihInner =>
    obtain ⟨target, outer, kept, _, entered⟩ := List.forall₂_cons_left_iff.mp inner.grows.jumps
    have closed := stands.only.1.loop isLoop parts starts
    have temps := (stands.framed trivial).nextTemps (first.grows.trans inner.grows.exit)
    have before := ihFirst (stands.run trivial inner.grows.exit closed.2.1 temps)
    refine ⟨(Stmt.each_append (first.quiet trivial)).mpr ⟨before.1, ?_⟩, Expr.each_nil⟩
    refine (placed_looping (quiet_assigns _ _) (fun cx' around => ?_)
      fun cx' around listed => ?_).1
    · refine each_assigns (fun name member => Site.well_name rfl ?_)
        (Expr.each_idents.mpr fun name member => Site.well_name rfl ?_)
      · exact ((stands.sees.around around).known name (closed.1 name member)).2
      · exact around.visible (temps name member)
    · exact (ihInner (stands.round closed.2.2 around entered kept closed.1 listed)).1
  | tried isTry parts _ ih =>
    obtain ⟨closedCode, closedClauses⟩ :=
      forall_mem_cons.mp (stands.only.1.parts isTry rfl parts)
    exact ih (stands.within trivial (.refl _) ⟨closedCode, closedClauses⟩ stands.only.2)
  | tryCode _ ih =>
    have inside (listed : List String) :=
      ih ((stands.cons (e := .list listed) rfl).within trivial (.refl _) stands.closed.1
        stands.names)
    exact ⟨Stmt.each_tryBlock.mpr ⟨(inside _).1, trivial, trivial⟩, Expr.each_nil⟩
  | tryCatch isCatch parts spelled before body ihBefore ihBody =>
    obtain ⟨closedClauses, closedClause⟩ := forall_mem_append.mp stands.closed.2
    have first := ihBefore (stands.within trivial body.grows ⟨stands.closed.1, closedClauses⟩
      stands.names)
    obtain ⟨code, _, finalizer⟩ := Stmt.each_tryBlock.mp first.1
    have handler (listed : List String) := ihBody (stands.handler
      (forall_mem_singleton.mp closedClause) isCatch parts spelled stands.names listed)
    refine ⟨Stmt.each_tryBlock.mpr ⟨code, ⟨?_, (handler _).1⟩, finalizer⟩, Expr.each_nil⟩
    exact Site.well_nameless trivial rfl
  | tryFinally isFinally parts before body ihBefore ihBody =>
    obtain ⟨closedClauses, closedClause⟩ := forall_mem_append.mp stands.closed.2
    have first := ihBefore (stands.within trivial body.grows ⟨stands.closed.1, closedClauses⟩
      stands.names)
    obtain ⟨code, caught, _⟩ := Stmt.each_tryBlock.mp first.1
    have closedInner := (forall_mem_singleton.mp closedClause).parts isFinally rfl parts
    have inside (listed : List String) :=
      ihBody ((stands.cons (e := .list listed) rfl).within trivial (.refl _)
        (closedInner _ (.head _)) (forall_mem_nil _))
    exact ⟨Stmt.each_tryBlock.mpr ⟨code, caught, (inside _).1⟩, Expr.each_nil⟩
  | @given _ target outer _ s _ _ isGive nearest values ih =>
    have found : target ∈ s.jumps := nearest ▸ mem_cons_self
    have start := stands.sees.of_grows (values.grows.trans (.mark _ _))
    have names := (forall_mem_append.mp (start.jumps target found)).1
    have before := ih (stands.brought (.mark _ _) isGive rfl names)
    refine ⟨(Stmt.each_append (values.quiet trivial)).mpr ⟨before.1, ?_⟩, Expr.each_nil⟩
    exact Stmt.each_leave.mpr
      (Site.well_nameless ⟨_, stands.sees.labeled values.grows found⟩ rfl)
  | givenBack isGive nearest returns values ih =>
    exact ih (stands.brought (.refl _) isGive rfl (forall_mem_nil _))
  | @next _ target inner _ s _ _ isNext nearest takes values ih =>
    have found : target ∈ s.jumps := mem_of_find?_eq_some nearest
    have isLoop : target.kind = .loop := by simpa using List.find?_some nearest
    have start := stands.sees.of_grows (values.grows.trans (.mark _ _))
    have names : ∀ name ∈ inner.names, Visible tied base cx name := by
      rw [takes]
      split
      · exact forall_mem_nil _
      · exact (forall_mem_append.mp (start.jumps target found)).2
    have before := ih (stands.brought (.mark _ _) isNext rfl names)
    have around := stands.sees.labeled values.grows found
    rw [isLoop] at around
    refine ⟨(Stmt.each_append (values.quiet trivial)).mpr ⟨before.1, ?_⟩, Expr.each_nil⟩
    exact Stmt.each_next.mpr (Site.well_nameless around rfl)
  | left dest s isLeave nearest =>
    have around := stands.sees.labeled (.refl s) (nearest ▸ mem_cons_self)
    exact ⟨Stmt.each_leave.mpr (Site.well_nameless ⟨_, around⟩ rfl), Expr.each_nil⟩

end Offside.Lowering
