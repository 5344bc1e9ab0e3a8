import Offside.Proofs.Lowering.Spots

/-!
# Outcomes of generation

A computation of generation ends as described, or there is a reason why it does not end. The reason
comes from the inside: whoever calls a computation says what its reason means there.
-/

namespace Offside.Lowering

open List

variable {α β : Type} {s : GenState}

/-! ## Computations that end -/

/-- If a computation ends, its result and the state behind it are as described. -/
def Ensures (s : GenState) (x : Gen α) (post : α → GenState → Prop) : Prop :=
  ∀ a s', x s = .ok (a, s') → post a s'

namespace Ensures

variable {f : α → Gen β} {R : β → GenState → Prop}

variable {x : Gen α} {P Q : α → GenState → Prop}

theorem pure {a : α} (holds : P a s) : Ensures s (Pure.pure a) P := by
  intro b s' ran
  cases ran
  exact holds

theorem bind (first : Ensures s x P) (second : ∀ a s', P a s' → Ensures s' (f a) R) :
    Ensures s (x >>= f) R := by
  intro b s'' ran
  change (x s >>= fun p => f p.1 p.2) = _ at ran
  cases result : x s with
  | error e =>
    rw [result] at ran
    cases ran
  | ok p =>
    rw [result] at ran
    exact second p.1 p.2 (first p.1 p.2 result) b s'' ran

theorem mono (ensures : Ensures s x P) (weaken : ∀ a s', P a s' → Q a s') : Ensures s x Q :=
  fun a s' ran => weaken a s' (ensures a s' ran)

/-- Two properties of one computation. -/
theorem and (first : Ensures s x P) (second : Ensures s x Q) :
    Ensures s x fun a s' => P a s' ∧ Q a s' :=
  fun a s' ran => ⟨first a s' ran, second a s' ran⟩

/-- A computation after another one about which nothing is known. -/
theorem after (second : ∀ a s', Ensures s' (f a) R) : Ensures s (x >>= f) R :=
  bind (P := fun _ _ => True) (fun _ _ _ => trivial) fun a s' _ => second a s'

theorem unsupported {t : Tree} : Ensures s (Lowering.unsupported t) P :=
  nofun

theorem malformed {t : Tree} {fault : Fault} : Ensures s (Lowering.malformed t fault) P :=
  nofun

end Ensures

/-- A computation ends as described, or there is a reason why it does not end. -/
structure Fares (s : GenState) (x : Gen α) (reason : Prop) (post : α → GenState → Prop) : Prop where
  ensures : Ensures s x post
  fails : ∀ e, x s = .error e → reason

theorem Ensures.fares {x : Gen α} {P : α → GenState → Prop} (ensures : Ensures s x P) :
    Fares s x True P :=
  ⟨ensures, fun _ _ => trivial⟩

namespace Fares

variable {f : α → Gen β} {R : β → GenState → Prop} {reason other : Prop}

variable {x : Gen α} {P Q : α → GenState → Prop}

theorem pure {a : α} (holds : P a s) : Fares s (Pure.pure a) reason P :=
  ⟨.pure holds, by rintro _ ⟨⟩⟩

theorem bind (first : Fares s x reason P) (second : ∀ a s', P a s' → Fares s' (f a) reason R) :
    Fares s (x >>= f) reason R := by
  refine ⟨first.ensures.bind fun a s' holds => (second a s' holds).ensures, fun e failed => ?_⟩
  change (x s >>= fun p => f p.1 p.2) = _ at failed
  cases result : x s with
  | error e => exact first.fails e result
  | ok p =>
    rw [result] at failed
    exact (second p.1 p.2 (first.ensures p.1 p.2 result)).fails e failed

/-- A computation that goes on in the same way after either of two. -/
theorem join {c : Prop} [Decidable c] {y : Gen α} (first : Fares s (if c then x else y) reason P)
    (second : ∀ a s', P a s' → Fares s' (f a) reason R) :
    Fares s (if c then x >>= f else y >>= f) reason R := by
  by_cases chosen : c
  · rw [if_pos chosen] at first ⊢
    exact first.bind second
  · rw [if_neg chosen] at first ⊢
    exact first.bind second

theorem mono (fares : Fares s x reason P) (weaken : ∀ a s', P a s' → Q a s') : Fares s x reason Q :=
  ⟨fares.ensures.mono weaken, fares.fails⟩

/-- A further property of the computation. -/
theorem and (fares : Fares s x reason P) (ensures : Ensures s x Q) :
    Fares s x reason fun a s' => P a s' ∧ Q a s' :=
  ⟨fares.ensures.and ensures, fares.fails⟩

/-- One reason for another one. -/
theorem blame (fares : Fares s x reason P) (because : reason → other) : Fares s x other P :=
  ⟨fares.ensures, fun e failed => because (fares.fails e failed)⟩

theorem unsupported {t : Tree} (because : reason) : Fares s (Lowering.unsupported t) reason P :=
  ⟨.unsupported, fun _ _ => because⟩

theorem malformed {t : Tree} {fault : Fault} (because : reason) :
    Fares s (Lowering.malformed t fault) reason P :=
  ⟨.malformed, fun _ _ => because⟩

theorem malformed_bind {t : Tree} {fault : Fault} (because : reason) :
    Fares s (Lowering.malformed t fault >>= f) reason R :=
  bind (P := fun _ _ => False) (.malformed because) fun _ _ impossible => impossible.elim

/-- A computation that ends, if it does, in a known state with a known result. -/
abbrev Returns (s : GenState) (x : Gen α) (reason : Prop) (a : α) (s' : GenState) : Prop :=
  Fares s x reason fun b s'' => b = a ∧ s'' = s'

theorem next {a : α} {s' : GenState} (first : Returns s x reason a s')
    (second : Fares s' (f a) reason R) : Fares s (x >>= f) reason R := by
  refine first.bind ?_
  rintro _ _ ⟨rfl, rfl⟩
  exact second

end Fares

open Fares (Returns)

variable {reason : Prop} {aims : List Aim}

theorem fares_freshTemp (s : GenState) : Returns s freshTemp reason s.nextTemp s.withTemp := by
  refine ⟨?_, by rintro _ ⟨⟩⟩
  intro temp s' ran
  cases ran
  refine ⟨rfl, ?_⟩
  unfold GenState.withTemp
  cases s.hosts <;> rfl

theorem fares_freshTemps (items : List α) (s : GenState) :
    Returns s (freshTemps items) reason (s.nextTemps items.length) (s.withTemps items.length) := by
  induction items generalizing s with
  | nil => exact .pure ⟨rfl, rfl⟩
  | cons item rest ih =>
    refine .next (fares_freshTemp s) ?_
    refine .next (ih s.withTemp) ?_
    exact .pure ⟨rfl, rfl⟩

theorem fares_freshLabel (kind : JumpKind) (s : GenState) :
    Returns s (freshLabel kind) reason (s.nextLabel kind) s.withLabel := by
  refine ⟨?_, by rintro _ ⟨⟩⟩
  intro label s' ran
  cases kind <;> cases ran <;> exact ⟨rfl, rfl⟩

/-- A computation that only reads or changes the state. -/
theorem fares_modifyGet (change : GenState → α × GenState) (s : GenState) :
    Returns s (modifyGet change) reason (change s).1 (change s).2 := by
  refine ⟨fun a s' ran => ?_, by rintro _ ⟨⟩⟩
  have same : change s = (a, s') := Except.ok.inj ran
  rw [same]
  exact ⟨rfl, rfl⟩

theorem fares_get (s : GenState) : Returns s get reason s s :=
  fares_modifyGet (fun s => (s, s)) s

theorem fares_inHost {host : Info} {x : Gen (List Stmt)} {post : List Stmt → GenState → Prop}
    (inside : Fares s.enterHost x reason fun body s' =>
      post (declaring (host.declaredNames ++ s'.frame) body) s'.exitHost) :
    Fares s (inHost host x) reason post := by
  rw [inHost]
  refine .next (fares_modifyGet _ s) ?_
  refine .bind inside fun body s' holds => ?_
  refine .next (fares_modifyGet _ s') ?_
  change post (declaring (host.declaredNames ++ (s'.hosts.headD #[]).toList) body)
    s'.exitHost at holds
  dsimp only
  revert holds
  cases host.declaredNames ++ (s'.hosts.headD #[]).toList with
  | nil | cons name names => exact fun holds => .pure holds

theorem fares_inTarget {target : JumpTarget} {x : Gen α}
    {post : α × JumpTarget → GenState → Prop}
    (inside : Fares (s.enter target) x reason fun a s' =>
      post (a, s'.jumps.headD target) s'.exit) :
    Fares s (inTarget target x) reason post := by
  rw [inTarget]
  refine .next (fares_modifyGet _ s) ?_
  refine .bind inside fun a s' holds => ?_
  exact .next (fares_modifyGet _ s') (.pure holds)

theorem fares_inFunction {x : Gen α} {post : α → GenState → Prop}
    (inside :
      Fares { s with jumps := [] } x reason fun a s' => post a { s' with jumps := s.jumps }) :
    Fares s (inFunction x) reason post := by
  rw [inFunction]
  refine .next (fares_get s) ?_
  refine .next (fares_modifyGet _ s) ?_
  refine .bind inside fun a s' holds => ?_
  exact .next (fares_modifyGet _ s') (.pure holds)

/-! ## Targets of jumps -/

/-- What is generated leaves the targets of jumps, but for whether they are used. -/
theorem Made.stays {task : Task} {a : List Stmt} {es : List Expr} {s' : GenState}
    (made : Made task s a es s') (here : s.aims = aims) : s'.aims = aims := by
  rw [← here]
  have jumps := made.grows.jumps
  rw [GenState.aims, GenState.aims]
  generalize s.jumps = before, s'.jumps = after at jumps
  induction jumps with
  | nil => rfl
  | cons kept _ same =>
    rw [map_cons, map_cons, same]
    simp [JumpTarget.aim, kept.kind, kept.results, kept.loopVars]

theorem GenState.aims_withTemps (s : GenState) (count : Nat) :
    (s.withTemps count).aims = s.aims := by
  induction count generalizing s with
  | zero => rfl
  | succ count ih => exact ih s.withTemp

/-! ## Names -/

theorem fares_tagName (t : Tree) (s : GenState) :
    Fares s (tagName t) (t.name?.isSome = false) fun name s' => t.name? = some name ∧ s' = s := by
  rw [tagName]
  split
  case h_1 name named => exact .pure ⟨named, rfl⟩
  case h_2 none => exact .malformed (by rw [none]; rfl)

mutual

theorem fares_namesOf (t : Tree) (s : GenState) :
    Returns s (namesOf t) (t.isPattern = false) t.spelled s := by
  cases t with
  | node id info children =>
    unfold namesOf Tree.spelled Tree.isPattern
    split
    case h_1 kind isTag =>
      rw [isTag]
      refine .bind (fares_tagName _ s) ?_
      rintro name s' ⟨named, rfl⟩
      change info.name? = some name at named
      exact .pure ⟨by rw [named]; rfl, rfl⟩
    case h_2 inner rest isVar | h_3 inner rest isVar =>
      rw [isVar]
      exact (fares_namesOf inner s).blame fun _ => rfl
    case h_4 isVar | h_5 isVar =>
      rw [isVar]
      exact .malformed rfl
    case h_6 isTuple =>
      rw [isTuple]
      exact fares_namesOfAll _ s
    case h_7 noTag noTuple _ _ _ _ =>
      refine .malformed ?_
      split
      · exact absurd ‹_› (noTag _)
      · exact absurd ‹_› noTuple
      · rfl

theorem fares_namesOfAll (ts : List Tree) (s : GenState) :
    Returns s (namesOfAll ts) (Tree.arePatterns ts = false) (Tree.spelledAll ts) s := by
  cases ts with
  | nil => exact .pure ⟨by rw [Tree.spelledAll], rfl⟩
  | cons t ts =>
    rw [namesOfAll, Tree.spelledAll, Tree.arePatterns]
    refine .next ((fares_namesOf t s).blame fun no => by rw [no]; rfl) ?_
    refine .next ((fares_namesOfAll ts s).blame fun no => by rw [no, Bool.and_false]) ?_
    exact .pure ⟨rfl, rfl⟩

end

end Offside.Lowering
