import Offside.Proofs.Lowering.Rules
import Mathlib.Data.List.Forall2

/-!
# What generation leaves behind

Generation only adds to the state: temporaries and labels are given out in order, the innermost
host takes over new temporaries, and the targets of jumps are as before, but that a jump may have
used one. And it declares something for the list in which its statements stand only as the body
of a construct.
-/

namespace Offside.Lowering

open List

/-- A target of jumps that jumps may have used. -/
structure JumpTarget.Kept (before after : JumpTarget) : Prop where
  kind : after.kind = before.kind
  label : after.label = before.label
  results : after.results = before.results
  loopVars : after.loopVars = before.loopVars
  used : before.used → after.used

theorem JumpTarget.Kept.refl (target : JumpTarget) : target.Kept target :=
  ⟨rfl, rfl, rfl, rfl, id⟩

theorem JumpTarget.Kept.trans {first second third : JumpTarget} (one : first.Kept second)
    (two : second.Kept third) : first.Kept third :=
  ⟨two.kind.trans one.kind, two.label.trans one.label, two.results.trans one.results,
    two.loopVars.trans one.loopVars, two.used ∘ one.used⟩

theorem JumpTarget.allKept_trans {first second third : List JumpTarget}
    (one : List.Forall₂ Kept first second) (two : List.Forall₂ Kept second third) :
    List.Forall₂ Kept first third := by
  induction one generalizing third with
  | nil => exact two
  | cons kept _ ih =>
    cases two with
    | cons keptMore rest => exact .cons (kept.trans keptMore) (ih rest)

theorem JumpTarget.exists_kept {jumps after : List JumpTarget}
    (kept : List.Forall₂ Kept jumps after) {target : JumpTarget} (member : target ∈ jumps) :
    ∃ same ∈ after, target.Kept same := by
  induction kept with
  | nil => cases member
  | cons here _ ih =>
    rcases mem_cons.mp member with rfl | later
    · exact ⟨_, .head _, here⟩
    · obtain ⟨same, found, kept⟩ := ih later
      exact ⟨same, .tail _ found, kept⟩

/-- Different numbers between two others. -/
def Between (low high : Nat) (numbers : List Nat) : Prop :=
  numbers.Nodup ∧ ∀ n ∈ numbers, low < n ∧ n ≤ high

theorem Between.append {low middle high : Nat} {first second : List Nat}
    (before : Between low middle first) (after : Between middle high second) (rises : low ≤ middle)
    (goesOn : middle ≤ high) : Between low high (first ++ second) := by
  obtain ⟨distinct, inside⟩ := before
  obtain ⟨distinctToo, insideToo⟩ := after
  constructor
  · refine nodup_append.mpr ⟨distinct, distinctToo, ?_⟩
    grind
  · grind

/-- The temporaries with some numbers. -/
def temporaries (numbers : List Nat) : Array String :=
  (numbers.map fun n => s!"$t{n}").toArray

theorem temporaries_append (first second : List Nat) :
    temporaries first ++ temporaries second = temporaries (first ++ second) := by
  simp [temporaries]

/-- What generation may do to the state. -/
structure Grows (s s' : GenState) : Prop where
  temps : s.temps ≤ s'.temps
  labels : s.labels ≤ s'.labels
  jumps : List.Forall₂ JumpTarget.Kept s.jumps s'.jumps
  hosts : ∃ issued, Between s.temps s'.temps issued ∧
    s'.hosts = s.hosts.modifyHead (· ++ temporaries issued)

/-- A host has a temporary once, and all its temporaries have been given out. -/
def GenState.Orderly (s : GenState) : Prop :=
  ∀ host ∈ s.hosts, ∃ given, Between 0 s.temps given ∧ host = temporaries given

namespace Grows

variable {s s₁ s₂ : GenState}

theorem refl (s : GenState) : Grows s s := by
  refine ⟨Nat.le_refl _, Nat.le_refl _, List.forall₂_same.mpr fun t _ => .refl t, [],
    by simp [Between], ?_⟩
  cases s.hosts <;> simp [temporaries]

theorem trans (first : Grows s s₁) (second : Grows s₁ s₂) : Grows s s₂ := by
  obtain ⟨issued, between, hosts⟩ := first.hosts
  obtain ⟨more, betweenMore, hostsMore⟩ := second.hosts
  refine ⟨Nat.le_trans first.temps second.temps, Nat.le_trans first.labels second.labels,
    ?_, issued ++ more, between.append betweenMore first.temps second.temps, ?_⟩
  · exact JumpTarget.allKept_trans first.jumps second.jumps
  · rw [hostsMore, hosts]
    cases s.hosts <;> simp [← temporaries_append]

theorem withTemp (s : GenState) : Grows s s.withTemp := by
  refine ⟨Nat.le_succ _, Nat.le_refl _, (refl s).jumps, [s.temps + 1],
    by simp [Between, GenState.withTemp], ?_⟩
  rw [GenState.withTemp]
  cases s.hosts <;> simp [temporaries, GenState.nextTemp]

theorem withTemps (s : GenState) (count : Nat) : Grows s (s.withTemps count) := by
  induction count generalizing s with
  | zero => exact refl s
  | succ count ih => exact (withTemp s).trans (ih s.withTemp)

theorem withLabel (s : GenState) : Grows s s.withLabel :=
  ⟨Nat.le_refl _, Nat.le_succ _, (refl s).jumps, (refl s).hosts⟩

theorem mark (s : GenState) (label : String) : Grows s (s.mark label) := by
  refine ⟨Nat.le_refl _, Nat.le_refl _, ?_, (refl s).hosts⟩
  rw [GenState.mark, List.forall₂_map_right_iff]
  refine List.forall₂_same.mpr fun target _ => ?_
  split
  · exact ⟨rfl, rfl, rfl, rfl, fun _ => rfl⟩
  · exact .refl target

theorem exit {target : JumpTarget} (inside : Grows (s.enter target) s₁) : Grows s s₁.exit := by
  refine ⟨inside.temps, inside.labels, ?_, inside.hosts⟩
  have jumps := inside.jumps
  rw [GenState.enter, List.forall₂_cons_left_iff] at jumps
  obtain ⟨after, rest, _, kept, same⟩ := jumps
  rw [GenState.exit, same]
  exact kept

theorem hosts_exitHost (inside : Grows s.enterHost s₁) : s₁.exitHost.hosts = s.hosts := by
  obtain ⟨issued, _, hosts⟩ := inside.hosts
  rw [GenState.exitHost, hosts]
  rfl

theorem exitHost (inside : Grows s.enterHost s₁) : Grows s s₁.exitHost := by
  refine ⟨inside.temps, inside.labels, inside.jumps, [], by simp [Between], ?_⟩
  rw [hosts_exitHost inside]
  cases s.hosts <;> simp [temporaries]

theorem exitFunction (inside : Grows { s with jumps := [] } s₁) :
    Grows s { s₁ with jumps := s.jumps } :=
  ⟨inside.temps, inside.labels, (refl s).jumps, inside.hosts⟩

theorem hosts_ne (grows : Grows s s₁) : s₁.hosts ≠ [] ↔ s.hosts ≠ [] := by
  obtain ⟨issued, _, same⟩ := grows.hosts
  rw [same]
  cases s.hosts <;> simp

/-- Hosts whose temporaries are different and have been given out stay like that. -/
theorem orderly (grows : Grows s s₁) (orderly : s.Orderly) : s₁.Orderly := by
  obtain ⟨issued, between, same⟩ := grows.hosts
  intro host member
  rw [same] at member
  cases hosts : s.hosts with
  | nil =>
    rw [hosts] at member
    cases member
  | cons first outer =>
    rw [hosts, modifyHead_cons, mem_cons] at member
    rcases member with rfl | outside
    · obtain ⟨given, early, rfl⟩ := orderly first (hosts ▸ mem_cons_self)
      exact ⟨given ++ issued, early.append between (Nat.zero_le _) grows.temps,
        temporaries_append _ _⟩
    · obtain ⟨given, early, rfl⟩ := orderly host (hosts ▸ mem_cons_of_mem first outside)
      have later : Between 0 s₁.temps (given ++ []) :=
        early.append ⟨nodup_nil, forall_mem_nil _⟩ (Nat.zero_le _) grows.temps
      exact ⟨given, append_nil given ▸ later, rfl⟩

theorem frame (grows : Grows s s₁) : ∀ name ∈ s.frame, name ∈ s₁.frame := by
  obtain ⟨issued, _, same⟩ := grows.hosts
  intro name member
  rw [GenState.frame] at member ⊢
  rw [same]
  cases hosts : s.hosts with
  | nil =>
    rw [hosts] at member
    cases member
  | cons host outer =>
    rw [hosts] at member
    simpa using Or.inl (Array.mem_toList_iff.mp member)

end Grows

variable {a : List Stmt} {es : List Expr}

theorem GenState.nextTemp_mem_frame {s : GenState} (hosts : s.hosts ≠ []) :
    s.nextTemp ∈ s.withTemp.frame := by
  rw [frame, withTemp]
  cases same : s.hosts with
  | nil => exact absurd same hosts
  | cons host outer => simp

theorem length_nextTemps (s : GenState) (count : Nat) : (s.nextTemps count).length = count := by
  induction count generalizing s with
  | zero => rfl
  | succ count ih => rw [GenState.nextTemps, length_cons, ih]

theorem GenState.nextTemps_subset_frame {s : GenState} {count : Nat} (hosts : s.hosts ≠ []) :
    ∀ name ∈ s.nextTemps count, name ∈ (s.withTemps count).frame := by
  induction count generalizing s with
  | zero => exact nofun
  | succ count ih =>
    intro name member
    have inside : s.withTemp.hosts ≠ [] := by
      rw [withTemp]
      cases same : s.hosts with
      | nil => exact absurd same hosts
      | cons host outer => simp
    rcases mem_cons.mp member with rfl | later
    · exact (Grows.withTemps s.withTemp count).frame _ (nextTemp_mem_frame hosts)
    · exact ih inside name later

theorem Made.grows {task : Task} {s s' : GenState} (made : Made task s a es s') : Grows s s' := by
  induction made with
  | noValues | name | declared | noTargets | noRuns | silent | returnedNothing => exact .refl _
  | moreValues _ _ first rest | moreTargets _ _ first rest | moreRuns _ _ first rest
  | chosen _ _ _ _ _ first rest | whilst _ _ _ _ first rest | whilstTrue _ _ _ _ first rest
  | tryFinally _ _ _ _ first rest | tryCatch _ _ _ _ _ first rest => exact first.trans rest
  | chosenElse _ _ _ _ _ _ _ first second third => exact (first.trans second).trans third
  | valuePlaced _ _ ih | composed _ _ _ ih | property _ _ _ _ _ ih | elements _ _ ih
  | assigned _ _ _ _ _ ih | placed _ _ ih | delivered _ _ ih | dropped _ _ ih | alone _ _ _ ih
  | returned _ _ _ ih | thrown _ _ _ ih | block _ _ ih | bodyBlock _ _ ih | bodyLine _ ih
  | otherBlock _ ih | otherOnly _ ih | tried _ _ _ ih | tryCode _ ih | givenBack _ _ _ _ ih =>
    exact ih
  | spilled _ ih => exact ih.trans (.withTemp _)
  | through _ _ ih => exact (Grows.withTemp _).trans ih
  | lazily _ _ _ _ _ first second => exact (first.trans (.withTemp _)).trans second
  | function _ _ _ _ ih => exact ih.exitFunction
  | assignedThrough _ _ _ _ _ first second => exact ((Grows.withTemps _ _).trans first).trans second
  | hosted _ ih => exact ih.exitHost
  | doBlock _ _ ih | endless _ _ _ ih => exact (Grows.withLabel _).trans ih.exit
  | started _ _ _ _ _ first second => exact ((Grows.withLabel _).trans first).trans second.exit
  | startedOutside _ _ _ _ _ first second =>
    exact (((Grows.withLabel _).trans (.withTemps _ _)).trans first).trans second.exit
  | given _ _ _ ih | next _ _ _ _ ih => exact ih.trans (.mark _ _)
  | left => exact .mark _ _

/-- Tasks that take temporaries from the host around them. -/
def Task.Spills : Task → Prop
  | .hosted _ _ => False
  | _ => True

/-! ## Declarations -/

/-- Tasks whose statements declare nothing for the list in which they stand. -/
def Task.isQuiet : Task → Prop
  | .body _ _ | .hosted _ _ => False
  | _ => True

theorem quiet_assigns (names : List String) (es : List Expr) : Stmt.Quiet (assigns names es) := by
  intro s member
  obtain ⟨pair, _, rfl⟩ := mem_map.mp member
  rfl

theorem quiet_looping (label : String) (names : List String) (start body : List Stmt) :
    Stmt.Quiet (looping label names start body) := by
  unfold looping
  intro s member
  split at member
  all_goals
    cases mem_singleton.mp member
    rfl

theorem Delivered.quiet {dest : Dest} (delivered : Delivered dest es a) : Stmt.Quiet a := by
  cases delivered with
  | dropped names => exact nofun
  | into => exact quiet_assigns _ _
  | discard e | ret e => simp [Stmt.Quiet, Stmt.opens]

theorem Made.quiet {task : Task} {s s' : GenState} (made : Made task s a es s')
    (quiet : task.isQuiet) : Stmt.Quiet a := by
  induction made with
  | noValues | name | declared | noTargets | noRuns | silent | function => exact nofun
  | hosted | bodyBlock | bodyLine => exact quiet.elim
  | moreValues _ _ first rest | moreRuns _ _ first rest =>
    exact (first trivial).append (rest trivial)
  | moreTargets _ _ first rest =>
    refine (first trivial).append (forall_mem_cons.mpr ⟨rfl, rest trivial⟩)
  | spilled _ ih | returned _ _ _ ih | thrown _ _ _ ih | given _ _ _ ih | next _ _ _ _ ih
  | chosen _ _ _ _ _ ih | whilst _ _ _ _ ih | chosenElse _ _ _ _ _ _ _ ih | lazily _ _ _ _ _ ih =>
    exact (ih trivial).append (by simp [Stmt.Quiet, Stmt.opens, Stmt.assign])
  | valuePlaced _ _ ih | through _ _ ih | composed _ _ _ ih | property _ _ _ _ _ ih
  | elements _ _ ih | assigned _ _ _ _ _ ih | dropped _ _ ih | alone _ _ _ ih | tried _ _ _ ih
  | otherOnly _ ih | givenBack _ _ _ _ ih => exact ih trivial
  | assignedThrough _ _ _ _ _ first second => exact (first trivial).append (second trivial)
  | placed span _ ih =>
    intro s member
    obtain ⟨inner, found, rfl⟩ := mem_map.mp member
    rw [Stmt.opens_withSpan]
    exact ih trivial inner found
  | delivered _ delivered ih => exact (ih trivial).append delivered.1.quiet
  | returnedNothing | block | otherBlock | whilstTrue | tryCode | tryCatch | tryFinally | left =>
    simp [Stmt.Quiet, Stmt.opens]
  | doBlock =>
    unfold marked
    split <;> simp [Stmt.Quiet, Stmt.opens]
  | endless | started => exact quiet_looping _ _ _ _
  | startedOutside _ _ _ _ _ first => exact (first trivial).append (quiet_looping _ _ _ _)

end Offside.Lowering
