/-!
# Results of computations with a state

What every result of a computation has in common, whatever the state in which it starts, and what
it has to do with that state.
-/

namespace Offside

def Yields {σ α : Type} (x : StateM σ α) (fact : α → Prop) : Prop :=
  ∀ s : σ, fact (x s).1

namespace Yields

variable {σ α β : Type} {x : StateM σ α} {fact weaker : α → Prop}

theorem pure {a : α} (holds : fact a) : Yields (Pure.pure a : StateM σ α) fact :=
  fun _ => holds

theorem bind {f : α → StateM σ β} {final : β → Prop} (first : Yields x fact)
    (second : ∀ a, fact a → Yields (f a) final) : Yields (x >>= f) final :=
  fun s => second (x s).1 (first s) (x s).2

/-- What holds after any first computation holds of the two together. -/
theorem after {f : α → StateM σ β} {final : β → Prop}
    (second : ∀ a, Yields (f a) final) : Yields (x >>= f) final :=
  fun s => second (x s).1 (x s).2

/-- A computation that is perhaps begun with another one. -/
theorem join {c : Prop} [Decidable c] {before : StateM σ Unit} {f : Unit → StateM σ α}
    (each : ∀ u, Yields (f u) fact) : Yields (if c then before >>= f else f ()) fact := by
  split
  · exact after each
  · exact each ()

theorem mono (yields : Yields x fact) (weaken : ∀ a, fact a → weaker a) : Yields x weaker :=
  fun s => weaken _ (yields s)

theorem of_run (yields : Yields x fact) {s s' : σ} {a : α} (ran : x s = (a, s')) : fact a := by
  have holds := yields s
  rwa [ran] at holds

end Yields

/-- What a computation has to do with the states before and behind it. -/
def Runs {σ α : Type} (x : StateM σ α) (fact : σ → α → σ → Prop) : Prop :=
  ∀ s : σ, fact s (x s).1 (x s).2

namespace Runs

variable {σ α β : Type} {x : StateM σ α} {fact : σ → α → σ → Prop}

theorem pure {a : α} (holds : ∀ s, fact s a s) : Runs (Pure.pure a : StateM σ α) fact :=
  holds

theorem self (x : StateM σ α) : Runs x fun s a s' => x s = (a, s') :=
  fun _ => rfl

theorem of_run (runs : Runs x fact) {s s' : σ} {a : α} (ran : x s = (a, s')) : fact s a s' := by
  have holds := runs s
  rwa [ran] at holds

theorem bind {f : α → StateM σ β} {final : σ → β → σ → Prop} (first : Runs x fact)
    (second : ∀ s a s₁, fact s a s₁ → final s (f a s₁).1 (f a s₁).2) : Runs (x >>= f) final :=
  fun s => second s (x s).1 (x s).2 (first s)

/-- The second computation as one that is known to start behind the first. -/
theorem next {f : α → StateM σ β} {final : σ → β → σ → Prop} (first : Runs x fact)
    (second : ∀ a, Runs (f a) fun s₁ b s' => ∀ s, fact s a s₁ → final s b s') :
    Runs (x >>= f) final :=
  first.bind fun s a s₁ known => second a s₁ s known

/-- A loop without a break, whose rounds relate the states before and behind them. -/
theorem forIn {P : β → σ → σ → Prop} {Q : List β → σ → σ → Prop} (nil : ∀ s, Q [] s s)
    (cons : ∀ b rest s s₁ s₂, P b s s₁ → Q rest s₁ s₂ → Q (b :: rest) s s₂) (xs : List β)
    {body : β → PUnit → StateM σ (ForInStep PUnit)}
    (round : ∀ b u, Runs (body b u) fun s step s' => step = .yield u ∧ P b s s') (u : PUnit) :
    Runs (ForIn.forIn xs u body) fun s _ s' => Q xs s s' := by
  induction xs generalizing u with
  | nil => exact .pure nil
  | cons b rest ih =>
    rw [List.forIn_cons]
    refine .bind (round b u) fun s step s₁ known => ?_
    rw [known.1]
    exact cons b rest s s₁ _ known.2 (ih u s₁)

end Runs

end Offside
