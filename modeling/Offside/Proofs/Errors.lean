import Offside.Diagnostic

/-!
# Computations without errors

What is known of a computation that ends without an error among its reports.
-/

namespace Offside

/--
If there is no error in the end, there was none at the start, and the result has a property. The
reports of a state are given by `view`.
-/
def Cleanly {σ α : Type} (view : σ → Diagnostics) (x : StateM σ α) (fact : α → Prop) : Prop :=
  ∀ s, (view (x s).2).hasErrors = false → (view s).hasErrors = false ∧ fact (x s).1

namespace Cleanly

variable {σ α β : Type} {view : σ → Diagnostics} {x : StateM σ α} {fact weaker : α → Prop}

theorem pure {a : α} (holds : fact a) : Cleanly view (Pure.pure a) fact :=
  fun _ clean => ⟨clean, holds⟩

/--
The second computation is known to be clean first, so it may not rely on the result of the first.
-/
theorem bind {f : α → StateM σ β} {final : β → Prop} (first : Cleanly view x fact)
    (second : ∀ a, Cleanly view (f a) fun b => fact a → final b) :
    Cleanly view (x >>= f) final := by
  intro s clean
  obtain ⟨between, implied⟩ := second (x s).1 (x s).2 clean
  obtain ⟨before, holds⟩ := first s between
  exact ⟨before, implied holds⟩

theorem mono (cleanly : Cleanly view x fact) (weaken : ∀ a, fact a → weaker a) :
    Cleanly view x weaker :=
  fun s clean => (cleanly s clean).imp_right (weaken _)

/-- A computation that reports an error. -/
theorem of_error (reports : ∀ s, (view (x s).2).hasErrors ≠ false) : Cleanly view x fact :=
  fun s clean => absurd clean (reports s)

end Cleanly

end Offside
