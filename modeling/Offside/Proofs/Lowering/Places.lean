import Offside.Proofs.Lowering.Growth

/-!
# Parts of what is generated

The parts of the statements that rules put together, by the statements of which they are made.
-/

namespace Offside.Lowering

variable {P : Site → Prop} {cx : List Enclosure} {label : String} {names : List String}
  {start body : List Stmt} {es : List Expr}

theorem each_assigns (targets : ∀ name ∈ names, P ⟨cx, .target name⟩) (values : Expr.Each P cx es) :
    Stmt.Each P cx (assigns names es) := by
  induction names generalizing es with
  | nil => exact Stmt.each_nil
  | cons name names ih =>
    have ⟨here, others⟩ := List.forall_mem_cons.mp targets
    cases es with
    | nil => exact Stmt.each_nil
    | cons e es =>
      have ⟨first, rest⟩ := Expr.each_cons.mp values
      exact (Stmt.each_cons rfl).mpr ⟨Stmt.each_assign.mpr ⟨here, first⟩, ih others rest⟩

/-- Values are handed to places that the property allows, if it allows the names that are lost. -/
theorem Delivered.each {dest : Dest} {a : List Stmt} (delivered : Delivered dest es a)
    (targets : ∀ names, dest = .into names → ∀ name ∈ names, P ⟨cx, .target name⟩)
    (values : Expr.Each P cx es) : Stmt.Each P cx a := by
  cases delivered with
  | discard e => exact Stmt.each_expr.mpr values
  | dropped names => exact Stmt.each_nil
  | ret e => exact Stmt.each_ret.mpr values
  | into => exact each_assigns (targets _ rfl) values

theorem each_declaring (decl : P ⟨cx, .decl names⟩) (bare : names = [] → Stmt.Each P cx body)
    (behind : Stmt.Each P (.behind names :: cx) body) : Stmt.Each P cx (declaring names body) := by
  unfold declaring
  split
  · exact bare rfl
  · exact Stmt.each_decl.mpr ⟨decl, behind⟩

theorem each_marked {used : Bool} (name : used → P ⟨cx, .label label⟩)
    (inside : Stmt.Each P
      (Stmt.listed body :: if used then .labeled label false :: cx else cx) body) :
    Stmt.Each P cx (marked label used body) := by
  cases used with
  | false => exact Stmt.each_block.mpr inside
  | true => exact Stmt.each_labeled.mpr ⟨name rfl, Stmt.each_block.mpr inside⟩

/-- The places around a loop: perhaps a list, which then declares the variables of the loop. -/
inductive Around (cx : List Enclosure) (names : List String) : List Enclosure → Prop
  | bare (none : names = []) : Around cx names cx
  | list (none : names = []) (listed : List String) : Around cx names (.list listed :: cx)
  | behind (listed : List String) : Around cx names (.behind names :: .list listed :: cx)

theorem each_looping (quiet : Stmt.Quiet start) (decl : ∀ cx, P ⟨cx, .decl names⟩)
    (inside : ∀ cx', Around cx names cx' → Stmt.Each P cx' start ∧ P ⟨cx', .label label⟩ ∧
      Stmt.Each P (Stmt.listed (leaving label body) :: .round :: .labeled label true :: cx')
        (leaving label body)) :
    Stmt.Each P cx (looping label names start body) := by
  have loop (cx' : List Enclosure) (around : Around cx names cx') :
      Stmt.Each P cx' [endlessly label body] := by
    obtain ⟨_, here, body⟩ := inside cx' around
    simp only [endlessly, Stmt.each_labeled, Stmt.isLoop, Stmt.each_whileLoop, Expr.each_literal,
      Stmt.each_block, true_and]
    exact ⟨here, body⟩
  have whole (cx' : List Enclosure) (around : Around cx names cx') :
      Stmt.Each P cx' (start ++ [endlessly label body]) :=
    (Stmt.each_append quiet).mpr ⟨(inside cx' around).1, loop cx' around⟩
  unfold looping declaring
  cases names with
  | nil =>
    cases start with
    | nil => exact loop cx (.bare rfl)
    | cons first rest => exact Stmt.each_block.mpr (whole _ (.list rfl _))
  | cons name names =>
    refine Stmt.each_block.mpr ?_
    rw [List.cons_append, Stmt.each_decl]
    exact ⟨decl _, whole _ (.behind _)⟩

theorem each_leaving (leave : P ⟨Stmt.opening body ++ cx, .leave (some label)⟩)
    (inside : Stmt.Each P cx body) : Stmt.Each P cx (leaving label body) := by
  unfold leaving
  split
  · exact inside
  · rw [Stmt.Each, Stmt.partsAll_append, List.forall_mem_append]
    exact ⟨inside, Stmt.each_leave.mpr leave⟩

end Offside.Lowering
