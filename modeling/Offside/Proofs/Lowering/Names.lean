import Offside.Proofs.Lowering.Tally
import Mathlib.Data.List.Nodup

/-!
# Names that are given out

Temporaries and labels are numbered, and no number is given out twice.
-/

namespace Offside.Lowering

open List

/-- A text with a number behind it tells the number. -/
theorem number_inj {text : String} {n m : Nat} (same : text ++ toString n = text ++ toString m) :
    n = m := by
  have digits : (toString n).toList = (toString m).toList := by
    have all := congrArg String.toList same
    rwa [String.toList_append, String.toList_append, append_cancel_left_eq] at all
  rw [Nat.toString_eq_repr, Nat.toString_eq_repr, Nat.toList_repr, Nat.toList_repr] at digits
  rw [← Nat.ofDigitChars_ten_toDigits (n := n), digits, Nat.ofDigitChars_ten_toDigits]

def IsTemp (name : String) : Prop :=
  ∃ n : Nat, name = s!"$t{n}"

theorem doLabel_ne_loopLabel (n m : Nat) : s!"do${n}" ≠ s!"loop${m}" := by
  intro same
  have lists := congrArg String.toList same
  rw [String.toList_append, String.toList_append] at lists
  cases (List.cons.inj lists).1

namespace GenState

variable {s : GenState} {name text : String}

theorem nodup_temps (count : Nat) :
    ((List.range count).map fun n => Binder.hoisted s!"$t{n + 1}").Nodup := by
  refine nodup_range.map fun n m same => ?_
  exact Nat.succ.inj (number_inj (Binder.hoisted.inj same))

theorem nodup_labels (count : Nat) :
    ((List.range count).flatMap fun n =>
      [Binder.label s!"do${n + 1}", Binder.label s!"loop${n + 1}"]).Nodup := by
  refine nodup_flatMap.mpr ⟨fun n _ => ?_, nodup_range.imp fun {n m} differ => ?_⟩
  · simpa using doLabel_ne_loopLabel (n + 1) (n + 1)
  · refine disjoint_left.mpr ?_
    intro label here there
    simp only [mem_cons, not_mem_nil, or_false] at here there
    rcases here with rfl | rfl
    · rcases there with same | same
      · exact differ (Nat.succ.inj (number_inj (Binder.label.inj same)))
      · exact doLabel_ne_loopLabel _ _ (Binder.label.inj same)
    · rcases there with same | same
      · exact doLabel_ne_loopLabel _ _ (Binder.label.inj same).symm
      · exact differ (Nat.succ.inj (number_inj (Binder.label.inj same)))

theorem given_label_le : s.given (.label text) ≤ 1 := by
  have temps : ((List.range s.temps).map fun n => Binder.hoisted s!"$t{n + 1}").count
      (.label text) = 0 :=
    count_eq_zero.mpr (by simp)
  rw [given, temps, Nat.zero_add]
  exact nodup_iff_count_le_one.mp (nodup_labels s.labels) _

theorem given_hoisted :
    s.given (.hoisted name) =
      ((List.range s.temps).map fun n => Binder.hoisted s!"$t{n + 1}").count (.hoisted name) := by
  rw [given, Nat.add_eq_left, count_eq_zero]
  simp

theorem given_hoisted_le : s.given (.hoisted name) ≤ 1 := by
  rw [given_hoisted]
  exact nodup_iff_count_le_one.mp (nodup_temps s.temps) _

theorem given_param_eq_zero : s.given (.param name) = 0 := by
  simp [given, count_eq_zero]

end GenState

end Offside.Lowering
