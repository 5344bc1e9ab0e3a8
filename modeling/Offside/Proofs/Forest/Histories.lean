import Offside.Proofs.Forest.Copies

/-!
# Histories of a forest

Nodes are added, linked, moved, copied and replaced one after the other. Whatever the edits are,
the links form a forest after each of them, as long as no link was refused.
-/

namespace Offside.Forest

open List

variable {f : Forest}

/-- What can be done with the nodes of a forest. -/
inductive Edit where
  | add (info : Info)
  | detach (id : NodeId)
  | append (upper child : NodeId)
  | insert (upper : NodeId) (index : Nat) (child : NodeId)
  | takeChildren (id : NodeId)
  | deepClone (id : NodeId)
  | transform (target source : NodeId)
  | replace (old new : NodeId)

namespace Edit

def apply (f : Forest) : Edit → Forest
  | add info => (f.add info).2
  | detach id => f.detach id
  | append upper child => f.appendChild upper child
  | insert upper index child => f.insertChild upper index child
  | takeChildren id => (f.takeChildren id).2
  | deepClone id => (f.deepClone id).2
  | transform target source => f.transformInto target source
  | replace old new => f.replace old new

/--
An edit is about nodes of the forest, and what replaces a node is not above it.
-/
def Allowed (f : Forest) : Edit → Prop
  | add _ => True
  | detach id | takeChildren id | deepClone id => id < f.size
  | append upper child | insert upper _ child => upper < f.size ∧ child < f.size
  | transform target source => target < f.size ∧ source < f.size
  | replace old new => old < f.size ∧ new < f.size ∧ ¬f.Above new old

/-- What one edit keeps. -/
theorem isForest_apply (isForest : f.IsForest) {edit : Edit} (allowed : edit.Allowed f)
    (unrefused : (edit.apply f).refused = none) : (edit.apply f).IsForest := by
  cases edit with
  | add info => exact isForest_add isForest info
  | detach id => exact (cut_detach isForest id).isForest isForest
  | append upper child | insert upper index child =>
    exact isForest_insertChild isForest allowed.1 allowed.2 unrefused
  | takeChildren id => exact (cut_takeChildren isForest id).isForest isForest
  | deepClone id =>
    obtain ⟨_, _, copied⟩ := isForest.copied_deepClone allowed
    exact copied.isForest
  | transform target source =>
    apply isForest_transformInto isForest allowed.1
    exact fun above => refused_transformInto isForest allowed.1 above unrefused
  | replace old new => exact isForest_replace isForest allowed.2.1 allowed.2.2

end Edit

/-- A forest that edits make of the empty one, none of which was refused. -/
inductive Edited : Forest → Prop
  | empty : Edited .empty
  | edit {f : Forest} (edited : Edited f) (edit : Edit) (allowed : edit.Allowed f)
      (unrefused : (edit.apply f).refused = none) : Edited (edit.apply f)

theorem Edited.isForest (edited : Edited f) : f.IsForest := by
  induction edited with
  | empty => exact isForest_empty
  | edit _ edit allowed unrefused ih => exact edit.isForest_apply ih allowed unrefused

/--
Edits keep a forest, and of the links that they make exactly those are refused that would put a
node below itself.
-/
theorem links_of_edited (edited : Edited f) :
    (∀ upper child, (f.parent child = some upper ↔ child ∈ f.children upper) ∧
      (child ∈ f.children upper → (f.children upper).count child = 1)) ∧
    (∀ id, ¬f.Above id id) ∧
    (∀ upper < f.size, ∀ index, ∀ child < f.size,
      (f.insertChild upper index child).refused ≠ none ↔ child = upper ∨ f.Above child upper) ∧
    ∀ target < f.size, ∀ source < f.size,
      (f.transformInto target source).refused ≠ none ↔ f.Above source target := by
  have isForest := edited.isForest
  refine ⟨fun upper child => ⟨(isForest.agree upper child).symm, isForest.once upper child⟩, ?_,
    ?_, ?_⟩
  · rintro id ⟨steps, back⟩
    exact isForest.acyclic id (steps + 1) (Nat.succ_pos steps) back
  · intro upper inside index child _
    rw [refused_insertChild isForest inside, covers_iff]
  · intro target inside source _
    constructor
    · intro refused
      by_contra clear
      exact refused (isForest_transformInto isForest inside clear).unrefused
    · exact fun above => refused_transformInto isForest inside above

/-- A chain of three nodes with a copy of the last two. -/
def copied : Forest :=
  [.add default, .add default, .add default, .append 0 1, .append 1 2, .insert 0 0 1,
    .deepClone 1].foldl Edit.apply .empty

/-- A chain of four nodes below which the copy was put in the place of one of them. -/
def chained : Forest :=
  [.replace 2 3, .transform 2 4, .takeChildren 1, .append 2 3, .append 1 2, .detach 1,
    .append 0 1].foldl Edit.apply copied

theorem edited_copied : Edited copied := by
  have three : Edited _ := ((Edited.empty.edit (.add default) trivial rfl).edit
    (.add default) trivial rfl).edit (.add default) trivial rfl
  have linked := (three.edit (.append 0 1) ⟨by decide, by decide⟩ rfl).edit
    (.append 1 2) ⟨by decide, by decide⟩ rfl
  -- The only child of a node is moved to where it is.
  have moved := linked.edit (.insert 0 0 1) ⟨by decide, by decide⟩ rfl
  exact moved.edit (.deepClone 1) (show _ < _ by decide) rfl

theorem edited_chained : Edited chained := by
  have clear : ¬copied.Above 3 2 := by
    intro above
    have covers := covers_iff.mpr (.inr above)
    rw [← edited_copied.isForest.isAbove_iff (by decide)] at covers
    exact absurd covers (by decide)
  have replaced :=
    edited_copied.edit (.replace 2 3) ⟨by decide, by decide, clear⟩ (by decide +kernel)
  have transformed := replaced.edit (.transform 2 4) ⟨by decide +kernel, by decide +kernel⟩
    (by decide +kernel)
  have taken :=
    transformed.edit (.takeChildren 1) (show _ < _ by decide +kernel) (by decide +kernel)
  have linked := (taken.edit (.append 2 3) ⟨by decide +kernel, by decide +kernel⟩
    (by decide +kernel)).edit (.append 1 2) ⟨by decide +kernel, by decide +kernel⟩
      (by decide +kernel)
  have detached := linked.edit (.detach 1) (show _ < _ by decide +kernel) (by decide +kernel)
  exact detached.edit (.append 0 1) ⟨by decide +kernel, by decide +kernel⟩ (by decide +kernel)

theorem links_of_edited_chained :
    Edited chained ∧ chained.parent 3 = some 2 ∧ 3 ∈ chained.children 2 ∧
      (chained.insertChild 3 0 0).refused ≠ none ∧ chained.Above 0 3 ∧
      (chained.transformInto 3 0).refused ≠ none ∧ (chained.transformInto 0 3).refused = none ∧
      ¬chained.Above 3 0 := by
  obtain ⟨agree, _, insert, transform⟩ := links_of_edited edited_chained
  have linked : chained.parent 3 = some 2 := by decide +kernel
  have unrefused : (chained.transformInto 0 3).refused = none := by decide +kernel
  have above : chained.Above 0 3 := ⟨2, by decide +kernel⟩
  refine ⟨edited_chained, linked, (agree 2 3).1.mp linked, ?_, above, ?_, unrefused, ?_⟩
  · exact (insert 3 (by decide +kernel) 0 0 (by decide +kernel)).mpr (.inr above)
  · exact (transform 3 (by decide +kernel) 0 (by decide +kernel)).mpr above
  · exact fun below => (transform 0 (by decide +kernel) 3 (by decide +kernel)).mpr below unrefused

end Offside.Forest
