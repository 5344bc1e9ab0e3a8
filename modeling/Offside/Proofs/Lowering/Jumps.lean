import Offside.Proofs.Lowering.Derivations
import Offside.Proofs.Lowering.Names
import Offside.Proofs.Lowering.Placement

/-!
# Jumps of a program

Every jump of a generated program has its target around it, in the same function, and no label
stands twice.
-/

namespace Offside.Lowering

variable {t : Tree} {program : Program}

/-- A unit at the top of a program, where the names in `base` can be seen. -/
theorem stands_program {tied base : String → Prop} {s : GenState}
    (closed : ∀ line ∈ t.children, line.Closed tied (Adding tied base t.info.declaredNames))
    (free : ∀ name, base name → ¬tied name) (grows : Grows .start s) (listed : List String) :
    Stands tied base base (.hosted t.info (.runs (lines .discard t.children))) s
      [.list listed] := by
  have noJumps : s.jumps = [] := List.forall₂_nil_left_iff.mp grows.jumps
  refine ⟨fun job member => closed job.1 (mem_lines member).1, ⟨?_, ?_, ?_⟩, False.elim, ?_⟩
  · rw [noJumps]
    exact nofun
  · exact fun name isBase => ⟨free name isBase, isBase⟩
  · rw [noJumps]
    exact nofun
  · exact fun name member => absurd (names_lines member) List.not_mem_nil

/-- What a program introduces is in the tree or has been given out. -/
theorem tally_program {b : Binder} {s : GenState}
    (made : Made (.hosted t.info (.runs (lines .discard t.children))) .start program [] s) :
    Stmt.tally b program ≤ t.tally b + s.given b := by
  have balance := made.balanced (b := b)
  have whole := Tree.tally_host (b := b) (t := t) rfl
  rw [Balanced, Task.tally, Task.tally, map_fst_lines] at balance
  have start : GenState.held b .start = 0 := rfl
  omega

/-- Every jump of a program has its target around it, and no two labels are the same. -/
theorem jumpsWell_of_run (generated : run t = .ok program) :
    (∀ site ∈ program.parts, site.JumpsWell) ∧ program.labels.Nodup := by
  obtain ⟨s, made⟩ := made_of_run generated
  refine ⟨fun site member => ?_, ?_⟩
  · have stands : Stands (fun _ => False) (fun _ => True) (fun _ => True)
        (.hosted t.info (.runs (lines .discard t.children))) s [Stmt.listed program] :=
      stands_program (fun line _ => Tree.closed_of_carried fun _ _ => ⟨.inl trivial, not_false⟩)
        (fun _ _ => not_false) made.grows _
    exact ((made.wellPlaced stands).1 site member).1
  · refine List.nodup_iff_count_le_one.mpr fun text => ?_
    have inTree : t.tally (.label text) = 0 := Tree.tally_label t
    have all := tally_program (b := .label text) made
    have given : s.given (.label text) ≤ 1 := GenState.given_label_le
    rw [Program.count_labels]
    omega

def leavingLoop : Tree :=
  .node 0 (.new (.block .root) none default)
    [.node 1 (.new (.builtin .loop) none default)
      [.node 2 (.new (.block .block) none default)
        [.node 3 (.new (.builtin .ifThen) none default)
          [.node 4 (.new .value (some (.bool true)) default) [],
            .node 5 (.new (.builtin .give) none default) []],
          .node 6 (.new (.builtin .nextRound) none default) []]]]

theorem jumpsWell_leavingLoop :
    ∃ program, run leavingLoop = .ok program ∧ program.labels = ["loop$1"] ∧
      (∀ site ∈ program.parts, site.JumpsWell) ∧ program.labels.Nodup :=
  ⟨_, rfl, by decide +kernel, jumpsWell_of_run (t := leavingLoop) rfl⟩

end Offside.Lowering
