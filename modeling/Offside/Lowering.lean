import Offside.Lowering.Statement

/-!
# Generation of programs

The parts of generation are tied together level by level: what stands below a node is generated
one level down, so a tree needs as many levels as it is high.
-/

namespace Offside.Lowering

/-- Generation of trees that are at most as high as given. -/
def upTo : Nat → Below
  | 0 => ⟨fun t _ => unsupported t, unsupported, fun t _ => unsupported t⟩
  | height + 1 =>
    let below := upTo height
    ⟨below.node, below.expression, below.choice⟩

def program (t : Tree) : Gen Program :=
  (upTo t.height).sequence t .discard

/-- The program of a unit, or why there is none. -/
def run (t : Tree) : Except GenError Program :=
  (program t).run' .start

end Offside.Lowering
