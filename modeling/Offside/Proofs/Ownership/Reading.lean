import Offside.Proofs.Block.Moves
import Offside.Proofs.Ownership.Numbers

/-!
# Numbers of the blocks of a source

While a source is read, the open blocks and the trees in them hold every number that has been
given out. Closing blocks moves trees and takes no number; every block and every leaf that is
added has a new one.
-/

namespace Offside

namespace OpenBlock

@[simp] theorem numbers_tree (block : OpenBlock) :
    block.tree.numbers = {block.id} + Tree.numbersOfAll block.children.toList :=
  Tree.numbers_node _ _ _

@[simp] theorem numbers_add (block : OpenBlock) (t : Tree) :
    (block.add t).tree.numbers = block.tree.numbers + t.numbers := by
  simp [add]

end OpenBlock

namespace BlockStack

def held (stack : BlockStack) : Multiset NodeId :=
  Tree.numbersOfAll ((stack.top :: stack.below).map OpenBlock.tree)

@[simp] theorem held_mk (top : OpenBlock) (below : List OpenBlock) :
    held ⟨top, below⟩ = top.tree.numbers + Tree.numbersOfAll (below.map OpenBlock.tree) :=
  Tree.numbersOfAll_cons _ _

theorem held_push (stack : BlockStack) (block : OpenBlock) :
    (stack.push block).held = block.tree.numbers + stack.held :=
  held_mk _ _

theorem held_add (stack : BlockStack) (t : Tree) :
    (stack.add t).held = t.numbers + stack.held := by
  cases stack with
  | mk top below =>
    rw [add, held_mk, held_mk, OpenBlock.numbers_add]
    abel

/-- Closing a block moves its tree into the block around it. -/
theorem held_close (top outer : OpenBlock) (rest : List OpenBlock) :
    held ⟨outer.add top.tree, rest⟩ = held ⟨top, outer :: rest⟩ := by
  rw [held_mk, held_mk, OpenBlock.numbers_add, List.map_cons, Tree.numbersOfAll_cons]
  abel

theorem Settles.held {stack settled : BlockStack} (settles : stack.Settles settled) :
    settled.held = stack.held := by
  induction settles with
  | refl | known | around => rfl
  | close _ ih => exact ih.trans (held_close _ _ _)

theorem numbers_finish (top : OpenBlock) (below : List OpenBlock) :
    (finish top below).numbers = held ⟨top, below⟩ := by
  obtain ⟨root, settles, same⟩ := settles_finish top below
  rw [same, ← settles.held]
  exact (add_zero _).symm

end BlockStack

namespace Block.Reader

/-- The numbers that have been given out are those of the open blocks and of what is in them. -/
def Sound (r : Reader) : Prop :=
  r.numbering.Owns r.stack.held

theorem sound_start (source : SourceId) : (start source).Sound := by
  constructor
  · exact Multiset.nodup_singleton 0
  · intro id found
    rw [Multiset.mem_singleton.mp found]
    exact Nat.zero_lt_one

variable {r : Reader}

theorem Sound.push (sound : r.Sound) (kind : BlockKind) (level : Option Nat) (loc : Loc) :
    (r.push kind level loc).Sound := by
  exact sound.advance.mono (le_of_eq (BlockStack.held_push _ _))

theorem Sound.leaf (sound : r.Sound) (kind : TokenClass) (value : Value) (loc : Loc) :
    (r.leaf kind value loc).Sound := by
  exact sound.advance.mono (le_of_eq (BlockStack.held_add _ _))

/-- The first group of a line takes over the trees of the line. -/
theorem held_grouped (stack : BlockStack) (id : NodeId) (loc : Loc) :
    (grouped stack id loc).held = {id} + stack.held := by
  cases stack with
  | mk top below =>
    simp only [grouped, BlockStack.held_mk, OpenBlock.numbers_tree, Tree.numbersOfAll_cons,
      Tree.numbersOfAll_nil, add_zero, OpenBlock.new]
    abel

theorem Sound.group (sound : r.Sound) (loc : Loc) : (r.group loc).Sound := by
  exact sound.advance.mono (le_of_eq (held_grouped _ _ _))

theorem lasting_sound : Lasting Sound where
  settle settles sound := sound.mono (le_of_eq settles.held)
  report _ sound := sound
  push kind level loc sound := sound.push kind level loc
  leaf kind value loc sound := sound.leaf kind value loc
  group loc sound := sound.group loc

end Block.Reader

/-- A source that has been read has distinct numbers. -/
theorem Block.owns_read (source : SourceId) (lines : List TokenLine) :
    (Block.read source lines).2.1.Owns (Block.read source lines).1.numbers := by
  have sound : ((lines.foldl Reader.line (.start source)).finish).Sound :=
    Reader.lasting_sound.finish (List.foldlRecOn lines Reader.line (Reader.sound_start source)
      fun _ sound line _ => Reader.lasting_sound.line sound line)
  exact sound.mono (le_of_eq (BlockStack.numbers_finish _ _))

end Offside
