import Offside.Block

/-!
# Moves of a reading

A reading changes in a few ways only: blocks are closed, the column of a block becomes known, a
block is opened, a leaf or a first group is added, and something is reported. What all of these
keep is kept by every token and every line.
-/

namespace Offside

namespace BlockStack

/-- Blocks are closed from the inside out, and then the column of one may become known. -/
inductive Settles : BlockStack → BlockStack → Prop
  | refl (stack : BlockStack) : Settles stack stack
  | known (top : OpenBlock) (below : List OpenBlock) (column : Nat) :
      Settles ⟨top, below⟩ ⟨top.settleLevel column, below⟩
  | around (top outer : OpenBlock) (rest : List OpenBlock) (column : Nat) :
      Settles ⟨top, outer :: rest⟩ ⟨top, outer.settleLevel column :: rest⟩
  | close {top outer : OpenBlock} {rest : List OpenBlock} {stack : BlockStack}
      (next : Settles ⟨outer.add top.tree, rest⟩ stack) : Settles ⟨top, outer :: rest⟩ stack

theorem settles_pop (stack : BlockStack) : stack.Settles stack.pop := by
  obtain ⟨top, _ | ⟨outer, rest⟩⟩ := stack
  · exact .refl _
  · exact .close (.refl _)

theorem settles_enter (column : Nat) (dedented : Bool) (top : OpenBlock) (below : List OpenBlock) :
    Settles ⟨top, below⟩ (enter column dedented top below).stack := by
  fun_induction enter column dedented top below
  case case8 ih => exact .close ih
  case case14 ih | case21 ih => exact .close (.close ih)
  case case1 | case2 | case3 | case10 | case11 | case12 => exact .known _ _ _
  case case15 => exact .around _ _ _ _
  case case16 => exact .close (.known _ _ _)
  case case13 | case18 | case19 | case20 => exact .close (.refl _)
  all_goals exact .refl _

theorem settles_close (c : Char) (top : OpenBlock) (below : List OpenBlock) :
    Settles ⟨top, below⟩ (close c top below).2 := by
  fun_induction close c top below
  case case1 | case10 => exact .refl _
  case case2 ih | case9 ih => exact .close ih
  all_goals exact .close (.refl _)

theorem settles_finish (top : OpenBlock) (below : List OpenBlock) :
    ∃ root : OpenBlock, Settles ⟨top, below⟩ ⟨root, []⟩ ∧ finish top below = root.tree := by
  induction below generalizing top with
  | nil => exact ⟨top, .refl _, rfl⟩
  | cons outer rest ih =>
    obtain ⟨root, settles, same⟩ := ih (outer.add top.tree)
    exact ⟨root, .close settles, same⟩

end BlockStack

namespace Block.Reader

/-- Each way in which a reading changes keeps a fact. -/
structure Lasting (fact : Reader → Prop) : Prop where
  settle : ∀ {r : Reader} {stack : BlockStack}, r.stack.Settles stack → fact r →
    fact { r with stack }
  report : ∀ {r : Reader} (d : Diagnostic), fact r → fact (r.report d)
  push : ∀ {r : Reader} (kind : BlockKind) (level : Option Nat) (loc : Loc), fact r →
    fact (r.push kind level loc)
  leaf : ∀ {r : Reader} (kind : TokenClass) (value : Value) (loc : Loc), fact r →
    fact (r.leaf kind value loc)
  group : ∀ {r : Reader} (loc : Loc), fact r → fact (r.group loc)

namespace Lasting

variable {fact : Reader → Prop} {r : Reader} (lasting : Lasting fact) (holds : fact r)
include lasting holds

theorem newLine (column : Nat) (loc : Loc) : fact (r.newLine column loc) := by
  have entered := lasting.settle (BlockStack.settles_enter column false _ _) holds
  refine List.foldlRecOn _ _ ?_ fun _ holds _ _ => lasting.push _ _ _ holds
  split
  · exact lasting.report _ entered
  · exact entered

theorem comma (loc : Loc) : fact (r.comma loc) := by
  rw [Reader.comma]
  split
  · exact lasting.push _ _ _ (lasting.settle (BlockStack.settles_pop r.stack) holds)
  · refine lasting.push _ _ _ ?_
    split
    · exact holds
    · exact lasting.group loc holds
  · exact lasting.push _ _ _ holds
  · exact lasting.push _ _ _ holds
  · exact lasting.push _ _ _ holds
  all_goals exact holds

theorem close (c : Char) (loc : Loc) : fact (r.close c loc) := by
  have closed := lasting.settle (BlockStack.settles_close c _ _) holds
  rw [Reader.close]
  generalize BlockStack.close c r.stack.top r.stack.below = result at closed ⊢
  obtain ⟨closing, stack⟩ := result
  cases closing with
  | matched => exact closed
  | mismatched opened expected => exact lasting.report _ closed
  | misplaced => exact lasting.report _ (lasting.report _ closed)

theorem token (t : Token) : fact (r.token t) := by
  rw [Reader.token]
  split
  · exact lasting.push _ _ _ (lasting.push _ _ _ holds)
  · split
    · exact lasting.push _ _ _ (lasting.push _ _ _ holds)
    · exact holds
  · exact lasting.close holds _ _
  · exact lasting.comma holds _
  all_goals exact lasting.leaf _ _ _ holds

theorem line (l : TokenLine) : fact (r.line l) := by
  rw [Reader.line]
  split
  · exact holds
  · exact List.foldlRecOn _ _ (lasting.newLine holds _ _) fun _ holds t _ => lasting.token holds t

theorem finish : fact r.finish :=
  List.foldlRecOn _ _ holds fun _ holds _ _ => lasting.report _ holds

end Lasting

theorem stack_finish (r : Reader) : r.finish.stack = r.stack :=
  List.foldlRecOn (motive := fun after : Reader => after.stack = r.stack) _ _ rfl
    fun _ same _ _ => same

end Block.Reader

end Offside
