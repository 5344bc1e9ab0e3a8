import Mathlib.Algebra.Order.Group.Multiset
import Mathlib.Tactic.Abel
import Offside.Macro.Template
import Offside.Proofs.Computation

/-!
# Ownership of node numbers

The trees that a step of compilation holds must not share a number, and every number must have
been given out. The numbers are counted as a multiset, so that what a computation takes and what
it leaves can be said apart from the numbers that other trees hold meanwhile.
-/

namespace Offside

namespace Tree

mutual

def numbers : Tree → Multiset NodeId
  | .node id _ children => {id} + numbersOfAll children

def numbersOfAll : List Tree → Multiset NodeId
  | [] => 0
  | t :: ts => numbers t + numbersOfAll ts

end

@[simp] theorem numbers_node (id : NodeId) (info : Info) (children : List Tree) :
    (Tree.node id info children).numbers = {id} + numbersOfAll children := by
  rw [numbers]

@[simp] theorem numbersOfAll_nil : numbersOfAll [] = 0 := by
  rw [numbersOfAll]

@[simp] theorem numbersOfAll_cons (t : Tree) (ts : List Tree) :
    numbersOfAll (t :: ts) = t.numbers + numbersOfAll ts := by
  rw [numbersOfAll]

@[simp] theorem numbersOfAll_append (ts us : List Tree) :
    numbersOfAll (ts ++ us) = numbersOfAll ts + numbersOfAll us := by
  induction ts with
  | nil => simp
  | cons t ts ih => simp [ih, add_assoc]

theorem numbers_eq (t : Tree) : t.numbers = {t.id} + numbersOfAll t.children := by
  obtain ⟨id, info, children⟩ := t
  exact numbers_node id info children

@[simp] theorem numbers_withInfo (t : Tree) (change : Info → Info) :
    (t.withInfo change).numbers = t.numbers := by
  obtain ⟨id, info, children⟩ := t
  simp [withInfo]

@[simp] theorem numbers_withSymbol (t : Tree) (symbol : Symbol) :
    (t.withSymbol symbol).numbers = t.numbers :=
  numbers_withInfo t _

@[simp] theorem numbers_withChildren (t : Tree) (children : List Tree) :
    (t.withChildren children).numbers = {t.id} + numbersOfAll children := by
  obtain ⟨id, info, old⟩ := t
  exact numbers_node id info children

/-- A tree in a list holds a part of the numbers of the list. -/
theorem numbers_le_of_mem {t : Tree} {ts : List Tree} (found : t ∈ ts) :
    t.numbers ≤ numbersOfAll ts := by
  induction ts with
  | nil => cases found
  | cons u us ih =>
    rw [numbersOfAll_cons]
    rcases List.mem_cons.mp found with rfl | later
    · exact Multiset.le_add_right _ _
    · exact (ih later).trans (Multiset.le_add_left _ _)

theorem mem_numbersOfAll {id : NodeId} {ts : List Tree} :
    id ∈ numbersOfAll ts ↔ ∃ t ∈ ts, id ∈ t.numbers := by
  induction ts with
  | nil => simp
  | cons t ts ih => simp [ih]

/-- The children hold a part of the numbers of a tree. -/
theorem numbersOfAll_children_le (t : Tree) : numbersOfAll t.children ≤ t.numbers := by
  rw [numbers_eq]
  exact Multiset.le_add_left _ _

/-- The number of a root alone is a part of the numbers of a tree. -/
theorem singleton_id_le (t : Tree) : {t.id} ≤ t.numbers := by
  rw [numbers_eq]
  exact Multiset.le_add_right _ _

/-- The number of a root is one of the numbers of its tree. -/
theorem id_mem_numbers (t : Tree) : t.id ∈ t.numbers := by
  rw [numbers_eq]
  exact Multiset.mem_add.mpr (.inl (Multiset.mem_singleton_self _))

mutual

theorem coe_nodesBefore (t : Tree) (rest : List (NodeId × Info)) :
    (((t.nodesBefore rest).map Prod.fst : List NodeId) : Multiset NodeId) =
      t.numbers + (rest.map Prod.fst : List NodeId) := by
  cases t with
  | node id info children =>
    rw [nodesBefore, List.map_cons, ← Multiset.cons_coe, coe_nodesOfAll children rest,
      numbers_node, ← Multiset.singleton_add, add_assoc]

theorem coe_nodesOfAll (ts : List Tree) (rest : List (NodeId × Info)) :
    (((nodesOfAll ts rest).map Prod.fst : List NodeId) : Multiset NodeId) =
      numbersOfAll ts + (rest.map Prod.fst : List NodeId) := by
  cases ts with
  | nil => simp [nodesOfAll]
  | cons t ts =>
    rw [nodesOfAll, coe_nodesBefore t, coe_nodesOfAll ts, numbersOfAll_cons, add_assoc]

end

/-- The numbers in the order of the nodes. -/
theorem coe_ids (t : Tree) : (t.ids : Multiset NodeId) = t.numbers := by
  simpa [ids, nodes] using coe_nodesBefore t []

end Tree

/-! ## Numberings -/

namespace Numbering

/-- The numbers `held` have been given out, each once. -/
structure Owns (n : Numbering) (held : Multiset NodeId) : Prop where
  distinct : held.Nodup
  issued : ∀ id ∈ held, id < n.next

namespace Owns

variable {n : Numbering} {held fewer : Multiset NodeId}

/-- Numbers can be given up. -/
theorem mono (owns : n.Owns held) (le : fewer ≤ held) : n.Owns fewer :=
  ⟨Multiset.nodup_of_le le owns.distinct,
    fun id found => owns.issued id (Multiset.mem_of_le le found)⟩

/-- The next free number can be taken. -/
theorem advance (owns : n.Owns held) : n.advance.Owns ({n.next} + held) := by
  have fresh : n.next ∉ held := fun found => Nat.lt_irrefl _ (owns.issued _ found)
  constructor
  · rw [Multiset.singleton_add]
    exact Multiset.nodup_cons.mpr ⟨fresh, owns.distinct⟩
  · intro id found
    rcases Multiset.mem_add.mp found with here | there
    · rw [Multiset.mem_singleton.mp here]
      exact Nat.lt_succ_self _
    · exact Nat.lt_succ_of_lt (owns.issued id there)

end Owns

end Numbering

/-! ## Computations -/

/-- Where a state keeps its numbering, and the numbers of the trees that it holds itself. -/
structure Ledger (σ : Type) where
  numbering : σ → Numbering
  held : σ → Multiset NodeId

def Supply.ledger : Ledger Numbering := ⟨fun n => n, fun _ => 0⟩

/--
A computation that is given trees with the numbers `taken` returns trees with the numbers
`given`, whatever other numbers are in use.
-/
def Keeps {σ α : Type} (ledger : Ledger σ) (taken : Multiset NodeId) (x : StateM σ α)
    (given : α → Multiset NodeId) : Prop :=
  ∀ (s : σ) (rest : Multiset NodeId),
    (ledger.numbering s).Owns (taken + ledger.held s + rest) →
      (ledger.numbering (x s).2).Owns (given (x s).1 + ledger.held (x s).2 + rest)

namespace Keeps

variable {σ α β : Type} {ledger : Ledger σ} {taken more kept : Multiset NodeId}
  {x : StateM σ α} {given fewer : α → Multiset NodeId}

theorem pure {a : α} (enough : given a ≤ taken) : Keeps ledger taken (Pure.pure a) given := by
  intro s rest owns
  change (ledger.numbering s).Owns (given a + ledger.held s + rest)
  exact owns.mono (by gcongr)

/-- A computation may be given more than it needs and return less than it has. -/
theorem mono (keeps : Keeps ledger taken x given) (enough : taken ≤ more)
    (less : ∀ a, fewer a ≤ given a) : Keeps ledger more x fewer := by
  intro s rest owns
  exact (keeps s rest (owns.mono (by gcongr))).mono (by gcongr; exact less _)

/-- A computation leaves alone what it is not given. -/
theorem frame (keeps : Keeps ledger taken x given) (kept : Multiset NodeId) :
    Keeps ledger (taken + kept) x (fun a => given a + kept) := by
  intro s rest owns
  have before : (ledger.numbering s).Owns (taken + ledger.held s + (kept + rest)) :=
    owns.mono (le_of_eq (by abel))
  exact (keeps s (kept + rest) before).mono (le_of_eq (by dsimp only; abel))

/--
The second computation has what the first one returns and what is kept meanwhile, and it may
rely on what is known of every result of the first one.
-/
theorem bind_of {f : α → StateM σ β} {final : β → Multiset NodeId} (fact : α → Prop)
    (kept : Multiset NodeId) (known : Yields x fact) (first : Keeps ledger taken x given)
    (enough : taken + kept ≤ more)
    (second : ∀ a, fact a → Keeps ledger (given a + kept) (f a) final) :
    Keeps ledger more (x >>= f) final := by
  intro s rest owns
  have middle := (first.frame kept).mono enough (fun _ => le_refl _) s rest owns
  exact second (x s).1 (known s) (x s).2 rest middle

/-- The second computation has what the first one returns and what is kept meanwhile. -/
theorem bind {f : α → StateM σ β} {final : β → Multiset NodeId} (kept : Multiset NodeId)
    (first : Keeps ledger taken x given) (enough : taken + kept ≤ more)
    (second : ∀ a, Keeps ledger (given a + kept) (f a) final) :
    Keeps ledger more (x >>= f) final :=
  bind_of (fun _ => True) kept (fun _ => trivial) first enough fun a _ => second a

/-- A computation that has been made with nothing but a numbering. -/
theorem of_run {rest : Multiset NodeId} {x : Supply α} (keeps : Keeps Supply.ledger taken x given)
    {n n' : Numbering} {a : α} (ran : x n = (a, n')) (owns : n.Owns (taken + rest)) :
    n'.Owns (given a + rest) := by
  have after := keeps n rest (owns.mono (le_of_eq (by simp [Supply.ledger])))
  rw [ran] at after
  exact after.mono (le_of_eq (by simp [Supply.ledger]))

end Keeps

namespace Supply

/-- A new number belongs to nobody else. -/
theorem keeps_fresh : Keeps ledger 0 fresh (fun id => {id}) := by
  intro n rest owns
  change n.advance.Owns ({n.next} + 0 + rest)
  exact (Numbering.Owns.advance owns).mono (le_of_eq (by simp [ledger]))

end Supply

namespace Tree

/-- A new node has a new number and holds its children. -/
theorem keeps_new (symbol : Symbol) (value : Option Value) (loc : Loc) (children : List Tree) :
    Keeps Supply.ledger (numbersOfAll children) (Tree.new symbol value loc children) numbers := by
  refine .bind (numbersOfAll children) Supply.keeps_fresh (by simp) fun id => ?_
  exact .pure (by simp)

mutual

/-- A copy shares no number with its original. -/
theorem keeps_copy (t : Tree) : Keeps Supply.ledger 0 t.copy numbers := by
  cases t with
  | node id info children =>
    rw [copy]
    refine .bind 0 Supply.keeps_fresh (by simp) fun id => ?_
    refine .bind {id} (keeps_copyAll children) (by simp) fun copies => ?_
    exact .pure (by simp [add_comm])

theorem keeps_copyAll (ts : List Tree) : Keeps Supply.ledger 0 (copyAll ts) numbersOfAll := by
  cases ts with
  | nil => exact .pure (by simp)
  | cons t ts =>
    rw [copyAll]
    refine .bind 0 (keeps_copy t) (by simp) fun first => ?_
    refine .bind first.numbers (keeps_copyAll ts) (by simp) fun others => ?_
    exact .pure (by simp [add_comm])

end

end Tree

end Offside
