import Offside.Proofs.Ownership.Numbers

/-!
# Paths to the nodes of a tree

A path leads from the root of a tree down: its entries say which child to take. Where all nodes
have different numbers, a number has one path. A host is around all that stands below it, but for
the initial values in the head of a loop, which stand outside of the loop.
-/

namespace Offside.Tree

open List

def subtree? (t : Tree) : List Nat → Option Tree
  | [] => some t
  | index :: path => (t.child? index).bind (·.subtree? path)

variable {t u v c : Tree} {index : Nat} {path other : List Nat}

theorem subtree?_cons :
    t.subtree? (index :: path) = some u ↔
      ∃ c, t.child? index = some c ∧ c.subtree? path = some u := by
  rw [subtree?, Option.bind_eq_some_iff]

theorem numbers_le_of_child (child : t.child? index = some c) : c.numbers ≤ t.numbers :=
  (numbers_le_of_mem (mem_of_getElem? child)).trans t.numbersOfAll_children_le

theorem id_mem_of_subtree (found : t.subtree? path = some u) : u.id ∈ t.numbers := by
  induction path generalizing t with
  | nil =>
    cases found
    exact id_mem_numbers _
  | cons index path ih =>
    obtain ⟨c, child, below⟩ := subtree?_cons.mp found
    exact Multiset.mem_of_le (numbers_le_of_child child) (ih below)

/-- Different children have different numbers. -/
theorem index_eq_of_mem {ts : List Tree} (distinct : (numbersOfAll ts).Nodup) {first second : Nat}
    {a b : Tree} (isFirst : ts[first]? = some a) (isSecond : ts[second]? = some b) {id : NodeId}
    (inFirst : id ∈ a.numbers) (inSecond : id ∈ b.numbers) : first = second := by
  induction ts generalizing first second with
  | nil => cases isFirst
  | cons t ts ih =>
    rw [numbersOfAll_cons, Multiset.nodup_add] at distinct
    have apart : ∀ id ∈ t.numbers, id ∉ numbersOfAll ts := fun _ =>
      Multiset.disjoint_left.mp distinct.2.2
    cases first with
    | zero =>
      cases second with
      | zero => rfl
      | succ second =>
        cases isFirst
        have known : ts[second]? = some b := isSecond
        have later := mem_numbersOfAll.mpr ⟨b, mem_of_getElem? known, inSecond⟩
        exact absurd later (apart id inFirst)
    | succ first =>
      cases second with
      | zero =>
        cases isSecond
        have known : ts[first]? = some a := isFirst
        have later := mem_numbersOfAll.mpr ⟨a, mem_of_getElem? known, inFirst⟩
        exact absurd later (apart id inSecond)
      | succ second => exact congrArg (· + 1) (ih distinct.2.1 isFirst isSecond)

/-- The number of a root is not found below it. -/
theorem id_not_mem_of_child (distinct : t.numbers.Nodup) (child : t.child? index = some c) :
    t.id ∉ c.numbers := by
  rw [numbers_eq, Multiset.singleton_add, Multiset.nodup_cons] at distinct
  exact fun below => distinct.1 (mem_numbersOfAll.mpr ⟨c, mem_of_getElem? child, below⟩)

/-- A number has one path. -/
theorem path_eq_of_id (distinct : t.numbers.Nodup) (first : t.subtree? path = some u)
    (second : t.subtree? other = some v) (same : u.id = v.id) : path = other := by
  induction path generalizing t other with
  | nil =>
    cases first
    cases other with
    | nil => rfl
    | cons index other =>
      obtain ⟨c, child, below⟩ := subtree?_cons.mp second
      exact absurd (same ▸ id_mem_of_subtree below) (id_not_mem_of_child distinct child)
  | cons index path ih =>
    obtain ⟨c, child, below⟩ := subtree?_cons.mp first
    cases other with
    | nil =>
      cases second
      exact absurd (same ▸ id_mem_of_subtree below) (id_not_mem_of_child distinct child)
    | cons next other =>
      obtain ⟨d, sibling, deeper⟩ := subtree?_cons.mp second
      have children : (numbersOfAll t.children).Nodup :=
        Multiset.nodup_of_le t.numbersOfAll_children_le distinct
      have position : index = next := index_eq_of_mem children child sibling
        (id_mem_of_subtree below) (same ▸ id_mem_of_subtree deeper)
      subst position
      rw [child] at sibling
      cases sibling
      have separate := Multiset.nodup_of_le (numbers_le_of_child child) distinct
      exact congrArg (index :: ·) (ih separate below deeper)

/-! ## Hosts around a path -/

def InHead (t : Tree) (path : List Nat) : Prop :=
  t.is .loop = true ∧ t.children.length = 2 ∧ [0, 1] <+: path

instance (t : Tree) (path : List Nat) : Decidable (t.InHead path) :=
  inferInstanceAs (Decidable (_ ∧ _ ∧ _))

/-- The node at the first path is a host around what stands at the second path. -/
inductive Around : Tree → List Nat → List Nat → Prop
  | here {t : Tree} {path : List Nat} (isHost : t.info.varScope ≠ none) (below : path ≠ [])
      (inside : ¬ t.InHead path) : Around t [] path
  | deeper {t c : Tree} {index : Nat} {host path : List Nat} (child : t.child? index = some c)
      (inner : Around c host path) : Around t (index :: host) (index :: path)

def Innermost (t : Tree) (host path : List Nat) : Prop :=
  t.Around host path ∧ ∀ other, t.Around other path → other.length ≤ host.length

variable {host : List Nat}

theorem Around.isPrefix (around : t.Around host path) : host <+: path := by
  induction around with
  | here => exact nil_prefix
  | deeper _ _ ih => exact (prefix_cons_inj _).mpr ih

theorem Around.isHost (around : t.Around host path) (found : t.subtree? host = some u) :
    u.info.varScope ≠ none := by
  induction around with
  | here isHost _ _ =>
    cases found
    exact isHost
  | deeper child _ ih =>
    obtain ⟨known, isChild, below⟩ := subtree?_cons.mp found
    rw [child] at isChild
    cases isChild
    exact ih below

/-- There is one innermost host. -/
theorem Innermost.unique {second : List Nat} (first : t.Innermost host path)
    (other : t.Innermost second path) : host = second := by
  have same := le_antisymm (other.2 host first.1) (first.2 second other.1)
  exact (prefix_of_prefix_length_le first.1.isPrefix other.1.isPrefix same.le).eq_of_length same

/-- A host around a path below a child is the node or stands in the child. -/
theorem Around.cases_cons (around : t.Around host (index :: path))
    (child : t.child? index = some c) :
    host = [] ∨ ∃ inner, host = index :: inner ∧ c.Around inner path := by
  cases around with
  | here => exact .inl rfl
  | deeper known inner =>
    rw [child] at known
    cases known
    exact .inr ⟨_, rfl, inner⟩

theorem around_cons (child : t.child? index = some c) :
    t.Around (index :: host) (index :: path) ↔ c.Around host path := by
  refine ⟨fun around => ?_, .deeper child⟩
  rcases around.cases_cons child with impossible | ⟨inner, same, below⟩
  · cases impossible
  · cases same
    exact below

end Offside.Tree
