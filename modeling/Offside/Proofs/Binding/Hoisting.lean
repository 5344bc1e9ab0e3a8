import Offside.Proofs.Binding.Paths
import Offside.Proofs.Binding.Rules

/-!
# Hoisted declarations and earlier uses

A host declares its names at its top, though a use is bound to what its name means with the
declarations before it. So a host between a use and the host of its declaration has the name among
its own exactly if the name is declared there behind the use. What is known of the parts of a tree
that stand in one scope is put together to what is known of the tree.
-/

namespace Offside

open List Offside.Tree

variable {base : Table Declaration} {final : Scopes Declaration} {around frames : List (List Entry)}
  {before gained owned : List Entry} {t c u : Tree} {ts parts : List Tree} {index : Nat}
  {path host step place : List Nat} {e : Entry} {name : String} {d : Declaration} {hosted : Prop}

/-! ## Declarations and their places -/

namespace Tree

def DeclaredAt (t : Tree) (path : List Nat) (e : Entry) : Prop :=
  ∃ u, t.subtree? path = some u ∧ u.info.binding = some e.2 ∧ e.1 = e.2.name ∧
    e.2.tag = some u.id ∧
    (e.2.hoisted = true → ∃ kind, u.tag? = some kind ∧ kind.isDeclaration = true)

def Hoisted (t : Tree) (path : List Nat) (d : Declaration) : Prop :=
  ∃ u kind, t.subtree? path = some u ∧ u.tag? = some kind ∧ kind.isDeclaration = true ∧
    u.info.binding = some d ∧ d.hoisted = true

def HoistsAt (t : Tree) (host path : List Nat) (name : String) : Prop :=
  t.Innermost host path ∧ ∃ d, t.Hoisted path d ∧ d.name = name

theorem HoistsAt.of_declaredAt (declared : t.DeclaredAt path e) (innermost : t.Innermost host path)
    (hoisted : e.2.hoisted = true) : t.HoistsAt host path e.1 := by
  obtain ⟨u, found, bound, name, _, isTag⟩ := declared
  obtain ⟨kind, isTag, declares⟩ := isTag hoisted
  exact ⟨innermost, e.2, ⟨u, kind, found, isTag, declares, bound, hoisted⟩, name.symm⟩

theorem Hoisted.bound (hoisted : t.Hoisted path d) :
    ∃ u, t.subtree? path = some u ∧ u.info.binding = some d ∧ d.hoisted = true := by
  obtain ⟨u, _, found, _, _, facts⟩ := hoisted
  exact ⟨u, found, facts⟩

/-- No host is around a path, or, if the root is one around it, the root alone. -/
def Directly (t : Tree) (hosted : Prop) (path : List Nat) : Prop :=
  ∀ host, t.Around host path ↔ host = [] ∧ hosted

theorem Directly.innermost (direct : t.Directly True path) : t.Innermost [] path := by
  refine ⟨(direct []).mpr ⟨rfl, trivial⟩, fun other around => ?_⟩
  rw [((direct other).mp around).1]

theorem not_around_nil (t : Tree) (host : List Nat) : ¬t.Around host [] := by
  intro around
  cases around with
  | here _ below _ => exact below rfl

/-- A host has a name among its own exactly if the name is declared in it behind a path. -/
def Late (t : Tree) (path : List Nat) (name : String) (host : List Nat) : Prop :=
  ∀ node, t.subtree? host = some node →
    (name ∈ node.info.declaredNames ↔ ∃ later, path < later ∧ t.HoistsAt host later name)

/--
A name at a path is bound either to a declaration in a host around it, or to what it means in the
frames outside; all hosts in between have the name late.
-/
def Resolved (base : Table Declaration) (frames : List (List Entry)) (t : Tree) (path : List Nat)
    (name : String) (d : Declaration) : Prop :=
  (∃ home place, t.Around home path ∧ t.DeclaredAt place (name, d) ∧ t.Innermost home place ∧
      ∀ host, t.Around host path → home.length < host.length → t.Late path name host) ∨
    (Scopes.meaning frames base name = some d ∧ ∀ host, t.Around host path → t.Late path name host)

/-! ## Parts of a tree -/

theorem append_lt_append_iff {path place : List Nat} :
    step ++ path < step ++ place ↔ path < place := by
  induction step with
  | nil => rfl
  | cons index step ih => simp [ih]

theorem subtree?_append (found : t.subtree? step = some c) :
    t.subtree? (step ++ path) = c.subtree? path := by
  induction step generalizing t with
  | nil =>
    cases found
    rfl
  | cons index step ih =>
    obtain ⟨child, known, below⟩ := subtree?_cons.mp found
    rw [cons_append, subtree?, known]
    exact ih below

theorem around_append (found : t.subtree? step = some c) :
    t.Around (step ++ host) (step ++ path) ↔ c.Around host path := by
  induction step generalizing t with
  | nil =>
    cases found
    rfl
  | cons index step ih =>
    obtain ⟨child, known, below⟩ := subtree?_cons.mp found
    rw [cons_append, cons_append, around_cons known, ih below]

/-- A part of a tree: the hosts outside of it around what stands in it are none but the root. -/
structure Part (t : Tree) (step : List Nat) (c : Tree) : Prop where
  found : t.subtree? step = some c
  below : step ≠ []
  cases : ∀ {host path}, t.Around host (step ++ path) →
    host = [] ∨ ∃ inner, host = step ++ inner ∧ c.Around inner path

theorem Part.child (child : t.child? index = some c) : t.Part [index] c :=
  ⟨subtree?_cons.mpr ⟨c, child, rfl⟩, cons_ne_nil _ _, fun around => around.cases_cons child⟩

/-- A part below a child that is no host. -/
theorem Part.grandchild {next : Nat} {inner : Tree} (child : t.child? index = some c)
    (noScope : c.info.varScope = none) (deeper : c.child? next = some inner) :
    t.Part [index, next] inner := by
  refine ⟨subtree?_cons.mpr ⟨c, child, subtree?_cons.mpr ⟨inner, deeper, rfl⟩⟩, cons_ne_nil _ _,
    fun around => ?_⟩
  rcases around.cases_cons child with root | ⟨host, rfl, below⟩
  · exact .inl root
  · rcases below.cases_cons deeper with rfl | ⟨host, rfl, inside⟩
    · exact absurd noScope (below.isHost rfl)
    · exact .inr ⟨host, rfl, inside⟩

namespace Part

variable (part : t.Part step c)
include part

theorem declaredAt (declared : c.DeclaredAt place e) : t.DeclaredAt (step ++ place) e := by
  obtain ⟨u, found, facts⟩ := declared
  exact ⟨u, (subtree?_append part.found).trans found, facts⟩

theorem hoisted : t.Hoisted (step ++ path) d ↔ c.Hoisted path d := by
  simp only [Hoisted, subtree?_append part.found]

theorem directly (isHost : t.Around [] (step ++ path) ↔ hosted) (direct : c.Directly False path) :
    t.Directly hosted (step ++ path) := by
  intro host
  constructor
  · intro around
    rcases part.cases around with rfl | ⟨inner, rfl, below⟩
    · exact ⟨rfl, isHost.mp around⟩
    · exact ((direct inner).mp below).2.elim
  · rintro ⟨rfl, holds⟩
    exact isHost.mpr holds

/-- What stands in a part inside of no host but the root stands directly in the part. -/
theorem directly_of (root : ∀ host, t.Around host (step ++ path) → host = []) :
    c.Directly False path := by
  refine fun host => ⟨fun inside => ?_, fun impossible => impossible.2.elim⟩
  have nothing := root _ ((around_append part.found).mpr inside)
  exact absurd (append_eq_nil_iff.mp nothing).1 part.below

theorem innermost : t.Innermost (step ++ host) (step ++ path) ↔ c.Innermost host path := by
  refine and_congr (around_append part.found)
    ⟨fun most other inside => ?_, fun most other around => ?_⟩
  · have short := most _ ((around_append part.found).mpr inside)
    rw [length_append, length_append] at short
    omega
  · rcases part.cases around with rfl | ⟨inner, rfl, below⟩
    · exact Nat.zero_le _
    · rw [length_append, length_append]
      exact Nat.add_le_add_left (most inner below) _

theorem late (late : c.Late path name host) : t.Late (step ++ path) name (step ++ host) := by
  intro node found
  rw [subtree?_append part.found] at found
  rw [late node found]
  constructor
  · rintro ⟨later, behind, innermost, d, hoisted, named⟩
    exact ⟨step ++ later, append_lt_append_iff.mpr behind, part.innermost.mpr innermost, d,
      part.hoisted.mpr hoisted, named⟩
  · rintro ⟨later, behind, innermost, d, hoisted, named⟩
    obtain ⟨rest, rfl⟩ := innermost.1.isPrefix
    rw [append_assoc] at behind innermost hoisted
    exact ⟨host ++ rest, append_lt_append_iff.mp behind, part.innermost.mp innermost, d,
      part.hoisted.mp hoisted, named⟩

/-- A name in a part, by what becomes of it if it is bound outside of the part. -/
theorem resolved {inner : List (List Entry)} (resolved : c.Resolved base inner path name d)
    (outside : Scopes.meaning inner base name = some d →
      (∀ host, t.Around host (step ++ path) → host ≠ [] → t.Late (step ++ path) name host) →
      t.Resolved base frames (step ++ path) name d) :
    t.Resolved base frames (step ++ path) name d := by
  rcases resolved with ⟨home, place, around, declared, innermost, late⟩ | ⟨means, late⟩
  · refine .inl ⟨step ++ home, step ++ place, (around_append part.found).mpr around,
      part.declaredAt declared, part.innermost.mpr innermost, fun host outer longer => ?_⟩
    rcases part.cases outer with rfl | ⟨inner, rfl, below⟩
    · exact absurd longer (Nat.not_lt_zero _)
    · rw [length_append, length_append] at longer
      exact part.late (late inner below (Nat.lt_of_add_lt_add_left longer))
  · refine outside means fun host outer notRoot => ?_
    obtain ⟨inner, rfl, below⟩ := (part.cases outer).resolve_left notRoot
    exact part.late (late inner below)

end Part

end Tree

/-! ## Trees in their scopes -/

namespace Tree

/--
What a use at a path is bound to, behind the declarations `before` and inside of `around`, in a
tree that declares `gained`.
-/
def UseAt (base : Table Declaration) (before : List Entry) (around : List (List Entry))
    (gained : List Entry) (t : Tree) (path : List Nat) (name : String) (d : Declaration) : Prop :=
  ∃ earlier later, gained = earlier ++ later ∧
    (∀ e ∈ later, ∃ place, path < place ∧ t.DeclaredAt place e ∧ t.Directly False place) ∧
    t.Resolved base ((before ++ earlier) :: around) path name d

/-- A node is no host, or it has gathered what is declared in its scope. -/
def HostAt (final : Scopes Declaration) (t : Tree) (host : List Nat) (node : Tree) : Prop :=
  node.info.varScope = none ∧ node.info.decls = none ∨
    ∃ owned, Hosts final node.info owned ∧
      ∀ e ∈ owned, ∃ place, t.DeclaredAt place e ∧ t.Innermost host place

theorem HostAt.of_part {node : Tree} (part : t.Part step c) (isHost : c.HostAt final host node) :
    t.HostAt final (step ++ host) node := by
  refine isHost.imp_right ?_
  rintro ⟨owned, hosts, places⟩
  refine ⟨owned, hosts, fun e member => ?_⟩
  obtain ⟨place, declared, innermost⟩ := places e member
  exact ⟨step ++ place, part.declaredAt declared, part.innermost.mpr innermost⟩

end Tree

/--
A tree behind the declarations `before` of its scope and inside of the frames `around`, which
declares `gained` there; in the end the scopes are `final`.
-/
structure Scoped (base : Table Declaration) (final : Scopes Declaration)
    (around : List (List Entry)) (before gained : List Entry) (t : Tree) : Prop where
  declared : ∀ e ∈ gained, ∃ place, t.DeclaredAt place e ∧ t.Directly False place
  complete : ∀ path d, t.Hoisted path d → t.Directly False path → (d.name, d) ∈ gained
  used : ∀ path u d, t.subtree? path = some u → u.info.binding = some d → d.tag ≠ some u.id →
    ∃ name, u.name? = some name ∧ t.UseAt base before around gained path name d
  hosts : ∀ host node, t.subtree? host = some node → t.HostAt final host node

/-- Trees in a row, each behind the declarations of those before it. -/
inductive ScopedAll (base : Table Declaration) (final : Scopes Declaration)
    (around : List (List Entry)) : List Entry → List Entry → List Tree → Prop
  | nil {before : List Entry} : ScopedAll base final around before [] []
  | cons {before gained more : List Entry} {t : Tree} {ts : List Tree}
      (first : Scoped base final around before gained t)
      (rest : ScopedAll base final around (before ++ gained) more ts) :
      ScopedAll base final around before (gained ++ more) (t :: ts)

namespace ScopedAll

variable (all : ScopedAll base final around before gained parts)
include all

theorem declared (member : e ∈ gained) : ∃ (index : Nat) (c : Tree) (place : List Nat),
    parts[index]? = some c ∧ c.DeclaredAt place e ∧ c.Directly False place := by
  induction all with
  | nil => cases member
  | cons first rest ih =>
    rcases mem_append.mp member with here | later
    · obtain ⟨place, facts⟩ := first.declared e here
      exact ⟨0, _, place, rfl, facts⟩
    · obtain ⟨index, c, place, facts⟩ := ih later
      exact ⟨index + 1, c, place, facts⟩

/-- One of the trees, with what is declared before it, in it and behind it. -/
theorem split (known : parts[index]? = some c) : ∃ front own back, gained = front ++ (own ++ back) ∧
    Scoped base final around (before ++ front) own c ∧
    ∀ e ∈ back, ∃ (next : Nat) (sibling : Tree) (place : List Nat), index < next ∧
      parts[next]? = some sibling ∧ sibling.DeclaredAt place e ∧ sibling.Directly False place := by
  induction all generalizing index with
  | nil => cases known
  | @cons before gained more t ts first rest ih =>
    cases index with
    | zero =>
      cases known
      refine ⟨[], gained, more, rfl, by rwa [append_nil], fun e member => ?_⟩
      obtain ⟨next, sibling, place, facts⟩ := rest.declared member
      exact ⟨next + 1, sibling, place, Nat.succ_pos next, facts⟩
    | succ index =>
      obtain ⟨front, own, back, rfl, proper, behind⟩ := ih known
      refine ⟨gained ++ front, own, back, (append_assoc _ _ _).symm, ?_, fun e member => ?_⟩
      · rwa [← append_assoc]
      · obtain ⟨next, sibling, place, later, facts⟩ := behind e member
        exact ⟨next + 1, sibling, place, Nat.succ_lt_succ later, facts⟩

end ScopedAll

/-- Parts of a tree in order that stand in one scope, inside or outside of that of the root. -/
structure Tree.Row (t : Tree) (hosted : Prop) (step : Nat → List Nat) (parts : List Tree) :
    Prop where
  part : ∀ {index c}, parts[index]? = some c → t.Part (step index) c
  isHost : ∀ {index c} path, parts[index]? = some c → (t.Around [] (step index ++ path) ↔ hosted)
  ordered : ∀ {index next c} path place, index < next → parts[next]? = some c →
    step index ++ path < step next ++ place

namespace Tree.Row

variable {step : Nat → List Nat} (row : t.Row hosted step parts)
include row

theorem declared (all : ScopedAll base final around before gained parts) (member : e ∈ gained) :
    ∃ place, t.DeclaredAt place e ∧ t.Directly hosted place := by
  obtain ⟨index, c, place, known, declared, direct⟩ := all.declared member
  exact ⟨_, (row.part known).declaredAt declared,
    (row.part known).directly (row.isHost _ known) direct⟩

/-- What the trees in a row make known of one of them. -/
theorem split (all : ScopedAll base final around before gained parts)
    (known : parts[index]? = some c) : ∃ front own back, gained = front ++ (own ++ back) ∧
      Scoped base final around (before ++ front) own c ∧ ∀ e ∈ back, ∀ path, ∃ place,
        step index ++ path < place ∧ t.DeclaredAt place e ∧ t.Directly hosted place := by
  obtain ⟨front, own, back, whole, proper, behind⟩ := all.split known
  refine ⟨front, own, back, whole, proper, fun e member path => ?_⟩
  obtain ⟨next, sibling, place, later, isNext, declared, direct⟩ := behind e member
  exact ⟨_, row.ordered path place later isNext, (row.part isNext).declaredAt declared,
    (row.part isNext).directly (row.isHost _ isNext) direct⟩

/-- A hoisted declaration in a part, inside of no other host, is one of those of the row. -/
theorem complete (all : ScopedAll base final around before gained parts)
    (known : parts[index]? = some c) (hoisted : t.Hoisted (step index ++ path) d)
    (direct : c.Directly False path) : (d.name, d) ∈ gained := by
  obtain ⟨front, own, back, rfl, proper, _⟩ := all.split known
  have member := proper.complete path d ((row.part known).hoisted.mp hoisted) direct
  exact mem_append_right _ (mem_append_left _ member)

/-- A use in a part, with the declarations before it and behind it in the row. -/
theorem used (all : ScopedAll base final around before gained parts)
    (known : parts[index]? = some c) (found : c.subtree? path = some u)
    (bound : u.info.binding = some d) (other : d.tag ≠ some u.id) :
    ∃ name, u.name? = some name ∧ ∃ earlier later, gained = earlier ++ later ∧
      (∀ e ∈ later, ∃ place, step index ++ path < place ∧ t.DeclaredAt place e ∧
        t.Directly hosted place) ∧ c.Resolved base ((before ++ earlier) :: around) path name d := by
  obtain ⟨front, own, back, rfl, proper, behind⟩ := row.split all known
  obtain ⟨name, named, earlier, later, rfl, after, resolved⟩ :=
    proper.used path u d found bound other
  refine ⟨name, named, front ++ earlier, later ++ back, by simp only [append_assoc],
    fun e member => ?_, by rwa [← append_assoc]⟩
  rcases mem_append.mp member with here | there
  · obtain ⟨place, further, declared, direct⟩ := after e here
    exact ⟨_, append_lt_append_iff.mpr further, (row.part known).declaredAt declared,
      (row.part known).directly (row.isHost _ known) direct⟩
  · exact behind e there path

end Tree.Row

/-! ## Trees made of parts -/

/-- A name that a host does not have before a path is declared behind it, if at all. -/
theorem Hosts.late {own later : List Entry} (hosts : Hosts final t.info (own ++ later))
    (missing : Table.find own name = none)
    (behind : ∀ e ∈ later, ∃ place, path < place ∧ t.DeclaredAt place e ∧ t.Directly True place)
    (complete : ∀ place d, t.Hoisted place d → t.Innermost [] place → (d.name, d) ∈ own ++ later) :
    t.Late path name [] := by
  intro node found
  cases found
  rw [hosts.mem_declaredNames]
  constructor
  · rintro ⟨d, member, hoisted⟩
    rcases mem_append.mp member with here | there
    · exact absurd here (Table.not_mem_of_find missing d)
    · obtain ⟨place, further, declared, direct⟩ := behind _ there
      exact ⟨place, further, .of_declaredAt declared direct.innermost hoisted⟩
  · rintro ⟨place, _, innermost, d, hoisted, rfl⟩
    obtain ⟨_, _, _, isHoisted⟩ := hoisted.bound
    exact ⟨d, complete place d hoisted innermost, isHoisted⟩

section Use

variable {step : Nat → List Nat} (known : parts[index]? = some c) (found : c.subtree? path = some u)
  (bound : u.info.binding = some d) (other : d.tag ≠ some u.id)
include known found bound other

/-- A use in a part that stands in the scope of the tree. -/
theorem Tree.Row.useAt (row : t.Row False step parts)
    (all : ScopedAll base final around before gained parts) :
    ∃ name, u.name? = some name ∧
      t.UseAt base before around gained (step index ++ path) name d := by
  obtain ⟨name, named, earlier, later, whole, behind, resolved⟩ :=
    row.used all known found bound other
  refine ⟨name, named, earlier, later, whole, behind, (row.part known).resolved resolved ?_⟩
  refine fun means late => .inr ⟨means, fun host outer => late host outer ?_⟩
  rintro rfl
  exact (row.isHost _ known).mp outer

/-- A use in a part that stands in the scope of the root: the root takes a frame away. -/
theorem Tree.Row.useAt_host (row : t.Row True step parts)
    (all : ScopedAll base final ((before ++ gained) :: around) [] owned parts)
    (hosts : Hosts final t.info owned)
    (complete : ∀ place d, t.Hoisted place d → t.Innermost [] place → (d.name, d) ∈ owned) :
    ∃ name, u.name? = some name ∧
      t.UseAt base before around gained (step index ++ path) name d := by
  obtain ⟨name, named, earlier, later, rfl, behind, resolved⟩ :=
    row.used all known found bound other
  refine ⟨name, named, gained, [], (append_nil _).symm, forall_mem_nil _,
    (row.part known).resolved resolved fun means late => ?_⟩
  rw [nil_append, Scopes.meaning, findSome?_cons] at means
  cases own : Table.find earlier name with
  | some meant =>
    rw [own, Option.some_or] at means
    cases means
    obtain ⟨place, declared, direct⟩ :=
      row.declared all (mem_append_left later (Table.mem_of_find own))
    refine .inl ⟨[], place, (row.isHost _ known).mpr trivial, declared, direct.innermost,
      fun host outer longer => late host outer ?_⟩
    rintro rfl
    exact absurd longer (Nat.lt_irrefl _)
  | none =>
    rw [own] at means
    refine .inr ⟨means, fun host outer => ?_⟩
    by_cases isRoot : host = []
    · rw [isRoot]
      exact hosts.late own behind complete
    · exact late host outer isRoot

end Use

/--
A tree with parts in the scope in which it stands and parts in a scope of its own. All other nodes
below the root are such that binding has not written to them.
-/
theorem Scoped.of_parts {step inside : Nat → List Nat} {inner : List Tree}
    (row : t.Row False step parts) (hosted : t.Row True inside inner)
    (all : ScopedAll base final around before gained parts)
    (below : ScopedAll base final ((before ++ gained) :: around) [] owned inner)
    (root : t.info.Plain ∧ inner = [] ∨ Hosts final t.info owned)
    (cover : ∀ path u, t.subtree? path = some u → path = [] ∨ u.info.Plain ∨
      (∃ (index : Nat) (c : Tree) (rest : List Nat),
        parts[index]? = some c ∧ path = step index ++ rest) ∨
      ∃ (index : Nat) (c : Tree) (rest : List Nat),
        inner[index]? = some c ∧ path = inside index ++ rest) :
    Scoped base final around before gained t := by
  have unbound : t.info.binding = none := root.elim (·.1.binding) (·.unbound)
  have complete (place : List Nat) (d : Declaration) (hoisted : t.Hoisted place d)
      (innermost : t.Innermost [] place) : (d.name, d) ∈ owned := by
    obtain ⟨u, found, bound, _⟩ := hoisted.bound
    rcases cover place u found with
      rfl | plain | ⟨index, c, rest, known, rfl⟩ | ⟨index, c, rest, known, rfl⟩
    · exact absurd innermost.1 (not_around_nil t [])
    · cases plain.binding.symm.trans bound
    · exact ((row.isHost rest known).mp innermost.1).elim
    · refine hosted.complete below known hoisted
        ((hosted.part known).directly_of fun host outer => ?_)
      exact length_eq_zero_iff.mp (Nat.le_zero.mp (innermost.2 host outer))
  constructor
  · exact fun e member => row.declared all member
  · intro path d isHoisted direct
    obtain ⟨u, found, bound, _⟩ := isHoisted.bound
    rcases cover path u found with
      rfl | plain | ⟨index, c, rest, known, rfl⟩ | ⟨index, c, rest, known, rfl⟩
    · cases found
      cases unbound.symm.trans bound
    · cases plain.binding.symm.trans bound
    · exact row.complete all known isHoisted ((row.part known).directly_of fun host outer =>
        ((direct host).mp outer).1)
    · exact ((direct []).mp ((hosted.isHost rest known).mpr trivial)).2.elim
  · intro path u d found bound other
    rcases cover path u found with
      rfl | plain | ⟨index, c, rest, known, rfl⟩ | ⟨index, c, rest, known, rfl⟩
    · cases found
      cases unbound.symm.trans bound
    · cases plain.binding.symm.trans bound
    · rw [subtree?_append (row.part known).found] at found
      exact row.useAt known found bound other all
    · rw [subtree?_append (hosted.part known).found] at found
      rcases root with ⟨_, rfl⟩ | hosts
      · cases known
      · exact hosted.useAt_host known found bound other below hosts complete
  · intro path u found
    rcases cover path u found with
      rfl | plain | ⟨index, c, rest, known, rfl⟩ | ⟨index, c, rest, known, rfl⟩
    · cases found
      refine root.imp (fun plain => ⟨plain.1.varScope, plain.1.decls⟩) fun hosts =>
        ⟨owned, hosts, ?_⟩
      intro e member
      obtain ⟨place, declared, direct⟩ := hosted.declared below member
      exact ⟨place, declared, direct.innermost⟩
    · exact .inl ⟨plain.varScope, plain.decls⟩
    · obtain ⟨_, _, _, _, proper, _⟩ := all.split known
      rw [subtree?_append (row.part known).found] at found
      exact (proper.hosts rest u found).of_part (row.part known)
    · obtain ⟨_, _, _, _, proper, _⟩ := below.split known
      rw [subtree?_append (hosted.part known).found] at found
      exact (proper.hosts rest u found).of_part (hosted.part known)

end Offside
