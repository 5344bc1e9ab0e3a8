import Offside.Proofs.Binding.Rules
import Offside.Proofs.Ownership.Marking

/-!
# Checked trees

Binding and checking write into the nodes of a tree, but they change neither symbols nor values. A
law that looks at nothing else goes on to hold. Checking writes nothing but numbers of values, so
the checked tree follows the rules of binding like the bound one.
-/

namespace Offside

open List

/-- A change of contents that keeps symbols and values. -/
structure Info.Marks (change : Info → Info) : Prop where
  symbol : ∀ info, (change info).symbol = info.symbol
  value : ∀ info, (change info).value = info.value

theorem Info.marks_outline : Info.Marks Info.outline :=
  ⟨fun _ => rfl, fun _ => rfl⟩

theorem Info.marks_uncounted : Info.Marks Info.uncounted :=
  ⟨fun _ => rfl, fun _ => rfl⟩

theorem Info.Marks.name? {change : Info → Info} (marks : Info.Marks change) (info : Info) :
    (change info).name? = info.name? := by
  rw [Info.name?, Info.name?, marks.value]

namespace Tree

variable {change : Info → Info}

theorem symbol_mapInfo (marks : Info.Marks change) (t : Tree) :
    (mapInfo change t).symbol = t.symbol := by
  obtain ⟨id, info, children⟩ := t
  rw [mapInfo_node]
  exact marks.symbol info

mutual

/-- A law that looks at symbols and values alone holds of marked trees as well. -/
theorem obeys_mapInfo {law : Law} (marks : Info.Marks change)
    (same : ∀ info below, law (change info) below ↔ law info below) (t : Tree) :
    (mapInfo change t).Obeys law ↔ t.Obeys law := by
  cases t with
  | node id info children =>
    have symbols : Tree.symbol ∘ mapInfo change = Tree.symbol :=
      funext fun child => symbol_mapInfo marks child
    rw [mapInfo_node, obeys_node, obeys_node, same,
      obeyAll_map_mapInfo marks same children, map_map, symbols]

theorem obeyAll_map_mapInfo {law : Law} (marks : Info.Marks change)
    (same : ∀ info below, law (change info) below ↔ law info below) (ts : List Tree) :
    ObeyAll law (ts.map (mapInfo change)) ↔ ObeyAll law ts := by
  cases ts with
  | nil => rw [map_nil]
  | cons t ts =>
    rw [map_cons, obeyAll_cons, obeyAll_cons, obeys_mapInfo marks same t,
      obeyAll_map_mapInfo marks same ts]

end

/-! ## Trees with other numbers of values -/

variable {t u : Tree} {ts us : List Tree} {id : NodeId} {info : Info} {children : List Tree}

theorem uncounted_eq_node (same : u.uncounted = (node id info children).uncounted) :
    ∃ count parts, u = .node id { info with count } parts ∧
      parts.map uncounted = children.map uncounted := by
  obtain ⟨other, written, parts⟩ := u
  rw [uncounted_node, uncounted_node] at same
  injection same with sameId sameInfo sameParts
  refine ⟨written.count, parts, ?_, sameParts⟩
  cases written
  cases info
  cases sameInfo
  rw [sameId]

theorem uncounted_eq_pair (same : us.map uncounted = [t, u].map uncounted) :
    ∃ first second, us = [first, second] ∧ first.uncounted = t.uncounted ∧
      second.uncounted = u.uncounted := by
  obtain ⟨first, rest, rfl, here, others⟩ := map_eq_cons_iff.mp same
  obtain ⟨second, rfl, there⟩ := map_eq_singleton_iff.mp others
  exact ⟨first, second, rfl, here, there⟩

theorem uncounted_singleton (same : u.uncounted = t.uncounted) :
    [u].map uncounted = [t].map uncounted := by
  rw [map_singleton, map_singleton, same]

theorem plainAll_of_uncounted (same : us.map uncounted = ts.map uncounted)
    (plain : EverywhereAll Info.Plain ts) : EverywhereAll Info.Plain us := by
  have blind (info : Info) : info.uncounted.Plain ↔ info.Plain :=
    ⟨fun plain => ⟨plain.decls, plain.varScope, plain.binding⟩,
      fun plain => ⟨plain.decls, plain.varScope, plain.binding⟩⟩
  rw [← obeyAll_contents, ← obeyAll_map_mapInfo Info.marks_uncounted fun info _ => blind info]
    at plain ⊢
  rwa [show us.map (mapInfo Info.uncounted) = _ from same]

end Tree

namespace Bind

open Offside.Tree

variable {base : Table Declaration} {final : Scopes Declaration} {before gained owned : List Entry}
  {around : List (List Entry)} {info : Info} {ts us : List Tree}

theorem Collects.counted (collects : Collects final info owned) (count : Option Nat) :
    Collects final { info with count } owned :=
  ⟨⟨collects.unbound, collects.gathered, collects.registered⟩, collects.distinct⟩

theorem Composes.counted {length : Nat} (composes : Composes info length) (count : Option Nat) :
    Composes { info with count } length :=
  ⟨composes.noTag, composes.closed, composes.noAssign, composes.noHost⟩

theorem Confines.counted {length : Nat} (confines : Confines info length) (count : Option Nat) :
    Confines { info with count } length := by
  cases confines with
  | block isBlock opens => exact .block isBlock opens
  | loop isLoop endless => exact .loop isLoop endless
  | code isCode notTwo => exact .code isCode notTwo

theorem externals_of_uncounted (same : us.map uncounted = ts.map uncounted)
    (names : ∀ c ∈ ts, IsExternal c) :
    (∀ c ∈ us, IsExternal c) ∧ us.flatMap (·.info.entry) = ts.flatMap (·.info.entry) := by
  induction ts generalizing us with
  | nil =>
    cases map_eq_nil_iff.mp same
    exact ⟨names, rfl⟩
  | cons t ts ih =>
    obtain ⟨u, rest, rfl, here, others⟩ := map_eq_cons_iff.mp same
    rw [forall_mem_cons] at names
    obtain ⟨behind, flat⟩ := ih others names.2
    obtain ⟨id, info, children⟩ := t
    obtain ⟨count, parts, rfl, inside⟩ := uncounted_eq_node here
    constructor
    · refine forall_mem_cons.mpr ⟨⟨⟨names.1.noDecls, names.1.noScope, names.1.declared, ?_⟩,
        names.1.isTag, names.1.named⟩, behind⟩
      exact plainAll_of_uncounted inside names.1.below
    · rw [flatMap_cons, flatMap_cons, flat]
      rfl

/-- Trees of the same kind as those that binding looks at. -/
def Seen.withList (ts : List Tree) : Seen → Seen
  | .trees place _ => .trees place ts
  | .names hoisted _ => .names hoisted ts

/-- The rules of binding do not look at numbers of values. -/
theorem Bound.of_uncounted {seen : Seen} (bound : Bound base final seen before around gained)
    (same : us.map uncounted = seen.list.map uncounted) :
    Bound base final (seen.withList us) before around gained := by
  have recount {info : Info} (plain : info.Plain) (count : Option Nat) :
      Info.Plain { info with count } := ⟨plain.decls, plain.varScope, plain.binding⟩
  have rebind {info : Info} {d : Declaration} (refers : info.Refers d) (count : Option Nat) :
      Info.Refers { info with count } d := ⟨refers.decls, refers.varScope, refers.binding⟩
  induction bound generalizing us
  case nothing =>
    cases map_eq_nil_iff.mp same
    exact .nothing
  case more first rest =>
    obtain ⟨u, others, rfl, here, behind⟩ := map_eq_cons_iff.mp same
    exact .more (first (uncounted_singleton here)) (rest behind)
  case noNames =>
    cases map_eq_nil_iff.mp same
    exact .noNames
  case moreNames first rest =>
    obtain ⟨u, others, rfl, here, behind⟩ := map_eq_cons_iff.mp same
    exact .moreNames (first (uncounted_singleton here)) (rest behind)
  -- all other rules are about a single node
  all_goals
    obtain ⟨u, rfl, here⟩ := map_eq_singleton_iff.mp same
    obtain ⟨count, parts, rfl, inside⟩ := uncounted_eq_node here
  case left isTag plain reason below =>
    exact .left isTag (recount plain count) reason (plainAll_of_uncounted inside below)
  case declared isTag declares named refers new below =>
    exact .declared isTag declares named (rebind refers count) new
      (plainAll_of_uncounted inside below)
  case used isTag uses named refers means assignable below =>
    exact .used isTag uses named (rebind refers count) means assignable
      (plainAll_of_uncounted inside below)
  case nameless isTag plain noName below =>
    exact .nameless isTag (recount plain count) noName (plainAll_of_uncounted inside below)
  case name isTag declares named refers new below =>
    exact .name isTag declares named (rebind refers count) new
      (plainAll_of_uncounted inside below)
  case nameTuple isTuple plain _ ih =>
    exact .nameTuple isTuple (recount plain count) (ih inside)
  case parts composes plain suits _ ih =>
    rw [← length_of_uncounted inside] at composes
    exact .parts (composes.counted count) (recount plain count) suits (ih inside)
  case assigned isAssign plain suits _ _ target value =>
    obtain ⟨left, right, rfl, first, second⟩ := uncounted_eq_pair inside
    exact .assigned isAssign (recount plain count) suits (target (uncounted_singleton first))
      (value (uncounted_singleton second))
  case member isMember plain suits _ skipped ih =>
    obtain ⟨object, properties, rfl, first, others⟩ := map_eq_cons_iff.mp inside
    exact .member isMember (recount plain count) suits (ih (uncounted_singleton first))
      (plainAll_of_uncounted others skipped)
  case noEntry isPair plain =>
    cases map_eq_nil_iff.mp inside
    exact .noEntry isPair (recount plain count)
  case entry isPair plain skipped _ ih =>
    obtain ⟨key, values, rfl, first, others⟩ := map_eq_cons_iff.mp inside
    have alone := (everywhereAll_cons _ _).mpr ⟨skipped, everywhereAll_nil⟩
    have plainKey := plainAll_of_uncounted (uncounted_singleton first) alone
    exact .entry isPair (recount plain count) ((everywhereAll_cons _ _).mp plainKey).1 (ih others)
  case declaration declares plain suits _ ih =>
    exact .declaration declares (recount plain count) suits (ih inside)
  case listed isExternal plain suits names =>
    obtain ⟨names, flat⟩ := externals_of_uncounted inside names
    rw [← flat]
    exact .listed isExternal (recount plain count) suits names
  case confined confines suits collects _ ih =>
    rw [← length_of_uncounted inside] at confines
    exact .confined (confines.counted count) suits (collects.counted count) (ih inside)
  case code isCode suits collects _ _ names inner =>
    obtain ⟨params, body, rfl, first, second⟩ := uncounted_eq_pair inside
    exact .code isCode suits (collects.counted count) (names (uncounted_singleton first))
      (inner (uncounted_singleton second))
  case loop isLoop suits isHead plain collects _ _ _ start heads inner =>
    obtain ⟨head, body, rfl, first, second⟩ := uncounted_eq_pair inside
    obtain ⟨headCount, headParts, rfl, inHead⟩ := uncounted_eq_node first
    obtain ⟨names, init, rfl, atNames, atInit⟩ := uncounted_eq_pair inHead
    exact .loop isLoop suits isHead (recount plain headCount) (collects.counted count)
      (start (uncounted_singleton atInit)) (heads (uncounted_singleton atNames))
      (inner (uncounted_singleton second))

end Bind

end Offside
