import Mathlib.Order.Nat
import Offside.Scope

/-!
# Frames of scopes

Seen from a scope, nested scopes are a list of frames, the innermost one first: a frame lists what
a scope holds in the order in which it was written. A name means its first entry in the first
frame that has one. Writing into a scope adds to its frame and leaves all other scopes alone.
-/

namespace Offside

open List

namespace Table

variable {α : Type}

theorem find_append (first second : List (String × α)) (name : String) :
    find (first ++ second) name = (find first name).or (find second name) := by
  induction first with
  | nil => rfl
  | cons entry rest ih =>
    obtain ⟨key, value⟩ := entry
    by_cases same : key = name
    · simp [find, same]
    · simp [find, same, ih]

theorem mem_of_find {entries : List (String × α)} {name : String} {value : α}
    (found : find entries name = some value) : (name, value) ∈ entries := by
  induction entries with
  | nil => cases found
  | cons entry rest ih =>
    obtain ⟨key, first⟩ := entry
    by_cases same : key = name
    · rw [find, if_pos same] at found
      rw [same, Option.some.inj found]
      exact .head _
    · rw [find, if_neg same] at found
      exact .tail _ (ih found)

theorem not_mem_of_find {entries : List (String × α)} {name : String}
    (missing : find entries name = none) (value : α) : (name, value) ∉ entries := by
  induction entries with
  | nil => exact not_mem_nil
  | cons entry rest ih =>
    obtain ⟨key, first⟩ := entry
    by_cases same : key = name
    · rw [find, if_pos same] at missing
      cases missing
    · rw [find, if_neg same] at missing
      intro found
      rcases mem_cons.mp found with here | later
      · exact same (congrArg Prod.fst here).symm
      · exact ih missing later

theorem mem_names_insert (table : Table α) (name other : String) (value : α) :
    other ∈ (table.insert name value).names ↔ other ∈ table.names ∨ other = name := by
  obtain ⟨entries⟩ := table
  change other ∈ (put entries name value).map Prod.fst ↔ other ∈ entries.map Prod.fst ∨ other = name
  induction entries with
  | nil => simp [put]
  | cons entry rest ih =>
    obtain ⟨key, old⟩ := entry
    by_cases same : key = name
    · simp only [put, if_pos same, map_cons, mem_cons]
      constructor
      · exact .inl
      · rintro (known | rfl)
        · exact known
        · exact .inl same.symm
    · simp only [put, if_neg same, map_cons, mem_cons, ih, or_assoc]

theorem nodup_names_insert {table : Table α} (distinct : table.names.Nodup) (name : String)
    (value : α) : (table.insert name value).names.Nodup := by
  obtain ⟨entries⟩ := table
  change ((put entries name value).map Prod.fst).Nodup
  change (entries.map Prod.fst).Nodup at distinct
  induction entries with
  | nil => simp [put]
  | cons entry rest ih =>
    obtain ⟨key, old⟩ := entry
    rw [map_cons, nodup_cons] at distinct
    by_cases same : key = name
    · rw [put, if_pos same, map_cons, nodup_cons]
      exact distinct
    · rw [put, if_neg same, map_cons, nodup_cons]
      refine ⟨fun listed => ?_, ih distinct.2⟩
      rcases (mem_names_insert ⟨rest⟩ name key value).mp listed with known | isName
      · exact distinct.1 known
      · exact same isName

end Table

namespace Scopes

variable {α : Type} {scopes before middle after : Scopes α} {scope inner : ScopeId}
  {frame gained more : List (String × α)} {frames : List (List (String × α))}

/-- At first no layer holds anything. -/
theorem getLocal?_start (base : Table α) (scope : ScopeId) (name : String) :
    (start base).getLocal? scope name = none := by
  cases scope with
  | zero | succ scope => rfl

/-! ## What a scope shows -/

/-- The entries of a scope and of the scopes around it, from the inside out. -/
inductive Shows (scopes : Scopes α) : ScopeId → List (List (String × α)) → Prop
  | outermost {scope : ScopeId} {frame : List (String × α)} (inside : scope < scopes.size)
      (noParent : scopes.parent scope = none)
      (entries : ∀ name, scopes.getLocal? scope name = Table.find frame name) :
      Shows scopes scope [frame]
  | within {scope outer : ScopeId} {frame : List (String × α)}
      {frames : List (List (String × α))} (inside : scope < scopes.size)
      (parent : scopes.parent scope = some outer) (earlier : outer < scope)
      (entries : ∀ name, scopes.getLocal? scope name = Table.find frame name)
      (around : Shows scopes outer frames) : Shows scopes scope (frame :: frames)

theorem Shows.inside (shows : Shows scopes scope frames) : scope < scopes.size := by
  cases shows with
  | outermost inside _ _ | within inside _ _ _ _ => exact inside

theorem Shows.entries (shows : Shows scopes scope (frame :: frames)) (name : String) :
    scopes.getLocal? scope name = Table.find frame name := by
  cases shows with
  | outermost _ _ entries | within _ _ _ entries _ => exact entries name

theorem shows_start (base : Table α) : (start base).Shows root [[]] :=
  .outermost Nat.one_pos rfl (getLocal?_start base root)

def meaning (frames : List (List (String × α))) (base : Table α) (name : String) : Option α :=
  (frames.findSome? fun frame => Table.find frame name).or (base.get? name)

/-- The layers from a scope outwards are those of its frames. -/
theorem Shows.findSome?_chain (shows : Shows scopes scope frames) (name : String) (count : Nat)
    (enough : scope < count) :
    (scopes.chainWithin count scope).findSome? (fun layer => scopes.getLocal? layer name) =
      frames.findSome? fun frame => Table.find frame name := by
  induction shows generalizing count with
  | outermost _ noParent entries =>
    obtain ⟨count, rfl⟩ := Nat.exists_eq_add_one_of_ne_zero (Nat.ne_zero_of_lt enough)
    rw [chainWithin, noParent]
    simp only [List.findSome?_cons, List.findSome?_nil, entries]
  | within _ parent earlier entries _ ih =>
    obtain ⟨count, rfl⟩ := Nat.exists_eq_add_one_of_ne_zero (Nat.ne_zero_of_lt enough)
    rw [chainWithin, parent]
    simp only [List.findSome?_cons, entries]
    rw [ih count (Nat.lt_of_lt_of_le earlier (Nat.le_of_lt_succ enough))]

/-- A name means what it means in the frames. -/
theorem Shows.get?_eq (shows : Shows scopes scope frames) (name : String) :
    scopes.get? scope name = meaning frames scopes.base name := by
  rw [get?, getLayered?, chain, shows.findSome?_chain name _ (Nat.lt_succ_self scope), meaning]

/-! ## What a scope gains -/

/-- A scope has gained some entries, and every other scope that was there is as before. -/
structure Gains (scope : ScopeId) (before after : Scopes α) (gained : List (String × α)) :
    Prop where
  base : after.base = before.base
  size : before.size ≤ after.size
  parents : ∀ layer < before.size, after.parent layer = before.parent layer
  others : ∀ layer < before.size, layer ≠ scope →
    ∀ name, after.getLocal? layer name = before.getLocal? layer name
  here : ∀ name,
    after.getLocal? scope name = (before.getLocal? scope name).or (Table.find gained name)

theorem Gains.refl (scope : ScopeId) (scopes : Scopes α) : Gains scope scopes scopes [] :=
  ⟨rfl, le_refl _, fun _ _ => rfl, fun _ _ _ _ => rfl, fun _ => (Option.or_none).symm⟩

theorem Gains.trans (first : Gains scope before middle gained)
    (second : Gains scope middle after more) : Gains scope before after (gained ++ more) := by
  refine ⟨second.base.trans first.base, first.size.trans second.size, fun layer known => ?_,
    fun layer known apart name => ?_, fun name => ?_⟩
  · rw [second.parents layer (known.trans_le first.size), first.parents layer known]
  · rw [second.others layer (known.trans_le first.size) apart, first.others layer known apart]
  · rw [second.here, first.here, Table.find_append, Option.or_assoc]

/-- What a later scope gains is nothing to those that were there before. -/
theorem Gains.of_later (first : Gains scope before middle gained) (known : scope < before.size)
    (later : before.size ≤ inner) (second : Gains inner middle after more) :
    Gains scope before after gained := by
  have apart : ∀ layer < before.size, layer ≠ inner := fun layer inside =>
    (inside.trans_le later).ne
  refine ⟨second.base.trans first.base, first.size.trans second.size, fun layer inside => ?_,
    fun layer inside other name => ?_, fun name => ?_⟩
  · rw [second.parents layer (inside.trans_le first.size), first.parents layer inside]
  · rw [second.others layer (inside.trans_le first.size) (apart layer inside),
      first.others layer inside other]
  · rw [second.others scope (known.trans_le first.size) (apart scope known), first.here]

/-- Frames outside of the scope that gains stay as they are. -/
theorem Shows.of_gains_inner (shows : Shows before scope frames)
    (gains : Gains inner before after gained) (outside : scope < inner) :
    Shows after scope frames := by
  induction shows with
  | outermost inside noParent entries =>
    refine .outermost (inside.trans_le gains.size) ?_ fun name => ?_
    · rw [gains.parents _ inside, noParent]
    · rw [gains.others _ inside outside.ne, entries]
  | within inside parent earlier entries _ ih =>
    refine .within (inside.trans_le gains.size) ?_ earlier (fun name => ?_)
      (ih (earlier.trans outside))
    · rw [gains.parents _ inside, parent]
    · rw [gains.others _ inside outside.ne, entries]

/-- The frame of the scope that gains becomes longer. -/
theorem Shows.of_gains (shows : Shows before scope (frame :: frames))
    (gains : Gains scope before after gained) :
    Shows after scope ((frame ++ gained) :: frames) := by
  have entries : ∀ name, after.getLocal? scope name = Table.find (frame ++ gained) name := by
    intro name
    rw [gains.here, shows.entries, Table.find_append]
  cases shows with
  | outermost inside noParent _ =>
    exact .outermost (inside.trans_le gains.size) (by rw [gains.parents _ inside, noParent])
      entries
  | within inside parent earlier _ around =>
    exact .within (inside.trans_le gains.size) (by rw [gains.parents _ inside, parent]) earlier
      entries (around.of_gains_inner gains earlier)

/-- The frame behind the innermost one becomes longer if its scope gains. -/
theorem Shows.of_gains_parent {own : List (String × α)}
    (shows : Shows before inner (own :: frame :: frames))
    (parent : before.parent inner = some scope) (gains : Gains scope before after gained) :
    Shows after inner (own :: (frame ++ gained) :: frames) := by
  cases shows with
  | within inside known earlier entries around =>
    rw [parent] at known
    cases known
    refine .within (inside.trans_le gains.size) ?_ earlier (fun name => ?_) (around.of_gains gains)
    · rw [gains.parents _ inside, parent]
    · rw [gains.others _ inside earlier.ne', entries]

/-! ## Writing and opening -/

theorem getLocal?_insert (known : scope < scopes.size) (layer : ScopeId) (name other : String)
    (value : α) :
    (scopes.insert scope name value).getLocal? layer other =
      if layer = scope ∧ name = other then some value else scopes.getLocal? layer other := by
  rw [getLocal?, insert, Array.getElem?_modify]
  by_cases here : scope = layer
  · subst here
    have present : scopes.layers[scope]? = some scopes.layers[scope] :=
      Array.getElem?_eq_getElem known
    rw [if_pos rfl, getLocal?, present]
    simp only [Option.map_some, Option.bind_some, Table.get?_insert, true_and]
  · rw [if_neg here, getLocal?, if_neg fun both => here both.1.symm]

theorem parent_insert (layer : ScopeId) (name : String) (value : α) :
    (scopes.insert scope name value).parent layer = scopes.parent layer := by
  rw [parent, insert, Array.getElem?_modify, parent]
  by_cases here : scope = layer
  · rw [if_pos here, Option.bind_map]
    rfl
  · rw [if_neg here]

/-- Defining a name adds one entry. -/
theorem Gains.define {name : String} {value : α} (known : scope < before.size)
    (new : before.getLocal? scope name = none) :
    Gains scope before (before.insert scope name value) [(name, value)] := by
  refine ⟨rfl, le_of_eq ?_, fun layer _ => parent_insert layer name value,
    fun layer _ apart other => ?_, fun other => ?_⟩
  · rw [Scopes.size, Scopes.size, insert, Array.size_modify]
  · rw [getLocal?_insert known, if_neg fun both => apart both.1]
  · rw [getLocal?_insert known]
    by_cases same : name = other
    · subst same
      simp [new, Table.find]
    · simp [same, Table.find]

theorem size_extend (scopes : Scopes α) (scope : ScopeId) :
    (scopes.extend scope).2.size = scopes.size + 1 := by
  rw [extend, size, size, Array.size_push]

theorem getLocal?_extend (scopes : Scopes α) (scope layer : ScopeId) (name : String) :
    (scopes.extend scope).2.getLocal? layer name = scopes.getLocal? layer name := by
  rw [getLocal?, extend, Array.getElem?_push, getLocal?]
  split
  case isTrue new =>
    subst new
    rw [Array.getElem?_eq_none (le_refl _)]
    rfl
  case isFalse => rfl

/-- A new scope is nothing to those that were there before. -/
theorem Gains.extend (before : Scopes α) (scope layer : ScopeId) :
    Gains scope before (before.extend layer).2 [] := by
  refine ⟨rfl, ?_, fun known inside => ?_, fun known _ _ name => getLocal?_extend before _ _ _,
    fun name => ?_⟩
  · rw [size_extend]
    exact Nat.le_succ _
  · have earlier : known ≠ before.layers.size := inside.ne
    rw [parent, Scopes.extend, Array.getElem?_push, if_neg earlier, parent]
  · rw [getLocal?_extend, Table.find, Option.or_none]

theorem layers_extend (scopes : Scopes α) (scope : ScopeId) :
    (scopes.extend scope).2.layers[scopes.size]? = some ⟨some scope, .empty⟩ :=
  Array.getElem?_push_size

theorem parent_extend (scopes : Scopes α) (scope : ScopeId) :
    (scopes.extend scope).2.parent scopes.size = some scope := by
  rw [parent, layers_extend]
  rfl

/-- A new scope shows nothing of its own. -/
theorem Shows.extend (shows : Shows scopes scope frames) :
    Shows (scopes.extend scope).2 scopes.size ([] :: frames) := by
  have around := shows.of_gains_inner (Gains.extend scopes scopes.size scope) shows.inside
  refine .within ?_ (parent_extend scopes scope) shows.inside (fun name => ?_) around
  · rw [size_extend]
    exact Nat.lt_succ_self _
  · rw [getLocal?, layers_extend]
    rfl

end Scopes

end Offside
