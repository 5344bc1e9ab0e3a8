import Offside.Proofs.Program.Parts

/-!
# Names and jumps where they stand

A jump needs its target around it, in the same function. A name needs a declaration around it, or
is one of the names that need none; some names are bound to the function in which they are
declared.
-/

namespace Offside

namespace Enclosure

def isFunction : Enclosure → Bool
  | .function _ => true
  | _ => false

def near (cx : List Enclosure) : List Enclosure :=
  cx.takeWhile fun e => !e.isFunction

theorem near_cons {e : Enclosure} (inside : e.isFunction = false) (cx : List Enclosure) :
    near (e :: cx) = e :: near cx := by
  rw [near, List.takeWhile_cons, inside]
  rfl

/--
A name can be seen where some enclosures stand around it. Outside of all of them the names in
`base` can be seen. A `tied` name is seen only within the function in which it is declared, and no
parameter is seen as such a name.
-/
def Visible (tied base : String → Prop) : List Enclosure → String → Prop
  | [], name => base name
  | .behind names :: cx, name => name ∈ names ∨ Visible tied base cx name
  | .function params :: cx, name => ¬tied name ∧ (name ∈ params ∨ Visible tied base cx name)
  | .handler param :: cx, name => (¬tied name ∧ param = some name) ∨ Visible tied base cx name
  | .list _ :: cx, name | .labeled _ _ :: cx, name | .round :: cx, name => Visible tied base cx name

variable {tied base : String → Prop} {cx : List Enclosure} {name : String}

theorem Visible.cons (visible : Visible tied base cx name) {e : Enclosure}
    (inside : e.isFunction = false) : Visible tied base (e :: cx) name := by
  cases e with
  | list | labeled | round => exact visible
  | behind | handler => exact .inr visible
  | function => cases inside

/-- A tied name is declared in front of every place where it is seen, in the same function. -/
theorem Visible.exists_behind (visible : Visible tied base cx name) (isTied : tied name)
    (noBase : ¬base name) : ∃ names, .behind names ∈ near cx ∧ name ∈ names := by
  induction cx with
  | nil => exact absurd visible noBase
  | cons e cx ih =>
    have outside (visible : Visible tied base cx name) (inside : e.isFunction = false) :
        ∃ names, .behind names ∈ near (e :: cx) ∧ name ∈ names := by
      obtain ⟨names, found, member⟩ := ih visible
      rw [near_cons inside]
      exact ⟨names, List.mem_cons_of_mem e found, member⟩
    cases e with
    | list | labeled | round => exact outside visible rfl
    | function => exact absurd isTied visible.1
    | behind names =>
      rcases visible with here | visible
      · rw [near_cons rfl]
        exact ⟨names, .head _, here⟩
      · exact outside visible rfl
    | handler =>
      rcases visible with here | visible
      · exact absurd isTied here.1
      · exact outside visible rfl

end Enclosure

open Enclosure

def Part.name? : Part → Option String
  | .use name | .target name => some name
  | _ => none

def Part.isName : Part → Bool
  | .use _ | .target _ | .property _ => true
  | _ => false

namespace Site

def JumpsWell : Site → Prop
  | ⟨cx, .leave (some label)⟩ => ∃ loop, .labeled label loop ∈ near cx
  | ⟨cx, .next (some label)⟩ => .labeled label true ∈ near cx
  | ⟨cx, .leave none⟩ | ⟨cx, .next none⟩ => .round ∈ near cx
  | _ => True

/--
A jump has its target around it, a name can be seen where it stands, and no property has the name
of something tied.
-/
structure Well (tied base : String → Prop) (site : Site) : Prop where
  jumps : site.JumpsWell
  names : ∀ name, site.part.name? = some name → Visible tied base site.around name
  properties : ∀ name, site.part = .property name → ¬tied name

variable {tied base : String → Prop}

theorem well_plain {site : Site} : site.plain.Well tied base ↔ site.Well tied base := by
  obtain ⟨cx, part⟩ := site
  cases part with
  | target name =>
    exact ⟨fun well => ⟨trivial, well.names, nofun⟩, fun well => ⟨trivial, well.names, nofun⟩⟩
  | _ => rfl

theorem well_nameless {cx : List Enclosure} {part : Part} (jumps : JumpsWell ⟨cx, part⟩)
    (nameless : part.isName = false) : Well tied base ⟨cx, part⟩ := by
  refine ⟨jumps, fun name named => ?_, fun name same => ?_⟩
  · cases part <;> first | (cases nameless; done) | cases named
  · subst same
    cases nameless

theorem well_property {cx : List Enclosure} {name : String} (free : ¬tied name) :
    Well tied base ⟨cx, .property name⟩ := by
  refine ⟨trivial, nofun, fun other same => ?_⟩
  cases same
  exact free

theorem well_name {cx : List Enclosure} {part : Part} {name : String}
    (named : part.name? = some name)
    (visible : Visible tied base cx name) : Well tied base ⟨cx, part⟩ := by
  refine ⟨?_, fun other same => Option.some.inj (named.symm.trans same) ▸ visible,
    fun other same => ?_⟩
  · cases part <;> first | exact trivial | cases named
  · subst same
    cases named

end Site

end Offside
