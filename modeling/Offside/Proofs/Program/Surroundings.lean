import Offside.Proofs.Program.Binders

/-!
# What stands around the parts of a program

Between a part of a program and the program itself there is nothing but other parts: what the
enclosures of a part introduce, the parts of the program introduce. So a name that no part
introduces means the same throughout.
-/

namespace Offside

open List

/-- A declaration in front of a part, a function or a handler declares a name for the part. -/
def Enclosure.Declares (e : Enclosure) (name : String) : Prop :=
  .hoisted name ∈ e.binders ∨ .param name ∈ e.binders

instance (e : Enclosure) (name : String) : Decidable (e.Declares name) :=
  inferInstanceAs (Decidable (_ ∨ _))

/-- A part inside of some enclosures, between which and the part only some things are introduced. -/
def Site.Inside (cx : List Enclosure) (known : Binder → Prop) (site : Site) : Prop :=
  ∃ inner, site.around = inner ++ cx ∧ ∀ e ∈ inner, ∀ b ∈ e.binders, known b

namespace Site

variable {cx : List Enclosure} {known : Binder → Prop} {site : Site}

theorem inside_self (part : Part) : Inside cx known ⟨cx, part⟩ :=
  ⟨[], rfl, nofun⟩

theorem Inside.outside {e : Enclosure} (inside : site.Inside (e :: cx) known)
    (introduced : ∀ b ∈ e.binders, known b) : site.Inside cx known := by
  obtain ⟨inner, same, between⟩ := inside
  refine ⟨inner ++ [e], ?_, ?_⟩
  · rw [same, append_assoc, singleton_append]
  · exact forall_mem_append.mpr ⟨between, forall_mem_singleton.mpr introduced⟩

end Site

def Introduces (known : Binder → Prop) (sites : List Site) : Prop :=
  ∀ site ∈ sites, ∀ b ∈ site.binders, known b

def AllInside (cx : List Enclosure) (known : Binder → Prop) (sites : List Site) : Prop :=
  ∀ site ∈ sites, site.Inside cx known

section Lists

variable {cx : List Enclosure} {known : Binder → Prop} {site : Site} {first rest : List Site}

theorem introduces_append :
    Introduces known (first ++ rest) ↔ Introduces known first ∧ Introduces known rest :=
  forall_mem_append

theorem introduces_cons :
    Introduces known (site :: rest) ↔ (∀ b ∈ site.binders, known b) ∧ Introduces known rest :=
  forall_mem_cons

theorem allInside_append :
    AllInside cx known (first ++ rest) ↔ AllInside cx known first ∧ AllInside cx known rest :=
  forall_mem_append

theorem allInside_nil : AllInside cx known [] :=
  nofun

theorem allInside_self (part : Part) : AllInside cx known [⟨cx, part⟩] :=
  forall_mem_singleton.mpr (Site.inside_self part)

theorem AllInside.self_cons (rest : AllInside cx known first) (part : Part) :
    AllInside cx known (⟨cx, part⟩ :: first) :=
  forall_mem_cons.mpr ⟨Site.inside_self part, rest⟩

theorem AllInside.outside {e : Enclosure} (inside : AllInside (e :: cx) known rest)
    (introduced : ∀ b ∈ e.binders, known b) : AllInside cx known rest :=
  fun site member => (inside site member).outside introduced

end Lists

/-- Between parts and what stands around all of them is only what the parts introduce. -/
theorem Spread.allInside {f : List Enclosure → List Site} {known : Binder → Prop}
    (spread : Spread f) {cx : List Enclosure} (introduces : Introduces known (f cx)) :
    AllInside cx known (f cx) := by
  induction spread generalizing cx with
  | nil => exact allInside_nil
  | part p => exact allInside_self p
  | append _ _ first rest =>
    rw [introduces_append] at introduces
    exact allInside_append.mpr ⟨first introduces.1, rest introduces.2⟩
  | inside e free _ ih =>
    refine (ih introduces).outside ?_
    rw [free]
    exact forall_mem_nil _
  | bound p e introduced _ ih =>
    rw [introduces_cons] at introduces
    have behind := ih introduces.2
    exact (behind.outside fun b member => introduces.1 b (introduced member)).self_cons p

/-- What statements introduce around one of their parts they introduce somewhere. -/
theorem Stmt.inside_of_tally {cx : List Enclosure} {a : List Stmt} :
    AllInside cx (fun b => 0 < Stmt.tally b a) (Stmt.partsAll cx a) := by
  refine (Stmt.spreadAll a).allInside fun site member b here => ?_
  rw [← Stmt.count_partsAll cx, count_pos_iff]
  exact mem_flatMap.mpr ⟨site, member, here⟩

end Offside
