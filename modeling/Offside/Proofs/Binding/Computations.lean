import Offside.Binding
import Offside.Proofs.Binding.Frames
import Offside.Proofs.Computation
import Offside.Proofs.Contents.Everywhere

/-!
# Computations that bind

A computation that binds without a report adds declarations to its scope, and gathers the hoisted
ones on the innermost host. A host opens a scope for what stands inside of it, and notes on itself
what has been declared there.
-/

namespace Offside

open List

/-- Behind the report of an error there are errors. -/
theorem Diagnostics.hasErrors_push_ne {ds : Diagnostics} {d : Diagnostic}
    (isError : d.level = .error) : Diagnostics.hasErrors (ds.push d) ≠ false := by
  rw [hasErrors, Array.any_push, decide_eq_true isError, Bool.or_true]
  exact nofun

theorem Diagnostic.level_redeclared (loc : Loc) (origin : Option Loc) (name : String)
    (earlier : Option Loc) : (redeclared loc origin name earlier).level = .error := by
  cases earlier <;> rfl

theorem Diagnostic.level_constantAssigned (loc : Loc) (origin : Option Loc) (name : String)
    (earlier : Option Loc) : (constantAssigned loc origin name earlier).level = .error := by
  cases earlier <;> rfl

abbrev Entry := String × Declaration

namespace Info

/-- The declaration to which a tag is bound, under its name. -/
def entry (info : Info) : List Entry :=
  match info.binding with
  | some d => [(d.name, d)]
  | none => []

end Info

/-- A host has gathered the hoisted names of its scope, and its scope holds what is declared. -/
structure Hosts (final : Scopes Declaration) (info : Info) (owned : List Entry) : Prop where
  unbound : info.binding = none
  gathered : ∃ table, info.decls = some table ∧
    ∀ name, name ∈ table.names ↔ ∃ d, (name, d) ∈ owned ∧ d.hoisted = true
  registered : ∃ scope, info.varScope = some scope ∧
    ∀ name, final.getLocal? scope name = Table.find owned name

theorem Hosts.mem_declaredNames {final : Scopes Declaration} {info : Info} {owned : List Entry}
    (hosts : Hosts final info owned) {name : String} :
    name ∈ info.declaredNames ↔ ∃ d, (name, d) ∈ owned ∧ d.hoisted = true := by
  obtain ⟨table, same, gathered⟩ := hosts.gathered
  rw [Info.declaredNames, same]
  exact gathered name

/-- A name that needs no declaration; nothing of it is hoisted. -/
structure ExternalName (t : Tree) : Prop where
  noDecls : t.info.decls = none
  noScope : t.info.varScope = none
  declared : ∀ d, t.info.binding = some d → d.tag = some t.id ∧ d.hoisted = false
  below : Tree.EverywhereAll Info.Plain t.children

namespace Bind

variable {α β : Type}

/-! ## Computations that bind -/

/-- The names gathered on the innermost host after some declarations; none is there twice. -/
structure Gathers (before after : Table Declaration) (gained : List Entry) : Prop where
  names : ∀ name,
    name ∈ after.names ↔ name ∈ before.names ∨ ∃ d, (name, d) ∈ gained ∧ d.hoisted = true
  distinct : before.names.Nodup → after.names.Nodup

theorem Gathers.refl (table : Table Declaration) : Gathers table table [] := by
  constructor
  · intro name
    simp
  · exact id

theorem Gathers.trans {before middle after : Table Declaration} {gained more : List Entry}
    (first : Gathers before middle gained) (second : Gathers middle after more) :
    Gathers before after (gained ++ more) := by
  constructor
  · intro name
    rw [second.names name, first.names name, or_assoc]
    simp only [mem_append, or_and_right, exists_or]
  · exact second.distinct ∘ first.distinct

def Keep (before after final : Scopes Declaration) : Prop :=
  ∀ layer, before.size ≤ layer → layer < after.size →
    ∀ name, final.getLocal? layer name = after.getLocal? layer name

theorem Keep.of_size {before middle after final : Scopes Declaration}
    (keep : Keep before after final) (longer : before.size ≤ middle.size) :
    Keep middle after final :=
  fun layer new known name => keep layer (longer.trans new) known name

/-- What an older scope gains is nothing to those that are kept. -/
theorem Keep.of_gains {before middle after final : Scopes Declaration} {scope : ScopeId}
    {gained : List Entry} (keep : Keep before after final)
    (gains : middle.Gains scope after gained) (older : scope < before.size) :
    Keep before middle final := by
  intro layer new known name
  rw [keep layer new (known.trans_le gains.size) name]
  exact gains.others layer known (older.trans_le new).ne' name

/-- A computation that takes no error back. -/
def Clean (x : Bind α) : Prop :=
  ∀ s, (x s).2.diagnostics.hasErrors = false → s.diagnostics.hasErrors = false

theorem Clean.pure (a : α) : Clean (Pure.pure a) :=
  fun _ clean => clean

theorem Clean.bind {x : Bind α} {f : α → Bind β} (first : Clean x) (second : ∀ a, Clean (f a)) :
    Clean (x >>= f) :=
  fun s clean => first s (second (x s).1 (x s).2 clean)

theorem Clean.inHost {x : Bind α} (clean : Clean x) (info : Info) (scope : ScopeId) :
    Clean (Bind.inHost info scope x) :=
  fun s after => clean { s with decls := info.decls.getD .empty } after

/--
A computation in a scope with the entries `before`, inside of the frames `around`. If it reports no
error, the scope gains some declarations, and they and the result have a property, given the
scopes in the end.
-/
structure Binds (base : Table Declaration) (scope : ScopeId) (before : List Entry)
    (around : List (List Entry)) (x : Bind α)
    (property : Scopes Declaration → List Entry → α → Prop) : Prop where
  clean : Clean x
  run : ∀ s, s.scopes.base = base → s.scopes.Shows scope (before :: around) →
    (x s).2.diagnostics.hasErrors = false →
      ∃ gained, s.scopes.Gains scope (x s).2.scopes gained ∧
        Gathers s.decls (x s).2.decls gained ∧
        ∀ final, Keep s.scopes (x s).2.scopes final → property final gained (x s).1

variable {base : Table Declaration} {scope : ScopeId} {before : List Entry}
  {around : List (List Entry)} {x : Bind α}
  {property weaker : Scopes Declaration → List Entry → α → Prop}

namespace Binds

theorem of_run
    (run : ∀ s, (x s).2.diagnostics.hasErrors = false → s.diagnostics.hasErrors = false ∧
      (s.scopes.base = base → s.scopes.Shows scope (before :: around) →
        ∃ gained, s.scopes.Gains scope (x s).2.scopes gained ∧
          Gathers s.decls (x s).2.decls gained ∧
          ∀ final, Keep s.scopes (x s).2.scopes final → property final gained (x s).1)) :
    Binds base scope before around x property :=
  ⟨fun s clean => (run s clean).1, fun s isBase shows clean => (run s clean).2 isBase shows⟩

theorem pure {a : α} (holds : ∀ final, property final [] a) :
    Binds base scope before around (Pure.pure a) property :=
  ⟨fun _ clean => clean, fun s _ _ _ =>
    ⟨[], .refl scope s.scopes, .refl s.decls, fun final _ => holds final⟩⟩

theorem mono (binds : Binds base scope before around x property)
    (weaken : ∀ final gained a, property final gained a → weaker final gained a) :
    Binds base scope before around x weaker := by
  refine ⟨binds.clean, fun s isBase shows clean => ?_⟩
  obtain ⟨gained, gains, gathers, holds⟩ := binds.run s isBase shows clean
  exact ⟨gained, gains, gathers, fun final keep => weaken final gained _ (holds final keep)⟩

theorem bind {f : α → Bind β} {result : Scopes Declaration → List Entry → β → Prop}
    (first : Binds base scope before around x property)
    (second : ∀ a gained, Binds base scope (before ++ gained) around (f a)
      fun final more b => property final gained a → result final (gained ++ more) b) :
    Binds base scope before around (x >>= f) result := by
  have clean :
    ∀ s, ((x >>= f) s).2.diagnostics.hasErrors = false → (x s).2.diagnostics.hasErrors = false :=
    fun s after => (second (x s).1 []).clean (x s).2 after
  refine ⟨fun s after => first.clean s (clean s after), fun s isBase shows after => ?_⟩
  obtain ⟨gained, gains, gathers, holds⟩ := first.run s isBase shows (clean s after)
  obtain ⟨more, gainsMore, gathersMore, holdsMore⟩ := (second (x s).1 gained).run (x s).2
    (gains.base.trans isBase) (shows.of_gains gains) after
  refine ⟨gained ++ more, gains.trans gainsMore, gathers.trans gathersMore, fun final keep => ?_⟩
  exact holdsMore final (keep.of_size gains.size)
    (holds final (keep.of_gains gainsMore shows.inside))

/-- A result that is made of that of another computation. -/
theorem map {f : α → β} {result : Scopes Declaration → List Entry → β → Prop}
    (binds : Binds base scope before around x property)
    (holds : ∀ final gained a, property final gained a → result final gained (f a)) :
    Binds base scope before around (x >>= fun a => Pure.pure (f a)) result :=
  binds.bind fun a gained => .pure fun final known => by
    rw [append_nil]
    exact holds final gained a known

/-- After the report of an error anything holds of a run without one. -/
theorem report (d : Diagnostic) {f : Unit → Bind α} (isError : d.level = .error)
    (clean : Clean (f ())) : Binds base scope before around (Bind.report d >>= f) property := by
  have never : ∀ s, ((Bind.report d >>= f) s).2.diagnostics.hasErrors ≠ false := by
    intro s after
    exact Diagnostics.hasErrors_push_ne isError (clean _ after)
  exact ⟨fun s clean => absurd clean (never s), fun s _ _ clean => absurd clean (never s)⟩

/-- A computation that begins with the report of an error under some condition. -/
theorem join {c : Prop} [Decidable c] {d : Diagnostic} {f : Unit → Bind α}
    (isError : d.level = .error)
    (each : Binds base scope before around (f ()) fun final gained a =>
      ¬c → property final gained a) :
    Binds base scope before around (if c then Bind.report d >>= f else f ()) property := by
  split
  case isTrue => exact report d isError each.clean
  case isFalse absent => exact each.mono fun _ _ _ holds => holds absent

end Binds

variable {id : NodeId} {info : Info} {name : String} {s : Binding}

def declarationOf (id : NodeId) (info : Info) (kind : TagKind) (hoisted : Bool) (name : String) :
    Declaration :=
  { name, tag := some id, loc := some info.loc, assignable := !kind.isConstant, hoisted }

theorem get_bind {α : Type} (next : Binding → Bind α) (s : Binding) : (get >>= next) s = next s s :=
  rfl

/-- A name that is new in its scope is declared. -/
theorem declare_of_new {kind : TagKind} {hoisted : Bool} (known : info.name? = some name)
    (new : s.scopes.getLocal? scope name = none) :
    declare id info kind scope hoisted s =
      ({ info with binding := some (declarationOf id info kind hoisted name) },
        { s with
          scopes := s.scopes.insert scope name (declarationOf id info kind hoisted name)
          decls :=
            if hoisted then s.decls.insert name (declarationOf id info kind hoisted name)
            else s.decls }) := by
  unfold declare
  rw [known]
  dsimp only
  rw [get_bind, Scopes.define, new]
  rfl

/-- A name that is known in its scope is reported. -/
theorem declare_of_old {kind : TagKind} {hoisted : Bool} {existing : Declaration}
    (known : info.name? = some name) (old : s.scopes.getLocal? scope name = some existing) :
    declare id info kind scope hoisted s =
      (info, { s with
        diagnostics := s.diagnostics.push
          (.redeclared info.loc info.origin name existing.loc) }) := by
  unfold declare
  rw [known]
  dsimp only
  rw [get_bind, Scopes.define, old]
  rfl

/-- A declaration enters the name of its tag, if it has one. The name is new in its scope. -/
theorem binds_declaration (id : NodeId) (kind : TagKind) (hoisted : Bool)
    (plain : info.binding = none) :
    Binds base scope before around (declare id info kind scope hoisted)
      fun _ gained bound =>
        gained = (info.name?.map
          fun name => (name, declarationOf id info kind hoisted name)).toList ∧
          bound = { info with binding := info.name?.map (declarationOf id info kind hoisted) } ∧
          ∀ name, info.name? = some name → Table.find before name = none := by
  cases known : info.name? with
  | none =>
    unfold declare
    rw [known]
    refine .pure fun _ => ⟨rfl, ?_, fun _ named => ?_⟩
    · rw [Option.map_none, ← plain]
    · cases named
  | some name =>
    refine ⟨fun s clean => ?_, fun s isBase shows clean => ?_⟩
    · cases old : s.scopes.getLocal? scope name with
      | none =>
        rw [declare_of_new known old] at clean
        exact clean
      | some existing =>
        rw [declare_of_old known old] at clean
        exact absurd clean (Diagnostics.hasErrors_push_ne (Diagnostic.level_redeclared _ _ _ _))
    · cases old : s.scopes.getLocal? scope name with
      | some existing =>
        rw [declare_of_old known old] at clean
        exact absurd clean (Diagnostics.hasErrors_push_ne (Diagnostic.level_redeclared _ _ _ _))
      | none =>
        rw [declare_of_new known old]
        refine ⟨[(name, declarationOf id info kind hoisted name)],
          .define shows.inside old, ⟨fun other => ?_, fun distinct => ?_⟩,
          fun _ _ => ⟨rfl, rfl, fun _ named => ?_⟩⟩
        · cases hoisted with
          | false => simp [declarationOf]
          | true =>
            change other ∈ (s.decls.insert _ _).names ↔ _
            rw [Table.mem_names_insert]
            refine or_congr_right ⟨fun same => ?_, fun ⟨d, member, _⟩ => ?_⟩
            · exact ⟨_, mem_singleton.mpr (Prod.ext same rfl), rfl⟩
            · exact congrArg Prod.fst (mem_singleton.mp member)
        · cases hoisted with
          | false => exact distinct
          | true => exact Table.nodup_names_insert distinct _ _
        · cases named
          exact (shows.entries name).symm.trans old

/-- A use of a name without a report is bound to what the name means. -/
theorem use_of_clean {assigning : Bool} (known : info.name? = some name)
    (clean : (use info scope assigning s).2.diagnostics.hasErrors = false) :
    ∃ d, s.scopes.get? scope name = some d ∧
      use info scope assigning s = ({ info with binding := some d }, s) ∧
      (assigning = true → d.assignable = true) := by
  unfold use at clean ⊢
  rw [known] at clean ⊢
  dsimp only at clean ⊢
  rw [get_bind] at clean ⊢
  cases found : s.scopes.get? scope name with
  | none =>
    rw [found] at clean
    exact absurd clean (Diagnostics.hasErrors_push_ne rfl)
  | some d =>
    rw [found] at clean
    refine ⟨d, rfl, ?_⟩
    dsimp only at clean ⊢
    split at clean
    · exact absurd clean (Diagnostics.hasErrors_push_ne (Diagnostic.level_constantAssigned _ _ _ _))
    · rename_i assignable
      rw [if_neg assignable]
      refine ⟨rfl, fun isAssigned => ?_⟩
      simpa [isAssigned] using assignable

/-- A name that is used has a meaning, to which it is bound. -/
theorem binds_meaning (info : Info) (assigning : Bool) :
    Binds base scope before around (use info scope assigning)
      fun _ gained bound => gained = [] ∧
        ((info.name? = none ∧ bound = info) ∨
          ∃ name d, info.name? = some name ∧ Scopes.meaning (before :: around) base name = some d ∧
            bound = { info with binding := some d } ∧
              (assigning = true → d.assignable = true)) := by
  cases known : info.name? with
  | none =>
    unfold use
    rw [known]
    exact .pure fun _ => ⟨rfl, .inl ⟨rfl, rfl⟩⟩
  | some name =>
    refine ⟨fun s clean => ?_, fun s isBase shows clean => ?_⟩
    · obtain ⟨d, _, run, _⟩ := use_of_clean known clean
      rw [run] at clean
      exact clean
    · obtain ⟨d, found, run, assignable⟩ := use_of_clean known clean
      rw [run]
      rw [shows.get?_eq, isBase] at found
      exact ⟨[], .refl scope s.scopes, .refl s.decls,
        fun _ _ => ⟨rfl, .inr ⟨name, d, rfl, found, rfl, assignable⟩⟩⟩

/-! ## Hosts -/

def Noted (final : Scopes Declaration) (info host : Info) (owned : List Entry) : Prop :=
  ∃ scope table, host = { info with varScope := some scope, decls := some table } ∧
    (∀ name, name ∈ table.names ↔ ∃ d, (name, d) ∈ owned ∧ d.hoisted = true) ∧
    (∀ name, final.getLocal? scope name = Table.find owned name) ∧ table.names.Nodup

/--
A host opens a scope, looks at what stands outside of it, and then at what stands inside. The
scope of the host is left alone from then on.
-/
theorem Binds.opening {γ : Type} {x : Bind α} {y : ScopeId → α → Bind β}
    {k : ScopeId → α → Info × β → Bind γ} {outside : Scopes Declaration → List Entry → α → Prop}
    {inside : α → List Entry → Scopes Declaration → List Entry → β → Prop}
    {result : Scopes Declaration → List Entry → γ → Prop} (noDecls : info.decls = none)
    (first : Binds base scope before around x outside) (second : ∀ inner a gained,
      Binds base inner [] ((before ++ gained) :: around) (y inner a) (inside a gained))
    (third : ∀ inner a gained host b,
      Binds base scope (before ++ gained) around (k inner a (host, b)) fun final more c =>
        outside final gained a →
          (∃ owned, Noted final info host owned ∧ inside a gained final owned b) →
            result final (gained ++ more) c) :
    Binds base scope before around
      (extend scope >>= fun inner => x >>= fun a => inHost info inner (y inner a) >>= k inner a)
      result := by
  refine .of_run fun s clean => ?_
  -- The states: `opened` with the new scope, `entered` before and `left` after the inner part.
  let inner := s.scopes.size
  let opened : Binding := { s with scopes := (s.scopes.extend scope).2 }
  let entered : Binding := { (x opened).2 with decls := info.decls.getD .empty }
  let left : Binding := { (y inner (x opened).1 entered).2 with decls := (x opened).2.decls }
  let host : Info :=
    { info with
      varScope := some inner
      decls := some (y inner (x opened).1 entered).2.decls }
  have cleanLeft :=
    (third inner (x opened).1 [] host (y inner (x opened).1 entered).1).clean left clean
  have cleanEntered := (second inner (x opened).1 []).clean entered cleanLeft
  refine ⟨first.clean opened cleanEntered, fun isBase shows => ?_⟩
  have opens := Scopes.Gains.extend s.scopes scope scope
  have showsOpened : opened.scopes.Shows scope (before :: around) := by
    have same := shows.of_gains opens
    rwa [append_nil] at same
  obtain ⟨gained, gains, gathers, holds⟩ := first.run opened isBase showsOpened cleanEntered
  have showsEntered : entered.scopes.Shows inner ([] :: (before ++ gained) :: around) :=
    shows.extend.of_gains_parent (Scopes.parent_extend s.scopes scope) gains
  obtain ⟨owned, gainsInner, gathersInner, holdsInner⟩ :=
    (second inner (x opened).1 gained).run entered (gains.base.trans isBase) showsEntered cleanLeft
  have gainsLeft : s.scopes.Gains scope left.scopes gained :=
    (opens.trans gains).of_later shows.inside (le_refl _) gainsInner
  obtain ⟨more, gainsMore, gathersMore, holdsMore⟩ :=
    (third inner (x opened).1 gained host (y inner (x opened).1 entered).1).run left
      (gainsLeft.base.trans isBase) (shows.of_gains gainsLeft) clean
  refine ⟨gained ++ more, gainsLeft.trans gainsMore, gathers.trans gathersMore,
    fun final keep => ?_⟩
  have sizes : s.scopes.size < opened.scopes.size := by
    rw [Scopes.size_extend]
    exact Nat.lt_succ_self _
  have keepLeft : Keep s.scopes left.scopes final := keep.of_gains gainsMore shows.inside
  refine holdsMore final (keep.of_size gainsLeft.size) (holds final ?_)
    ⟨owned, ⟨inner, _, rfl, ?_, ?_, gathersInner.distinct ?_⟩,
      holdsInner final (keepLeft.of_size (sizes.le.trans gains.size))⟩
  · exact (keepLeft.of_size sizes.le).of_gains gainsInner sizes
  · intro name
    rw [gathersInner.names name]
    change name ∈ (info.decls.getD Table.empty).names ∨ _ ↔ _
    rw [noDecls]
    exact or_iff_right not_mem_nil
  · intro name
    rw [keepLeft inner (le_refl _) (showsEntered.inside.trans_le gainsInner.size) name,
      gainsInner.here, showsEntered.entries]
    rfl
  · change (info.decls.getD Table.empty).names.Nodup
    rw [noDecls]
    exact nodup_nil

theorem Noted.symbol_eq {final : Scopes Declaration} {host : Info} {owned : List Entry}
    (noted : Noted final info host owned) : (done host).symbol = info.symbol := by
  obtain ⟨scope, table, rfl, _⟩ := noted
  rfl

/-- A host has gathered the hoisted names of its scope, each of them once. -/
structure Collects (final : Scopes Declaration) (info : Info) (owned : List Entry) : Prop
    extends Hosts final info owned where
  distinct : info.declaredNames.Nodup

theorem Noted.collects {final : Scopes Declaration} {host : Info} {owned : List Entry}
    (noted : Noted final info host owned) (unbound : info.binding = none) :
    Collects final (done host) owned := by
  obtain ⟨scope, table, rfl, gathered, registered, distinct⟩ := noted
  exact ⟨⟨unbound, ⟨table, rfl, gathered⟩, ⟨scope, rfl, registered⟩⟩, distinct⟩

theorem plain_done (plain : info.Plain) : (done info).Plain :=
  ⟨plain.decls, plain.varScope, plain.binding⟩

def externalOf (t : Tree) (name : String) : Declaration :=
  { (Declaration.fromOutside name) with tag := some t.id, loc := some t.loc }

/-- A name that needs no declaration is entered in its scope, unless the scope has the name. -/
theorem external_of_name {t : Tree} (isTag : t.isTag = true) (known : t.name? = some name)
    (s : Binding) :
    ∃ scopes, external scope t s =
        (t.withInfo fun info => { (done info) with binding := some (externalOf t name) },
          { s with scopes }) ∧
      (scope < s.scopes.size → s.scopes.Gains scope scopes [(name, externalOf t name)]) := by
  unfold external
  rw [isTag, known]
  dsimp only
  rw [get_bind]
  cases old : s.scopes.getLocal? scope name with
  | none =>
    refine ⟨s.scopes.insert scope name (externalOf t name), ?_, fun inside => .define inside old⟩
    rw [Scopes.define, old]
    rfl
  | some existing =>
    refine ⟨s.scopes, ?_, fun _ => ⟨rfl, le_refl _, fun _ _ => rfl, fun _ _ _ _ => rfl, ?_⟩⟩
    · rw [Scopes.define, old]
      rfl
    · intro other
      by_cases same : name = other
      · subst same
        rw [old, Option.some_or]
      · rw [Table.find, if_neg same, Table.find, Option.or_none]

/-- Only a name can be one that needs no declaration. -/
theorem binds_externalName (t : Tree) :
    Binds base scope before around (external scope t)
      fun _ gained out => ∃ name, t.isTag = true ∧ t.name? = some name ∧
        gained = [(name, externalOf t name)] ∧
        out = t.withInfo fun info => { (done info) with binding := some (externalOf t name) } := by
  by_cases isName : t.isTag = true ∧ ∃ name, t.name? = some name
  · obtain ⟨isTag, name, known⟩ := isName
    refine .of_run fun s clean => ?_
    obtain ⟨scopes, run, gains⟩ := external_of_name isTag known s
    rw [run] at clean ⊢
    refine ⟨clean, fun _ shows => ⟨_, gains shows.inside, ?_, fun _ _ =>
      ⟨name, isTag, known, rfl, rfl⟩⟩⟩
    refine ⟨fun other => (or_iff_left ?_).symm, id⟩
    rintro ⟨d, member, hoisted⟩
    cases mem_singleton.mp member
    cases hoisted
  · unfold external
    split
    case h_1 name isTag known => exact absurd ⟨isTag, name, known⟩ isName
    case h_2 => exact .report _ rfl (.pure _)

/-- A scope that is opened in vain. -/
theorem binds_extend (layer : ScopeId) :
    Binds base scope before around (extend layer) fun _ gained _ => gained = [] :=
  ⟨fun _ clean => clean, fun s _ _ _ =>
    ⟨[], .extend s.scopes scope layer, .refl s.decls, fun _ _ => rfl⟩⟩

/-- A host with nothing to look at outside of its scope. -/
theorem Binds.host {y : ScopeId → Bind β} {k : Info × β → Bind Tree} {build : Info → β → Tree}
    {inside : List Entry → Scopes Declaration → List Entry → β → Prop}
    {result : Scopes Declaration → List Entry → Tree → Prop} (noDecls : info.decls = none)
    (each : ∀ inner outer, Binds base inner [] (outer :: around) (y inner) (inside outer))
    (builds : ∀ host b, k (host, b) = Pure.pure (build host b))
    (conclude : ∀ final host owned b, Noted final info host owned → inside before final owned b →
      result final [] (build host b)) :
    Binds base scope before around (extend scope >>= fun inner => inHost info inner (y inner) >>= k)
      result := by
  have nothing : Binds base scope before around (Pure.pure () : Bind Unit)
      fun _ gained _ => gained = [] := .pure fun _ => rfl
  change Binds base scope before around
    (extend scope >>= fun inner => (Pure.pure () : Bind Unit) >>= fun _ =>
      inHost info inner (y inner) >>= k) _
  refine Binds.opening noDecls nothing (fun inner _ gained => each inner (before ++ gained))
    fun inner _ gained host b => ?_
  rw [builds]
  refine .pure fun final none noted => ?_
  obtain ⟨owned, noted, facts⟩ := noted
  rw [none, append_nil] at facts
  rw [none]
  exact conclude final host owned b noted facts

/-- The root of a unit hosts what is declared outside of all other hosts. -/
theorem Binds.root {children : List Tree} {ds : Diagnostics}
    {property : Scopes Declaration → List Entry → List Tree → Prop} (noDecls : info.decls = none)
    (each : Binds base Scopes.root [] [] (trees .value Scopes.root children) property)
    (clean : (Bind.root (.node id info children)
      ⟨.start base, .empty, ds⟩).2.diagnostics.hasErrors = false) :
    ∃ final host owned parts, (Bind.root (.node id info children) ⟨.start base, .empty, ds⟩).1 =
        .node id (done host) parts ∧
      (Bind.root (.node id info children) ⟨.start base, .empty, ds⟩).2.scopes = final ∧
      Noted final info host owned ∧ property final owned parts := by
  let start : Binding := ⟨.start base, info.decls.getD .empty, ds⟩
  let inner := trees .value Scopes.root children start
  obtain ⟨owned, gains, gathers, holds⟩ := each.run start rfl (Scopes.shows_start base) clean
  have keep : Keep start.scopes inner.2.scopes inner.2.scopes := fun _ _ _ _ => rfl
  refine ⟨inner.2.scopes, { info with varScope := some Scopes.root, decls := some inner.2.decls },
    owned, inner.1, rfl, rfl, ⟨Scopes.root, _, rfl, fun name => ?_, fun name => ?_,
      gathers.distinct ?_⟩, holds inner.2.scopes keep⟩
  · rw [gathers.names name]
    change name ∈ (info.decls.getD Table.empty).names ∨ _ ↔ _
    rw [noDecls]
    exact or_iff_right not_mem_nil
  · rw [gains.here, Scopes.getLocal?_start]
    rfl
  · change (info.decls.getD Table.empty).names.Nodup
    rw [noDecls]
    exact nodup_nil

/-! ## Trees -/

theorem Binds.and_yields {x : Bind α}
    {property : Scopes Declaration → List Entry → α → Prop} {fact : α → Prop}
    (binds : Binds base scope before around x property) (yields : Yields x fact) :
    Binds base scope before around x fun final gained a => property final gained a ∧ fact a := by
  refine ⟨binds.clean, fun s isBase shows clean => ?_⟩
  obtain ⟨gained, gains, gathers, holds⟩ := binds.run s isBase shows clean
  exact ⟨gained, gains, gathers, fun final keep => ⟨holds final keep, yields s⟩⟩

theorem length_trees (place : Place) (scope : ScopeId) (ts : List Tree) :
    Yields (trees place scope ts) (fun bound => bound.length = ts.length) := by
  induction ts with
  | nil => exact .pure rfl
  | cons t ts ih =>
    unfold trees
    refine .after fun first => .bind ih fun rest same => .pure ?_
    rw [length_cons, length_cons, same]

theorem everywhere_skip {t : Tree} (unbound : t.Everywhere Info.Unbound) :
    (skip t).Everywhere Info.Plain := by
  obtain ⟨id, info, children⟩ := t
  rw [Tree.everywhere_node] at unbound
  exact ⟨plain_done unbound.1.toPlain, unbound.2.mono fun _ unbound => unbound.toPlain⟩

theorem everywhereAll_map_skip {ts : List Tree} (unbound : Tree.EverywhereAll Info.Unbound ts) :
    Tree.EverywhereAll Info.Plain (ts.map skip) := by
  rw [Tree.everywhereAll_iff] at unbound ⊢
  intro t member
  obtain ⟨source, known, rfl⟩ := mem_map.mp member
  exact everywhere_skip (unbound source known)

end Bind

end Offside
