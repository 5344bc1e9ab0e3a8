import Offside.Proofs.Combination.Climbing
import Offside.Proofs.Contents.Combination

/-!
# Combination of orderly trees

Combination makes orderly trees of the blocks of a source, and orderly templates of its definitions.
How many templates there are and whether something is reported is known only in the end, so what is
shown of a part of a run is shown under the assumption of what is known behind it.
-/

namespace Offside

open List Offside.Tree

variable {asks : Demands}

/-! ## Clauses on lines of their own -/

namespace Clause

variable {parent : Option Builtin} {t : Tree} {ts : List Tree}

theorem seatedAll_iff : SeatedAll parent ts ↔ ∀ t ∈ ts, Seated parent t := by
  induction ts with
  | nil => simp [SeatedAll]
  | cons t ts ih => simp [SeatedAll, ih]

theorem seated_iff :
    Seated parent t ↔ fault? parent t = none ∧ ∀ c ∈ t.children, Seated t.builtin? c := by
  obtain ⟨id, info, children⟩ := t
  rw [Seated, seatedAll_iff]
  rfl

theorem builtin?_of_isBlockLike (isBlock : t.isBlockLike = true) : t.builtin? = none := by
  rw [Tree.isBlockLike] at isBlock
  rw [Tree.builtin?]
  cases same : t.symbol with
  | builtin op =>
    rw [same] at isBlock
    cases isBlock
  | _ => rfl

/-- A closed block has its clauses in their places wherever it stands. -/
theorem seated_of_closed (isBlock : t.isBlockLike = true) (closed : ClosedBlock t) :
    Seated parent t := by
  have noBuiltin := builtin?_of_isBlockLike isBlock
  rw [seated_iff, noBuiltin]
  exact ⟨by rw [fault?, noBuiltin], seatedAll_iff.mp closed⟩

theorem closed_of_seated (isBlock : t.isBlockLike = true) (seated : Seated parent t) :
    ClosedBlock t := by
  have parts := (seated_iff.mp seated).2
  rw [builtin?_of_isBlockLike isBlock] at parts
  exact seatedAll_iff.mpr parts

theorem size_le_faultsOfAll (parent : Option Builtin) (ts : List Tree) (ds : Diagnostics) :
    ds.size ≤ (faultsOfAll parent ts ds).size := by
  obtain ⟨more, same⟩ := Combine.exists_faultsOfAll parent ts ds
  rw [same, Array.size_append]
  exact Nat.le_add_right _ _

mutual

/-- Where no fault is found, nothing is wrong, if the blocks below are closed. -/
theorem seated_of_faults (quiet : asks.quiet) {parent : Option Builtin} {t : Tree}
    {ds : Diagnostics} (below : ∀ c ∈ t.children, c.Orderly asks)
    (silent : (faults parent t ds).size ≤ ds.size) : Seated parent t := by
  cases t with
  | node id info children =>
    rw [faults] at silent
    cases found : fault? parent (.node id info children) with
    | some d =>
      rw [found] at silent
      have grows := size_le_faultsOfAll info.symbol.builtin? children (ds.push d)
      rw [Array.size_push] at grows
      exact absurd (Nat.le_trans grows silent) (Nat.not_succ_le_self _)
    | none =>
      rw [found] at silent
      rw [Seated]
      exact ⟨found, seatedAll_of_faults quiet below silent⟩

theorem seatedAll_of_faults (quiet : asks.quiet) {parent : Option Builtin} {ts : List Tree}
    {ds : Diagnostics} (all : ∀ t ∈ ts, t.Orderly asks)
    (silent : (faultsOfAll parent ts ds).size ≤ ds.size) : SeatedAll parent ts := by
  cases ts with
  | nil => trivial
  | cons t ts =>
    rw [forall_mem_cons] at all
    rw [faultsOfAll] at silent
    have rest := size_le_faultsOfAll parent ts ds
    rw [SeatedAll]
    split at silent
    case isTrue isBlock =>
      exact ⟨seated_of_closed isBlock (all.1.here.closed isBlock quiet),
        seatedAll_of_faults quiet all.2 silent⟩
    case isFalse =>
      obtain ⟨more, same⟩ := Combine.exists_faults parent t (faultsOfAll parent ts ds)
      have here : (faultsOfAll parent ts ds).size ≤ ds.size := by
        rw [same, Array.size_append] at silent
        exact Nat.le_of_add_right_le silent
      exact ⟨seated_of_faults quiet all.1.below (Nat.le_trans silent rest),
        seatedAll_of_faults quiet all.2 here⟩

end

end Clause

namespace Combine

/-- A statement of a block that has not ended: if it is a block, it need not be closed. -/
structure Stated (asks : Demands) (t : Tree) : Prop where
  regular : t.Regular asks
  below : ∀ c ∈ t.children, c.Orderly asks

end Combine

theorem Tree.Throughout.stated {t : Tree} (orderly : t.Orderly asks) : Combine.Stated asks t :=
  ⟨orderly.here.toRegular, orderly.below⟩

theorem Combine.Stated.orderly {t : Tree} (stated : Stated asks t)
    (closed : t.isBlockLike = true → asks.quiet → Clause.ClosedBlock t) : t.Orderly asks :=
  throughout_iff.mpr ⟨⟨stated.regular, closed⟩, stated.below⟩

namespace Clause

variable {clause t result : Tree} {op : Builtin}

/-- A clause is put into a statement, but not into a block below it. -/
theorem Attached.stated (attached : Attached clause op t result)
    (stated : Combine.Stated asks t) (orderly : clause.Orderly asks)
    (isClause : clause.symbol = .builtin op) : Combine.Stated asks result := by
  induction attached with
  | @here _ info children taken =>
    obtain ⟨regular, below⟩ := stated
    have parts : (children ++ [clause]).map symbol = children.map symbol ++ [.builtin op] := by
      rw [map_append, map_singleton, isClause]
    refine ⟨⟨regular.allowed, ?_, ?_⟩,
      forall_mem_append.mpr ⟨below, forall_mem_singleton.mpr orderly⟩⟩
    · refine { regular.proper with arranges := ?_ }
      exact parts ▸ regular.proper.arranges.append_clause taken
    · exact parts ▸ regular.seats.append_clause taken
  | @deeper _ info front last inner plain inside ih =>
    obtain ⟨regular, below⟩ := stated
    obtain ⟨others, here⟩ := forall_mem_append.mp below
    have whole := ih (forall_mem_singleton.mp here).stated
    have parts : (front ++ [inner]).map symbol = (front ++ [last]).map symbol := by
      rw [map_append, map_append, map_singleton, map_singleton, inside.symbol_eq]
    refine ⟨⟨regular.allowed, ?_, ?_⟩, forall_mem_append.mpr ⟨others, ?_⟩⟩
    · exact { regular.proper with arranges := parts ▸ regular.proper.arranges }
    · exact parts ▸ regular.seats
    · refine forall_mem_singleton.mpr (whole.orderly fun isBlock => ?_)
      rw [isBlockLike, inside.symbol_eq] at isBlock
      cases plain.symm.trans isBlock

end Clause

/-! ## Definitions -/

/-- A fit template with admissible nodes, made of a definition of expressions. -/
structure Template.Orderly (asks : Demands) (template : Template) : Prop
    extends template.Fits (Info.Proper asks.admitted) where
  admissible : template.body.Throughout (Admissible asks)
  defined : ∃ definition remains, Template.define definition = (remains, .ok template) ∧
    definition.IsProper asks.admitted

namespace Template

variable {params : List String}

theorem forall_punchAll {Q : Tree → Prop} {ts results : List Tree} {holes after : Table Nat}
    (each : ∀ t ∈ ts, ∀ holes result after, punch params t holes = .ok (result, after) → Q result)
    (punched : punchAll params ts holes = .ok (results, after)) : ∀ t ∈ results, Q t := by
  induction ts generalizing holes results with
  | nil =>
    cases punched
    exact forall_mem_nil _
  | cons t ts ih =>
    obtain ⟨first, others, middle, here, there, rfl⟩ := punchAll_cons_ok punched
    rw [forall_mem_cons] at each ⊢
    exact ⟨each.1 _ _ _ here, ih each.2 there⟩

theorem admissible_punch {t result : Tree} {holes after : Table Nat}
    (holds : t.Throughout (Admissible asks))
    (punched : punch params t holes = .ok (result, after)) :
    result.Throughout (Admissible asks) := by
  induction t generalizing result holes after with
  | node id info children ih =>
    rcases punch_ok punched with ⟨_, _, _, -, -, -, -, rfl⟩ | ⟨parts, -, inner, rfl⟩
    · exact throughout_iff.mpr ⟨by rintro _ ⟨⟩, forall_mem_nil _⟩
    · refine throughout_iff.mpr ⟨holds.here, ?_⟩
      exact forall_punchAll (fun c member _ _ _ => ih c member (holds.below c member)) inner

/-- What is left of an indented block when its line is taken out. -/
theorem orderly_unwrapLine {t : Tree} (orderly : t.Orderly asks) :
    (∀ remains ∈ (unwrapLine t).1, remains.Orderly asks) ∧ (unwrapLine t).2.Orderly asks := by
  rcases unwrapLine_cases t with ⟨line, isBlock, parts, same⟩ | same
  · rw [same]
    refine ⟨fun remains member => ?_, orderly.below line (by rw [parts]; exact .head _)⟩
    cases member
    obtain ⟨id, info, children⟩ := t
    have here := orderly.here
    exact throughout_iff.mpr ⟨⟨⟨here.allowed,
      { here.proper with arranges := Symbol.arranges_nil _ }, Symbol.seats_nil _⟩,
      fun _ _ => trivial⟩, forall_mem_nil _⟩
  · rw [same]
    exact ⟨by rintro _ ⟨⟩, orderly⟩

/-- A body and the template in it. -/
theorem orderly_unwrap {body template : Tree} {remains : Option Tree} (orderly : body.Orderly asks)
    (unwrapped : unwrap body = .ok (remains, template)) :
    (∀ left ∈ remains, left.Orderly asks) ∧ template.Orderly asks := by
  rcases unwrap_ok unwrapped with ⟨quoted, rest, quotes, parts, rfl, rfl⟩ | same
  · have inner := orderly.below
    rw [parts, forall_mem_cons] at inner
    obtain ⟨emptied, line⟩ := orderly_unwrapLine inner.1
    refine ⟨fun left member => ?_, line⟩
    cases member
    refine orderly.withOperands (Info.symbol_of_is quotes) rfl ?_ fun c inside => ?_
    · rw [parts]
      cases (unwrapLine quoted).1 <;> simp
    · rcases mem_append.mp inside with first | later
      · exact emptied c (Option.mem_toList.mp first)
      · exact inner.2 c later
  · have whole := orderly_unwrapLine orderly
    rw [← same] at whole
    exact whole

/-- A definition and the template in it. -/
theorem orderly_define {definition : Tree} (orderly : definition.Orderly asks)
    (defines : definition.symbol = .builtin .defMacro) :
    (define definition).1.Orderly asks ∧
      ∀ template, (define definition).2 = .ok template → template.Orderly asks := by
  rcases define_cases definition with
    ⟨d, same⟩ |
      ⟨nameNode, paramsNode, body, template, remains, name, params, parts, -, -, unwrapped, same⟩
  · rw [same]
    exact ⟨orderly, by rintro _ ⟨⟩⟩
  · have inner := orderly.below
    rw [parts, forall_mem_cons, forall_mem_cons, forall_mem_cons] at inner
    obtain ⟨first, second, third, -⟩ := inner
    obtain ⟨left, inside⟩ := orderly_unwrap third unwrapped
    refine ⟨?_, fun made isMade => ?_⟩
    · rw [same]
      refine orderly.withOperands defines rfl ?_ ?_
      · rw [parts]
        cases remains <;> simp
      · rw [forall_mem_cons, forall_mem_cons]
        exact ⟨first, second, fun c member => left c (Option.mem_toList.mp member)⟩
    · have defined : define definition = (_, .ok made) := Prod.ext rfl isMade
      rw [same] at isMade
      dsimp only at isMade
      cases punched : punch params template .empty with
      | error d =>
        rw [punched] at isMade
        cases isMade
      | ok result =>
        rw [punched] at isMade
        cases isMade
        obtain ⟨fits, bounded, -⟩ := fits_punch inside.isProper (bounded_empty _) punched
        exact ⟨⟨fits, bounded⟩,
          admissible_punch (inside.mono fun _ here => here.allowed) punched,
          definition, _, defined, orderly.isProper⟩

end Template

/-! ## Runs -/

/-- What a spelling can mean: a keyword stands for a value that is no name. -/
def Symbol.FitsKey (asks : Demands) : Symbol → Prop
  | .keyword literal => literal.name? = none
  | symbol => symbol.isOperator = true →
      symbol.Operates asks.admitted ∧ ∀ m, symbol = .expander m → asks.Allows m

theorem Symbol.FitsKey.operates {symbol : Symbol} (fits : symbol.FitsKey asks)
    (isOperator : symbol.isOperator = true) :
    symbol.Operates asks.admitted ∧ ∀ m, symbol = .expander m → asks.Allows m := by
  cases symbol with
  | keyword literal => cases isOperator
  | _ => exact fits isOperator

namespace Combine

/-- A state from which a run goes on to an end with what is asked. -/
structure Ends (asks : Demands) (s : Combination) : Prop where
  templates : s.templates.size ≤ asks.templates
  reports : asks.quiet → s.diagnostics.size ≤ asks.reports

/-- All templates are orderly, all spellings are fit, and no report is lost. -/
structure Fit (asks : Demands) (s : Combination) : Prop where
  templates : ∀ template ∈ s.templates, template.Orderly asks
  keys : s.keys.All fun _ => Symbol.FitsKey asks
  reports : asks.reports ≤ s.diagnostics.size

/--
What is known of two states of a run that ends with what is asked: if something is given and the
first state is fit, the second one is fit, and something holds.
-/
def Leads (asks : Demands) (s s' : Combination) (given fact : Prop) : Prop :=
  Ends asks s' → Ends asks s ∧ (given → Fit asks s → Fit asks s' ∧ fact)

section Leads

variable {s s₁ s' : Combination} {given next fact more final : Prop}

theorem Leads.refl (holds : given → fact) : Leads asks s s given fact :=
  fun ends => ⟨ends, fun known fit => ⟨fit, holds known⟩⟩

theorem Leads.trans {start : Prop} (first : Leads asks s s₁ start fact)
    (second : Leads asks s₁ s' next more) (early : given → start)
    (link : given → fact → next) (join : given → fact → more → final) :
    Leads asks s s' given final := by
  intro ends
  obtain ⟨between, later⟩ := second ends
  obtain ⟨before, earlier⟩ := first between
  refine ⟨before, fun known begins => ?_⟩
  obtain ⟨middle, holds⟩ := earlier (early known) begins
  obtain ⟨last, behind⟩ := later (link known holds) middle
  exact ⟨last, join known holds behind⟩

theorem Leads.mono (leads : Leads asks s s' next fact) (strengthen : given → next)
    (weaken : given → fact → final) : Leads asks s s' given final :=
  leads.trans (refl id) strengthen (fun _ holds => holds) fun known holds _ => weaken known holds

theorem leads_numbering (s : Combination) (numbering : Numbering) (holds : given → fact) :
    Leads asks s { s with numbering } given fact :=
  fun ends => ⟨⟨ends.templates, ends.reports⟩,
    fun known fit => ⟨⟨fit.templates, fit.keys, fit.reports⟩, holds known⟩⟩

/-- If nothing is to be reported, there are no new reports. -/
theorem leads_reports (s : Combination) (more : Diagnostics)
    (holds : given → (asks.quiet → more = #[]) → fact) :
    Leads asks s { s with diagnostics := s.diagnostics ++ more } given fact := by
  intro ends
  have grows : s.diagnostics.size ≤ (s.diagnostics ++ more).size := by simp
  refine ⟨⟨ends.templates, fun quiet => Nat.le_trans grows (ends.reports quiet)⟩, fun known fit =>
    ⟨⟨fit.templates, fit.keys, Nat.le_trans fit.reports grows⟩, holds known fun quiet => ?_⟩⟩
  have few := Nat.le_trans (ends.reports quiet) fit.reports
  rw [Array.size_append] at few
  exact Array.eq_empty_of_size_eq_zero (by omega)

theorem leads_report (s : Combination) (d : Diagnostic) (holds : given → fact) :
    Leads asks s { s with diagnostics := s.diagnostics.push d } given fact := by
  rw [Array.push_eq_append]
  exact leads_reports s #[d] fun known _ => holds known

end Leads

variable {given : Prop} {α β : Type} {fact : α → Prop}

/-- What is known of all runs of a computation. -/
def Toward (asks : Demands) (given : Prop) (x : Combine α) (fact : α → Prop) : Prop :=
  Runs x fun s a s' => Leads asks s s' given (fact a)

theorem Toward.bind {x : Combine α} {f : α → Combine β} {final : β → Prop}
    (first : Toward asks given x fact) (second : ∀ a, Toward asks (given ∧ fact a) (f a) final) :
    Toward asks given (x >>= f) final :=
  Runs.bind first fun _ a s₁ leads =>
    leads.trans (second a s₁) id (fun known holds => ⟨known, holds⟩) fun _ _ last => last

theorem toward_pure {a : α} (holds : given → fact a) : Toward asks given (pure a) fact :=
  fun _ => .refl holds

theorem toward_supply {x : Supply α} (yields : given → Yields x fact) :
    Toward asks given (supply x) fact :=
  fun s => leads_numbering s _ fun known => yields known s.numbering

theorem toward_any (x : Supply α) : Toward asks given (supply x) fun _ => True :=
  toward_supply fun _ _ => trivial

/-! ### Tokens -/

theorem orderly_pieceItems (loc : Loc) (offset : Nat) {pieces : List (String × Symbol)}
    (known : ∀ piece ∈ pieces, '$' ∉ piece.1.toList ∧ piece.2.Operates asks.admitted ∧
      ∀ m, piece.2 = .expander m → asks.Allows m) :
    Yields (pieceItems loc offset pieces) (Item.AllOrderly asks) := by
  induction pieces generalizing offset with
  | nil => exact .pure (forall_mem_nil _)
  | cons piece rest ih =>
    obtain ⟨text, symbol⟩ := piece
    rw [forall_mem_cons] at known
    obtain ⟨⟨unmarked, operates, allowed⟩, others⟩ := known
    have made (place : Loc) : Yields (new symbol (some (.name text)) place [])
        fun node => Item.Orderly asks ⟨node, .operator symbol⟩ := by
      refine .after fun _ => .pure (Item.orderly_operator ⟨operates, allowed, ?_⟩)
      refine ⟨Info.unbound_new _ _ _, fun name named => ?_⟩
      cases named
      exact .inl (Text.unmarked_of_not_mem unmarked)
    rw [pieceItems]
    refine .bind (made _) fun node orderly => .bind (ih _ others) fun items all => .pure ?_
    exact Item.allOrderly_cons.mpr ⟨orderly, all⟩

theorem Itemed.leads {scope : ScopeId} {id : NodeId} {kind : TokenClass} {value : Value} {loc : Loc}
    {items : List Item} {s s' : Combination}
    (itemed :
      Itemed scope (.node id (.new (.token kind) (some value) loc) []) kind value s items s')
    (fits : kind.Fits value) : Leads asks s s' True (Item.AllOrderly asks items) := by
  have spelled : (Info.new (.token kind) (some value) loc).Spelled asks.admitted :=
    spelled_token fits loc
  cases itemed with
  | keyword named known =>
    refine fun ends => ⟨ends, fun _ fit => ⟨fit, forall_mem_singleton.mpr ?_⟩⟩
    have noName := fit.keys.get? known
    refine Item.orderly_operand (orderly_leaf ?_ (by rintro _ ⟨⟩) rfl)
    refine { spelled with carries := noName, arranges := rfl, spelled := fun name same => ?_ }
    cases noName.symm.trans same
  | operand plain =>
    refine .refl fun _ => forall_mem_singleton.mpr (Item.orderly_operand (orderly_leaf
      { spelled with carries := carries_operand plain fits, arranges := Symbol.arranges_nil _ }
      ?_ ?_))
    all_goals cases kind <;> cases plain
    all_goals first | rfl | rintro _ ⟨⟩
  | operator named known isOperator =>
    subst named
    refine fun ends => ⟨ends, fun _ fit => ⟨fit, forall_mem_singleton.mpr ?_⟩⟩
    obtain ⟨operates, allowed⟩ := (fit.keys.get? known).operates isOperator
    exact Item.orderly_operator ⟨operates, allowed, { spelled with }⟩
  | @pieces text _ named isOperator cuts =>
    subst named isOperator
    intro ends
    refine ⟨⟨ends.templates, ends.reports⟩, fun _ fit => ⟨⟨fit.templates, fit.keys, fit.reports⟩,
      orderly_pieceItems _ _ (fun piece member => ?_) s.numbering⟩⟩
    obtain ⟨known, isOperator⟩ := cuts.known piece member
    refine ⟨fun marked => ?_, (fit.keys.get? known).operates isOperator⟩
    have absent : '$' ∉ text.toList := fits
    rw [← cuts.whole] at absent
    exact absent (mem_flatMap.mpr ⟨piece, member, marked⟩)
  | unknown d => exact leads_report s d fun _ => forall_mem_nil _

/-! ### Items -/

theorem toward_leftovers (fuel : Nat) (items : List Item) :
    Toward asks given (leftovers fuel items) fun _ => True := by
  induction fuel generalizing items given with
  | zero => exact toward_pure fun _ => trivial
  | succ fuel ih =>
    cases items with
    | nil => exact toward_pure fun _ => trivial
    | cons item rest =>
      rw [leftovers]
      have reported (d : Diagnostic) : Toward asks given (report d) fun _ => True :=
        fun s => leads_report s d fun _ => trivial
      refine (reported _).bind fun _ => ?_
      exact (toward_any _).bind fun read => ih read.2

theorem toward_fold (items : List Item) :
    Toward asks (Item.AllOrderly asks items) (fold items) fun result =>
      ∀ t ∈ result, t.Orderly asks := by
  refine (toward_supply Climb.orderly_first).bind fun read => ?_
  exact (toward_leftovers _ _).bind fun _ => toward_pure fun known => known.1.2

theorem Bracketed.leads {loc : Loc} {elements : List Tree} {item : Item} {s s' : Combination}
    (bracketed : Bracketed loc elements s item s') :
    Leads asks s s' (∀ e ∈ elements, e.Orderly asks) (item.Orderly asks) := by
  cases bracketed with
  | single alone =>
    subst alone
    exact .refl fun parts => ⟨parts _ (.head _), by rintro _ ⟨⟩, by rintro ⟨⟩⟩
  | @made op role shape more =>
    have openEnded : op.isOpenEnded = true := by cases shape <;> rfl
    refine (leads_numbering s _ id).trans (leads_reports _ more fun parts _ => ⟨?_, ?_, ?_⟩) id
      (fun parts _ => parts) fun _ _ orderly => orderly
    · exact (orderly_new openEnded loc parts s.numbering).1
    · intro symbol same
      cases shape <;> cases same
    · intro isBlock
      cases shape <;> cases isBlock

/-! ### Statements -/

theorem Added.leads {scope : ScopeId} {statements all : Array Tree} {expr : Tree}
    {s s' : Combination} (added : Added scope statements expr s all s') :
    Leads asks s s' ((∀ t ∈ statements.toList, Stated asks t) ∧ expr.Orderly asks)
      (∀ t ∈ all.toList, Stated asks t) := by
  have pushed {before : Array Tree} {added : Tree} (old : ∀ t ∈ before.toList, Stated asks t)
      (new : Stated asks added) : ∀ t ∈ (before.push added).toList, Stated asks t := by
    rw [Array.toList_push, forall_mem_append, forall_mem_singleton]
    exact ⟨old, new⟩
  cases added with
  | attached isClause ends joins =>
    refine leads_numbering s _ fun known => ?_
    rw [ends, forall_mem_append, forall_mem_singleton] at known
    exact pushed known.1.1 (joins.stated known.1.2 known.2 isClause)
  | unattached d => exact leads_report s d And.left
  | @defined _ template defines made =>
    intro ends
    have size : s.templates.size + 1 ≤ asks.templates := by simpa using ends.templates
    refine ⟨⟨Nat.le_of_succ_le size, ends.reports⟩, fun known fit => ?_⟩
    obtain ⟨orderly, isOrderly⟩ := Template.orderly_define known.2 defines
    rw [made] at orderly isOrderly
    refine ⟨⟨fun other member => ?_, fit.keys.insert scope fun _ => ⟨?_, ?_⟩, fit.reports⟩,
      pushed known.1 orderly.stated⟩
    · rcases Array.mem_push.mp member with earlier | rfl
      · exact fit.templates other earlier
      · exact isOrderly _ rfl
    · rintro _ ⟨⟩
    · rintro _ ⟨⟩
      exact .inr ⟨s.templates.size, size, rfl⟩
  | undefined defines failed =>
    refine leads_report s _ fun known => ?_
    have orderly := (Template.orderly_define known.2 defines).1
    rw [failed] at orderly
    exact pushed known.1 orderly.stated
  | pushed => exact .refl fun known => pushed known.1 known.2.stated

/-- At the end of a block its clauses are looked at. -/
theorem toward_finishBlock (id : NodeId) {kind : BlockKind} (opens : kind.opensScope = true)
    (loc : Loc) (scope : ScopeId) (statements : Array Tree) :
    Toward asks (∀ t ∈ statements.toList, Stated asks t)
      (finishBlock id (.new (.block kind) none loc) scope statements) fun t =>
        t.Orderly asks ∧ t.symbol = .block kind := by
  have looked (statement : Tree) (s : Combination) :
      Leads asks s { s with diagnostics := Clause.faults none statement s.diagnostics }
        (Stated asks statement) (asks.quiet → Clause.Seated none statement) := by
    obtain ⟨more, same⟩ := exists_faults none statement s.diagnostics
    have leads : Leads asks s { s with diagnostics := s.diagnostics ++ more }
        (Stated asks statement) (asks.quiet → Clause.Seated none statement) := by
      refine leads_reports s more fun stated silent quiet => ?_
      rw [silent quiet, Array.append_empty] at same
      exact Clause.seated_of_faults quiet stated.below (Nat.le_of_eq (congrArg Array.size same))
    rwa [← same] at leads
  have each := Runs.forIn (P := fun t s s' => Leads asks s s' (Stated asks t)
      (asks.quiet → Clause.Seated none t))
    (Q := fun ts s s' => Leads asks s s' (∀ t ∈ ts, Stated asks t)
      (asks.quiet → ∀ t ∈ ts, Clause.Seated none t))
    (fun _ => .refl fun _ _ => forall_mem_nil _) fun t rest s s₁ s₂ first later =>
      first.trans later (fun all => all t (.head _)) (fun all _ u member => all u (.tail _ member))
        fun _ here there quiet => forall_mem_cons.mpr ⟨here quiet, there quiet⟩
  rw [finishBlock, ← Array.forIn_toList]
  refine Toward.bind (each statements.toList (fun t u s => ⟨rfl, looked t s⟩) _) fun _ => ?_
  refine toward_pure ?_
  rintro ⟨stated, seated⟩
  refine ⟨throughout_iff.mpr ⟨⟨⟨by rintro _ ⟨⟩, ?_, ?_⟩,
    fun _ quiet => Clause.seatedAll_iff.mpr (seated quiet)⟩, fun c member => ?_⟩, rfl⟩
  · have proper : (Info.new (.block kind) none loc).Proper asks.admitted
        (statements.toList.map symbol) := Info.proper_new opens trivial (by rintro _ ⟨⟩)
    exact { proper with }
  · exact Symbol.seats_of_no_dependents (by rintro _ ⟨⟩) _
  · exact (stated c member).orderly fun isBlock quiet =>
      Clause.closed_of_seated isBlock (seated quiet c member)

/-! ### Blocks -/

def Job.Orderly (asks : Demands) : Job → Prop
  | .lines _ _ made => ∀ t ∈ made.toList, Stated asks t
  | .bracket _ _ made => ∀ t ∈ made.toList, t.Orderly asks
  | .groups _ _ group made => Item.AllOrderly asks group ∧ ∀ t ∈ made.toList, t.Orderly asks
  | .line .. | .items .. => True

def Product.Orderly (asks : Demands) : Product → Prop
  | .statements made => ∀ t ∈ made.toList, Stated asks t
  | .elements made => ∀ t ∈ made.toList, t.Orderly asks
  | .expr made => ∀ t ∈ made, t.Orderly asks
  | .items made => Item.AllOrderly asks made

theorem Combined.leads {job : Job} {product : Product} {s s' : Combination}
    (combined : Combined job s product s') :
    Leads asks s s' (job.Orderly asks) (product.Orderly asks) := by
  have added {elements : Array Tree} {last : Option Tree}
      (before : ∀ t ∈ elements.toList, t.Orderly asks) (orderly : ∀ t ∈ last, t.Orderly asks) :
      ∀ t ∈ (elements ++ last.toArray).toList, t.Orderly asks := by
    rw [Array.toList_append, Option.toList_toArray, forall_mem_append]
    exact ⟨before, fun t member => orderly t (Option.mem_toList.mp member)⟩
  have folded {items : List Item} {made : Option Tree} {s s' : Combination}
      (folds : fold items s = (made, s')) : Leads asks s s' _ _ := (toward_fold items).of_run folds
  induction combined with
  | noLines | noElements => exact .refl id
  | emptyLine _ _ first onward =>
    exact first.trans onward (fun _ => trivial) (fun before _ => before) fun _ _ all => all
  | statement _ added _ first onward =>
    have here := first.trans added.leads (fun _ => trivial)
      (fun before orderly => ⟨before, orderly _ rfl⟩) fun _ _ all => all
    exact here.trans onward id (fun _ all => all) fun _ _ all => all
  | folded _ folds first =>
    exact first.trans (folded folds) id (fun _ all => all) fun _ _ orderly => orderly
  | @tupled _ _ loc elements _ _ _ _ _ made first =>
    have tuple : Toward asks (∀ e ∈ elements.toList, e.Orderly asks)
        (supply (new (.builtin .tuple) none loc elements.toList)) (Tree.Orderly asks) :=
      toward_supply fun parts =>
        (orderly_new rfl loc parts).mono fun _ facts => facts.1
    refine first.trans (tuple.of_run made) (fun _ => ?_) (fun _ all => all) ?_
    · exact ⟨forall_mem_nil _, forall_mem_nil _⟩
    · rintro - - orderly _ ⟨⟩
      exact orderly
  | lastGroup folds =>
    exact (folded folds).mono And.left fun before orderly => added before.2 orderly
  | nextGroup folds _ _ first onward =>
    refine Leads.trans ((folded folds).trans first And.left (fun _ _ => trivial)
      fun before orderly fits => And.intro fits ?_) onward id (fun _ facts => facts)
        fun _ _ all => all
    exact added before.2 orderly
  | part _ _ first onward =>
    refine first.trans onward (fun _ => trivial) (fun before fits => ⟨?_, before.2⟩)
      fun _ _ all => all
    exact forall_mem_append.mpr ⟨before.1, fits⟩
  | element _ folds _ first onward =>
    refine Leads.trans (first.trans (folded folds) (fun _ => trivial) (fun _ fits => fits)
      fun before _ orderly => ?_) onward id (fun _ all => all) fun _ _ all => all
    exact added before orderly
  | noItems => exact .refl fun _ => forall_mem_nil _
  | items _ _ first second =>
    refine first.trans second id (fun _ _ => trivial) fun _ fits more => ?_
    exact forall_mem_append.mpr ⟨fits, more⟩
  | @block _ _ _ _ scope _ _ _ _ s _ _ _ opens plain extended _ finished first =>
    have enters : Leads asks s { s with keys := (s.keys.extend scope).2 } True True := fun ends =>
      ⟨⟨ends.templates, ends.reports⟩, fun _ fit => ⟨⟨fit.templates, fit.keys.extend scope,
        fit.reports⟩, trivial⟩⟩
    cases extended
    refine Leads.trans (enters.trans first id (fun _ _ => forall_mem_nil _) fun _ _ all => all)
      ((toward_finishBlock _ opens _ _ _).of_run finished) id (fun _ all => all) fun _ _ facts => ?_
    refine Item.allOrderly_cons.mpr ⟨⟨facts.1, fun symbol same => ?_, fun _ => ?_⟩,
      forall_mem_nil _⟩
    · rcases plain with rfl | rfl <;> cases same
    · rw [facts.2]
      rfl
  | bracket _ _ made first =>
    refine first.trans made.leads (fun _ => forall_mem_nil _) (fun _ all => all) ?_
    exact fun _ _ orderly => Item.allOrderly_cons.mpr ⟨orderly, forall_mem_nil _⟩
  | token fits itemed => exact itemed.leads fits

/-- A unit becomes an orderly tree. -/
theorem toward_root {t : Tree} (raw : Raw t) (isRoot : t.symbol = .block .root) :
    Toward asks True (root t) (Tree.Orderly asks) := by
  obtain ⟨number, info, parts⟩ := t
  obtain ⟨⟨loc, rfl⟩, inner⟩ := raw.of_block isRoot
  have made : Toward asks True (lines parts Scopes.root #[]) fun all =>
      ∀ t ∈ all.toList, Stated asks t :=
    fun s => (combined_lines inner Scopes.root #[] s).leads.mono
      (fun _ => forall_mem_nil _) fun _ all => all
  refine made.bind fun statements s => ?_
  exact (toward_finishBlock number rfl loc Scopes.root statements s).mono And.right
    fun _ facts => facts.1

end Combine

end Offside
