import Offside.Proofs.Scanning.Pieces

/-!
# Places of tokens

A scan goes through a source from its start to its end, and so do the locations of its tokens, as
long as the source is not too large for locations: every token starts behind the end of the one
before it. A location out of range is reported once, however many there are.
-/

namespace Offside

open List

namespace Loc

variable {source : SourceId} {line column : Nat}

/-- A location is its three fields side by side. -/
theorem toNat_raw (loc : Loc) :
    loc.raw.toNat = (loc.source.val * 65536 + loc.line) * 1024 + loc.column := by
  unfold source Loc.line Loc.column
  dsimp only
  omega

section

variable (low : line ≤ maxLine) (left : column ≤ maxColumn)
include low left

theorem toNat_pack :
    (pack source line column).raw.toNat = (source.val * 65536 + line) * 1024 + column := by
  have known := source.isLt
  unfold maxLine at low
  unfold maxColumn at left
  rw [pack, UInt32.toNat_ofNat']
  apply Nat.mod_eq_of_lt
  omega

theorem source_pack : (pack source line column).source = source := by
  apply Fin.ext
  change (pack source line column).raw.toNat / 67108864 = source.val
  rw [toNat_pack low left]
  unfold maxLine at low
  unfold maxColumn at left
  omega

theorem line_pack : (pack source line column).line = line := by
  unfold Loc.line
  rw [toNat_pack low left]
  unfold maxLine at low
  unfold maxColumn at left
  omega

theorem column_pack : (pack source line column).column = column := by
  unfold Loc.column
  rw [toNat_pack low left]
  unfold maxColumn at left
  omega

end

/-- Locations of a source are ordered by their lines, and those of a line by their columns. -/
theorem raw_lt_raw {first second : Loc} (same : first.source = second.source)
    (before : first.line < second.line ∨
      (first.line = second.line ∧ first.column < second.column)) : first.raw < second.raw := by
  rw [UInt32.lt_iff_toNat_lt, toNat_raw, toNat_raw, same]
  have left : first.column < 1024 := Nat.mod_lt _ (by decide)
  omega

end Loc

/-! ## Stretches of a source -/

/-- Where a token stands and how many characters are marked. -/
def Token.span (token : Token) : Loc × Nat :=
  (token.loc, token.width)

/-- A stretch starts before another one, and if they are on one line it also ends before it. -/
def Loc.Precedes (first second : Loc × Nat) : Prop :=
  first.1.raw < second.1.raw ∧
    (first.1.line = second.1.line → first.1.column + first.2 ≤ second.1.column)

namespace Scan

open Loc (Precedes)

variable {source : SourceId} {line column : Nat} {spans : List (Loc × Nat)}

/-- A stretch of a source that ends at a place or before it. -/
structure EndsBy (source : SourceId) (line column : Nat) (span : Loc × Nat) : Prop where
  source : span.1.source = source
  width : 0 < span.2
  place : span.1.line < line ∨ (span.1.line = line ∧ span.1.column + span.2 ≤ column)

/-- Stretches of a source that follow each other up to a place. -/
structure Placed (source : SourceId) (line column : Nat) (spans : List (Loc × Nat)) : Prop where
  pairwise : spans.Pairwise Precedes
  ends : ∀ span ∈ spans, EndsBy source line column span

namespace Placed

theorem nil : Placed source line column [] := by
  constructor
  · exact .nil
  · exact forall_mem_nil _

/-- Stretches that follow each other up to a place do so up to every later one. -/
theorem later (placed : Placed source line column spans) {line' column' : Nat}
    (le : line < line' ∨ (line = line' ∧ column ≤ column')) :
    Placed source line' column' spans := by
  constructor
  · exact placed.pairwise
  · intro span member
    obtain ⟨isSource, width, place⟩ := placed.ends span member
    exact ⟨isSource, width, by omega⟩

/-- A stretch that starts at the place follows the others. -/
theorem append (placed : Placed source line column spans) (low : line ≤ Loc.maxLine)
    (left : column ≤ Loc.maxColumn) {width : Nat} (positive : 0 < width) :
    Placed source line (column + width) (spans ++ [(Loc.pack source line column, width)]) := by
  constructor
  · apply pairwise_append.mpr
    refine ⟨placed.pairwise, pairwise_singleton _ _, fun span member last isLast => ?_⟩
    rw [mem_singleton.mp isLast]
    obtain ⟨isSource, wide, place⟩ := placed.ends span member
    constructor
    · apply Loc.raw_lt_raw
      · rw [isSource, Loc.source_pack low left]
      · rw [Loc.line_pack low left, Loc.column_pack low left]
        omega
    · rw [Loc.line_pack low left, Loc.column_pack low left]
      omega
  · intro span member
    rcases mem_append.mp member with earlier | isLast
    · exact (placed.later (.inr ⟨rfl, Nat.le_add_right column width⟩)).ends span earlier
    · rw [mem_singleton.mp isLast]
      constructor
      · exact Loc.source_pack low left
      · exact positive
      · rw [Loc.line_pack low left, Loc.column_pack low left]
        exact .inr ⟨rfl, Nat.le_refl _⟩

end Placed

/-! ## Pieces -/

variable {settings : Settings}

theorem le_columnBehind (tabSize : Option Nat) (column : Nat) (c : Char) :
    column ≤ columnBehind tabSize column c := by
  unfold columnBehind
  split
  · exact Nat.le_refl column
  split
  · split
    case h_1 size =>
      rw [Nat.mul_comm]
      exact (Nat.lt_mul_div_succ column (Nat.succ_pos size)).le
    case h_2 => exact Nat.le_succ column
  · exact Nat.le_succ column

/-- A piece ends on a later line than it starts, or as many columns later as it has characters. -/
theorem Place.le_behind (tabSize : Option Nat) (place : Place) (piece : Piece) :
    place.line < (place.behind tabSize piece).line ∨
      place.line = (place.behind tabSize piece).line ∧
        place.column + (if piece.fate.isMargin then 0 else piece.text.length) ≤
          (place.behind tabSize piece).column := by
  obtain ⟨fate, text⟩ := piece
  unfold Place.behind
  dsimp only
  generalize fate.isMargin = isMargin
  induction text generalizing place with
  | nil => exact .inr ⟨rfl, by cases isMargin <;> exact Nat.le_refl _⟩
  | cons c rest ih =>
    have further := ih (place.next tabSize isMargin c)
    rw [foldl_cons]
    revert further
    generalize rest.foldl _ _ = final
    have wide := le_columnBehind tabSize place.column c
    unfold Place.next
    cases isMargin <;> split <;> simp only [length_cons, if_true, Bool.false_eq_true, if_false] <;>
      omega

end Scan

theorem Token.IsLexeme.width {token : Token} {text : List Char} (isLexeme : token.IsLexeme text) :
    0 < token.width ∧ token.width ≤ text.length := by
  obtain ⟨kind, loc, width⟩ := token
  obtain ⟨c, rest, rfl, isToken⟩ := isLexeme
  obtain ⟨-, some, shaped⟩ := Lexeme.cutOff_next c rest
  have positive := length_pos_iff.mpr some
  unfold Scan.tokenOf? at isToken
  split at isToken
  case h_1 =>
    cases isToken
    exact ⟨positive, Nat.le_refl _⟩
  case h_2 content isTripled =>
    cases isToken
    rw [Lexeme.Shaped, isTripled] at shaped
    rw [shaped.1]
    exact ⟨Nat.succ_pos 2, by simp [Lexeme.marks]⟩
  case h_3 =>
    obtain ⟨kind, -, same⟩ := Option.map_eq_some_iff.mp isToken
    cases same
    exact ⟨positive, Nat.le_refl _⟩

namespace Scan

variable {settings : Settings} {line : Nat}

/-- The tokens of pieces follow each other up to the place behind the pieces. -/
theorem Sound.placed {reports : Diagnostics} (calm : Calm reports) {pieces : List Piece}
    (sound : Sound settings reports pieces) :
    Placed settings.source (placeOf settings pieces).line (placeOf settings pieces).column
      ((tokensOf pieces).map Token.span) := by
  induction pieces using List.reverseRecOn with
  | nil => exact .nil
  | append_singleton pieces piece ih =>
    have fits := sound pieces piece [] rfl
    have placed := ih fun front piece' back same =>
      sound front piece' (back ++ [piece]) (by rw [same, append_assoc, cons_append])
    have behind := Place.le_behind settings.tabSize (placeOf settings pieces) piece
    rw [placeOf_snoc, tokensOf_snoc, map_append]
    obtain ⟨fate, text⟩ := piece
    cases fate with
    | token token =>
      obtain ⟨positive, wide⟩ := Token.IsLexeme.width fits.shaped
      obtain ⟨low, left, same⟩ := fits.placed token rfl calm
      change Placed _ _ _ (_ ++ [(token.loc, token.width)])
      rw [same]
      apply (placed.append low left positive).later
      exact behind.imp_right fun here => ⟨here.1, Nat.le_trans (Nat.add_le_add_left wide _) here.2⟩
    | _ =>
      refine (append_nil _).symm ▸ placed.later ?_
      exact behind.imp_right fun here => ⟨here.1, Nat.le_trans (Nat.le_add_right _ _) here.2⟩

/-! ## Lines -/

def Mode.numbers : Mode → List Nat
  | fresh => []
  | inside _ _ line _ => [line]

/-- The lines so far have tokens, and their numbers go up to that of the next line. -/
structure State.Ordered (line : Nat) (state : State) : Prop where
  sorted : (state.lines.toList.map TokenLine.line ++ state.mode.numbers ++ [line]).Pairwise (· < ·)
  filled : ∀ l ∈ state.lines, l.tokens ≠ []

section Ordered

variable {lines : Array TokenLine} {indent first : Nat}

theorem ordered_addLine {tokens : Array Token} {log : Log}
    (sorted : (lines.toList.map TokenLine.line ++ [first] ++ [line]).Pairwise (· < ·))
    (filled : ∀ l ∈ lines, l.tokens ≠ []) :
    State.Ordered line ⟨addLine lines indent first tokens, log, .fresh⟩ := by
  unfold addLine
  split
  case isTrue => exact ⟨sorted.sublist (by simp [Mode.numbers]), filled⟩
  case isFalse some =>
    refine ⟨by simpa [Mode.numbers] using sorted, fun l member => ?_⟩
    rcases Array.mem_push.mp member with earlier | rfl
    · exact filled l earlier
    · simpa using some

theorem ordered_settle {gathered : Gathering}
    (sorted : (lines.toList.map TokenLine.line ++ [first] ++ [line]).Pairwise (· < ·))
    (filled : ∀ l ∈ lines, l.tokens ≠ []) : (settle lines indent first gathered).Ordered line := by
  unfold settle
  split
  · exact ⟨sorted, filled⟩
  · exact ordered_addLine sorted filled

end Ordered

/-- Line numbers that go up to a line go up to the next one. -/
theorem sorted_append_succ {numbers : List Nat} (sorted : (numbers ++ [line]).Pairwise (· < ·)) :
    (numbers ++ [line] ++ [line + 1]).Pairwise (· < ·) := by
  apply pairwise_append.mpr
  refine ⟨sorted, pairwise_singleton _ _, fun number member last isLast => ?_⟩
  rw [mem_singleton.mp isLast]
  rcases mem_append.mp member with earlier | here
  · exact Nat.lt_succ_of_lt ((pairwise_append.mp sorted).2.2 number earlier line mem_cons_self)
  · rw [mem_singleton.mp here]
    exact Nat.lt_succ_self line

theorem State.Ordered.takeLine {state : State} {index : Nat} (ordered : state.Ordered (index + 1))
    (text : List Char) : (takeLine settings state (text, index)).Ordered (index + 2) := by
  obtain ⟨lines, log, mode⟩ := state
  obtain ⟨sorted, filled⟩ := ordered
  have onward := sorted_append_succ sorted
  cases mode with
  | fresh =>
    rw [Mode.numbers, append_nil] at onward
    exact ordered_settle onward filled
  | inside string indent first tokens =>
    have past := onward.sublist ((sublist_append_left _ _).append_right [index + 2])
    unfold Scan.takeLine
    dsimp only
    split
    case h_1 => exact ⟨past, filled⟩
    case h_2 =>
      split
      case isTrue => exact ordered_addLine past filled
      case isFalse => exact ordered_settle past filled

theorem State.Ordered.takeLines (lines : List (List Char)) {state : State} {index : Nat}
    (ordered : state.Ordered (index + 1)) :
    ((lines.zipIdx index).foldl (Scan.takeLine settings) state).Ordered
      (index + lines.length + 1) := by
  induction lines generalizing state index with
  | nil => exact ordered
  | cons text lines ih =>
    rw [length_cons, Nat.add_comm lines.length, ← Nat.add_assoc]
    exact ih (ordered.takeLine text)

theorem State.Ordered.finish {state : State} (ordered : state.Ordered line) :
    state.finish.Ordered line := by
  obtain ⟨lines, log, mode⟩ := state
  cases mode with
  | fresh => exact ordered
  | inside => exact ordered_addLine ordered.sorted ordered.filled

end Scan

end Offside
