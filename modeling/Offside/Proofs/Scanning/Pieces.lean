import Mathlib.Data.List.Induction
import Mathlib.Data.List.TakeWhile
import Offside.Token.Scan

/-!
# Pieces of a source

A scan goes through a source from its start to its end and cuts it into pieces: the margins of
lines, blanks, comments, remarks, tokens, and what is reported. The pieces, put together, are the
source, and the tokens among them are those of the scan. What the scan says about a token comes from
its piece and from the pieces before it.
-/

namespace Offside

open List

/-! ## Lexemes -/

namespace Text

/-- A letter or an underscore with letters, numerals and underscores behind it. -/
def IsWord (text : List Char) : Prop :=
  text.head?.any isWordStart = true ∧ ∀ c ∈ text, isWordPart c = true

theorem isWordPart_of_isWordStart {c : Char} (starts : isWordStart c = true) :
    isWordPart c = true := by
  rw [isWordStart] at starts
  rw [isWordPart, starts, Bool.true_or]

/-- A start of a word and the parts behind it are a word. -/
theorem isWord_cons {c : Char} (starts : isWordStart c = true) (rest : List Char) :
    IsWord (c :: rest.takeWhile isWordPart) :=
  ⟨starts, forall_mem_cons.mpr
    ⟨isWordPart_of_isWordStart starts, fun _ => mem_takeWhile_imp⟩⟩

end Text

namespace Lexeme

/-- The quotes on either side of a text over several lines. -/
def marks : List Char :=
  ['"', '"', '"']

variable {content behind : List Char}

theorem upToTriple_some {text : List Char} (found : upToTriple text = some (content, behind)) :
    text = content ++ marks ++ behind ∧ upToTriple (content ++ marks) = some (content, []) := by
  induction text generalizing content with
  | nil => cases found
  | cons c rest ih =>
    rw [upToTriple] at found
    split at found
    case isTrue marked =>
      cases found
      obtain ⟨rfl, two⟩ := by simpa using marked
      refine ⟨?_, rfl⟩
      rw [nil_append, marks, cons_append, ← two, take_append_drop]
    case isFalse other =>
      obtain ⟨⟨inner, _⟩, inside, same⟩ := Option.map_eq_some_iff.mp found
      cases same
      obtain ⟨rfl, ends⟩ := ih inside
      refine ⟨rfl, ?_⟩
      rw [take_append_of_le_length (by simp [marks])] at other
      rw [cons_append, upToTriple, if_neg other, ends]
      rfl

/-- No three quotes stand on two lines. -/
theorem upToTriple_break {text : List Char} (none : upToTriple text = none) (line : List Char) :
    upToTriple (text ++ '\n' :: line) =
      (upToTriple line).map fun found => (text ++ '\n' :: found.1, found.2) := by
  induction text with
  | nil => rw [nil_append, upToTriple, if_neg (by simp)]; rfl
  | cons c rest ih =>
    rw [upToTriple] at none
    split at none
    case isTrue => cases none
    case isFalse other =>
      have further : ¬ (c = '"' && (rest ++ '\n' :: line).take 2 = ['"', '"']) = true := by
        rcases rest with _ | ⟨d, _ | ⟨e, rest⟩⟩
        · simp
        · simp
        · simpa using other
      rw [cons_append, upToTriple, if_neg further, ih (Option.map_eq_none_iff.mp none),
        Option.map_map]
      rfl

theorem upToQuote_some {quote : Char} {text : List Char}
    (found : upToQuote quote text = some (content, behind)) :
    text = content ++ quote :: behind := by
  fun_induction upToQuote quote text generalizing content
  case case1 | case2 | case5 => cases found
  case case4 =>
    cases found
    rfl
  case case3 ih | case6 ih =>
    obtain ⟨⟨inner, _⟩, inside, same⟩ := Option.map_eq_some_iff.mp found
    cases same
    rw [ih inside]
    rfl

/-- What is known of a lexeme and of what is left behind it, by its kind. -/
def Shaped (lexeme : Lexeme) (behind : List Char) : Prop :=
  match lexeme.kind with
  | .blank => ∀ c ∈ lexeme.text, isSpace c = true
  | .comment => lexeme.text.head? = some ';'
  | .word => Text.IsWord lexeme.text
  | .virtualWord => Text.IsWord lexeme.text.tail
  | .operator | .hashWord => '$' ∉ lexeme.text
  | .openBracket => ∀ c ∈ lexeme.text, c = '(' ∨ c = '[' ∨ c = '\x7b'
  | .tripled content => lexeme.text = marks ++ content ++ marks ∧
      upToTriple (content ++ marks) = some (content, [])
  | .tripleOpen content =>
    lexeme.text = marks ++ content ∧ upToTriple content = none ∧ behind = []
  | _ => True

/-- A lexeme that starts a stretch, and what is left. -/
structure CutOff (c : Char) (rest : List Char) (cut : Lexeme × List Char) : Prop where
  whole : cut.1.text ++ cut.2 = c :: rest
  some : cut.1.text ≠ []
  shaped : cut.1.Shaped cut.2

variable {c : Char} {rest : List Char}

theorem cutOff_run {kind : LexemeKind} {p : Char → Bool}
    (shaped : Shaped ⟨kind, c :: rest.takeWhile p⟩ (rest.dropWhile p)) :
    CutOff c rest (run kind c p rest) :=
  ⟨congrArg (c :: ·) takeWhile_append_dropWhile, cons_ne_nil _ _, shaped⟩

/-- A run of characters other than the dollar sign. -/
theorem not_mem_run {p : Char → Bool} (first : c ≠ '$') (others : p '$' = false) :
    '$' ∉ c :: rest.takeWhile p := by
  refine not_mem_cons_of_ne_of_not_mem first.symm fun member => ?_
  exact absurd (mem_takeWhile_imp member) (by simp [others])

theorem shaped_virtualWord (c : Char) (starts : rest.head?.any Text.isWordStart = true)
    (behind : List Char) : Shaped ⟨.virtualWord, c :: rest.takeWhile Text.isWordPart⟩ behind := by
  cases rest with
  | nil => cases starts
  | cons d rest =>
    change Text.IsWord ((d :: rest).takeWhile Text.isWordPart)
    rw [takeWhile_cons_of_pos (Text.isWordPart_of_isWordStart starts)]
    exact Text.isWord_cons starts rest

theorem cutOff_word (starts : Text.isWordStart c = true) : CutOff c rest (word c rest) := by
  refine ⟨congrArg (c :: ·) takeWhile_append_dropWhile, cons_ne_nil _ _, ?_⟩
  change Shaped ⟨wordKind _ _, _⟩ _
  rw [wordKind]
  split
  · trivial
  · exact Text.isWord_cons starts rest

theorem fraction_append (rest : List Char) :
    (if (fraction rest).1.isEmpty then [] else ['.']) ++ (fraction rest).1 ++ (fraction rest).2 =
      rest := by
  unfold fraction
  split
  case h_1 after =>
    dsimp only
    split
    case isTrue => rfl
    case isFalse => exact congrArg ('.' :: ·) takeWhile_append_dropWhile
  case h_2 => rfl

theorem sign_append (rest : List Char) : (sign rest).1 ++ (sign rest).2 = rest := by
  unfold sign
  split <;> rfl

theorem exponent_append (rest : List Char) : (exponent rest).2.1 ++ (exponent rest).2.2 = rest := by
  unfold exponent
  split
  case h_1 c after =>
    dsimp only
    split
    case isTrue =>
      rw [cons_append, cons_append, append_assoc, takeWhile_append_dropWhile,
        sign_append]
    case isFalse => rfl
  case h_2 => rfl

theorem cutOff_numeral (c : Char) (rest : List Char) : CutOff c rest (numeral c rest) := by
  refine ⟨?_, by simp [numeral], trivial⟩
  have places := fraction_append (rest.dropWhile Char.isDigit)
  unfold numeral
  dsimp only
  rw [append_assoc, exponent_append, append_assoc, append_assoc, ← append_assoc _ _ (fraction _).2,
    places, cons_append, takeWhile_append_dropWhile]

theorem cutOff_triple (two : rest.take 2 = ['"', '"']) : CutOff '"' rest (triple rest) := by
  have whole : marks ++ rest.drop 2 = '"' :: rest := by
    rw [marks, cons_append, ← two, take_append_drop]
  unfold triple
  dsimp only
  split
  case h_1 content behind found =>
    obtain ⟨same, ends⟩ := upToTriple_some found
    refine ⟨?_, cons_ne_nil _ _, rfl, ends⟩
    rw [← whole, same, ← append_assoc, ← append_assoc]
    rfl
  case h_2 none =>
    refine ⟨?_, cons_ne_nil _ _, rfl, none, rfl⟩
    rw [append_nil]
    exact whole

theorem cutOff_string (c : Char) (rest : List Char) : CutOff c rest (string c rest) := by
  unfold string
  split
  case h_1 found =>
    refine ⟨?_, cons_ne_nil _ _, trivial⟩
    rw [upToQuote_some found, append_assoc, cons_append, singleton_append]
  case h_2 => exact ⟨append_nil _, cons_ne_nil _ _, trivial⟩

theorem cutOff_ite {p : Prop} [Decidable p] {first second : Lexeme × List Char}
    (yes : p → CutOff c rest first) (no : CutOff c rest second) :
    CutOff c rest (if p then first else second) := by
  split
  case isTrue holds => exact yes holds
  case isFalse => exact no

theorem cutOff_next (c : Char) (rest : List Char) : CutOff c rest (next c rest) := by
  have single {kind : LexemeKind} (shaped : Shaped ⟨kind, [c]⟩ rest) :
      CutOff c rest (⟨kind, [c]⟩, rest) := ⟨rfl, cons_ne_nil _ _, shaped⟩
  refine cutOff_ite (fun isBlank => cutOff_run ?_) ?_
  · refine forall_mem_cons.mpr ⟨isBlank, fun d member => ?_⟩
    exact mem_takeWhile_imp member
  refine cutOff_ite (fun isComment => cutOff_run (congrArg some isComment)) ?_
  refine cutOff_ite cutOff_word ?_
  refine cutOff_ite (fun marked => cutOff_run ?_) ?_
  · exact shaped_virtualWord c (Bool.and_eq_true_iff.mp marked).2 _
  refine cutOff_ite (fun hash => cutOff_run (not_mem_run ?_ (by decide +kernel))) ?_
  · rw [of_decide_eq_true (Bool.and_eq_true_iff.mp hash).1]
    decide
  refine cutOff_ite (fun _ => cutOff_numeral c rest) ?_
  refine cutOff_ite (fun operates => cutOff_run (not_mem_run ?_ (by decide))) ?_
  · rintro rfl
    exact absurd operates (by decide)
  refine cutOff_ite (fun marked => ?_) ?_
  · obtain ⟨rfl, two⟩ := by simpa using marked
    exact cutOff_triple two
  refine cutOff_ite (fun _ => cutOff_string c rest) ?_
  refine cutOff_ite (fun isBracket => single (forall_mem_singleton.mpr ?_)) ?_
  · simpa [or_assoc] using isBracket
  refine cutOff_ite (fun _ => single trivial) ?_
  exact cutOff_ite (fun _ => single trivial) (single trivial)

theorem length_next_le (c : Char) (rest : List Char) : (next c rest).2.length ≤ rest.length := by
  obtain ⟨whole, some, -⟩ := cutOff_next c rest
  have sum := congrArg List.length whole
  have positive := length_pos_iff.mpr some
  rw [length_append, length_cons] at sum
  omega

theorem next_tripled (ends : upToTriple (content ++ marks) = some (content, [])) :
    (next '"' ('"' :: '"' :: (content ++ marks))).1 =
      ⟨.tripled content, marks ++ content ++ marks⟩ := by
  have isTriple :
    next '"' ('"' :: '"' :: (content ++ marks)) = triple ('"' :: '"' :: (content ++ marks)) :=
    rfl
  rw [isTriple, triple, drop_succ_cons, drop_succ_cons, drop_zero, ends]
  rfl

theorem splitWithin_cons (count : Nat) (c : Char) (rest : List Char) :
    splitWithin (count + 1) (c :: rest) = (next c rest).1 :: splitWithin count (next c rest).2 :=
  rfl

theorem splitWithin_nil (count : Nat) : splitWithin count [] = [] := by
  cases count <;> rfl

end Lexeme

namespace Scan

variable {settings : Settings} {line column : Nat}

/-! ## Logs -/

/-- There is one report of a location out of range if there was such a location, and else none. -/
def Log.Counted (log : Log) : Prop :=
  log.diagnostics.countP (·.code = .locationOutOfRange) = log.overflowed.toNat

/-- No location out of range is reported. -/
def Calm (reports : Diagnostics) : Prop :=
  ∀ d ∈ reports, d.code ≠ .locationOutOfRange

theorem Log.Counted.calm {log : Log} (counted : log.Counted) (calm : Calm log.diagnostics) :
    log.overflowed = false := by
  refine Bool.toNat_eq_zero.mp (counted.symm.trans ?_)
  exact Array.countP_eq_zero.mpr fun d member => by simpa using calm d member

/-- What a log has after some steps of a scan. -/
structure Log.Grows (log later : Log) : Prop where
  subset : ∀ d ∈ log.diagnostics, d ∈ later.diagnostics
  counted : log.Counted → later.Counted

theorem Log.Grows.refl (log : Log) : log.Grows log :=
  ⟨fun _ => id, id⟩

theorem Log.Grows.trans {first second third : Log} (before : first.Grows second)
    (after : second.Grows third) : first.Grows third :=
  ⟨fun d member => after.subset d (before.subset d member), after.counted ∘ before.counted⟩

theorem Log.grows_report (log : Log) {d : Diagnostic} (other : d.code ≠ .locationOutOfRange) :
    log.Grows (log.report d) := by
  refine ⟨fun _ => Array.mem_push_of_mem d, fun counted => ?_⟩
  unfold Counted report
  rw [Array.countP_push, if_neg (by simpa using other)]
  exact counted

theorem Log.grows_reports (log : Log) {ds : List Diagnostic}
    (other : ∀ d ∈ ds, d.code ≠ .locationOutOfRange) : log.Grows (ds.foldl report log) := by
  induction ds generalizing log with
  | nil => exact .refl log
  | cons d ds ih =>
    apply (log.grows_report (other d mem_cons_self)).trans
    exact ih (log.report d) fun d member => other d (.tail _ member)

theorem Log.grows_locate (log : Log) (settings : Settings) (line column : Nat) :
    log.Grows (log.locate settings line column).2 := by
  unfold locate
  split
  · exact .refl log
  · dsimp only
    split
    case isTrue => exact .refl log
    case isFalse first =>
      refine ⟨fun _ => Array.mem_push_of_mem _, fun counted => ?_⟩
      have none : log.diagnostics.countP (·.code = .locationOutOfRange) = 0 := by
        rw [counted, (Bool.not_eq_true _).mp first]
        rfl
      unfold Counted report
      rw [Array.countP_push, none, if_pos (by rfl)]
      rfl

/-! ## Pieces -/

/-- What becomes of a piece of a source. -/
inductive Fate where
  /-- The break before a line, and the indentation of the line. -/
  | margin
  | blank
  | comment
  /-- A remark, and what stands behind it on its last line. -/
  | remark (behind : List Char)
  | token (token : Token)
  /-- Something that is reported. -/
  | fault

structure Piece where
  fate : Fate
  text : List Char

def textOf (pieces : List Piece) : List Char :=
  pieces.flatMap Piece.text

def Piece.token? (piece : Piece) : Option Token :=
  match piece.fate with
  | .token token => some token
  | _ => none

def tokensOf (pieces : List Piece) : List Token :=
  pieces.filterMap Piece.token?

/-- A line, a column as the scan measures it, and the number of characters before it on the line. -/
structure Place where
  line : Nat
  column : Nat
  chars : Nat

/-- The column behind a character of an indentation. -/
def columnBehind (tabSize : Option Nat) (column : Nat) (c : Char) : Nat :=
  if c = '\r' then column
  else if c = '\t' then
    match tabSize with
    | some (size + 1) => (column / (size + 1) + 1) * (size + 1)
    | _ => column + 1
  else column + 1

def Fate.isMargin : Fate → Bool
  | .margin => true
  | _ => false

/-- The place behind a character, in a margin or elsewhere. -/
def Place.next (tabSize : Option Nat) (isMargin : Bool) (place : Place) (c : Char) : Place :=
  if c = '\n' then ⟨place.line + 1, 0, 0⟩
  else if isMargin then ⟨place.line, columnBehind tabSize place.column c, place.chars + 1⟩
  else ⟨place.line, place.column + 1, place.chars + 1⟩

/-- The place behind a piece that starts at a place. -/
def Place.behind (tabSize : Option Nat) (place : Place) (piece : Piece) : Place :=
  piece.text.foldl (Place.next tabSize piece.fate.isMargin) place

/-- The place behind some pieces with which a source starts. -/
def placeOf (settings : Settings) (pieces : List Piece) : Place :=
  pieces.foldl (Place.behind settings.tabSize) ⟨1, 0, 0⟩

/-- The token that a lexeme is, and how many of its characters are marked. -/
def tokenOf? (lexeme : Lexeme) : Option (TokenKind × Nat) :=
  match lexeme.kind with
  | .quoted content => some (.str (Escape.text content), lexeme.text.length)
  | .tripled content => some (.str (String.ofList content), 3)
  | _ => (plainToken? lexeme).map (·, lexeme.text.length)

end Scan

/-- A token is the lexeme with some characters. -/
def Token.IsLexeme (token : Token) (text : List Char) : Prop :=
  ∃ c rest, (Lexeme.next c rest).1.text = text ∧
    Scan.tokenOf? (Lexeme.next c rest).1 = some (token.kind, token.width)

namespace Scan

/-- What a piece behind other pieces consists of. -/
def Piece.Shaped (settings : Settings) (front : List Piece) (piece : Piece) : Prop :=
  match piece.fate with
  | .margin => ∃ spaces, (∀ c ∈ spaces, c ∈ [' ', '\t', '\r']) ∧
      (piece.text = '\n' :: spaces ∨ front = [] ∧ piece.text = spaces)
  | .blank => ∀ c ∈ piece.text, Lexeme.isSpace c = true
  | .comment => piece.text.head? = some ';' ∧ '\n' ∉ piece.text
  | .remark behind => (placeOf settings front).column = 0 ∧ ∃ content,
      piece.text = Lexeme.marks ++ content ++ Lexeme.marks ++ behind ∧
        Lexeme.upToTriple (content ++ Lexeme.marks) = some (content, []) ∧
        '\n' ∉ behind ∧ (behind = [] ∨ '\n' ∈ content)
  | .token token => token.IsLexeme piece.text
  | .fault => True

/-- A location that stands for a place. -/
structure Place.IsAt (settings : Settings) (place : Place) (loc : Loc) : Prop where
  low : place.line ≤ Loc.maxLine
  left : place.column ≤ Loc.maxColumn
  same : loc = Loc.pack settings.source place.line place.column

/-- A piece behind other pieces, in a source with some reports. -/
structure Piece.Fits (settings : Settings) (reports : Diagnostics) (front : List Piece)
    (piece : Piece) : Prop where
  shaped : piece.Shaped settings front
  placed : ∀ token, piece.fate = .token token → Calm reports →
    (placeOf settings front).IsAt settings token.loc
  reported : piece.fate = .fault → reports ≠ #[]

/-- A piece that is neither a token nor a fault. -/
theorem Piece.fits_plain {reports : Diagnostics} {front : List Piece} {piece : Piece}
    (shaped : piece.Shaped settings front) (noToken : piece.token? = none)
    (noFault : piece.fate ≠ .fault) : piece.Fits settings reports front := by
  refine ⟨shaped, fun token isToken => ?_, fun isFault => absurd isFault noFault⟩
  rw [Piece.token?, isToken] at noToken
  cases noToken

/-- Every piece fits behind those before it. -/
def Sound (settings : Settings) (reports : Diagnostics) (pieces : List Piece) : Prop :=
  ∀ front piece back, pieces = front ++ piece :: back → piece.Fits settings reports front

variable {reports : Diagnostics} {pieces : List Piece} {piece : Piece} {log later : Log}

theorem sound_nil : Sound settings reports [] := by
  intro front piece back same
  cases append_ne_nil_of_right_ne_nil front (cons_ne_nil piece back) same.symm

theorem Sound.snoc (sound : Sound settings reports pieces)
    (fits : piece.Fits settings reports pieces) : Sound settings reports (pieces ++ [piece]) := by
  intro front other back same
  rcases eq_nil_or_concat back with rfl | ⟨init, last, rfl⟩
  · obtain ⟨rfl, rfl⟩ := append_singleton_inj.mp same
    exact fits
  · rw [concat_eq_append, ← cons_append, ← append_assoc] at same
    exact sound front other init (append_singleton_inj.mp same).1

/-- What is sound stays sound when more is reported. -/
theorem Sound.grows (sound : Sound settings log.diagnostics pieces) (grows : log.Grows later) :
    Sound settings later.diagnostics pieces := by
  intro front piece back same
  obtain ⟨shaped, placed, reported⟩ := sound front piece back same
  refine ⟨shaped, fun token isToken calm => ?_, fun isFault none => ?_⟩
  · exact placed token isToken fun d member => calm d (grows.subset d member)
  · refine reported isFault (Array.eq_empty_iff_forall_not_mem.mpr fun d member => ?_)
    have inside := grows.subset d member
    rw [none] at inside
    exact Array.not_mem_empty d inside

/-- The tokens of sound pieces are lexemes. -/
theorem Sound.isLexeme (sound : Sound settings reports pieces) {token : Token}
    (listed : token ∈ tokensOf pieces) : ∃ text, token.IsLexeme text := by
  obtain ⟨⟨fate, text⟩, member, isToken⟩ := mem_filterMap.mp listed
  obtain ⟨front, back, same⟩ := append_of_mem member
  have shaped := (sound front ⟨fate, text⟩ back same).shaped
  cases fate with
  | token other =>
    cases isToken
    exact ⟨text, shaped⟩
  | _ => cases isToken

theorem placeOf_snoc (pieces : List Piece) (piece : Piece) :
    placeOf settings (pieces ++ [piece]) =
      (placeOf settings pieces).behind settings.tabSize piece := by
  rw [placeOf, foldl_append]
  rfl

theorem textOf_snoc (pieces : List Piece) (piece : Piece) :
    textOf (pieces ++ [piece]) = textOf pieces ++ piece.text := by
  rw [textOf, flatMap_append, flatMap_singleton]
  rfl

theorem tokensOf_snoc (pieces : List Piece) (piece : Piece) :
    tokensOf (pieces ++ [piece]) = tokensOf pieces ++ piece.token?.toList := by
  rw [tokensOf, filterMap_append, filterMap_cons]
  cases piece.token? <;> rfl

/-- Every break begins a line. -/
theorem line_placeOf (pieces : List Piece) :
    (placeOf settings pieces).line = (textOf pieces).count '\n' + 1 := by
  have run (isMargin : Bool) (text : List Char) (place : Place) :
      (text.foldl (Place.next settings.tabSize isMargin) place).line =
        text.count '\n' + place.line := by
    induction text generalizing place with
    | nil => exact (Nat.zero_add _).symm
    | cons c rest ih =>
      rw [foldl_cons, ih, count_cons, Place.next]
      by_cases isBreak : c = '\n'
      · simp [isBreak, Nat.add_assoc, Nat.add_comm 1]
      · cases isMargin <;> simp [isBreak]
  induction pieces using List.reverseRecOn with
  | nil => rfl
  | append_singleton pieces piece ih =>
    rw [placeOf_snoc, Place.behind, run, ih, textOf_snoc, count_append]
    omega

section Unbroken

variable {tabSize : Option Nat} {text : List Char}

theorem foldl_next_unbroken (unbroken : '\n' ∉ text) (place : Place) :
    text.foldl (Place.next tabSize false) place =
      ⟨place.line, place.column + text.length, place.chars + text.length⟩ := by
  induction text generalizing place with
  | nil => rfl
  | cons c rest ih =>
    rw [mem_cons, not_or] at unbroken
    rw [foldl_cons, Place.next, if_neg (Ne.symm unbroken.1), if_neg Bool.false_ne_true,
      ih unbroken.2, length_cons, Nat.add_comm rest.length, Nat.add_assoc, Nat.add_assoc]

theorem foldl_next_margin (unbroken : '\n' ∉ text) (place : Place) :
    text.foldl (Place.next tabSize true) place =
      ⟨place.line, text.foldl (columnBehind tabSize) place.column, place.chars + text.length⟩ := by
  induction text generalizing place with
  | nil => rfl
  | cons c rest ih =>
    rw [mem_cons, not_or] at unbroken
    rw [foldl_cons, Place.next, if_neg (Ne.symm unbroken.1), ih unbroken.2, length_cons,
      Nat.add_comm rest.length, ← Nat.add_assoc]
    rfl

theorem foldl_next_broken {front : List Char} (unbroken : '\n' ∉ text) (place : Place) :
    ((front ++ '\n' :: text).foldl (Place.next tabSize false) place).column = text.length := by
  rw [foldl_append, foldl_cons, Place.next, if_pos rfl, foldl_next_unbroken unbroken,
    Nat.zero_add]

end Unbroken

/-- Behind a piece on one line that is no margin. -/
theorem behind_of_unbroken {tabSize : Option Nat} {place : Place}
    (noMargin : piece.fate.isMargin = false) (unbroken : '\n' ∉ piece.text) :
    place.behind tabSize piece =
      ⟨place.line, place.column + piece.text.length, place.chars + piece.text.length⟩ := by
  rw [Place.behind, noMargin, foldl_next_unbroken unbroken]

/-! ## Lines -/

/-- A string that goes on behind some pieces, with the characters that are known of it. -/
structure OpenTriple.Opens (settings : Settings) (log : Log) (pieces : List Piece)
    (string : OpenTriple) (content : List Char) : Prop where
  content_eq : string.content = String.ofList content
  unfinished : Lexeme.upToTriple content = none
  first : string.remark = true → (placeOf settings pieces).column = 0
  placed : Calm log.diagnostics → (placeOf settings pieces).IsAt settings string.loc

/-- What is left behind some pieces: nothing, or a string that goes on. -/
def Leaves (settings : Settings) (log : Log) (pieces : List Piece) :
    Option OpenTriple → List Char → Prop
  | none, rest => rest = []
  | some string, rest =>
    ∃ content, rest = Lexeme.marks ++ content ∧ string.Opens settings log pieces content

/-- A text has been scanned, with some tokens and with what is left open. -/
structure Covers (settings : Settings) (pieces : List Piece) (rest text : List Char)
    (tokens : List Token) (log : Log) (pending : Option OpenTriple) : Prop where
  counted : log.Counted
  whole : textOf pieces ++ rest = text
  tokens : tokensOf pieces = tokens
  sound : Sound settings log.diagnostics pieces
  leaves : Leaves settings log pieces pending rest

def Covered (settings : Settings) (text : List Char) (tokens : List Token) (log : Log)
    (pending : Option OpenTriple) : Prop :=
  ∃ pieces rest, Covers settings pieces rest text tokens log pending

/-- What a lexeme makes of a line without a string that goes on. -/
inductive Takes (settings : Settings) (line column : Nat) (state : Gathering) (lexeme : Lexeme) :
    Gathering → Prop
  | passed (isPassed : lexeme.kind = .blank ∨ lexeme.kind = .comment) :
      Takes settings line column state lexeme state
  | remark {content} (isTripled : lexeme.kind = .tripled content) (first : column = 0) (log : Log)
      (grows : state.log.Grows log) : Takes settings line column state lexeme { state with log }
  | token (log : Log) (grows : (state.log.locate settings line column).2.Grows log) {kind width}
      (isToken : tokenOf? lexeme = some (kind, width)) : Takes settings line column state lexeme
        ({ state with log }.push ⟨kind, (state.log.locate settings line column).1, width⟩)
  | string {content} (isOpen : lexeme.kind = .tripleOpen content) (remark : Bool)
      (first : remark = true → column = 0) : Takes settings line column state lexeme
        { state with
          log := (state.log.locate settings line column).2
          pending :=
            some ⟨(state.log.locate settings line column).1, String.ofList content, remark⟩ }
  | fault (log : Log) (grows : state.log.Grows log) (reported : log.diagnostics ≠ #[]) :
      Takes settings line column state lexeme { state with log }

theorem takes_takeLexeme (settings : Settings) (line column : Nat) (state : Gathering)
    (lexeme : Lexeme) :
    Takes settings line column state lexeme (takeLexeme settings line (state, column) lexeme).1 ∧
      (takeLexeme settings line (state, column) lexeme).2 = column + lexeme.text.length := by
  have located := state.log.grows_locate settings line column
  have pushed (log : Log) (d : Diagnostic) : (log.report d).diagnostics ≠ #[] := Array.push_ne_empty
  unfold takeLexeme
  dsimp only
  split
  case h_1 isBlank => exact ⟨.passed (.inl isBlank), rfl⟩
  case h_2 isComment => exact ⟨.passed (.inr isComment), rfl⟩
  case h_3 =>
    split
    case h_1 content isQuoted =>
      refine ⟨.token _ (Log.grows_reports _ fun d member => ?_) (by rw [tokenOf?, isQuoted]), rfl⟩
      rw [eq_of_mem_replicate member]
      exact (by decide : Code.malformedEscape ≠ .locationOutOfRange)
    case h_2 content isTripled =>
      split
      case isTrue first =>
        exact ⟨.remark isTripled (of_decide_eq_true (Bool.and_eq_true_iff.mp first).1) _
          located, rfl⟩
      case isFalse => exact ⟨.token _ (.refl _) (by rw [tokenOf?, isTripled]), rfl⟩
    case h_3 content isOpen =>
      exact ⟨.string isOpen _ fun first => of_decide_eq_true (Bool.and_eq_true_iff.mp first).1, rfl⟩
    case h_4 =>
      have other : Code.unterminatedString ≠ .locationOutOfRange := by decide
      exact ⟨.fault _ (located.trans (Log.grows_report _ other)) (pushed _ _), rfl⟩
    case h_5 noQuoted noTripled _ _ =>
      split
      case h_1 token isToken =>
        refine ⟨.token _ (.refl _) ?_, rfl⟩
        unfold tokenOf?
        split
        case h_1 content isQuoted => exact absurd isQuoted (noQuoted content)
        case h_2 content isTripled => exact absurd isTripled (noTripled content)
        case h_3 => rw [isToken]; rfl
      case h_2 =>
        have other : Code.unrecognizedCharacter ≠ .locationOutOfRange := by decide
        exact ⟨.fault _ (located.trans (Log.grows_report _ other)) (pushed _ _), rfl⟩

/-- What has been read of a line ends where some pieces end. -/
structure Gathering.Follows (settings : Settings) (before : List Token) (line column : Nat)
    (pieces : List Piece) (state : Gathering) : Prop where
  counted : state.log.Counted
  sound : Sound settings state.log.diagnostics pieces
  tokens : tokensOf pieces = before ++ state.tokens.toList
  isLine : (placeOf settings pieces).line = line
  isColumn : (placeOf settings pieces).column = column
  pending : state.pending = none

/-- A location is exact unless there was one out of range. -/
theorem Gathering.Follows.isAt {before : List Token} {state : Gathering}
    (follows : state.Follows settings before line column pieces)
    (calm : Calm (state.log.locate settings line column).2.diagnostics) :
    (placeOf settings pieces).IsAt settings (state.log.locate settings line column).1 := by
  have fits := ((state.log.grows_locate settings line column).counted follows.counted).calm calm
  unfold Log.locate at fits ⊢
  split at fits
  case h_1 loc made =>
    unfold Loc.make at made
    split at made
    case isTrue => cases made
    case isFalse low =>
      split at made
      case isTrue => cases made
      case isFalse left =>
        cases made
        refine ⟨follows.isLine ▸ Nat.le_of_not_lt low, follows.isColumn ▸ Nat.le_of_not_lt left, ?_⟩
        rw [follows.isLine, follows.isColumn]
  case h_2 =>
    dsimp only at fits
    split at fits
    case isTrue overflowed => exact absurd overflowed (by simpa using fits)
    case isFalse => cases fits

section Stretch

variable {before : List Token} {state next : Gathering}

section

variable (follows : state.Follows settings before line column pieces)
include follows

/-- A piece on one line that leaves no string open. -/
theorem Gathering.Follows.snoc (grows : state.log.Grows next.log)
    (fits : piece.Fits settings next.log.diagnostics pieces)
    (noMargin : piece.fate.isMargin = false) (unbroken : '\n' ∉ piece.text)
    (tokens : next.tokens.toList = state.tokens.toList ++ piece.token?.toList)
    (pending : next.pending = none) :
    next.Follows settings before line (column + piece.text.length) (pieces ++ [piece]) := by
  obtain ⟨counted, sound, same, isLine, isColumn, -⟩ := follows
  refine ⟨grows.counted counted, (sound.grows grows).snoc fits, ?_, ?_, ?_, pending⟩
  · rw [tokensOf_snoc, same, tokens, append_assoc]
  · rw [placeOf_snoc, behind_of_unbroken noMargin unbroken]
    exact isLine
  · rw [placeOf_snoc, behind_of_unbroken noMargin unbroken, isColumn]

/-- One lexeme is a piece, or it leaves a string open. -/
theorem Gathering.Follows.takes {c : Char} {rest : List Char} (unbroken : '\n' ∉ c :: rest)
    (takes : Takes settings line column state (Lexeme.next c rest).1 next) :
    (∃ piece, piece.text = (Lexeme.next c rest).1.text ∧
      next.Follows settings before line (column + piece.text.length) (pieces ++ [piece])) ∨
    (Lexeme.next c rest).2 = [] ∧
      Covered settings (textOf pieces ++ c :: rest) (before ++ next.tokens.toList) next.log
        next.pending := by
  obtain ⟨whole, -, shaped⟩ := Lexeme.cutOff_next c rest
  have unbrokenToo : '\n' ∉ (Lexeme.next c rest).1.text :=
    fun inside => unbroken (by rw [← whole]; exact mem_append_left _ inside)
  unfold Lexeme.Shaped at shaped
  cases takes with
  | passed isPassed =>
    rcases isPassed with isBlank | isComment
    · rw [isBlank] at shaped
      exact .inl
        ⟨⟨.blank, _⟩, rfl, follows.snoc (.refl _) (Piece.fits_plain shaped rfl (by rintro ⟨⟩))
        rfl unbrokenToo (append_nil _).symm follows.pending⟩
    · rw [isComment] at shaped
      exact .inl ⟨⟨.comment, _⟩, rfl, follows.snoc (.refl _)
        (Piece.fits_plain ⟨shaped, unbrokenToo⟩ rfl (by rintro ⟨⟩)) rfl unbrokenToo
        (append_nil _).symm follows.pending⟩
  | remark isTripled first log grows =>
    rw [isTripled] at shaped
    refine .inl ⟨⟨.remark [], _⟩, rfl, follows.snoc grows (Piece.fits_plain
      ⟨?_, _, ?_, shaped.2, not_mem_nil, .inl rfl⟩ rfl (by rintro ⟨⟩)) rfl unbrokenToo
      (append_nil _).symm follows.pending⟩
    · rw [follows.isColumn, first]
    · rw [append_nil]
      exact shaped.1
  | @token log grows kind width isToken =>
    have located := state.log.grows_locate settings line column
    refine .inl
      ⟨⟨.token _, _⟩, rfl, follows.snoc (located.trans grows) ⟨⟨c, rest, rfl, isToken⟩, ?_,
      by rintro ⟨⟩⟩ rfl unbrokenToo Array.toList_push follows.pending⟩
    rintro _ ⟨⟩ calm
    exact follows.isAt fun d member => calm d (grows.subset d member)
  | @string content isOpen remark first =>
    rw [isOpen] at shaped
    obtain ⟨isText, none, isNil⟩ := shaped
    have grows := state.log.grows_locate settings line column
    refine .inr ⟨isNil, pieces, c :: rest, grows.counted follows.counted, rfl, follows.tokens,
      follows.sound.grows grows, content, ?_, rfl, none, fun isRemark => ?_, follows.isAt⟩
    · rw [← isText, ← whole, isNil, append_nil]
    · rw [follows.isColumn, first isRemark]
  | fault log grows reported =>
    exact .inl ⟨⟨.fault, _⟩, rfl, follows.snoc grows ⟨trivial, by rintro _ ⟨⟩, fun _ => reported⟩
      rfl unbrokenToo (append_nil _).symm follows.pending⟩

theorem Gathering.Follows.covered :
    Covered settings (textOf pieces ++ []) (before ++ state.tokens.toList) state.log
      state.pending :=
  ⟨pieces, [], follows.counted, rfl, follows.tokens, follows.sound, by rw [follows.pending]; rfl⟩

theorem Gathering.Follows.splitWithin {count : Nat} {text : List Char}
    (enough : text.length ≤ count) (unbroken : '\n' ∉ text) :
    let final :=
      ((Lexeme.splitWithin count text).foldl (takeLexeme settings line) (state, column)).1
    Covered settings (textOf pieces ++ text) (before ++ final.tokens.toList) final.log
      final.pending := by
  induction count generalizing text state column pieces with
  | zero =>
    cases eq_nil_of_length_eq_zero (Nat.le_zero.mp enough)
    exact follows.covered
  | succ count ih =>
    cases text with
    | nil => exact follows.covered
    | cons c rest =>
      obtain ⟨takes, isColumn⟩ :=
        takes_takeLexeme settings line column state (Lexeme.next c rest).1
      obtain ⟨whole, -, -⟩ := Lexeme.cutOff_next c rest
      rcases follows.takes unbroken takes with ⟨piece, isText, stepped⟩ | ⟨ends, covered⟩
      · rw [isText, ← isColumn] at stepped
        have fewer : (Lexeme.next c rest).2.length ≤ count :=
          (Lexeme.length_next_le c rest).trans (Nat.le_of_succ_le_succ enough)
        have covered := ih stepped fewer
          fun inside => unbroken (by rw [← whole]; exact mem_append_right _ inside)
        rw [textOf_snoc, isText, append_assoc, whole] at covered
        exact covered
      · rw [Lexeme.splitWithin_cons, ends, Lexeme.splitWithin_nil]
        exact covered

end

theorem covered_stretch {tokens : Array Token} {log : Log} {text : List Char}
    (unbroken : '\n' ∉ text)
    (follows : Gathering.Follows settings before line column pieces ⟨tokens, log, none⟩) :
    let final := stretch settings line column tokens log text
    Covered settings (textOf pieces ++ text) (before ++ final.tokens.toList) final.log
      final.pending :=
  follows.splitWithin (Nat.le_refl _) unbroken

end Stretch

/-! ## Margins -/

/-- A character is a part of the indentation, or the indentation ends before it. -/
theorem indentation_cons (tabSize : Option Nat) (c : Char) (column : Nat) (firstTab : Option Nat) :
    (c ∈ [' ', '\t', '\r'] ∧ ∃ tab, ∀ rest, indentation tabSize (c :: rest) column firstTab =
      indentation tabSize rest (columnBehind tabSize column c) tab) ∨
    ∀ rest, indentation tabSize (c :: rest) column firstTab = ⟨column, firstTab, c :: rest⟩ := by
  by_cases isSpace : c = ' '
  · subst isSpace
    exact .inl ⟨by decide, firstTab, fun _ => rfl⟩
  by_cases isTab : c = '\t'
  · subst isTab
    rcases tabSize with _ | _ | size
    · exact .inl ⟨by decide, _, fun _ => rfl⟩
    · exact .inl ⟨by decide, _, fun _ => rfl⟩
    · exact .inl ⟨by decide, firstTab, fun _ => rfl⟩
  by_cases isReturn : c = '\r'
  · subst isReturn
    exact .inl ⟨by decide, firstTab, fun _ => rfl⟩
  refine .inr fun rest => ?_
  unfold indentation
  rw [if_neg isSpace, if_neg isTab, if_neg isReturn]

/-- What stands before the rest of a line is its indentation. -/
theorem indentation_eq (tabSize : Option Nat) (text : List Char) (column : Nat)
    (firstTab : Option Nat) :
    ∃ spaces, spaces ++ (indentation tabSize text column firstTab).rest = text ∧
      (∀ c ∈ spaces, c ∈ [' ', '\t', '\r']) ∧
      spaces.foldl (columnBehind tabSize) column =
        (indentation tabSize text column firstTab).column := by
  induction text generalizing column firstTab with
  | nil => exact ⟨[], rfl, forall_mem_nil _, rfl⟩
  | cons c rest ih =>
    rcases indentation_cons tabSize c column firstTab with ⟨listed, tab, same⟩ | same
    · obtain ⟨spaces, whole, all, isColumn⟩ := ih (columnBehind tabSize column c) tab
      rw [same]
      exact ⟨c :: spaces, congrArg (c :: ·) whole, forall_mem_cons.mpr ⟨listed, all⟩, isColumn⟩
    · rw [same]
      exact ⟨[], rfl, forall_mem_nil _, rfl⟩

/-- The margin of a line puts the scan at the column of its indentation. -/
theorem placeOf_margin {gap spaces : List Char} (listed : ∀ c ∈ spaces, c ∈ [' ', '\t', '\r'])
    (isGap : gap = ['\n'] ∨ gap = [] ∧ pieces = []) :
    placeOf settings (pieces ++ [⟨.margin, gap ++ spaces⟩]) =
      ⟨(textOf pieces ++ gap).count '\n' + 1, spaces.foldl (columnBehind settings.tabSize) 0,
        spaces.length⟩ := by
  have unbroken : '\n' ∉ spaces := fun inside => absurd (listed _ inside) (by decide)
  have begun : (gap.foldl (Place.next settings.tabSize true) (placeOf settings pieces)) =
      ⟨(textOf pieces ++ gap).count '\n' + 1, 0, 0⟩ := by
    rcases isGap with rfl | ⟨rfl, rfl⟩
    · rw [foldl_cons, foldl_nil, Place.next, if_pos rfl, line_placeOf, count_append]
      rfl
    · rfl
  rw [placeOf_snoc, Place.behind]
  change (gap ++ spaces).foldl (Place.next _ true) _ = _
  rw [foldl_append, begun, foldl_next_margin unbroken, Nat.zero_add]

/-! ## Sources -/

def lineTokens (lines : Array TokenLine) : List Token :=
  lines.toList.flatMap TokenLine.tokens

def Mode.tokens : Mode → List Token
  | fresh => []
  | inside _ _ _ tokens => tokens.toList

def Mode.pending : Mode → Option OpenTriple
  | fresh => none
  | inside string _ _ _ => some string

/-- A scan has gone through a text. -/
def State.Covered (settings : Settings) (text : List Char) (state : State) : Prop :=
  Scan.Covered settings text (lineTokens state.lines ++ state.mode.tokens) state.log
    state.mode.pending

theorem lineTokens_addLine (lines : Array TokenLine) (indent line : Nat) (tokens : Array Token) :
    lineTokens (addLine lines indent line tokens) = lineTokens lines ++ tokens.toList := by
  unfold addLine
  split
  case isTrue empty => simp [Array.isEmpty_iff.mp empty]
  case isFalse => simp [lineTokens]

section Source

variable {done text gap rest : List Char} {lines : Array TokenLine} {indent first index : Nat}
  {tokens : Array Token}

theorem covered_addLine
    (covered : Covered settings text (lineTokens lines ++ tokens.toList) log none) :
    State.Covered settings text ⟨addLine lines indent first tokens, log, .fresh⟩ := by
  unfold State.Covered
  rw [lineTokens_addLine, Mode.tokens, append_nil]
  exact covered

theorem covered_settle {gathered : Gathering} (covered : Covered settings text
    (lineTokens lines ++ gathered.tokens.toList) gathered.log gathered.pending) :
    (settle lines indent first gathered).Covered settings text := by
  unfold settle
  split
  case h_1 string isPending =>
    rw [isPending] at covered
    exact covered
  case h_2 noPending =>
    rw [noPending] at covered
    exact covered_addLine covered

/-- A new line is scanned. -/
theorem Covers.takeFresh (covers : Covers settings pieces [] done (lineTokens lines) log none)
    (isGap : gap = ['\n'] ∨ gap = [] ∧ pieces = []) (unbroken : '\n' ∉ text) :
    (takeLine settings ⟨lines, log, .fresh⟩ (text, (done ++ gap).count '\n')).Covered settings
      (done ++ gap ++ text) := by
  obtain ⟨counted, rfl, isTokens, sound, -⟩ := covers
  obtain ⟨spaces, isText, listed, isColumn⟩ := indentation_eq settings.tabSize text 0 none
  rw [append_nil]
  have place : placeOf settings (pieces ++ [⟨.margin, gap ++ spaces⟩]) = _ :=
    placeOf_margin listed isGap
  have shaped : Piece.Shaped settings pieces ⟨.margin, gap ++ spaces⟩ := by
    refine ⟨spaces, listed, ?_⟩
    rcases isGap with rfl | ⟨rfl, rfl⟩
    · exact .inl rfl
    · exact .inr ⟨rfl, rfl⟩
  have scanned {later : Log} (grows : log.Grows later) {margin : Indentation}
      (isMargin : indentation settings.tabSize text 0 none = margin) :
      (settle lines margin.column ((textOf pieces ++ gap).count '\n' + 1)
        (stretch settings ((textOf pieces ++ gap).count '\n' + 1) margin.column #[] later
          margin.rest)).Covered settings (textOf pieces ++ gap ++ text) := by
    rw [isMargin] at isText isColumn
    apply covered_settle
    have follows : Gathering.Follows settings (lineTokens lines)
        ((textOf pieces ++ gap).count '\n' + 1) margin.column
        (pieces ++ [⟨.margin, gap ++ spaces⟩]) ⟨#[], later, none⟩ := by
      refine ⟨grows.counted counted, ?_, ?_, ?_, ?_, rfl⟩
      · exact (sound.grows grows).snoc (Piece.fits_plain shaped rfl (by rintro ⟨⟩))
      · rw [tokensOf_snoc, isTokens]
        rfl
      · rw [place]
      · rw [place]
        exact isColumn
    have unbrokenRest : '\n' ∉ margin.rest := fun inside =>
      unbroken (isText ▸ mem_append_right spaces inside)
    have covered := covered_stretch unbrokenRest follows
    rw [textOf_snoc, append_assoc, append_assoc, isText, ← append_assoc] at covered
    exact covered
  refine scanned ?_ rfl
  split
  · have other : Code.tabIndentation ≠ .locationOutOfRange := by decide
    exact (Log.grows_locate _ _ _ _).trans (Log.grows_report _ other)
  · exact .refl _

section Inside

variable {string : OpenTriple} {content last behind : List Char}

/-- A string that is no remark ends. -/
theorem Covers.close (covers : Covers settings pieces (Lexeme.marks ++ content) done
      (lineTokens lines ++ tokens.toList) log (some string))
    (placed : Calm log.diagnostics → (placeOf settings pieces).IsAt settings string.loc)
    (ends : Lexeme.upToTriple (content ++ '\n' :: last ++ Lexeme.marks) =
      some (content ++ '\n' :: last, []))
    (unbroken : '\n' ∉ last ++ Lexeme.marks) {token : Token}
    (isToken : token = ⟨.str (String.ofList (content ++ '\n' :: last)), string.loc, 3⟩) :
    ∃ pieces', textOf pieces' = done ++ '\n' :: last ++ Lexeme.marks ∧
      Gathering.Follows settings (lineTokens lines) ((done ++ ['\n']).count '\n' + 1)
        (last.length + 3) pieces' ⟨tokens.push token, log, none⟩ := by
  have parts : Lexeme.marks ++ (content ++ '\n' :: last) ++ Lexeme.marks =
      (Lexeme.marks ++ content) ++ '\n' :: (last ++ Lexeme.marks) := by simp
  have isText : textOf pieces ++ (Lexeme.marks ++ (content ++ '\n' :: last) ++ Lexeme.marks) =
      done ++ '\n' :: last ++ Lexeme.marks := by
    rw [parts, ← append_assoc, covers.whole, append_assoc, cons_append]
  have isLexeme : token.IsLexeme (Lexeme.marks ++ (content ++ '\n' :: last) ++ Lexeme.marks) := by
    refine ⟨'"', _, congrArg Lexeme.text (Lexeme.next_tripled ends), ?_⟩
    rw [Lexeme.next_tripled ends, isToken]
    rfl
  have fits : Piece.Fits settings log.diagnostics pieces
      ⟨.token token, Lexeme.marks ++ (content ++ '\n' :: last) ++ Lexeme.marks⟩ := by
    refine ⟨isLexeme, ?_, by rintro ⟨⟩⟩
    rintro _ ⟨⟩ calm
    rw [isToken]
    exact placed calm
  refine ⟨_, ?_, covers.counted, covers.sound.snoc fits, ?_, ?_, ?_, rfl⟩
  · rw [textOf_snoc, isText]
  · rw [tokensOf_snoc, covers.tokens, Array.toList_push, append_assoc]
    rfl
  · rw [line_placeOf, textOf_snoc, isText, append_assoc, cons_append, append_cons,
      count_append, count_eq_zero_of_not_mem unbroken]
  · rw [placeOf_snoc, Place.behind, parts]
    exact (foldl_next_broken unbroken _).trans length_append

/-- A line is scanned that goes on with a string. -/
theorem Covers.takeInside
    (covers :
      Covers settings pieces rest done (lineTokens lines ++ tokens.toList) log (some string))
    (unbroken : '\n' ∉ text) :
    (takeLine settings ⟨lines, log, .inside string indent first tokens⟩
      (text, (done ++ ['\n']).count '\n')).Covered settings (done ++ ['\n'] ++ text) := by
  obtain ⟨content, rfl, isContent, unfinished, isFirst, placed⟩ := covers.leaves
  have joined (last : List Char) : string.content ++ "\n" ++ String.ofList last =
      String.ofList (content ++ '\n' :: last) := by
    rw [isContent, append_cons, String.ofList_append, String.ofList_append]
  rw [append_assoc, singleton_append]
  unfold takeLine
  dsimp only
  split
  case h_1 none =>
    refine ⟨pieces, Lexeme.marks ++ (content ++ '\n' :: text), covers.counted, ?_, covers.tokens,
      covers.sound, _, rfl, joined text, ?_, isFirst, placed⟩
    · rw [← covers.whole]
      simp
    · rw [Lexeme.upToTriple_break unfinished, none]
      rfl
  case h_2 last behind found =>
    obtain ⟨rfl, ends⟩ := Lexeme.upToTriple_some found
    have endsToo : Lexeme.upToTriple (content ++ '\n' :: last ++ Lexeme.marks) =
        some (content ++ '\n' :: last, []) := by
      rw [append_assoc, cons_append, Lexeme.upToTriple_break unfinished, ends]
      rfl
    rw [mem_append, not_or] at unbroken
    split
    case isTrue isRemark =>
      have shaped : Piece.Shaped settings pieces ⟨.remark behind,
          Lexeme.marks ++ (content ++ '\n' :: last) ++ Lexeme.marks ++ behind⟩ :=
        ⟨isFirst isRemark, _, rfl, endsToo, unbroken.2, .inr (by simp)⟩
      apply covered_addLine
      refine ⟨_, [], covers.counted, ?_, ?_,
        covers.sound.snoc (Piece.fits_plain shaped rfl (by rintro ⟨⟩)), rfl⟩
      · rw [textOf_snoc, ← covers.whole]
        simp
      · rw [tokensOf_snoc, covers.tokens]
        exact append_nil _
    case isFalse =>
      rw [joined]
      obtain ⟨pieces, isText, follows⟩ := covers.close placed endsToo unbroken.1 rfl
      have covered := covered_stretch unbroken.2 follows
      rw [isText, append_assoc, append_assoc, cons_append, ← append_assoc last]
        at covered
      exact covered_settle covered

end Inside

/-- A scan stands before a line, at the start or behind a break. -/
def Stands (settings : Settings) (done gap : List Char) (state : State) : Prop :=
  gap = ['\n'] ∧ state.Covered settings done ∨
    gap = [] ∧ done = [] ∧ state = ⟨#[], .empty, .fresh⟩

theorem Stands.takeLine {state : State} (stands : Stands settings done gap state)
    (unbroken : '\n' ∉ text) :
    (takeLine settings state (text, (done ++ gap).count '\n')).Covered settings
      (done ++ gap ++ text) := by
  rcases stands with ⟨rfl, pieces, rest, covers⟩ | ⟨rfl, rfl, rfl⟩
  · obtain ⟨lines, log, mode⟩ := state
    cases mode with
    | fresh =>
      rw [Mode.tokens, append_nil] at covers
      cases (covers.leaves : rest = [])
      exact covers.takeFresh (.inl rfl) unbroken
    | inside string indent first tokens => exact covers.takeInside unbroken
  · have start : Covers settings [] [] [] (lineTokens #[]) .empty none :=
      ⟨rfl, rfl, rfl, sound_nil, rfl⟩
    exact start.takeFresh (.inr ⟨rfl, rfl⟩) unbroken

/-- What one line covers, all lines cover. -/
theorem Stands.takeLines {done gap : List Char} {state : State}
    (stands : Stands settings done gap state) (text : List Char) :
    (((Text.splitLines text).zipIdx ((done ++ gap).count '\n')).foldl (Scan.takeLine settings)
      state).Covered settings (done ++ gap ++ text) := by
  by_cases broken : '\n' ∈ text
  · obtain ⟨line, rest, rfl, unbroken⟩ := eq_append_cons_of_mem broken
    have stood : Stands settings _ ['\n'] _ := .inl ⟨rfl, stands.takeLine unbroken⟩
    have covered := stood.takeLines rest
    have count : (done ++ gap ++ line ++ ['\n']).count '\n' = (done ++ gap).count '\n' + 1 := by
      rw [count_append, count_append, count_eq_zero_of_not_mem unbroken]
      rfl
    rw [count] at covered
    rw [Text.splitLines, splitOn_append_cons_self_of_not_mem unbroken, zipIdx_cons,
      foldl_cons, ← append_assoc, append_cons]
    exact covered
  · rw [Text.splitLines, splitOn_eq_singleton broken]
    exact stands.takeLine broken
termination_by text.length
decreasing_by
  subst_vars
  simp only [length_append, length_cons]
  omega

/-- A string that goes on at the end of a source is a fault. -/
theorem State.Covered.finish {state : State} (covered : state.Covered settings text) :
    state.finish.Covered settings text := by
  obtain ⟨lines, log, mode⟩ := state
  cases mode with
  | fresh => exact covered
  | inside string indent first tokens =>
    obtain ⟨pieces, rest, counted, whole, isTokens, sound, -⟩ := covered
    have other : Code.unterminatedString ≠ .locationOutOfRange := by decide
    have grows : log.Grows (log.report (.unterminatedTriple string.loc)) := log.grows_report other
    have fits : Piece.Fits settings (log.report (.unterminatedTriple string.loc)).diagnostics pieces
        ⟨.fault, rest⟩ := ⟨trivial, by rintro _ ⟨⟩, fun _ => Array.push_ne_empty⟩
    apply covered_addLine
    refine ⟨_, [], grows.counted counted, ?_, ?_, (sound.grows grows).snoc fits, rfl⟩
    · rw [textOf_snoc, append_nil, whole]
    · rw [tokensOf_snoc, isTokens]
      exact append_nil _

theorem State.finish_mode (state : State) : state.finish.mode = .fresh := by
  obtain ⟨lines, log, mode⟩ := state
  cases mode <;> rfl

/--
A source is cut into pieces. They are the source when they are put together, the tokens among them
are its tokens, each piece fits behind those before it, and at most one location out of range is
reported.
-/
theorem exists_pieces (settings : Settings) (text : List Char) :
    ∃ pieces, textOf pieces = text ∧
      tokensOf pieces = (source settings text).1.flatMap TokenLine.tokens ∧
      Sound settings (source settings text).2 pieces ∧
      (source settings text).2.countP (·.code = .locationOutOfRange) ≤ 1 := by
  have start : Stands settings [] [] ⟨#[], .empty, .fresh⟩ := .inr ⟨rfl, rfl, rfl⟩
  obtain ⟨pieces, rest, counted, whole, isTokens, sound, leaves⟩ := (start.takeLines text).finish
  rw [State.finish_mode] at leaves isTokens
  refine ⟨pieces, ?_, isTokens.trans (append_nil _), sound, counted.trans_le (Bool.toNat_le _)⟩
  rw [show rest = [] from leaves, append_nil] at whole
  exact whole

end Source

end Scan

end Offside
