import Offside.Proofs.Scanning.Pieces

/-!
# Carriage returns before line breaks

A carriage return at the end of a line is a blank: it ends a lexeme where the line would end it,
and as the last character of a comment or behind a quote without a partner it leaves no trace. So a
source is scanned in the same way whether its lines end with carriage returns or not, as long as no
string goes over several lines.
-/

namespace Offside

open List

/-- The text with a carriage return before every line break. -/
def Text.withReturns (text : List Char) : List Char :=
  text.flatMap fun c => if c = '\n' then ['\r', '\n'] else [c]

/-! ## Lexemes -/

namespace Lexeme

/-- Lexemes of which a line takes no more than their kind. -/
def isIdle : LexemeKind → Bool
  | .blank | .comment | .loneQuote => true
  | _ => false

/--
What is cut off from a stretch with a carriage return behind it: the same lexeme, or one that takes
the carriage return with it and of which only the kind counts.
-/
def Extends (cut cut' : Lexeme × List Char) : Prop :=
  cut' = (cut.1, cut.2 ++ ['\r']) ∨
    cut'.1.kind = cut.1.kind ∧ isIdle cut.1.kind = true ∧ cut.2 = [] ∧ cut'.2 = []

variable {c : Char} {rest : List Char}

theorem takeWhile_return {p : Char → Bool} (rest : List Char)
    (stops : p '\r' = false ∨ rest.dropWhile p ≠ []) :
    (rest ++ ['\r']).takeWhile p = rest.takeWhile p ∧
      (rest ++ ['\r']).dropWhile p = rest.dropWhile p ++ ['\r'] := by
  induction rest with
  | nil => simp [stops.resolve_right fun some => some rfl]
  | cons c rest ih =>
    by_cases holds : p c = true
    · simpa [holds] using ih (by simpa [holds] using stops)
    · simp [holds]

theorem extends_run {kind : LexemeKind} {p : Char → Bool} (c : Char) (rest : List Char)
    (idle : p '\r' = false ∨ isIdle kind = true) :
    Extends (run kind c p rest) (run kind c p (rest ++ ['\r'])) := by
  by_cases stops : p '\r' = false ∨ rest.dropWhile p ≠ []
  · obtain ⟨taken, left⟩ := takeWhile_return rest stops
    rw [run, run, taken, left]
    exact .inl rfl
  · rw [not_or, Bool.not_eq_false, not_not] at stops
    refine .inr ⟨rfl, idle.resolve_left (by simp [stops.1]), stops.2, ?_⟩
    change (rest ++ ['\r']).dropWhile p = []
    rw [dropWhile_append, stops.2]
    simp [stops.1]

theorem extends_word (c : Char) (rest : List Char) :
    Extends (word c rest) (word c (rest ++ ['\r'])) := by
  have ends : Text.isWordPart '\r' = false := by decide
  obtain ⟨taken, left⟩ := takeWhile_return rest (.inl ends)
  have kind (text behind : List Char) :
      wordKind text (behind ++ ['\r']) = wordKind text behind := by
    cases behind with
    | nil =>
      have blank : Text.looksLikeWordPart '\r' = false := by decide
      simp [wordKind, blank]
    | cons => rfl
  rw [word, word, taken, left, kind]
  exact .inl rfl

theorem digits_return (rest : List Char) :
    (rest ++ ['\r']).takeWhile Char.isDigit = rest.takeWhile Char.isDigit ∧
      (rest ++ ['\r']).dropWhile Char.isDigit = rest.dropWhile Char.isDigit ++ ['\r'] :=
  takeWhile_return rest (.inl (by decide))

theorem fraction_return (rest : List Char) :
    fraction (rest ++ ['\r']) = ((fraction rest).1, (fraction rest).2 ++ ['\r']) := by
  cases rest with
  | nil => rfl
  | cons c after =>
    by_cases isPoint : c = '.'
    · subst isPoint
      simp only [cons_append, fraction, digits_return]
      split <;> rfl
    · simp [fraction, isPoint]

theorem sign_return (rest : List Char) :
    sign (rest ++ ['\r']) = ((sign rest).1, (sign rest).2 ++ ['\r']) := by
  cases rest with
  | nil => rfl
  | cons c after =>
    rw [cons_append]
    unfold sign
    split <;> simp_all

theorem exponent_return (rest : List Char) :
    exponent (rest ++ ['\r']) =
      ((exponent rest).1, (exponent rest).2.1, (exponent rest).2.2 ++ ['\r']) := by
  cases rest with
  | nil => rfl
  | cons c after =>
    simp only [cons_append, exponent, sign_return, digits_return]
    split <;> rfl

theorem extends_numeral (c : Char) (rest : List Char) :
    Extends (numeral c rest) (numeral c (rest ++ ['\r'])) := by
  refine .inl ?_
  simp only [numeral, digits_return, fraction_return, exponent_return]

theorem upToQuote_return {quote : Char} (isQuote : quote = '"' ∨ quote = '\'') (rest : List Char) :
    upToQuote quote (rest ++ ['\r']) =
      (upToQuote quote rest).map fun found => (found.1, found.2 ++ ['\r']) := by
  fun_induction upToQuote quote rest
  case case1 => rcases isQuote with rfl | rfl <;> rfl
  case case2 => rfl
  case case3 c rest noBreak ih =>
    rw [cons_append, cons_append, upToQuote, if_neg noBreak, ih, Option.map_map,
      Option.map_map]
    rfl
  case case4 => rcases isQuote with rfl | rfl <;> simp [upToQuote]
  case case5 c rest noEscape noQuote stuck =>
    rw [Bool.or_eq_true, decide_eq_true_iff, decide_eq_true_iff] at stuck
    rcases stuck with rfl | rfl
    · cases rest with
      | nil => rfl
      | cons d rest => cases noEscape d rest rfl rfl
    · simp [upToQuote, noQuote]
  case case6 c rest _ noQuote plain ih =>
    rw [Bool.or_eq_true, decide_eq_true_iff, decide_eq_true_iff, not_or] at plain
    simp [upToQuote, noQuote, plain, ih, Function.comp_def]

theorem extends_string (isQuote : c = '"' ∨ c = '\'') (rest : List Char) :
    Extends (string c rest) (string c (rest ++ ['\r'])) := by
  unfold string
  rw [upToQuote_return isQuote]
  cases upToQuote c rest with
  | none => exact .inr ⟨rfl, rfl, rfl, rfl⟩
  | some found => exact .inl rfl

theorem extends_ite {p q : Prop} [Decidable p] [Decidable q] (same : p ↔ q)
    {first second first' second' : Lexeme × List Char} (yes : p → Extends first first')
    (no : ¬ p → Extends second second') :
    Extends (if p then first else second) (if q then first' else second') := by
  by_cases holds : p
  · rw [if_pos holds, if_pos (same.mp holds)]
    exact yes holds
  · rw [if_neg holds, if_neg (fun held => holds (same.mpr held))]
    exact no holds

/-- A carriage return behind a stretch without three quotes. -/
theorem extends_next (absent : ¬ marks <:+: c :: rest) :
    Extends (next c rest) (next c (rest ++ ['\r'])) := by
  have before : (rest ++ ['\r']).head?.any Text.isWordStart = rest.head?.any Text.isWordStart := by
    cases rest with
    | nil => decide
    | cons => rfl
  unfold next
  dsimp only
  rw [before]
  refine extends_ite .rfl (fun _ => extends_run c rest (.inr rfl)) fun _ => ?_
  refine extends_ite .rfl (fun _ => extends_run c rest (.inr rfl)) fun _ => ?_
  refine extends_ite .rfl (fun _ => extends_word c rest) fun _ => ?_
  refine extends_ite .rfl (fun _ => extends_run c rest (.inl (by decide))) fun _ => ?_
  refine extends_ite .rfl (fun _ => extends_run c rest (.inl (by decide))) fun _ => ?_
  refine extends_ite .rfl (fun _ => extends_numeral c rest) fun _ => ?_
  refine extends_ite .rfl (fun _ => extends_run c rest (.inl (by decide))) fun _ => ?_
  refine extends_ite ?_ (fun marked => ?_) fun _ => ?_
  · rcases rest with _ | ⟨d, _ | ⟨e, rest⟩⟩ <;> simp
  · obtain ⟨rfl, two⟩ := by simpa using marked
    refine absurd ⟨[], rest.drop 2, ?_⟩ absent
    rw [nil_append, marks, cons_append, ← two, take_append_drop]
  refine extends_ite .rfl (fun isQuote => extends_string (by simpa using isQuote) rest) fun _ => ?_
  refine extends_ite .rfl (fun _ => .inl rfl) fun _ => ?_
  refine extends_ite .rfl (fun _ => .inl rfl) fun _ => ?_
  exact extends_ite .rfl (fun _ => .inl rfl) fun _ => .inl rfl

end Lexeme

/-! ## Lines -/

namespace Scan

open Lexeme (marks)

variable {settings : Settings} {line column : Nat} {text : List Char}

theorem takeLexeme_idle {first second : Lexeme} (same : second.kind = first.kind)
    (idle : Lexeme.isIdle first.kind = true) (state : Gathering × Nat) :
    (takeLexeme settings line state second).1 = (takeLexeme settings line state first).1 := by
  unfold takeLexeme
  rw [same]
  revert idle
  cases first.kind <;> first | exact fun _ => rfl | rintro ⟨⟩

/-- A carriage return behind a stretch leaves no trace. -/
theorem foldl_return {count : Nat} (enough : text.length ≤ count) (absent : ¬ marks <:+: text)
    (state : Gathering × Nat) :
    ((Lexeme.splitWithin (count + 1) (text ++ ['\r'])).foldl (takeLexeme settings line) state).1 =
      ((Lexeme.splitWithin count text).foldl (takeLexeme settings line) state).1 := by
  induction count generalizing text state with
  | zero =>
    cases eq_nil_of_length_eq_zero (Nat.le_zero.mp enough)
    rfl
  | succ count ih =>
    cases text with
    | nil => rfl
    | cons c rest =>
      have whole := (Lexeme.cutOff_next c rest).whole
      rw [cons_append, Lexeme.splitWithin_cons, Lexeme.splitWithin_cons, foldl_cons,
        foldl_cons]
      rcases Lexeme.extends_next absent with same | ⟨same, idle, ends, endsToo⟩
      · rw [same]
        refine ih ((Lexeme.length_next_le c rest).trans (Nat.le_of_succ_le_succ enough)) ?_ _
        exact fun inside => absent (inside.trans (whole ▸ (suffix_append _ _).isInfix))
      · rw [ends, endsToo, Lexeme.splitWithin_nil, Lexeme.splitWithin_nil]
        exact takeLexeme_idle same idle state

/-- A carriage return behind a line is in its indentation, or behind the rest of the line. -/
theorem indentation_return (tabSize : Option Nat) (text : List Char) (column : Nat)
    (firstTab : Option Nat) :
    indentation tabSize (text ++ ['\r']) column firstTab =
      { indentation tabSize text column firstTab with
        rest := if (indentation tabSize text column firstTab).rest = [] then []
          else (indentation tabSize text column firstTab).rest ++ ['\r'] } := by
  induction text generalizing column firstTab with
  | nil => rfl
  | cons c rest ih =>
    rcases indentation_cons tabSize c column firstTab with ⟨-, tab, same⟩ | same
    · rw [cons_append, same, same]
      exact ih _ tab
    · rw [cons_append, same, same]
      rfl

theorem takeLine_return {lines : Array TokenLine} {log : Log} {index : Nat}
    (absent : ¬ marks <:+: text) :
    takeLine settings ⟨lines, log, .fresh⟩ (text ++ ['\r'], index) =
      takeLine settings ⟨lines, log, .fresh⟩ (text, index) := by
  obtain ⟨spaces, isText, -⟩ := indentation_eq settings.tabSize text 0 none
  have absentToo : ¬ marks <:+: (indentation settings.tabSize text 0 none).rest :=
    fun inside => absent (inside.trans (List.IsSuffix.isInfix ⟨spaces, isText⟩))
  have same (line column : Nat) (log : Log) {rest : List Char} (absent : ¬ marks <:+: rest) :
      stretch settings line column #[] log (rest ++ ['\r']) =
        stretch settings line column #[] log rest := by
    rw [stretch, Lexeme.split, length_append]
    exact foldl_return (Nat.le_refl _) absent _
  unfold takeLine
  dsimp only
  rw [indentation_return]
  revert absentToo
  cases (indentation settings.tabSize text 0 none).rest with
  | nil => exact fun _ => rfl
  | cons c rest =>
    intro absent
    dsimp only
    rw [if_neg (cons_ne_nil c rest), same _ _ _ absent]
    cases (indentation settings.tabSize text 0 none).firstTab <;> rfl

/-- Without three quotes no string goes on behind a line. -/
theorem State.Covered.isFresh {state : State} (covered : state.Covered settings text)
    (absent : ¬ marks <:+: text) : state.mode = .fresh := by
  obtain ⟨lines, log, mode⟩ := state
  cases mode with
  | fresh => rfl
  | inside =>
    obtain ⟨pieces, rest, -, whole, -, -, content, rfl, -⟩ := covered
    exact absurd ⟨textOf pieces, content, by rw [append_assoc]; exact whole⟩ absent

theorem withReturns_unbroken (unbroken : '\n' ∉ text) : Text.withReturns text = text := by
  induction text with
  | nil => rfl
  | cons c rest ih =>
    rw [mem_cons, not_or] at unbroken
    rw [Text.withReturns, flatMap_cons, if_neg (Ne.symm unbroken.1)]
    exact congrArg (c :: ·) (ih unbroken.2)

theorem withReturns_break {line : List Char} (unbroken : '\n' ∉ line) (rest : List Char) :
    Text.withReturns (line ++ '\n' :: rest) = line ++ ['\r'] ++ '\n' :: Text.withReturns rest := by
  rw [Text.withReturns, flatMap_append, ← Text.withReturns, withReturns_unbroken unbroken,
    append_assoc]
  rfl

/-- All lines are scanned in the same way with a carriage return behind each but the last. -/
theorem Stands.withReturns {done gap : List Char} {state : State}
    (stands : Stands settings done gap state) (isFresh : state.mode = .fresh) (text : List Char)
    (absent : ¬ marks <:+: done ++ gap ++ text) :
    ((Text.splitLines (Text.withReturns text)).zipIdx ((done ++ gap).count '\n')).foldl
        (Scan.takeLine settings) state =
      ((Text.splitLines text).zipIdx ((done ++ gap).count '\n')).foldl (Scan.takeLine settings)
        state := by
  by_cases broken : '\n' ∈ text
  · obtain ⟨line, rest, rfl, unbroken⟩ := eq_append_cons_of_mem broken
    have covered := stands.takeLine unbroken
    have absentLine : ¬ marks <:+: done ++ gap ++ line := fun inside =>
      absent (inside.trans (by rw [← append_assoc]; exact (prefix_append _ _).isInfix))
    have stood : Stands settings _ ['\n'] _ := .inl ⟨rfl, covered⟩
    have further := stood.withReturns (covered.isFresh absentLine) rest (by simpa using absent)
    have count : (done ++ gap ++ line ++ ['\n']).count '\n' = (done ++ gap).count '\n' + 1 := by
      rw [count_append, count_append, count_eq_zero_of_not_mem unbroken]
      rfl
    have unbrokenToo : '\n' ∉ line ++ ['\r'] := by simp [unbroken]
    have absentHere : ¬ marks <:+: line :=
      fun inside => absentLine (inside.trans (suffix_append _ _).isInfix)
    obtain ⟨lines, log, mode⟩ := state
    cases isFresh
    rw [count] at further
    rw [withReturns_break unbroken, Text.splitLines, Text.splitLines,
      splitOn_append_cons_self_of_not_mem unbroken,
      splitOn_append_cons_self_of_not_mem unbrokenToo, zipIdx_cons, zipIdx_cons,
      foldl_cons, foldl_cons, takeLine_return absentHere]
    exact further
  · rw [withReturns_unbroken broken]
termination_by text.length
decreasing_by
  subst_vars
  simp only [length_append, length_cons]
  omega

end Scan

end Offside
