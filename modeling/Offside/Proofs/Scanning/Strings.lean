import Offside.Proofs.Scanning.Pieces

/-!
# Spellings of strings

A string has many spellings: each of its characters can stand for itself or be written by an escape
that means it. Scanning a spelling between quotes gives the string back, and a text between triple
quotes stands for itself, over however many lines it goes.
-/

namespace Offside

open List

namespace Escape

/-! ## Spellings -/

/-- The digits in base sixteen with their values, in either case. -/
def hexDigits : List (Char × Nat) :=
  "0123456789abcdef".toList.zipIdx ++ "0123456789ABCDEF".toList.zipIdx

def octalDigits : List (Char × Nat) :=
  "01234567".toList.zipIdx

/-- The letters that stand for a character behind a backslash. -/
def letters : List (Char × Char) :=
  [('n', '\n'), ('t', '\t'), ('r', '\r'), ('b', '\x08'), ('f', '\x0c'), ('v', '\x0b'), ('\\', '\\'),
    ('\'', '\''), ('"', '"')]

/-- The number with some digits in a base behind a number, the first of which counts most. -/
def valueFrom (base start : Nat) (digits : List (Char × Nat)) : Nat :=
  digits.foldl (fun value digit => value * base + digit.2) start

/-- A character that stands for itself between two quotes. -/
def IsPlain (quote c : Char) : Prop :=
  c ≠ quote ∧ c ≠ '\\' ∧ c ≠ '\n'

/-- The ways to write a character between two quotes. -/
inductive Spells (quote : Char) : Char → List Char → Prop
  | itself {c} (plain : IsPlain quote c) : Spells quote c [c]
  | letter {c letter} (listed : (letter, c) ∈ letters) : Spells quote c ['\\', letter]
  | hex {c letter digits} (listed : digits ⊆ hexDigits)
      (sized : (letter, digits.length) ∈ [('x', 2), ('u', 4)])
      (meant : valueFrom 16 0 digits = c.toNat) :
      Spells quote c ('\\' :: letter :: digits.map Prod.fst)
  | octal {c digits} (listed : digits ⊆ octalDigits) (three : digits.length = 3)
      (meant : valueFrom 8 0 digits = c.toNat) : Spells quote c ('\\' :: digits.map Prod.fst)

/-! ## Reading spellings -/

theorem charOf?_toNat (c : Char) : charOf? c.toNat = some c := by
  have valid : c.toNat.isValidChar := c.valid
  rw [charOf?, dif_pos valid]
  rfl

theorem hexCode_digits {digits : List (Char × Nat)} (listed : digits ⊆ hexDigits) (code : Nat)
    (rest : List Char) :
    hexCode digits.length code (digits.map Prod.fst ++ rest) =
      (some (valueFrom 16 code digits), rest) := by
  have known : ∀ digit ∈ hexDigits, hexDigit? digit.1 = some digit.2 := by decide
  induction digits generalizing code with
  | nil => rfl
  | cons digit digits ih =>
    rw [cons_subset] at listed
    rw [map_cons, length_cons, cons_append, hexCode, known digit listed.1]
    exact ih listed.2 _

theorem octalCode_digits {digits : List (Char × Nat)} (listed : digits ⊆ octalDigits) (code : Nat)
    (rest : List Char) :
    octalCode digits.length code (digits.map Prod.fst ++ rest) =
      (valueFrom 8 code digits, rest) := by
  have known : ∀ digit ∈ octalDigits, octalDigit? digit.1 = some digit.2 := by decide
  induction digits generalizing code with
  | nil => rfl
  | cons digit digits ih =>
    rw [cons_subset] at listed
    rw [map_cons, length_cons, cons_append, octalCode, known digit listed.1]
    exact ih listed.2 _

variable {quote c : Char} {piece : List Char}

/-- Reading goes over the spelling of a character to what follows. -/
theorem readWithin_append (spells : Spells quote c piece) (count : Nat) (rest : List Char) :
    readWithin (count + 1) (piece ++ rest) = some c :: readWithin count rest := by
  have escaped {kind : Char} {behind : List Char} (meant : decode kind behind = (some c, rest)) :
      readWithin (count + 1) ('\\' :: kind :: behind) = some c :: readWithin count rest := by
    simp only [readWithin, if_true, meant]
  cases spells with
  | itself plain => cases rest <;> simp [readWithin, plain.2.1]
  | letter listed =>
    have known : ∀ pair ∈ letters, named? pair.1 = some pair.2 := by decide
    apply escaped
    rw [decode, known _ listed]
    rfl
  | hex listed sized meant =>
    have code := hexCode_digits listed 0 rest
    rw [meant] at code
    apply escaped
    simp only [mem_cons, not_mem_nil, or_false, Prod.mk.injEq] at sized
    rcases sized with ⟨rfl, two⟩ | ⟨rfl, four⟩
    · rw [two] at code
      simp [decode, named?, code, charOf?_toNat]
    · rw [four] at code
      simp [decode, named?, code, charOf?_toNat]
  | octal listed three meant =>
    rename_i digits
    cases digits with
    | nil => cases three
    | cons digit digits =>
      have known : ∀ digit ∈ octalDigits, named? digit.1 = none ∧ digit.1 ≠ 'x' ∧ digit.1 ≠ 'u' ∧
          octalDigit? digit.1 = some digit.2 := by decide
      rw [cons_subset] at listed
      obtain ⟨noName, noByte, noUnit, isDigit⟩ := known digit listed.1
      have code := octalCode_digits listed.2 digit.2 rest
      have start : valueFrom 8 digit.2 digits = c.toNat := by
        rw [← meant, valueFrom, valueFrom, foldl_cons, Nat.zero_mul, Nat.zero_add]
      rw [Nat.succ.inj three, start] at code
      apply escaped
      simp [decode, noName, noByte, noUnit, isDigit, code, charOf?_toNat]

section

variable {s : List Char} {pieces : List (List Char)}
  (spelled : List.Forall₂ (Spells quote) s pieces)
include spelled

/-- Reading a spelling gives back the characters. -/
theorem read_spelled : read pieces.flatten = s.map some := by
  suffices all : ∀ count, pieces.flatten.length ≤ count →
      readWithin count pieces.flatten = s.map some from all _ (Nat.le_refl _)
  induction spelled with
  | nil => exact fun count _ => by cases count <;> rfl
  | @cons c piece s pieces first rest ih =>
    intro count enough
    have positive : 0 < piece.length := by cases first <;> simp
    rw [flatten_cons, length_append] at enough
    obtain ⟨count, rfl⟩ := Nat.exists_eq_succ_of_ne_zero (show count ≠ 0 by omega)
    rw [flatten_cons, readWithin_append first, map_cons, ih count (by omega)]

theorem text_spelled : text pieces.flatten = String.ofList s := by
  rw [text, read_spelled spelled, map_map]
  exact congrArg String.ofList (map_id s)

theorem faults_spelled : faults pieces.flatten = 0 := by
  simp [faults, read_spelled spelled]

end

theorem eq_of_isQuote (isQuote : quote ∈ ['"', '\'']) : quote = '"' ∨ quote = '\'' := by
  simpa using isQuote

/-- A spelling is some plain characters, behind a backslash and what follows it, or alone. -/
theorem Spells.shape (isQuote : quote ∈ ['"', '\'']) (spells : Spells quote c piece) :
    ∃ run, (∀ c ∈ run, IsPlain quote c) ∧
      (piece = run ∧ run ≠ [] ∨ ∃ letter, letter ≠ '\n' ∧ piece = '\\' :: letter :: run) := by
  have known : ∀ digit ∈ hexDigits ++ octalDigits,
      digit.1 ≠ quote ∧ digit.1 ≠ '\\' ∧ digit.1 ≠ '\n' := by
    rcases eq_of_isQuote isQuote with rfl | rfl <;> decide
  have plain {digits : List (Char × Nat)} (listed : digits ⊆ hexDigits ++ octalDigits) :
      ∀ c ∈ digits.map Prod.fst, IsPlain quote c := by
    intro c member
    obtain ⟨digit, inside, rfl⟩ := mem_map.mp member
    exact known digit (listed inside)
  cases spells with
  | itself plain => exact ⟨[c], by simpa using plain, .inl ⟨rfl, by simp⟩⟩
  | letter listed =>
    have noBreak : ∀ pair ∈ letters, pair.1 ≠ '\n' := by decide
    exact ⟨[], by simp, .inr ⟨_, noBreak _ listed, rfl⟩⟩
  | hex listed sized meant =>
    refine ⟨_, plain fun _ member => mem_append_left _ (listed member), .inr ⟨_, ?_, rfl⟩⟩
    rintro rfl
    simp at sized
  | octal listed three meant =>
    rename_i digits
    cases digits with
    | nil => cases three
    | cons digit digits =>
      have all := plain fun _ member => mem_append_right hexDigits (listed member)
      rw [map_cons, forall_mem_cons] at all
      exact ⟨_, all.2, .inr ⟨digit.1, all.1.2.2, rfl⟩⟩

end Escape

namespace Lexeme

open Escape

variable {quote : Char} {s : List Char} {pieces : List (List Char)}

theorem upToQuote_plain {run : List Char} (plain : ∀ c ∈ run, IsPlain quote c) (rest : List Char) :
    upToQuote quote (run ++ rest) =
      (upToQuote quote rest).map fun found => (run ++ found.1, found.2) := by
  induction run with
  | nil => simp
  | cons c run ih =>
    obtain ⟨⟨noQuote, noEscape, noBreak⟩, others⟩ := forall_mem_cons.mp plain
    have step : upToQuote quote (c :: (run ++ rest)) =
        (upToQuote quote (run ++ rest)).map fun found => (c :: found.1, found.2) := by
      simp [upToQuote, noQuote, noEscape, noBreak]
    rw [cons_append, step, ih others, Option.map_map]
    rfl

/-- The quote behind a spelling is the first that no backslash stands before. -/
theorem upToQuote_spelled (isQuote : quote ∈ ['"', '\''])
    (spelled : List.Forall₂ (Spells quote) s pieces) (rest : List Char) :
    upToQuote quote (pieces.flatten ++ quote :: rest) = some (pieces.flatten, rest) := by
  have noEscape : quote ≠ '\\' := by
    rintro rfl
    revert isQuote
    decide
  induction spelled with
  | nil => simp [upToQuote, noEscape]
  | @cons c piece s pieces first _ ih =>
    rw [flatten_cons, append_assoc]
    obtain ⟨run, plain, ⟨rfl, _⟩ | ⟨letter, noBreak, rfl⟩⟩ := first.shape isQuote
    · rw [upToQuote_plain plain, ih]
      rfl
    · simp [upToQuote, noBreak, upToQuote_plain plain, ih]

theorem next_spelled (isQuote : quote ∈ ['"', '\''])
    (spelled : List.Forall₂ (Spells quote) s pieces) :
    next quote (pieces.flatten ++ [quote]) =
      (⟨.quoted pieces.flatten, quote :: pieces.flatten ++ [quote]⟩, []) := by
  have single : (pieces.flatten ++ [quote]).take 2 ≠ [quote, quote] := by
    cases spelled with
    | nil => simp
    | @cons c piece s pieces first _ =>
      obtain ⟨run, plain, ⟨rfl, some⟩ | ⟨letter, _, rfl⟩⟩ := first.shape isQuote
      · obtain ⟨c, run, rfl⟩ := exists_cons_of_ne_nil some
        have noQuote := (plain c mem_cons_self).1
        simp [noQuote]
      · intro same
        simp only [flatten_cons, cons_append, take_succ_cons, List.cons.injEq] at same
        revert isQuote
        rw [← same.1]
        decide
  have string : next quote (pieces.flatten ++ [quote]) =
      Lexeme.string quote (pieces.flatten ++ [quote]) := by
    rcases eq_of_isQuote isQuote with rfl | rfl
    · simp [next, single, isSpace, isOperatorChar, show Text.isWordStart '"' = false by decide,
        show '"'.isDigit = false by decide]
    · simp [next, isSpace, isOperatorChar, show Text.isWordStart '\'' = false by decide,
        show '\''.isDigit = false by decide]
  rw [string, Lexeme.string, upToQuote_spelled isQuote spelled]

/-! ## Triple quotes -/

/-- A text that ends with the three quotes that are put behind it, and not before. -/
structure EndsWithMarks (text : List Char) : Prop where
  absent : ¬ marks <:+: text
  last : text.getLast? ≠ some '"'

variable {text : List Char}

theorem upToTriple_eq_none (absent : ¬ marks <:+: text) : upToTriple text = none := by
  induction text with
  | nil => rfl
  | cons c rest ih =>
    have later := ih fun inside => absent (inside.trans (suffix_cons c rest).isInfix)
    have other : ¬ (c = '"' && rest.take 2 = ['"', '"']) = true := by
      intro marked
      obtain ⟨rfl, next⟩ := by simpa using marked
      refine absent ⟨[], rest.drop 2, ?_⟩
      rw [nil_append, marks, cons_append, ← next, take_append_drop]
    rw [upToTriple, if_neg other, later]
    rfl

/-- What stands behind the first character of a text, or behind its first line. -/
theorem EndsWithMarks.behind {front rest : List Char} (ends : EndsWithMarks (front ++ rest)) :
    EndsWithMarks rest := by
  constructor
  · exact fun inside => ends.absent (inside.trans (suffix_append front rest).isInfix)
  · intro last
    refine ends.last ?_
    rw [List.getLast?_append, last]
    rfl

/-- The three quotes behind a text are the first. -/
theorem upToTriple_append (ends : EndsWithMarks text) :
    upToTriple (text ++ marks) = some (text, []) := by
  induction text with
  | nil => rfl
  | cons c rest ih =>
    have other : ¬ (c = '"' && (rest ++ marks).take 2 = ['"', '"']) = true := by
      intro marked
      obtain ⟨rfl, next⟩ := by simpa using marked
      rcases rest with _ | ⟨d, _ | ⟨e, rest⟩⟩
      · exact ends.last rfl
      · simp only [cons_append, take_succ_cons, List.cons.injEq] at next
        exact ends.last (by rw [next.1]; rfl)
      · simp only [cons_append, take_succ_cons, take_zero, List.cons.injEq,
          and_true] at next
        exact ends.absent ⟨[], rest, by rw [next.1, next.2]; rfl⟩
    rw [cons_append, upToTriple, if_neg other, ih (.behind (singleton_append ▸ ends))]
    rfl

end Lexeme

namespace Scan

open Escape Lexeme

variable {settings : Settings}

/-- A first line that starts without a blank is cut into lexemes as a whole. -/
theorem takeLine_first {c : Char} {rest : List Char} (noBlank : c ∉ [' ', '\t', '\r']) :
    takeLine settings ⟨#[], .empty, .fresh⟩ (c :: rest, 0) =
      settle #[] 0 1 (stretch settings 1 0 #[] .empty (c :: rest)) := by
  simp only [mem_cons, not_mem_nil, or_false, not_or] at noBlank
  simp [takeLine, indentation, noBlank]

theorem locate_first (log : Log) {column : Nat} (fits : column ≤ Loc.maxColumn) :
    log.locate settings 1 column = (.pack settings.source 1 column, log) := by
  rw [Log.locate, Loc.make, if_neg (by decide), if_neg (Nat.not_lt.mpr fits)]

section Spelled

variable {quote : Char} {s : List Char} {pieces : List (List Char)}

section

variable (isQuote : quote ∈ ['"', '\'']) (spelled : List.Forall₂ (Spells quote) s pieces)
include isQuote spelled

theorem stretch_spelled :
    stretch settings 1 0 #[] .empty (quote :: pieces.flatten ++ [quote]) =
      ⟨#[⟨.str (String.ofList s), .pack settings.source 1 0, pieces.flatten.length + 2⟩], .empty,
        none⟩ := by
  have cut : split (quote :: pieces.flatten ++ [quote]) =
      [⟨.quoted pieces.flatten, quote :: pieces.flatten ++ [quote]⟩] := by
    rw [split, cons_append, length_cons, splitWithin_cons, next_spelled isQuote spelled,
      splitWithin_nil, cons_append]
  rw [stretch, cut, foldl_cons, foldl_nil, takeLexeme]
  simp only [locate_first _ (Nat.zero_le _), faults_spelled spelled, text_spelled spelled]
  simp [Gathering.push]

theorem noBreak_of_spelled : '\n' ∉ quote :: pieces.flatten ++ [quote] := by
  have outside : quote ≠ '\n' := by
    rintro rfl
    revert isQuote
    decide
  have inside : '\n' ∉ pieces.flatten := by
    induction spelled with
    | nil => exact not_mem_nil
    | cons first _ ih =>
      rw [flatten_cons, mem_append, not_or]
      refine ⟨fun member => ?_, ih⟩
      obtain ⟨run, plain, ⟨rfl, _⟩ | ⟨letter, noBreak, rfl⟩⟩ := first.shape isQuote
      · exact (plain _ member).2.2 rfl
      · rcases mem_cons.mp member with same | member
        · revert same
          decide
        · rcases mem_cons.mp member with same | member
          · exact noBreak same.symm
          · exact (plain _ member).2.2 rfl
  simp [inside, outside.symm]

/-- A spelling between quotes is scanned as the string that it spells. -/
theorem source_spelled :
    source settings (quote :: pieces.flatten ++ [quote]) =
      ([⟨0, 1, [⟨.str (String.ofList s), .pack settings.source 1 0, pieces.flatten.length + 2⟩]⟩],
        #[]) := by
  have noBlank : quote ∉ [' ', '\t', '\r'] := by
    rcases eq_of_isQuote isQuote with rfl | rfl <;> decide
  rw [source, Text.splitLines, splitOn_eq_singleton (noBreak_of_spelled isQuote spelled)]
  dsimp only [zipIdx_cons, zipIdx_nil, foldl_cons, foldl_nil]
  rw [cons_append, takeLine_first noBlank, ← cons_append,
    stretch_spelled isQuote spelled]
  rfl

end

end Spelled

/-! ## Texts over several lines -/

/-- The lines of a text go on with a string up to the three quotes behind the text. -/
theorem takeLines_inside {text : List Char} (ends : EndsWithMarks text) {content : String}
    {loc : Loc} {tokens : Array Token} (index : Nat) :
    ((Text.splitLines (text ++ marks)).zipIdx index).foldl (takeLine settings)
        ⟨#[], .empty, .inside ⟨loc, content, false⟩ 0 1 tokens⟩ =
      ⟨#[⟨0, 1, tokens.toList ++ [⟨.str (content ++ "\n" ++ String.ofList text), loc, 3⟩]⟩], .empty,
        .fresh⟩ := by
  by_cases broken : '\n' ∈ text
  · obtain ⟨line, rest, rfl, unbroken⟩ := eq_append_cons_of_mem broken
    have absent : ¬ marks <:+: line := fun inside =>
      ends.absent (inside.trans (prefix_append line _).isInfix)
    have step : takeLine settings ⟨#[], .empty, .inside ⟨loc, content, false⟩ 0 1 tokens⟩
        (line, index) =
        ⟨#[], .empty, .inside ⟨loc, content ++ "\n" ++ String.ofList line, false⟩ 0 1 tokens⟩ := by
      simp only [takeLine, upToTriple_eq_none absent]
    have joined : content ++ "\n" ++ String.ofList (line ++ '\n' :: rest) =
        content ++ "\n" ++ String.ofList line ++ "\n" ++ String.ofList rest := by
      rw [append_cons, String.ofList_append, String.ofList_append]
      simp only [String.append_assoc]
    rw [Text.splitLines, append_assoc, cons_append,
      splitOn_append_cons_self_of_not_mem unbroken, zipIdx_cons, foldl_cons, step,
      joined]
    rw [append_cons] at ends
    exact takeLines_inside ends.behind (index + 1)
  · have unbroken : '\n' ∉ text ++ marks := by
      rw [mem_append, not_or]
      exact ⟨broken, by decide⟩
    rw [Text.splitLines, splitOn_eq_singleton unbroken]
    simp [takeLine, upToTriple_append ends, stretch, split, splitWithin, settle, addLine]
termination_by text.length
decreasing_by
  subst_vars
  simp only [length_append, length_cons]
  omega

/-- A line with a name and a string of which nothing is left. -/
theorem stretch_labelled {rest : List Char} {lexeme : Lexeme}
    (cut : triple ('"' :: '"' :: rest) = (lexeme, [])) :
    stretch settings 1 0 #[] .empty ('x' :: ' ' :: marks ++ rest) =
      (takeLexeme settings 1 (⟨#[⟨.ident "x", .pack settings.source 1 0, 1⟩], .empty, none⟩, 2)
        lexeme).1 := by
  have word : next 'x' (' ' :: marks ++ rest) = (⟨.word, ['x']⟩, ' ' :: marks ++ rest) := by
    rfl
  have blank : next ' ' (marks ++ rest) = (⟨.blank, [' ']⟩, marks ++ rest) := by
    rfl
  have string : next '"' ('"' :: '"' :: rest) = (lexeme, []) := by
    rw [← cut]
    rfl
  have lexemes : split ('x' :: ' ' :: marks ++ rest) =
      [⟨.word, ['x']⟩, ⟨.blank, [' ']⟩, lexeme] := by
    change splitWithin (_ + 1 + 1 + 1) ('x' :: (' ' :: marks ++ rest)) = _
    rw [splitWithin_cons, word]
    change _ :: splitWithin (_ + 1 + 1) (' ' :: (marks ++ rest)) = _
    rw [splitWithin_cons, blank]
    change _ :: _ :: splitWithin (_ + 1) ('"' :: '"' :: '"' :: rest) = _
    rw [splitWithin_cons, string, splitWithin_nil]
  rw [stretch, lexemes]
  rfl

/-- A text between triple quotes behind a name stands for itself. -/
theorem source_tripled {text : List Char} (ends : EndsWithMarks text) :
    source settings ('x' :: ' ' :: marks ++ text ++ marks) =
      ([⟨0, 1, [⟨.ident "x", .pack settings.source 1 0, 1⟩,
        ⟨.str (String.ofList text), .pack settings.source 1 2, 3⟩]⟩], #[]) := by
  have noBlank : 'x' ∉ [' ', '\t', '\r'] := by decide
  have begun : '\n' ∉ 'x' :: ' ' :: marks := by decide
  by_cases broken : '\n' ∈ text
  · obtain ⟨line, rest, rfl, unbroken⟩ := eq_append_cons_of_mem broken
    have absent : ¬ marks <:+: line := fun inside =>
      ends.absent (inside.trans (prefix_append line _).isInfix)
    have first : '\n' ∉ 'x' :: ' ' :: marks ++ line := by
      rw [mem_append, not_or]
      exact ⟨begun, unbroken⟩
    have cut : triple ('"' :: '"' :: line) = (⟨.tripleOpen line, marks ++ line⟩, []) := by
      simp [triple, upToTriple_eq_none absent, marks]
    have parts : 'x' :: ' ' :: marks ++ (line ++ '\n' :: rest) ++ marks =
        ('x' :: ' ' :: marks ++ line) ++ '\n' :: (rest ++ marks) := by simp
    have state : takeLine settings ⟨#[], .empty, .fresh⟩ ('x' :: ' ' :: marks ++ line, 0) =
        ⟨#[], .empty, .inside ⟨.pack settings.source 1 2, String.ofList line, false⟩ 0 1
          #[⟨.ident "x", .pack settings.source 1 0, 1⟩]⟩ := by
      rw [cons_append, takeLine_first noBlank, ← cons_append, stretch_labelled cut]
      rfl
    have joined : String.ofList (line ++ '\n' :: rest) =
        String.ofList line ++ "\n" ++ String.ofList rest := by
      rw [append_cons, String.ofList_append, String.ofList_append]
    rw [append_cons] at ends
    rw [source, parts, Text.splitLines, splitOn_append_cons_self_of_not_mem first,
      zipIdx_cons, foldl_cons, state, joined]
    rw [← Text.splitLines, takeLines_inside ends.behind]
    rfl
  · have unbroken : '\n' ∉ 'x' :: ' ' :: marks ++ (text ++ marks) := by
      rw [mem_append, mem_append, not_or, not_or]
      exact ⟨begun, broken, by decide⟩
    have cut : triple ('"' :: '"' :: (text ++ marks)) =
        (⟨.tripled text, marks ++ text ++ marks⟩, []) := by
      rw [triple, drop_succ_cons, drop_succ_cons, drop_zero, upToTriple_append ends]
      rfl
    rw [append_assoc, source, Text.splitLines, splitOn_eq_singleton unbroken]
    dsimp only [zipIdx_cons, zipIdx_nil, foldl_cons, foldl_nil]
    rw [cons_append, takeLine_first noBlank, ← cons_append, stretch_labelled cut]
    rfl

/--
A spelling of a string between quotes of either kind is scanned as that string and nothing else, and
a text between triple quotes as itself, without a report.
-/
theorem source_string (settings : Settings) :
    (∀ quote ∈ ['"', '\''], ∀ s pieces, List.Forall₂ (Spells quote) s pieces →
      source settings (quote :: pieces.flatten ++ [quote]) =
        ([⟨0, 1, [⟨.str (String.ofList s), .pack settings.source 1 0,
          pieces.flatten.length + 2⟩]⟩], #[])) ∧
    ∀ text, ¬ marks <:+: text → text.getLast? ≠ some '"' →
      source settings ('x' :: ' ' :: marks ++ text ++ marks) =
        ([⟨0, 1, [⟨.ident "x", .pack settings.source 1 0, 1⟩,
          ⟨.str (String.ofList text), .pack settings.source 1 2, 3⟩]⟩], #[]) := by
  constructor
  · intro quote isQuote s pieces spelled
    exact source_spelled isQuote spelled
  · intro text absent last
    exact source_tripled ⟨absent, last⟩

/-- A string with a character of each kind of spelling, and a text with quotes and a line break. -/
theorem source_string_mixed :
    source ⟨0, none⟩ "\"a\\n\\x22\\351\\u263A\"".toList =
      ([⟨0, 1, [⟨.str "a\n\"é☺", .pack 0 1 0, 19⟩]⟩], #[]) ∧
    source ⟨0, none⟩ "x \"\"\"\"\"a\n\"b\"\"\"".toList =
      ([⟨0, 1, [⟨.ident "x", .pack 0 1 0, 1⟩, ⟨.str "\"\"a\n\"b", .pack 0 1 2, 3⟩]⟩], #[]) := by
  have spelled : List.Forall₂ (Spells '"') ['a', '\n', '"', 'é', '☺']
      [['a'], ['\\', 'n'], "\\x22".toList, "\\351".toList, "\\u263A".toList] :=
    .cons (.itself ⟨by decide, by decide, by decide⟩) <| .cons (.letter (by decide)) <|
      .cons (@Spells.hex _ _ _ [('2', 2), ('2', 2)] (by decide) (by decide) (by decide)) <|
      .cons (@Spells.octal _ _ [('3', 3), ('5', 5), ('1', 1)] (by decide) rfl (by decide)) <|
      .cons (@Spells.hex _ _ _ [('2', 2), ('6', 6), ('3', 3), ('A', 10)] (by decide) (by decide)
        (by decide)) .nil
  exact ⟨(source_string ⟨0, none⟩).1 '"' (by decide) _ _ spelled,
    (source_string ⟨0, none⟩).2 "\"\"a\n\"b".toList (by decide) (by decide)⟩

end Scan

end Offside
