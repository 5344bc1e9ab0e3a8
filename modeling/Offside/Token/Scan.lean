import Offside.Diagnostic.Cause
import Offside.Text.Lines
import Offside.Token
import Offside.Token.Escape
import Offside.Token.Lexeme

/-!
# Scanning a source

A source is scanned line by line. Each line is measured and cut into lexemes, and the lexemes
become tokens. A triple-quoted string that does not end on its line goes on over the following
lines; if it was the first thing of an unindented line it is a remark, and the line on which it
ends is dropped with it.
-/

namespace Offside.Scan

/-- What scanning is given besides the text. -/
structure Settings where
  source : SourceId
  /-- The number of columns between tab stops; without it tabs may not indent. -/
  tabSize : Option Nat

/-- The reports so far, and whether a location out of range is among them. -/
structure Log where
  diagnostics : Diagnostics
  overflowed : Bool

def Log.empty : Log := ⟨#[], false⟩

def Log.report (log : Log) (d : Diagnostic) : Log :=
  { log with diagnostics := log.diagnostics.push d }

/-- The location of a line and a column; the first one out of range is reported. -/
def Log.locate (log : Log) (settings : Settings) (line column : Nat) : Loc × Log :=
  match Loc.make settings.source line column with
  | .ok loc => (loc, log)
  | .error reason =>
    let loc := Loc.clamped settings.source line column
    if log.overflowed then (loc, log)
    else
      (loc, { (log.report (.locationOutOfRange loc reason)) with overflowed := true })

/-- A triple-quoted string whose end has not been seen. -/
structure OpenTriple where
  loc : Loc
  content : String
  remark : Bool

/-- A line whose tokens are being gathered. -/
structure Gathering where
  tokens : Array Token
  log : Log
  /-- The string that goes on behind the end of the line. -/
  pending : Option OpenTriple

def number (whole fraction : List Char) (exponent : Option (Bool × List Char)) : Binary64 :=
  let natOf (digits : List Char) : Nat := digits.foldl (fun n c => n * 10 + (c.toNat - 48)) 0
  let power : Int := match exponent with
    | some (negative, digits) => if negative then -(natOf digits : Int) else natOf digits
    | none => 0
  Binary64.ofDecimal (natOf (whole ++ fraction)) (power - fraction.length)

/-- What a lexeme is as a token; some lexemes are none, and strings are read elsewhere. -/
def plainToken? (lexeme : Lexeme) : Option TokenKind :=
  match lexeme.kind, lexeme.text with
  | .doWord, _ => some .doWord
  | .word, text => some (.ident (String.ofList text))
  | .virtualWord, _ :: text => some (.virtualIdent (String.ofList text))
  | .hashWord, text => some (.hashOperator (String.ofList text))
  | .operator, text => some (.operator (String.ofList text))
  | .number whole fraction exponent, _ => some (.number (number whole fraction exponent))
  | .openBracket, c :: _ => some (.openBracket c)
  | .closeBracket, c :: _ => some (.closeBracket c)
  | .comma, _ => some .comma
  | _, _ => none

def Gathering.push (state : Gathering) (token : Token) : Gathering :=
  { state with tokens := state.tokens.push token }

/-- Takes one lexeme of a stretch that starts in `column`. -/
def takeLexeme (settings : Settings) (line : Nat) (state : Gathering × Nat) (lexeme : Lexeme) :
    Gathering × Nat :=
  let (state, column) := state
  let behind := column + lexeme.text.length
  match lexeme.kind with
  | .blank | .comment => (state, behind)
  | kind =>
    let (loc, log) := state.log.locate settings line column
    let state := { state with log }
    let remark := column = 0 && state.tokens.isEmpty
    match kind with
    | .quoted content =>
      let log := (List.replicate (Escape.faults content) (Diagnostic.malformedEscape loc)).foldl
        Log.report state.log
      ({ state with log }.push ⟨.str (Escape.text content), loc, lexeme.text.length⟩, behind)
    | .tripled content =>
      if remark then (state, behind)
      else (state.push ⟨.str (String.ofList content), loc, 3⟩, behind)
    | .tripleOpen content =>
      ({ state with pending := some ⟨loc, String.ofList content, remark⟩ }, behind)
    | .loneQuote => ({ state with log := state.log.report (.unterminatedString loc) }, behind)
    | _ =>
      match plainToken? lexeme with
      | some token => (state.push ⟨token, loc, lexeme.text.length⟩, behind)
      | none =>
        let c := lexeme.text.headD '\x00'
        ({ state with log := state.log.report (.unrecognizedCharacter loc c) }, behind)

def stretch (settings : Settings) (line column : Nat) (tokens : Array Token) (log : Log)
    (text : List Char) : Gathering :=
  ((Lexeme.split text).foldl (takeLexeme settings line) (⟨tokens, log, none⟩, column)).1

/-- The width of an indentation: its columns, the column of its first bare tab, and the rest. -/
structure Indentation where
  column : Nat
  firstTab : Option Nat
  rest : List Char

/-- Measures the indentation of a line from `column` on. Carriage returns have no width. -/
def indentation (tabSize : Option Nat) : List Char → Nat → Option Nat → Indentation
  | [], column, firstTab => ⟨column, firstTab, []⟩
  | c :: rest, column, firstTab =>
    if c = ' ' then indentation tabSize rest (column + 1) firstTab
    else if c = '\t' then
      match tabSize with
      | some (size + 1) =>
        indentation tabSize rest ((column / (size + 1) + 1) * (size + 1)) firstTab
      | _ => indentation tabSize rest (column + 1) (firstTab.or (some column))
    else if c = '\r' then indentation tabSize rest column firstTab
    else ⟨column, firstTab, c :: rest⟩

/-- Where a scan stands between two lines of the source. -/
inductive Mode where
  /-- The next line is a new one. -/
  | fresh
  /-- The next line goes on with a string. -/
  | inside (string : OpenTriple) (indent line : Nat) (tokens : Array Token)

/-- The lines so far and where the scan stands. -/
structure State where
  lines : Array TokenLine
  log : Log
  mode : Mode

def addLine (lines : Array TokenLine) (indent line : Nat) (tokens : Array Token) :
    Array TokenLine :=
  if tokens.isEmpty then lines else lines.push ⟨indent, line, tokens.toList⟩

/-- Ends a line, or remembers the string that goes on behind it. -/
def settle (lines : Array TokenLine) (indent line : Nat) (state : Gathering) : State :=
  match state.pending with
  | some string => ⟨lines, state.log, .inside string indent line state.tokens⟩
  | none => ⟨addLine lines indent line state.tokens, state.log, .fresh⟩

def takeLine (settings : Settings) (state : State) (entry : List Char × Nat) : State :=
  let (text, line) := (entry.1, entry.2 + 1)
  match state.mode with
  | .fresh =>
    let margin := indentation settings.tabSize text 0 none
    let log := match margin.firstTab, margin.rest with
      | some column, _ :: _ =>
        let (loc, log) := state.log.locate settings line column
        log.report (.tabIndentation loc)
      | _, _ => state.log
    settle state.lines margin.column line
      (stretch settings line margin.column #[] log margin.rest)
  | .inside string indent first tokens =>
    match Lexeme.upToTriple text with
    | none =>
      let content := string.content ++ "\n" ++ String.ofList text
      { state with mode := .inside { string with content } indent first tokens }
    | some (last, behind) =>
      if string.remark then
        ⟨addLine state.lines indent first tokens, state.log, .fresh⟩
      else
        let content := string.content ++ "\n" ++ String.ofList last
        let tokens := tokens.push ⟨.str content, string.loc, 3⟩
        settle state.lines indent first
          (stretch settings line (last.length + 3) tokens state.log behind)

/-- Ends a scan; a string that goes on has no end. -/
def State.finish (state : State) : State :=
  match state.mode with
  | .fresh => state
  | .inside string indent line tokens =>
    ⟨addLine state.lines indent line tokens,
      state.log.report (.unterminatedTriple string.loc), .fresh⟩

/-- The lines of a source that have tokens, and the reports about them. -/
def source (settings : Settings) (text : List Char) : List TokenLine × Diagnostics :=
  let start : State := ⟨#[], .empty, .fresh⟩
  let final := ((Text.splitLines text).zipIdx.foldl (takeLine settings) start).finish
  (final.lines.toList, final.log.diagnostics)

end Offside.Scan
