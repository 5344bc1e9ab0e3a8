import Offside.Compilation
import Offside.Program.Dump

/-!
# The command line

The command reads one file, compiles it, and prints the program or writes it to a file. On
request it prints the tree first. If the source has errors, the reports go to the error stream.
-/

namespace Offside.CommandLine

/-- What a user asks for. -/
structure Request where
  input : String
  /-- The file that gets the program; without it the program is printed. -/
  output : Option String
  noPrelude : Bool
  traceMacros : Bool
  tabSize : Option Nat
  dumpTree : Bool

/-- What has been read of the arguments so far. -/
structure Arguments where
  input : Option String := none
  output : Option String := none
  noPrelude : Bool := false
  traceMacros : Bool := false
  tabSize : Option Nat := none
  dumpTree : Bool := false

/-- Takes the name of the file to compile. -/
def Arguments.takeInput (arguments : Arguments) (text : String) : Option Arguments :=
  if arguments.input.isSome then none else some { arguments with input := some text }

/-- Takes the name of the file to write. -/
def Arguments.takeOutput (arguments : Arguments) (text : String) : Option Arguments :=
  if arguments.output.isSome then none else some { arguments with output := some text }

/-- The number that some digits stand for, behind a plus sign or none. -/
def number? (text : String) : Option Nat :=
  let digits := match text.toList with
    | '+' :: rest => rest
    | chars => chars
  if digits.isEmpty || !digits.all Char.isDigit then none
  else some (digits.foldl (fun n c => n * 10 + (c.toNat - 48)) 0)

/-- Takes the width of tabs, a number of 32 bits. -/
def Arguments.takeTabSize (arguments : Arguments) (text : String) : Option Arguments := do
  guard arguments.tabSize.isNone
  let size ← number? text
  guard (size < 4294967296)
  return { arguments with tabSize := some size }

/-- Takes an option that has no value; none is given twice. -/
def Arguments.takeFlag (arguments : Arguments) (name : String) : Option Arguments :=
  match name with
  | "no-prelude" =>
    if arguments.noPrelude then none else some { arguments with noPrelude := true }
  | "trace-macros" =>
    if arguments.traceMacros then none else some { arguments with traceMacros := true }
  | "dump-tree" =>
    if arguments.dumpTree then none else some { arguments with dumpTree := true }
  | _ => none

def Arguments.takeValue (arguments : Arguments) (name value : String) : Option Arguments :=
  match name with
  | "output-file" => arguments.takeOutput value
  | "tab-size" => arguments.takeTabSize value
  | _ => none

/-- Decides whether an argument is an option rather than a name. -/
def isOption (text : String) : Bool :=
  match text.toList with
  | '-' :: _ :: _ => true
  | _ => false

/-- Reads arguments. Behind two dashes every argument is the name of a file. -/
def read (arguments : Arguments) : List String → Option Arguments
  | [] => some arguments
  | text :: rest =>
    match text.toList with
    | ['-', '-'] =>
      rest.foldlM Arguments.takeInput arguments
    | '-' :: '-' :: name =>
      match name.span (· ≠ '=') with
      | (name, '=' :: value) => do
          read (← arguments.takeValue (String.ofList name) (String.ofList value)) rest
      | (name, _) =>
        let name := String.ofList name
        match arguments.takeFlag name, rest with
        | some arguments, rest => read arguments rest
        | none, value :: rest =>
          if isOption value then none
          else do read (← arguments.takeValue name value) rest
        | none, [] => none
    | ['-', 'o'] =>
      match rest with
      | value :: rest =>
        if isOption value then none else do read (← arguments.takeOutput value) rest
      | [] => none
    | '-' :: 'o' :: '=' :: value => do
        read (← arguments.takeOutput (String.ofList value)) rest
    | '-' :: 'o' :: value => do read (← arguments.takeOutput (String.ofList value)) rest
    | '-' :: _ :: _ => none
    | _ => do read (← arguments.takeInput text) rest

/-- What the arguments ask for, if they are proper. -/
def parse? (args : List String) : Option Request := do
  let arguments ← read {} args
  let input ← arguments.input
  return { input, output := arguments.output, noPrelude := arguments.noPrelude,
           traceMacros := arguments.traceMacros, tabSize := arguments.tabSize,
           dumpTree := arguments.dumpTree }

/-- Why a file cannot be read or written. -/
inductive FileFailure where
  | notFound
  | denied
  | notDirectory
  | isDirectory
  /-- The bytes of the file are no text. -/
  | notText
deriving DecidableEq

/-- The number, the name and the message of a failure. -/
def FileFailure.parts : FileFailure → Nat × String × String
  | .notFound => (2, "NotFound", "No such file or directory")
  | .denied => (13, "PermissionDenied", "Permission denied")
  | .notDirectory => (20, "NotADirectory", "Not a directory")
  | .isDirectory => (21, "IsADirectory", "Is a directory")
  | .notText => (0, "InvalidData", "stream did not contain valid UTF-8")

def FileFailure.message (failure : FileFailure) : String :=
  let (code, _, text) := failure.parts
  if failure = .notText then text else s!"{text} (os error {code})"

def FileFailure.detail (failure : FileFailure) : String :=
  let (code, kind, text) := failure.parts
  s!"Os \x7b code: {code}, kind: {kind}, message: {Text.quote text} \x7d"

/-- What the command does. -/
structure Reply where
  exit : Nat
  out : String
  err : List String
  /-- The name and the contents of the file that is written. -/
  file : Option (String × String)

def usage : Reply :=
  ⟨2, "", ["Usage: [OPTIONS] <INPUT_FILE>"], none⟩

def environment : Environment :=
  Environment.standard.withMacro "print" (.following 1 1) (.call "print")

def compileFile (request : Request) (source : String) : Reply :=
  let options : CompileOptions :=
    { prelude := !request.noPrelude, trace := request.traceMacros, keepText := true,
      tabSize := request.tabSize }
  let compilation := compile request.input source.toList environment options
  let tree := if request.dumpTree then compilation.unit.tree.text ++ "\n" else ""
  match compilation.program, compilation.isOk with
  | some program, true =>
    match request.output with
    | some path => ⟨0, tree, [], some (path, program.dump)⟩
    | none => ⟨0, tree ++ program.dump ++ "\n", [], none⟩
  | _, _ =>
    let count := compilation.unit.diagnostics.size
    ⟨1, tree, compilation.reports ++ [s!"Compilation failed with {count} error(s)."], none⟩

/-- The reply to a request, given what reading the file came to. -/
def run (request : Request) (source : Except FileFailure String) : Reply :=
  match source with
  | .ok source => compileFile request source
  | .error failure =>
    let text := s!"Failed to read file '{request.input}': {failure.message}"
    ⟨1, "", [s!"Error: {Text.quote text}"], none⟩

def Reply.notWritten (reply : Reply) (failure : FileFailure) : Reply :=
  { reply with exit := 1, err := reply.err ++ [s!"Error: {failure.detail}"], file := none }

end Offside.CommandLine
