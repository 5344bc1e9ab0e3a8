import Offside.CommandLine

/-!
# The program

Reads and writes files for the command line.
-/

namespace Offside.CommandLine

def failureOf : IO.Error → FileFailure
  | .permissionDenied .. => .denied
  | .inappropriateType .. => .isDirectory
  | _ => .notFound

def readSource (path : String) : IO (Except FileFailure String) := do
  try
    let bytes ← IO.FS.readBinFile path
    match String.fromUTF8? bytes with
    | some text => return .ok text
    | none => return .error .notText
  catch e => return .error (failureOf e)

def writeFile (reply : Reply) : IO Reply := do
  match reply.file with
  | none => return reply
  | some (path, contents) =>
    try
      IO.FS.writeFile path contents
      return reply
    catch e => return reply.notWritten (failureOf e)

end Offside.CommandLine

open Offside.CommandLine in
def main (args : List String) : IO UInt32 := do
  let reply ← match parse? args with
    | none => pure usage
    | some request => do writeFile (run request (← readSource request.input))
  IO.print reply.out
  reply.err.forM fun line => IO.eprintln line
  return UInt32.ofNat reply.exit
