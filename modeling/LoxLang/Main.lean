import LoxLang.CommandLine.Basic

/-!
# The program

The outer layer: it reads the file or the typed lines, lets `CommandLine` decide, and writes
what that gives.
-/

namespace LoxLang.CommandLine

/-- Reads a file. -/
def readFile (file : String) : IO (Except ReadFault ByteArray) := do
  try
    return .ok (← IO.FS.readBinFile file)
  catch
    | .noFileOrDirectory .. => return .error .notFound
    | .inappropriateType .. => return .error .isDirectory
    | error => return .error (.other (toString error))

/-- Writes a response and gives its exit code. -/
def deliver (response : Response) : IO UInt32 := do
  IO.print response.stdout
  IO.eprint response.stderr
  return response.exitCode.toUInt32

/-- Runs line after line as they are typed. -/
partial def converseLive (session : Session Transcript) : IO UInt32 := do
  IO.print promptMark
  (← IO.getStdout).flush
  let line ← (← IO.getStdin).getLine
  if line.isEmpty then return exitSuccess.toUInt32
  let answer := exchange session (Text.trim line)
  IO.print answer.stdout
  IO.eprint answer.stderr
  converseLive answer.session

end LoxLang.CommandLine

open LoxLang.CommandLine in
/-- Acts on the command line arguments. -/
def main (arguments : List String) : IO UInt32 := do
  match read arguments with
  | .perform .prompt switches =>
    IO.print banner
    converseLive (.new (switches.settings .prompt) .unlimited)
  | .perform (.run file) _ =>
    let content ← readFile file
    deliver (respond arguments (fun _ => content) "")
  | _ => deliver (respond arguments (fun _ => .error .notFound) "")
