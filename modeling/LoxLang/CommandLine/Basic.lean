import LoxLang.CommandLine.Arguments
import LoxLang.Session.Basic
import LoxLang.Text.WhiteSpace

/-!
# The command line program

What the program does with its arguments, as a function: `respond` takes the arguments, the
files and the text typed at the prompt, and gives what is written to both outputs and the
exit code.
-/

namespace LoxLang.CommandLine

/-- Why a file could not be read. -/
inductive ReadFault where
  | notFound
  | isDirectory
  | invalidText
  /-- Any other reason, in the words of the system. -/
  | other (reason : String)
  deriving DecidableEq

/-- The reason in words. -/
def ReadFault.message : ReadFault → String
  | .notFound => "No such file or directory (os error 2)"
  | .isDirectory => "Is a directory (os error 21)"
  | .invalidText => "stream did not contain valid UTF-8"
  | .other reason => reason

/-- What the program leaves behind. -/
structure Response where
  exitCode : Nat
  stdout : String
  stderr : String
  deriving DecidableEq

/-- The exit code of a run that ended well. -/
def exitSuccess : Nat := 0

/-- The exit code for arguments that do not fit. -/
def exitMisuse : Nat := 2

/-- The exit code for a file that cannot be read. -/
def exitUnreadable : Nat := 64

/-- The version of the program. -/
def version : String := "0.1.0"

/-- The line that names the program and its version. -/
def versionText : String := "treelox " ++ version ++ "\n"

/-- The forms of the command line. -/
def usageText : String :=
  "A tree-walking interpreter for Lox\n\nUsage: treelox [--verbose] [--rpolish] [run <FILE> | repl]\n"

/-- The lines that greet at a prompt. -/
def banner : String :=
  "Lox " ++ version ++ " | Tree-walking interpreter\n" ++
    "EOF to exit. (Ctrl+D on *nix, Ctrl+Z on Windows)\n"

/-- The mark at which a line may be typed. -/
def promptMark : String := "> "

/-- The events that a session shows, one per line: all but the traces if everything is
logged, else none. -/
def logText (settings : Settings) (events : List Event) : String :=
  if settings.verbose then
    Transcript.textOf ((events.filter (·.level = .debug)).map Event.line)
  else ""

/-- A failed run in words. -/
def failureText : Except RunError Unit → String
  | .ok () => ""
  | .error error => error.text ++ "\n"

/-- What one run wrote to both outputs, and the session afterwards. -/
structure Exchange where
  stdout : String
  stderr : String
  outcome : Except RunError Unit
  session : Session Transcript

/-- Runs a source text and collects what it wrote. -/
def exchange (session : Session Transcript) (source : String) : Exchange :=
  let report := session.run source
  { stdout := report.session.output.textFrom session.output.lines.size
    stderr := logText session.settings report.events ++ failureText report.outcome
    outcome := report.outcome
    session := report.session }

/-- Runs the lines typed at a prompt one after the other, each without the white space at
its ends. A failed line does not end the session. -/
def converse (session : Session Transcript) : List String → Response
  | [] => ⟨exitSuccess, promptMark, ""⟩
  | line :: rest =>
    let answer := exchange session (Text.trim line)
    let more := converse answer.session rest
    ⟨more.exitCode, promptMark ++ answer.stdout ++ more.stdout, answer.stderr ++ more.stderr⟩

/-- The session at a prompt over the typed text. -/
def respondPrompt (settings : Settings) (typed : String) : Response :=
  let talk := converse (.new settings .unlimited) (Text.lines typed)
  { talk with stdout := banner ++ talk.stdout }

/-- The text of a file. -/
def decode (bytes : ByteArray) : Except ReadFault String :=
  match String.fromUTF8? bytes with
  | some text => .ok text
  | none => .error .invalidText

/-- The run of a file whose reading gave this. -/
def respondRun (settings : Settings) (file : String) (content : Except ReadFault ByteArray) :
    Response :=
  match content.bind decode with
  | .error fault =>
    ⟨exitUnreadable, "", "Could not read '" ++ file ++ "': " ++ fault.message ++ "\n"⟩
  | .ok source =>
    let answer := exchange (.new settings .unlimited) source
    let code := match answer.outcome with
      | .ok () => exitSuccess
      | .error error => error.exitCode
    ⟨code, answer.stdout, answer.stderr⟩

/-- What the program does with its arguments. -/
def respond (arguments : List String) (readFile : String → Except ReadFault ByteArray)
    (typed : String) :
    Response :=
  match read arguments with
  | .version => ⟨exitSuccess, versionText, ""⟩
  | .help => ⟨exitSuccess, usageText, ""⟩
  | .misuse => ⟨exitMisuse, "", usageText⟩
  | .perform command switches =>
    match command with
    | .run file => respondRun (switches.settings command) file (readFile file)
    | .prompt => respondPrompt (switches.settings command) typed

end LoxLang.CommandLine
