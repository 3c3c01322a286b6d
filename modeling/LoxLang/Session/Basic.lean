import LoxLang.Execution.Interpreter
import LoxLang.Session.Event
import LoxLang.Session.Settings

/-!
# Sessions

A session runs source texts one after the other in the same scopes and on the same
output. A text that is no program leaves the session as it was; a program that stops
keeps what it did before.
-/

namespace LoxLang

/-- Settings, the scopes so far, and the output. -/
structure Session (σ : Type) where
  settings : Settings
  interpreter : Interpreter
  output : σ

/-- What a run comes to: how it ended, what it logged, and the session afterwards. -/
structure RunReport (σ : Type) where
  outcome : Except RunError Unit
  events : List Event
  session : Session σ

namespace Session

variable {σ : Type}

/-- A session that has run nothing. A prompt writes the values of expression statements. -/
def new (settings : Settings) (output : σ) : Session σ :=
  ⟨settings, .new settings.interactive, output⟩

/-- Runs a program. -/
def execute [Sink σ] (session : Session σ) (program : Program) : RunReport σ :=
  match session.interpreter.interpret program session.output with
  | (result, interpreter, output) =>
    let stopped := match result with
      | .ok () => []
      | .error error => [.stopped error]
    ⟨result.mapError .execution, .interpreting program.length :: stopped,
      { session with interpreter, output }⟩

/-- The events of a syntax tree: one if everything is logged. -/
def treeEvents (session : Session σ) (program : Program) : List Event :=
  if session.settings.verbose then [.syntaxTree (Program.render session.settings.style program)]
  else []

/-- Reads tokens as a program and runs it. -/
def runTokens [Sink σ] (session : Session σ) (tokens : List Token) : RunReport σ :=
  let passage := Grammar.program session.settings.interactive tokens
  let parsing := Event.parsing tokens.length :: passage.traces.map .syntaxError
  match passage.reported with
  | [] =>
    let report := session.execute passage.body
    { report with events := parsing ++ session.treeEvents passage.body ++ report.events }
  | errors => ⟨.error (.syntactic errors), parsing, session⟩

/-- Runs a source text. -/
def run [Sink σ] (session : Session σ) (source : String) : RunReport σ :=
  let items := (Cursor.start source).scan
  let scanning := Event.tokenizing source.utf8ByteSize :: items.map .ofScanned
  match errorsOf items with
  | [] =>
    let report := session.runTokens (tokensOf items)
    { report with events := scanning ++ report.events }
  | errors => ⟨.error (.lexical errors), scanning, session⟩

end Session

end LoxLang
