import LoxLang.Session.Error

/-!
# Log events

What a run tells its log: the stages as they begin, every token and lexical error, every
syntax error with the rules then open, the syntax tree if asked for, and the error that
stopped a program.
-/

namespace LoxLang

/-- Something worth logging. -/
inductive Event where
  /-- Scanning begins, on so many bytes of text. -/
  | tokenizing (bytes : Nat)
  | token (token : Token)
  | lexicalError (error : LexicalError)
  /-- Reading begins, on so many tokens. -/
  | parsing (tokens : Nat)
  | syntaxError (trace : Grammar.Trace)
  | syntaxTree (text : String)
  /-- Running begins, with so many statements. -/
  | interpreting (statements : Nat)
  | stopped (error : ExecutionError)
  deriving DecidableEq

/-- How much an event matters; traces are for the few. -/
inductive LogLevel where
  | debug
  | trace
  deriving DecidableEq

/-- The name of a level. -/
def LogLevel.name : LogLevel → String
  | .debug => "DEBUG"
  | .trace => "TRACE"

namespace Event

/-- The event of a scanned item. -/
def ofScanned : Scanned → Event
  | .ok found => token found
  | .error error => lexicalError error

/-- The level of an event. -/
def level : Event → LogLevel
  | .syntaxError _ => .trace
  | _ => .debug

/-- The message of an event. -/
def message : Event → String
  | .tokenizing _ => "tokenizing"
  | .token found => found.describe
  | .lexicalError _ => "tokenize error"
  | .parsing _ => "parsing"
  | .syntaxError _ => "syntax error"
  | .syntaxTree text => "syntax tree:\n" ++ text
  | .interpreting _ => "interpreting"
  | .stopped _ => "execution stopped"

/-- What an event says beside its message. -/
def fields : Event → List (String × String)
  | .tokenizing bytes => [("bytes", toString bytes)]
  | .token found => [("line", toString found.line)]
  | .lexicalError error => [("error", error.text)]
  | .parsing tokens => [("tokens", toString tokens)]
  | .syntaxError trace => [("rules", trace.trail.text), ("error", trace.error.text)]
  | .syntaxTree _ => []
  | .interpreting statements => [("statements", toString statements)]
  | .stopped error => [("error", error.text)]

/-- An event as a line of a log. -/
def line (event : Event) : String :=
  event.level.name ++ " " ++ event.message ++
    String.join (event.fields.map fun (field, text) => " " ++ field ++ "=" ++ text)

end Event

end LoxLang
