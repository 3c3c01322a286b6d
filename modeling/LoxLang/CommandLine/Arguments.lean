import LoxLang.Session.Settings

/-!
# Command line arguments

The program takes a command, `run` with a file or `repl`, and without one it acts as for
`repl`. The switches `--verbose` and `--rpolish` may stand before or after the command, each
at most once before it and once after it. A request for help or for the version is
answered as soon as it is read. After `--` every argument is a plain word.
-/

namespace LoxLang.CommandLine

/-- What the program is to do. -/
inductive Command where
  | run (file : String)
  | prompt
  deriving DecidableEq

/-- The switches given so far on one side of the command. -/
structure Switches where
  verbose : Bool
  reversePolish : Bool
  deriving DecidableEq

/-- What the arguments ask for. -/
inductive Request where
  | perform (command : Command) (switches : Switches)
  | version
  | help
  /-- The arguments do not fit. -/
  | misuse
  deriving DecidableEq

namespace Switches

/-- No switch. -/
def none : Switches := ⟨false, false⟩

/-- The switches of both sides. -/
def union (a b : Switches) : Switches :=
  ⟨a.verbose || b.verbose, a.reversePolish || b.reversePolish⟩

/-- The settings for a command with these switches. -/
def settings (switches : Switches) (command : Command) : Settings :=
  let base := match command with
    | .run _ => Settings.standard
    | .prompt => Settings.prompt
  (base.withVerbose switches.verbose).withStyle
    (if switches.reversePolish then .reversePolish else .parenthesized)

end Switches

/-- How one argument in front of any `--` reads. -/
inductive Argument where
  | verbose
  | reversePolish
  | version
  | help
  /-- The mark after which all arguments are words. -/
  | endOfOptions
  | word (text : String)
  /-- It looks like an option but is none. -/
  | unknown
  deriving DecidableEq

/-- Reads one argument. Short options may be joined, and the first of them decides. -/
def Argument.ofString (text : String) : Argument :=
  match text.toList with
  | ['-', '-'] => .endOfOptions
  | '-' :: '-' :: name =>
    if name = "verbose".toList then .verbose
    else if name = "rpolish".toList then .reversePolish
    else if name = "version".toList then .version
    else if name = "help".toList then .help
    else .unknown
  | '-' :: 'V' :: _ => .version
  | '-' :: 'h' :: _ => .help
  | '-' :: _ :: _ => .unknown
  | _ => .word text

/-- The request that plain words after `run` make. -/
def requestRun (before after : Switches) : List String → Request
  | [file] => .perform (.run file) (before.union after)
  | _ => .misuse

/-- Reads the arguments after `run`, given the file if it was read already. -/
def afterRun (before after : Switches) (file : List String) : List String → Request
  | [] => requestRun before after file
  | argument :: rest =>
    match Argument.ofString argument with
    | .verbose =>
      if after.verbose then .misuse else afterRun before { after with verbose := true } file rest
    | .reversePolish =>
      if after.reversePolish then .misuse
      else afterRun before { after with reversePolish := true } file rest
    | .help => .help
    | .endOfOptions => requestRun before after (file ++ rest)
    | .word text => if file.isEmpty then afterRun before after [text] rest else .misuse
    | .version => .misuse
    | .unknown => .misuse

/-- Reads the arguments after `repl`. -/
def afterPrompt (before after : Switches) : List String → Request
  | [] => .perform .prompt (before.union after)
  | argument :: rest =>
    match Argument.ofString argument with
    | .verbose =>
      if after.verbose then .misuse else afterPrompt before { after with verbose := true } rest
    | .reversePolish =>
      if after.reversePolish then .misuse
      else afterPrompt before { after with reversePolish := true } rest
    | .help => .help
    | .endOfOptions => if rest.isEmpty then .perform .prompt (before.union after) else .misuse
    | .word _ => .misuse
    | .version => .misuse
    | .unknown => .misuse

/-- Reads the arguments after `help`: at most one command, which may be `help` itself. -/
def afterHelp : List String → Request
  | [] => .help
  | [command] => if ["run", "repl", "help"].contains command then .help else .misuse
  | _ => .misuse

/-- Reads arguments, given the switches read already. -/
def readFrom (before : Switches) : List String → Request
  | [] => .perform .prompt before
  | argument :: rest =>
    match Argument.ofString argument with
    | .verbose =>
      if before.verbose then .misuse else readFrom { before with verbose := true } rest
    | .reversePolish =>
      if before.reversePolish then .misuse else readFrom { before with reversePolish := true } rest
    | .version => .version
    | .help => .help
    | .endOfOptions => if rest.isEmpty then .perform .prompt before else .misuse
    | .word text =>
      if text = "run" then afterRun before .none [] rest
      else if text = "repl" then afterPrompt before .none rest
      else if text = "help" then afterHelp rest
      else .misuse
    | .unknown => .misuse

/-- Reads all arguments. -/
def read (arguments : List String) : Request := readFrom .none arguments

end LoxLang.CommandLine
