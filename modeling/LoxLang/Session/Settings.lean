import LoxLang.Tree.Render

/-!
# Settings of a session
-/

namespace LoxLang

/-- What can be chosen for a session. -/
structure Settings where
  /-- Every stage is logged, the syntax trees included. -/
  verbose : Bool
  /-- Programs come from a prompt: the last semicolon may be left out, and the values of
  expression statements are written. -/
  interactive : Bool
  /-- How syntax trees are logged. -/
  style : TreeStyle
  deriving DecidableEq

namespace Settings

/-- The settings for running a file. -/
def standard : Settings := ⟨false, false, .parenthesized⟩

/-- The settings for a prompt. -/
def prompt : Settings := { standard with interactive := true }

/-- Chooses whether everything is logged. -/
def withVerbose (settings : Settings) (verbose : Bool) : Settings := { settings with verbose }

/-- Chooses how trees are logged. -/
def withStyle (settings : Settings) (style : TreeStyle) : Settings := { settings with style }

/-- The lowest level that is logged when nothing else is asked for. -/
def logFilter (settings : Settings) : String := if settings.verbose then "debug" else "warn"

end Settings

end LoxLang
