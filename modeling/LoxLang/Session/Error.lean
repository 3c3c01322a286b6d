import LoxLang.Execution.Fault
import LoxLang.Grammar.Statement
import LoxLang.Token.Scan

/-!
# How a run can fail

A source text is run in three stages, and the first stage that fails ends the run: its
text has lexical errors, its tokens have syntax errors, or the program stops. The first
two report all their errors, the last the one that stopped the program.
-/

namespace LoxLang

/-- Why a source text could not be run to its end. -/
inductive RunError where
  | lexical (errors : List LexicalError)
  | syntactic (errors : List SyntaxError)
  | execution (error : ExecutionError)
  deriving DecidableEq

namespace RunError

/-- The errors in words, one per line. -/
def text : RunError → String
  | .lexical errors => "\n".intercalate (errors.map LexicalError.text)
  | .syntactic errors => "\n".intercalate (errors.map SyntaxError.text)
  | .execution error => error.text

/-- The exit code for a source text that is no program. -/
def exitDataError : Nat := 65

/-- The exit code for a program that stopped. -/
def exitSoftwareError : Nat := 70

/-- The exit code that tells the kind of failure. -/
def exitCode : RunError → Nat
  | .lexical _ => exitDataError
  | .syntactic _ => exitDataError
  | .execution _ => exitSoftwareError

end RunError

/-- The program that a source text is, or why it is none. -/
def Program.ofSource (lenient : Bool) (source : String) : Except RunError Program :=
  match tokenize source with
  | .error errors => .error (.lexical errors)
  | .ok tokens => (Grammar.parse lenient tokens).mapError .syntactic

end LoxLang
