import LoxLang.Scope.Basic
import LoxLang.Token.Basic

/-!
# What can go wrong in a run

A run stops at a fault of the program, at the token where it arose, or because the output
refuses a line.
-/

namespace LoxLang

/-- A fault of a running program. -/
inductive RuntimeFault where
  | operandNotNumber
  | operandsNotNumbers
  | operandsNotAddable
  | divisionByZero
  | undefinedVariable (name : String)
  | uninitializedVariable (name : String)
  deriving DecidableEq

/-- The fault in words. -/
def RuntimeFault.message : RuntimeFault → String
  | .operandNotNumber => "Operand must be a number."
  | .operandsNotNumbers => "Operands must be the numbers."
  | .operandsNotAddable => "Operands must be two numbers or two strings"
  | .divisionByZero => "Division by Zero is not allowed"
  | .undefinedVariable name => "Undefined variable '" ++ name ++ "'."
  | .uninitializedVariable name => "Uninitialized variable '" ++ name ++ "'"

/-- The fault of a program that uses a name without a value. -/
def NameFault.toRuntimeFault (name : String) : NameFault → RuntimeFault
  | .undefined => .undefinedVariable name
  | .uninitialized => .uninitializedVariable name

/-- A fault and the token at which it arose. -/
structure RuntimeError where
  token : Token
  fault : RuntimeFault
  deriving DecidableEq

/-- The line and the fault in words. -/
def RuntimeError.text (error : RuntimeError) : String :=
  "[line " ++ toString error.token.line ++ "] " ++ error.fault.message

/-- The error of a name token without a value. -/
def RuntimeError.ofName (token : Token) (fault : NameFault) : RuntimeError :=
  ⟨token, fault.toRuntimeFault token.lexeme⟩

/-- Why a run stopped. -/
inductive ExecutionError where
  | runtime (error : RuntimeError)
  /-- The output refused a line, for the given reason. -/
  | output (reason : String)
  deriving DecidableEq

/-- The reason in words. -/
def ExecutionError.text : ExecutionError → String
  | .runtime error => error.text
  | .output reason => "Failed to write program output: " ++ reason

end LoxLang
