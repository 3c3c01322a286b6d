import LoxLang.Token.Basic

/-!
# Syntax errors

The ways in which a list of tokens is not a program, each tied to the token at which it
was found, and their wording.
-/

namespace LoxLang

/-- What is wrong at a token. -/
inductive SyntaxProblem where
  | expectedName
  | expectedDeclarationEnd
  | expectedConditionOpen
  | expectedConditionClose
  | expectedValueEnd
  | expectedBlockClose
  | expectedExpression
  | expectedGroupClose
  | invalidTarget
  /-- A problem in a caller's own words. -/
  | other (message : String)
  deriving DecidableEq

/-- The problem in words. -/
def SyntaxProblem.message : SyntaxProblem → String
  | .expectedName => "Expect variable name"
  | .expectedDeclarationEnd => "Expect ';' after variable declaration"
  | .expectedConditionOpen => "Expect '(' after 'if'."
  | .expectedConditionClose => "Expect ')' after if condition."
  | .expectedValueEnd => "Expect ';' after value."
  | .expectedBlockClose => "Expect '\x7d' after block."
  | .expectedExpression => "Expect expression."
  | .expectedGroupClose => "Expect ')' after expression."
  | .invalidTarget => "Invalid assignment target"
  | .other message => message

/-- A problem and the token at which it was found. -/
structure SyntaxError where
  token : Token
  problem : SyntaxProblem
  deriving DecidableEq

/-- The line, the place and the problem in words. -/
def SyntaxError.text (error : SyntaxError) : String :=
  let place := if error.token.kind = .eof then "at end" else "at '" ++ error.token.lexeme ++ "'"
  "[line " ++ toString error.token.line ++ "] Error " ++ place ++ ": " ++ error.problem.message

end LoxLang
