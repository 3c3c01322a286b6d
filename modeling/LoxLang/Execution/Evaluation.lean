import LoxLang.Execution.Fault
import LoxLang.Tree.Basic

/-!
# Evaluating expressions

Operators on values, and the value of an expression. Operands are evaluated from left to
right, then the operator is applied; assigning is the only effect an expression has on
the scopes, and what was assigned before an error stays.
-/

namespace LoxLang

/-- What an operator before its operand computes. -/
def UnaryOp.apply : UnaryOp → Value → Except RuntimeFault Value
  | .negate, .number x => .ok (.number (-x))
  | .negate, _ => .error .operandNotNumber
  | .not, value => .ok (.boolean (!value.isTruthy))

/-- What an operator between its operands computes. Any two values can be compared for
equality and two strings can be joined; all else takes numbers, and a number is not
divided by zero of either sign. -/
def BinaryOp.apply : BinaryOp → Value → Value → Except RuntimeFault Value
  | .equal, left, right => .ok (.boolean (left.equals right))
  | .notEqual, left, right => .ok (.boolean (!left.equals right))
  | .plus, .number x, .number y => .ok (.number (x + y))
  | .plus, .string s, .string t => .ok (.string (s ++ t))
  | .plus, _, _ => .error .operandsNotAddable
  | .minus, .number x, .number y => .ok (.number (x - y))
  | .multiply, .number x, .number y => .ok (.number (x * y))
  | .divide, .number x, .number y =>
    if y == 0 then .error .divisionByZero else .ok (.number (x / y))
  | .lessThan, .number x, .number y => .ok (.boolean (x < y))
  | .lessThanOrEqual, .number x, .number y => .ok (.boolean (x ≤ y))
  | .greaterThan, .number x, .number y => .ok (.boolean (y < x))
  | .greaterThanOrEqual, .number x, .number y => .ok (.boolean (y ≤ x))
  | _, _, _ => .error .operandsNotNumbers

/-- The value of an expression, or the error that it ends in, and the scopes then. -/
def Expr.eval : Expr → Scopes → Except RuntimeError Value × Scopes
  | .literal value, scopes => (.ok value, scopes)
  | .grouping inner, scopes => inner.eval scopes
  | .variable name, scopes => ((scopes.get name.lexeme).mapError (.ofName name), scopes)
  | .assign name value, scopes =>
    match value.eval scopes with
    | (.error error, scopes) => (.error error, scopes)
    | (.ok value, scopes) =>
      match scopes.assign name.lexeme value with
      | .ok assigned => (.ok value, assigned)
      | .error fault => (.error (.ofName name fault), scopes)
  | .unary op token right, scopes =>
    match right.eval scopes with
    | (.error error, scopes) => (.error error, scopes)
    | (.ok value, scopes) => ((op.apply value).mapError (.mk token), scopes)
  | .binary left op token right, scopes =>
    match left.eval scopes with
    | (.error error, scopes) => (.error error, scopes)
    | (.ok x, scopes) =>
      match right.eval scopes with
      | (.error error, scopes) => (.error error, scopes)
      | (.ok y, scopes) => ((op.apply x y).mapError (.mk token), scopes)

end LoxLang
