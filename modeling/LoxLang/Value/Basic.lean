import LoxLang.Decimal.Layout

/-!
# Values

A value is a number, a string, a truth value or `nil`. Literals in a program are
values, too. A value has two texts: `literalText`, in which a syntax tree shows a
literal, and `display`, in which a program prints a value.
-/

namespace LoxLang

/-- What expressions compute and literals denote. -/
inductive Value where
  | number (x : Float)
  | string (s : String)
  | boolean (b : Bool)
  | nil
  deriving DecidableEq, Inhabited

namespace Value

/-- Only `nil` and `false` count as false. -/
def isTruthy : Value → Bool
  | .nil => false
  | .boolean b => b
  | _ => true

/-- Equality as the operator `==` sees it: values of different kinds differ, and numbers
are compared as numbers, so `0` equals `-0` and a value that is no number differs from
itself. -/
def equals : Value → Value → Bool
  | .number x, .number y => x == y
  | .string s, .string t => s == t
  | .boolean a, .boolean b => a == b
  | .nil, .nil => true
  | _, _ => false

/-- Numbers in a syntax tree: always positional. -/
def literalNumber : NumberFormat := ⟨"NaN", "inf", fun _ => true⟩

/-- Numbers in program output: positional from `10⁻⁴` up to, not including, `10¹⁶`. -/
def displayNumber : NumberFormat := ⟨"nan", "inf", fun place => -4 ≤ place && place < 16⟩

/-- The words for the truth values. -/
def booleanText (b : Bool) : String := if b then "true" else "false"

/-- The text of a literal in a syntax tree; strings stand without quotes. -/
def literalText : Value → String
  | .number x => literalNumber.write x
  | .string s => s
  | .boolean b => booleanText b
  | .nil => "nil"

/-- The text of a value in program output; strings stand in single quotes, with nothing
escaped. -/
def display : Value → String
  | .number x => displayNumber.write x
  | .string s => "'" ++ s ++ "'"
  | .boolean b => booleanText b
  | .nil => "nil"

end Value

end LoxLang
