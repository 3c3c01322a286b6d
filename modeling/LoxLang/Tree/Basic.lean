import LoxLang.Token.Basic

/-!
# Syntax trees

Expressions, statements and programs. Operator and name nodes keep the token they were
read from, which only error messages show; what is computed depends on the operator and
on the name's lexeme alone.
-/

namespace LoxLang

/-- The operators before their operand. -/
inductive UnaryOp where
  | negate
  | not
  deriving DecidableEq

/-- The operators between their operands. -/
inductive BinaryOp where
  | equal
  | notEqual
  | lessThan
  | lessThanOrEqual
  | greaterThan
  | greaterThanOrEqual
  | plus
  | minus
  | multiply
  | divide
  deriving DecidableEq

/-- The symbol of an operator before its operand. -/
def UnaryOp.symbol : UnaryOp → String
  | .negate => "-"
  | .not => "!"

/-- The symbol of an operator between its operands. -/
def BinaryOp.symbol : BinaryOp → String
  | .equal => "=="
  | .notEqual => "!="
  | .lessThan => "<"
  | .lessThanOrEqual => "<="
  | .greaterThan => ">"
  | .greaterThanOrEqual => ">="
  | .plus => "+"
  | .minus => "-"
  | .multiply => "*"
  | .divide => "/"

/-- Expressions. -/
inductive Expr where
  | literal (value : Value)
  | grouping (inner : Expr)
  | unary (op : UnaryOp) (token : Token) (right : Expr)
  | binary (left : Expr) (op : BinaryOp) (token : Token) (right : Expr)
  | variable (name : Token)
  | assign (name : Token) (value : Expr)
  deriving DecidableEq, Inhabited

/-- Statements. -/
inductive Stmt where
  | expression (e : Expr)
  | print (e : Expr)
  | declare (name : Token) (initial : Option Expr)
  | block (body : List Stmt)
  | conditional (condition : Expr) (yes : Stmt) (no : Option Stmt)
  deriving Inhabited

/-- Statements in the order in which they run. -/
abbrev Program := List Stmt

/-! ### Equality of statements is decidable -/

mutual

/-- Decides whether two statements are equal. -/
def Stmt.decEq : (s t : Stmt) → Decidable (s = t)
  | .expression a, .expression b => decidable_of_iff (a = b) (by simp)
  | .print a, .print b => decidable_of_iff (a = b) (by simp)
  | .declare n a, .declare m b => decidable_of_iff (n = m ∧ a = b) (by simp)
  | .block a, .block b =>
    match decEqAll a b with
    | .isTrue h => .isTrue (by rw [h])
    | .isFalse h => .isFalse (by simpa using h)
  | .conditional c s none, .conditional d t none =>
    match Stmt.decEq s t with
    | .isTrue h => decidable_of_iff (c = d) (by simp [h])
    | .isFalse h => .isFalse (by simp [h])
  | .conditional c s (some u), .conditional d t (some v) =>
    match Stmt.decEq s t, Stmt.decEq u v with
    | .isTrue h, .isTrue g => decidable_of_iff (c = d) (by simp [h, g])
    | .isFalse h, _ => .isFalse (by simp [h])
    | _, .isFalse g => .isFalse (by simp [g])
  | .conditional _ _ none, .conditional _ _ (some _) => .isFalse (by simp)
  | .conditional _ _ (some _), .conditional _ _ none => .isFalse (by simp)
  | .expression _, .print _ | .expression _, .declare _ _ | .expression _, .block _
  | .expression _, .conditional _ _ _ | .print _, .expression _ | .print _, .declare _ _
  | .print _, .block _ | .print _, .conditional _ _ _ | .declare _ _, .expression _
  | .declare _ _, .print _ | .declare _ _, .block _ | .declare _ _, .conditional _ _ _
  | .block _, .expression _ | .block _, .print _ | .block _, .declare _ _
  | .block _, .conditional _ _ _ | .conditional _ _ _, .expression _
  | .conditional _ _ _, .print _ | .conditional _ _ _, .declare _ _
  | .conditional _ _ _, .block _ => .isFalse (by simp)

/-- Decides whether two lists of statements are equal. -/
def Stmt.decEqAll : (ss ts : List Stmt) → Decidable (ss = ts)
  | [], [] => .isTrue rfl
  | [], _ :: _ => .isFalse (by simp)
  | _ :: _, [] => .isFalse (by simp)
  | s :: ss, t :: ts =>
    match Stmt.decEq s t, Stmt.decEqAll ss ts with
    | .isTrue h, .isTrue g => .isTrue (by rw [h, g])
    | .isFalse h, _ => .isFalse (by simp [h])
    | _, .isFalse g => .isFalse (by simp [g])

end

instance : DecidableEq Stmt := Stmt.decEq

end LoxLang
