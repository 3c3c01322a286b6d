import LoxLang.Grammar.Rules

/-!
# Reading expressions

The rules for expressions as plain replies: `expression`, `assignment`, `binary`, `operand`,
`chain`, `unary` and `primary`. The equations `expression_eq` to `primary_eq` say what each of
them does.
-/

namespace LoxLang.Grammar

/-! ### The rules as plain replies -/

/-- Any expression. -/
def expression (trail : Trail) (tokens : List Token) : Reply Expr :=
  (Reading.expression trail tokens).reply

/-- An expression of the loosest operator level, perhaps assigned to. -/
def assignment (trail : Trail) (tokens : List Token) : Reply Expr :=
  (Reading.assignment trail tokens).reply

/-- Operands of one level between its operators. -/
def binary (level : Level) (trail : Trail) (tokens : List Token) : Reply Expr :=
  (Reading.binary level trail tokens).reply

/-- What stands beside the operators of a level. -/
def operand (level : Level) (trail : Trail) (tokens : List Token) : Reply Expr :=
  (Reading.operand level trail tokens).reply

/-- The operators of a level that follow an operand. -/
def chain (level : Level) (trail : Trail) (left : Expr) (tokens : List Token) : Reply Expr :=
  (Reading.chain level trail left tokens).reply

/-- Operators before an operand. -/
def unary (trail : Trail) (tokens : List Token) : Reply Expr := (Reading.unary trail tokens).reply

/-- A literal, a variable, or an expression in parentheses. -/
def primary (trail : Trail) (tokens : List Token) : Reply Expr :=
  (Reading.primary trail tokens).reply

theorem expression_eq (trail : Trail) (tokens : List Token) :
    expression trail tokens = assignment (.expression :: trail) tokens := by
  rw [expression, Reading.expression]; rfl

theorem assignment_eq (trail : Trail) (tokens : List Token) :
    assignment trail tokens = (binary .equality (.assignment :: trail) tokens).bind fun target rest =>
      match rest with
      | [] => .done target []
      | equals :: after =>
        if equals.kind = .equal then
          (assignment (.assignment :: trail) after).bind fun value rest =>
            .assign target equals value rest
        else .done target (equals :: after) := by
  rw [assignment, Reading.assignment]
  apply Reading.reply_bind
  intro target rest h
  cases rest with
  | nil => rfl
  | cons equals after =>
    dsimp only
    split
    · exact Reading.reply_bind fun _ _ _ => rfl
    · rfl

theorem binary_eq (level : Level) (trail : Trail) (tokens : List Token) :
    binary level trail tokens = (operand level (level.rule :: trail) tokens).bind fun left rest =>
      chain level (level.rule :: trail) left rest := by
  rw [binary, Reading.binary]
  exact Reading.reply_bind fun _ _ _ => rfl

theorem operand_eq (level : Level) (trail : Trail) (tokens : List Token) :
    operand level trail tokens = match level.tighter? with
    | some next => binary next trail tokens
    | none => unary trail tokens := by
  rw [operand, Reading.operand]
  split <;> simp_all [binary, unary]

theorem chain_eq (level : Level) (trail : Trail) (left : Expr) (tokens : List Token) :
    chain level trail left tokens = match tokens with
    | [] => .done left []
    | token :: after =>
      match level.operator? token.kind with
      | some op =>
        (operand level trail after).bind fun right rest =>
          chain level trail (.binary left op token right) rest
      | none => .done left (token :: after) := by
  cases tokens with
  | nil => rw [chain, Reading.chain]; rfl
  | cons token after =>
    rw [chain, Reading.chain]
    dsimp only
    cases level.operator? token.kind with
    | some op => exact Reading.reply_bind fun _ _ _ => rfl
    | none => rfl

theorem unary_eq (trail : Trail) (tokens : List Token) :
    unary trail tokens = match tokens with
    | [] => primary (.unary :: trail) []
    | token :: after =>
      match unaryOperator? token.kind with
      | some op =>
        (unary (.unary :: trail) after).bind fun right rest => .done (.unary op token right) rest
      | none => primary (.unary :: trail) (token :: after) := by
  cases tokens with
  | nil => rw [unary, Reading.unary]; rfl
  | cons token after =>
    rw [unary, Reading.unary]
    dsimp only
    cases unaryOperator? token.kind with
    | some op => exact Reading.reply_bind fun _ _ _ => rfl
    | none => rfl

theorem primary_eq (trail : Trail) (tokens : List Token) :
    primary trail tokens = match tokens with
    | [] => .fail (.primary :: trail) .expectedExpression []
    | token :: after =>
      match atom? token with
      | some atom => .done atom after
      | none =>
        if token.kind = .leftParen then
          (expression (.primary :: trail) after).bind fun inner rest =>
            (Reply.expect (.primary :: trail) .rightParen .expectedGroupClose rest).bind fun _ rest =>
              .done (.grouping inner) rest
        else .fail (.primary :: trail) .expectedExpression (token :: after) := by
  cases tokens with
  | nil => rw [primary, Reading.primary]; rfl
  | cons token after =>
    rw [primary, Reading.primary]
    dsimp only
    cases atom? token with
    | some atom => rfl
    | none =>
      dsimp only
      split
      · refine Reading.reply_bind fun _ _ _ => ?_
        exact Reading.reply_bind fun _ _ _ => rfl
      · rfl

end LoxLang.Grammar
