import LoxLang.Grammar.Statement

/-!
# The grammar

The grammar of programs as rules that derive a tree from a list of tokens:

    program     := declaration*
    declaration := varDecl | statement
    varDecl     := "var" NAME ("=" expression)? ";"
    statement   := ifStmt | printStmt | block | exprStmt
    ifStmt      := "if" "(" expression ")" statement ("else" statement)?
    printStmt   := "print" expression ";"
    block       := "{" declaration* "}"
    exprStmt    := expression ";"
    expression  := assignment
    assignment  := equality ("=" assignment)?
    equality    := comparison (("!=" | "==") comparison)*
    comparison  := term ((">" | ">=" | "<" | "<=") term)*
    term        := factor (("-" | "+") factor)*
    factor      := unary (("*" | "/") unary)*
    unary       := ("!" | "-") unary | primary
    primary     := NUMBER | STRING | "true" | "false" | "nil" | NAME | "(" expression ")"

What stands on the left of `=` is a name alone. A repetition of operators is written as a
left recursion, which is how the trees lean. The rules say nothing about how a list of tokens
is to be read.

The rule for conditionals is ambiguous: in `if (a) if (b) x; else y;` the `else` may belong
to either `if`. `Stmt.ElseNearest` picks the trees in which every `else` belongs to the
nearest `if` that it can belong to.
-/

namespace LoxLang

namespace Grammar

/-! ### Operators -/

/-- The operator that a token stands for between operands, level by level. -/
inductive Level.Infix : Level → TokenKind → BinaryOp → Prop where
  | equal : Infix .equality .equalEqual .equal
  | notEqual : Infix .equality .bangEqual .notEqual
  | lessThan : Infix .comparison .less .lessThan
  | lessThanOrEqual : Infix .comparison .lessEqual .lessThanOrEqual
  | greaterThan : Infix .comparison .greater .greaterThan
  | greaterThanOrEqual : Infix .comparison .greaterEqual .greaterThanOrEqual
  | plus : Infix .term .plus .plus
  | minus : Infix .term .minus .minus
  | multiply : Infix .factor .star .multiply
  | divide : Infix .factor .slash .divide

/-- The operator that a token stands for before an operand. -/
inductive Prefixed : TokenKind → UnaryOp → Prop where
  | negate : Prefixed .minus .negate
  | not : Prefixed .bang .not

/-- The rule for the operands of a level: each level's operands are of the next tighter one. -/
def Level.operandRule : Level → Rule
  | .equality => .comparison
  | .comparison => .term
  | .term => .factor
  | .factor => .unary

theorem Level.infix_iff (level : Level) (kind : TokenKind) (op : BinaryOp) :
    level.Infix kind op ↔ level.operator? kind = some op := by
  constructor
  · intro h
    cases h <;> rfl
  · intro h
    cases level <;> cases kind <;>
      simp only [Level.operator?, reduceCtorEq, Option.some.injEq] at h <;>
      subst h <;> constructor

theorem prefixed_iff (kind : TokenKind) (op : UnaryOp) :
    Prefixed kind op ↔ unaryOperator? kind = some op := by
  constructor
  · intro h
    cases h <;> rfl
  · intro h
    cases kind <;> simp only [unaryOperator?, reduceCtorEq, Option.some.injEq] at h <;>
      subst h <;> constructor

/-- The end of the text is no operator. -/
theorem Level.Infix.ne_eof {level : Level} {kind : TokenKind} {op : BinaryOp}
    (h : level.Infix kind op) : kind ≠ .eof := by
  cases h <;> decide

theorem Prefixed.ne_eof {kind : TokenKind} {op : UnaryOp} (h : Prefixed kind op) : kind ≠ .eof := by
  cases h <;> decide

/-! ### Expressions -/

/-- A rule for expressions derives a tree from tokens. -/
inductive DerivesExpr : Rule → List Token → Expr → Prop where
  | expression {ts : List Token} {e : Expr} :
      DerivesExpr .assignment ts e → DerivesExpr .expression ts e
  | value {ts : List Token} {e : Expr} : DerivesExpr .equality ts e → DerivesExpr .assignment ts e
  /-- What stands on the left of `=` is a name alone. -/
  | assign {ts us : List Token} {name equals : Token} {value : Expr} :
      DerivesExpr .equality ts (.variable name) → equals.kind = .equal →
      DerivesExpr .assignment us value →
      DerivesExpr .assignment (ts ++ equals :: us) (.assign name value)
  | operand {level : Level} {ts : List Token} {e : Expr} :
      DerivesExpr level.operandRule ts e → DerivesExpr level.rule ts e
  /-- The left operand may hold operators of the same level, the right one may not. -/
  | operation {level : Level} {ts us : List Token} {operator : Token} {op : BinaryOp}
      {left right : Expr} :
      DerivesExpr level.rule ts left → level.Infix operator.kind op →
      DerivesExpr level.operandRule us right →
      DerivesExpr level.rule (ts ++ operator :: us) (.binary left op operator right)
  | unary {ts : List Token} {operator : Token} {op : UnaryOp} {right : Expr} :
      Prefixed operator.kind op → DerivesExpr .unary ts right →
      DerivesExpr .unary (operator :: ts) (.unary op operator right)
  | primary {ts : List Token} {e : Expr} : DerivesExpr .primary ts e → DerivesExpr .unary ts e
  | number {token : Token} {value : Value} : token.kind = .number → token.literal = some value →
      DerivesExpr .primary [token] (.literal value)
  | string {token : Token} {value : Value} : token.kind = .string → token.literal = some value →
      DerivesExpr .primary [token] (.literal value)
  | truth {token : Token} : token.kind = .kwTrue →
      DerivesExpr .primary [token] (.literal (.boolean true))
  | falsity {token : Token} : token.kind = .kwFalse →
      DerivesExpr .primary [token] (.literal (.boolean false))
  | nil {token : Token} : token.kind = .kwNil → DerivesExpr .primary [token] (.literal .nil)
  | name {token : Token} : token.kind = .identifier → DerivesExpr .primary [token] (.variable token)
  | grouping {ts : List Token} {opening closing : Token} {inner : Expr} :
      opening.kind = .leftParen → DerivesExpr .expression ts inner → closing.kind = .rightParen →
      DerivesExpr .primary (opening :: (ts ++ [closing])) (.grouping inner)

/-! ### Statements -/

/-- The rules for statements that are a choice among others. -/
inductive Rule.Choice : Rule → Rule → Prop where
  | varDeclaration : Choice .declaration .varDeclaration
  | statement : Choice .declaration .statement
  | ifStatement : Choice .statement .ifStatement
  | printStatement : Choice .statement .printStatement
  | block : Choice .statement .block
  | expressionStatement : Choice .statement .expressionStatement

/-- A rule for statements derives a tree from tokens. -/
inductive DerivesStmt : Rule → List Token → Stmt → Prop where
  | choice {rule chosen : Rule} {ts : List Token} {s : Stmt} :
      rule.Choice chosen → DerivesStmt chosen ts s → DerivesStmt rule ts s
  | declare {keyword name semicolon : Token} :
      keyword.kind = .kwVar → name.kind = .identifier → semicolon.kind = .semicolon →
      DerivesStmt .varDeclaration [keyword, name, semicolon] (.declare name none)
  | define {keyword name equals semicolon : Token} {ts : List Token} {initial : Expr} :
      keyword.kind = .kwVar → name.kind = .identifier → equals.kind = .equal →
      DerivesExpr .expression ts initial → semicolon.kind = .semicolon →
      DerivesStmt .varDeclaration (keyword :: name :: equals :: (ts ++ [semicolon]))
        (.declare name (some initial))
  | conditional {keyword opening closing : Token} {ts us : List Token} {condition : Expr}
      {yes : Stmt} :
      keyword.kind = .kwIf → opening.kind = .leftParen → DerivesExpr .expression ts condition →
      closing.kind = .rightParen → DerivesStmt .statement us yes →
      DerivesStmt .ifStatement (keyword :: opening :: (ts ++ closing :: us))
        (.conditional condition yes none)
  | alternative {keyword opening closing other : Token} {ts us vs : List Token} {condition : Expr}
      {yes no : Stmt} :
      keyword.kind = .kwIf → opening.kind = .leftParen → DerivesExpr .expression ts condition →
      closing.kind = .rightParen → DerivesStmt .statement us yes → other.kind = .kwElse →
      DerivesStmt .statement vs no →
      DerivesStmt .ifStatement (keyword :: opening :: (ts ++ closing :: (us ++ other :: vs)))
        (.conditional condition yes (some no))
  | print {keyword semicolon : Token} {ts : List Token} {value : Expr} :
      keyword.kind = .kwPrint → DerivesExpr .expression ts value → semicolon.kind = .semicolon →
      DerivesStmt .printStatement (keyword :: (ts ++ [semicolon])) (.print value)
  | body {opening closing : Token} {parts : List (List Token × Stmt)} :
      opening.kind = .leftBrace → (∀ part ∈ parts, DerivesStmt .declaration part.1 part.2) →
      closing.kind = .rightBrace →
      DerivesStmt .block (opening :: (parts.flatMap Prod.fst ++ [closing]))
        (.block (parts.map Prod.snd))
  | expression {semicolon : Token} {ts : List Token} {value : Expr} :
      DerivesExpr .expression ts value → semicolon.kind = .semicolon →
      DerivesStmt .expressionStatement (ts ++ [semicolon]) (.expression value)

/-- A program is derived from tokens that fall into parts, one for each declaration. -/
def DerivesProgram (ts : List Token) (program : Program) : Prop :=
  ∃ parts : List (List Token × Stmt), (∀ part ∈ parts, DerivesStmt .declaration part.1 part.2) ∧
    ts = parts.flatMap Prod.fst ∧ program = parts.map Prod.snd

end Grammar

/-! ### Which `if` an `else` belongs to -/

/-- The statement ends in a conditional without `else`, to which an `else` could still be added. -/
def Stmt.endsOpen : Stmt → Bool
  | .conditional _ _ none => true
  | .conditional _ _ (some no) => no.endsOpen
  | _ => false

/-- Every `else` belongs to the nearest `if`: none could be added to what stands before it. -/
inductive Stmt.ElseNearest : Stmt → Prop where
  | expression {e : Expr} : ElseNearest (.expression e)
  | print {e : Expr} : ElseNearest (.print e)
  | declare {name : Token} {initial : Option Expr} : ElseNearest (.declare name initial)
  | block {body : List Stmt} : (∀ s ∈ body, ElseNearest s) → ElseNearest (.block body)
  | conditional {condition : Expr} {yes : Stmt} :
      ElseNearest yes → ElseNearest (.conditional condition yes none)
  | alternative {condition : Expr} {yes no : Stmt} :
      yes.endsOpen = false → ElseNearest yes → ElseNearest no →
      ElseNearest (.conditional condition yes (some no))

/-- Every `else` of a program belongs to the nearest `if`. -/
def Program.ElseNearest (program : Program) : Prop := ∀ s ∈ program, s.ElseNearest

end LoxLang
