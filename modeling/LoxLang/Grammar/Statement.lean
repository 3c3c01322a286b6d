import LoxLang.Grammar.Expression

/-!
# Reading statements and programs

The rules for declarations and statements as plain replies, with one equation each, and
`program`, which reads a whole token list.
-/

namespace LoxLang.Grammar

/-! ### The rules as plain replies -/

/-- A variable declaration or another statement. -/
def declaration (lenient : Bool) (trail : Trail) (tokens : List Token) : Reply Stmt :=
  (Reading.declaration lenient trail tokens).reply

/-- The rest of a variable declaration. -/
def varDeclaration (trail : Trail) (tokens : List Token) : Reply Stmt :=
  (Reading.varDeclaration trail tokens).reply

/-- The value after `=` in a declaration, if there is one. -/
def initial (trail : Trail) (tokens : List Token) : Reply (Option Expr) :=
  (Reading.initial trail tokens).reply

/-- Any statement that may stand as a branch. -/
def statement (lenient : Bool) (trail : Trail) (tokens : List Token) : Reply Stmt :=
  (Reading.statement lenient trail tokens).reply

/-- The rest of a conditional. -/
def ifStatement (lenient : Bool) (trail : Trail) (tokens : List Token) : Reply Stmt :=
  (Reading.ifStatement lenient trail tokens).reply

/-- The rest of a print statement. -/
def printStatement (trail : Trail) (tokens : List Token) : Reply Stmt :=
  (Reading.printStatement trail tokens).reply

/-- The rest of a block. -/
def block (lenient : Bool) (trail : Trail) (tokens : List Token) : Reply Stmt :=
  (Reading.block lenient trail tokens).reply

/-- An expression and its semicolon. -/
def expressionStatement (lenient : Bool) (trail : Trail) (tokens : List Token) : Reply Stmt :=
  (Reading.expressionStatement lenient trail tokens).reply

/-- Statements up to the end of the passage. -/
def statements (lenient inBlock : Bool) (trail : Trail) (tokens : List Token) : Passage :=
  (Reading.statements lenient inBlock trail tokens).val

theorem declaration_eq (lenient : Bool) (trail : Trail) (tokens : List Token) :
    declaration lenient trail tokens = match tokens with
    | [] => statement lenient (.declaration :: trail) []
    | token :: after =>
      if token.kind = .kwVar then varDeclaration (.declaration :: trail) after
      else statement lenient (.declaration :: trail) (token :: after) := by
  cases tokens with
  | nil => rw [declaration, Reading.declaration]; rfl
  | cons token after =>
    rw [declaration, Reading.declaration]
    dsimp only
    split <;> rfl

theorem initial_eq (trail : Trail) (tokens : List Token) :
    initial trail tokens = match tokens with
    | [] => .done none []
    | equals :: after =>
      if equals.kind = .equal then
        (expression trail after).bind fun value rest => .done (some value) rest
      else .done none (equals :: after) := by
  cases tokens with
  | nil => rfl
  | cons equals after =>
    rw [initial, Reading.initial]
    dsimp only
    split
    · exact Reading.reply_bind fun _ _ _ => rfl
    · rfl

theorem varDeclaration_eq (trail : Trail) (tokens : List Token) :
    varDeclaration trail tokens =
      (Reply.expect (.varDeclaration :: trail) .identifier .expectedName tokens).bind fun name rest =>
        (initial (.varDeclaration :: trail) rest).bind fun value rest =>
          (Reply.expect (.varDeclaration :: trail) .semicolon .expectedDeclarationEnd rest).bind
            fun _ rest => .done (.declare name value) rest := by
  refine Reading.reply_bind fun _ _ _ => ?_
  refine Reading.reply_bind fun _ _ _ => ?_
  exact Reading.reply_bind fun _ _ _ => rfl

theorem statement_eq (lenient : Bool) (trail : Trail) (tokens : List Token) :
    statement lenient trail tokens = match tokens with
    | [] => expressionStatement lenient (.statement :: trail) []
    | token :: after =>
      match token.kind with
      | .kwIf => ifStatement lenient (.statement :: trail) after
      | .kwPrint => printStatement (.statement :: trail) after
      | .leftBrace => block lenient (.statement :: trail) after
      | _ => expressionStatement lenient (.statement :: trail) (token :: after) := by
  cases tokens with
  | nil => rw [statement, Reading.statement]; rfl
  | cons token after =>
    rw [statement, Reading.statement]
    dsimp only
    cases token.kind <;> rfl

theorem ifStatement_eq (lenient : Bool) (trail : Trail) (tokens : List Token) :
    ifStatement lenient trail tokens =
      (Reply.expect (.ifStatement :: trail) .leftParen .expectedConditionOpen tokens).bind fun _ rest =>
        (expression (.ifStatement :: trail) rest).bind fun condition rest =>
          (Reply.expect (.ifStatement :: trail) .rightParen .expectedConditionClose rest).bind
            fun _ rest => (statement lenient (.ifStatement :: trail) rest).bind fun yes rest =>
              match rest with
              | [] => .done (.conditional condition yes none) []
              | token :: after =>
                if token.kind = .kwElse then
                  (statement lenient (.ifStatement :: trail) after).bind fun no rest =>
                    .done (.conditional condition yes (some no)) rest
                else .done (.conditional condition yes none) (token :: after) := by
  rw [ifStatement, Reading.ifStatement]
  refine Reading.reply_bind fun _ _ _ => ?_
  refine Reading.reply_bind fun _ _ _ => ?_
  refine Reading.reply_bind fun _ _ _ => ?_
  refine Reading.reply_bind fun _ rest _ => ?_
  cases rest with
  | nil => rfl
  | cons token after =>
    dsimp only
    split
    · exact Reading.reply_bind fun _ _ _ => rfl
    · rfl

theorem printStatement_eq (trail : Trail) (tokens : List Token) :
    printStatement trail tokens =
      (expression (.printStatement :: trail) tokens).bind fun value rest =>
        (Reply.expect (.printStatement :: trail) .semicolon .expectedValueEnd rest).bind
          fun _ rest => .done (.print value) rest := by
  refine Reading.reply_bind fun _ _ _ => ?_
  exact Reading.reply_bind fun _ _ _ => rfl

theorem expressionStatement_eq (lenient : Bool) (trail : Trail) (tokens : List Token) :
    expressionStatement lenient trail tokens =
      (expression (.expressionStatement :: trail) tokens).bind fun value rest =>
        if lenient && atEnd rest then .done (.expression value) rest
        else
          (Reply.expect (.expressionStatement :: trail) .semicolon .expectedValueEnd rest).bind
            fun _ rest => .done (.expression value) rest := by
  refine Reading.reply_bind fun _ _ _ => ?_
  split
  · rfl
  · exact Reading.reply_bind fun _ _ _ => rfl

theorem block_eq (lenient : Bool) (trail : Trail) (tokens : List Token) :
    block lenient trail tokens =
      (statements lenient true (.block :: trail) tokens).reply.bind fun body rest =>
        (Reply.expect (.block :: trail) .rightBrace .expectedBlockClose rest).bind
          fun _ rest => .done (.block body) rest := by
  rw [block, Reading.block]
  refine Reading.reply_after fun _ _ _ => ?_
  exact Reading.reply_bind fun _ _ _ => rfl

theorem statements_eq (lenient inBlock : Bool) (trail : Trail) (tokens : List Token) :
    statements lenient inBlock trail tokens =
      if endsPassage inBlock tokens then .empty tokens
      else (declaration lenient trail tokens).andThen (statements lenient inBlock trail) := by
  rw [statements, Reading.statements]
  split
  · rfl
  · simp only [Reply.andThen, declaration, Reading.reply]
    split
    · next h => simp [h, statements]
    · next h => simp [h, statements]

/-! ### Programs -/

/-- The reading of a whole token list. -/
def program (lenient : Bool) (tokens : List Token) : Passage :=
  statements lenient false [.program] tokens

/-- The program that a token list is, or all its syntax errors. -/
def parse (lenient : Bool) (tokens : List Token) : Except (List SyntaxError) Program :=
  let passage := program lenient tokens
  match passage.reported with
  | [] => .ok passage.body
  | errors => .error errors

end LoxLang.Grammar
