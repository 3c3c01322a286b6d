import LoxLang.Grammar.Reply
import LoxLang.Tree.Basic

/-!
# The rules of the grammar

The rules for expressions, loosest first: assignment, four levels of operators between
their operands, operators before their operand, and what stands alone or in parentheses.
Then the rules for declarations and statements, and the recovery from failures: the
statements of a block or of a whole program are read one after the other, and after a
failed one reading goes on at the next place where a statement may begin. So one reading
reports as many errors as there are broken statements.

Reading is strict or lenient. A lenient reading lets the semicolon of an expression
statement be left out at the end of all tokens, as one does at a prompt.

The rules recur on one another as `Reading`s, whose types say that a result has taken a
token. `LoxLang.Grammar.Expression` and `LoxLang.Grammar.Statement` give the same rules as
plain replies, with one equation each.
-/

namespace LoxLang.Grammar

/-! ### Operators and atoms -/

/-- The levels of operators between their operands, the loosest first. -/
inductive Level where
  | equality
  | comparison
  | term
  | factor
  deriving DecidableEq

/-- The rule of a level. -/
def Level.rule : Level → Rule
  | .equality => .equality
  | .comparison => .comparison
  | .term => .term
  | .factor => .factor

/-- The next tighter level, if there is one. -/
def Level.tighter? : Level → Option Level
  | .equality => some .comparison
  | .comparison => some .term
  | .term => some .factor
  | .factor => none

/-- How many tighter levels there are. -/
def Level.rank : Level → Nat
  | .equality => 3
  | .comparison => 2
  | .term => 1
  | .factor => 0

/-- The operator that a kind of token stands for on a level. -/
def Level.operator? : Level → TokenKind → Option BinaryOp
  | .equality, .equalEqual => some .equal
  | .equality, .bangEqual => some .notEqual
  | .comparison, .less => some .lessThan
  | .comparison, .lessEqual => some .lessThanOrEqual
  | .comparison, .greater => some .greaterThan
  | .comparison, .greaterEqual => some .greaterThanOrEqual
  | .term, .plus => some .plus
  | .term, .minus => some .minus
  | .factor, .star => some .multiply
  | .factor, .slash => some .divide
  | _, _ => none

/-- The operator that a kind of token stands for before an operand. -/
def unaryOperator? : TokenKind → Option UnaryOp
  | .minus => some .negate
  | .bang => some .not
  | _ => none

/-- The expression that a token is by itself. A number or string token without a value is
none. -/
def atom? (token : Token) : Option Expr :=
  match token.kind, token.literal with
  | .number, some value => some (.literal value)
  | .string, some value => some (.literal value)
  | .kwTrue, _ => some (.literal (.boolean true))
  | .kwFalse, _ => some (.literal (.boolean false))
  | .kwNil, _ => some (.literal .nil)
  | .identifier, _ => some (.variable token)
  | _, _ => none

theorem Level.rank_of_tighter? {level next : Level} (h : level.tighter? = some next) :
    level.rank = next.rank + 1 := by
  cases level <;> simp [Level.tighter?] at h <;> subst h <;> rfl

/-- An assignment to what was read on the left of `=`. Only a variable can be assigned to;
otherwise the error is noted at the `=`, and what stands on the left is kept. -/
def Reply.assign (target : Expr) (equals : Token) (value : Expr) (rest : List Token) : Reply Expr :=
  match target with
  | .variable name => .done (.assign name value) rest
  | target => .noted target rest ⟨equals, .invalidTarget⟩

/-! ### Rules for expressions -/

namespace Reading

/-- An assignment, all of whose tokens were taken before. -/
def assign {n : Nat} (target : Expr) (equals : Token) (value : Expr) (rest : List Token)
    (h : rest.length < n) : Reading Expr n :=
  ⟨.assign target equals value rest, by unfold Reply.assign; split <;> exact h⟩

mutual

/-- Any expression. -/
def expression (trail : Trail) (tokens : List Token) : Reading Expr tokens.length :=
  assignment (.expression :: trail) tokens
termination_by 16 * tokens.length + 11

/-- An expression of the loosest operator level, perhaps assigned to. -/
def assignment (trail : Trail) (tokens : List Token) : Reading Expr tokens.length :=
  (binary .equality (.assignment :: trail) tokens).bind (Nat.le_refl _) fun target rest h =>
    match rest with
    | [] => .done target [] h
    | equals :: after =>
      if equals.kind = .equal then
        (assignment (.assignment :: trail) after).bind (by simp at h; omega) fun value rest h' =>
          assign target equals value rest (by simp at h; omega)
      else .done target (equals :: after) h
termination_by 16 * tokens.length + 10
decreasing_by
  · simp [Level.rank]
  · simp at *; omega

/-- Operands of one level between its operators, grouped to the left. -/
def binary (level : Level) (trail : Trail) (tokens : List Token) : Reading Expr tokens.length :=
  (operand level (level.rule :: trail) tokens).bind (Nat.le_refl _) fun left rest h =>
    (chain level (level.rule :: trail) left rest).widen h
termination_by 16 * tokens.length + (2 * level.rank + 3)
decreasing_by all_goals omega

/-- What stands beside the operators of a level. -/
def operand (level : Level) (trail : Trail) (tokens : List Token) : Reading Expr tokens.length :=
  match _next : level.tighter? with
  | some next => binary next trail tokens
  | none => unary trail tokens
termination_by 16 * tokens.length + (2 * level.rank + 2)
decreasing_by
  · have := Level.rank_of_tighter? _next; omega
  · omega

/-- The operators of a level that follow an operand, each with its right operand. -/
def chain (level : Level) (trail : Trail) (left : Expr) (tokens : List Token) :
    Reading Expr (tokens.length + 1) :=
  match tokens with
  | [] => .done left [] (Nat.lt_succ_self _)
  | token :: after =>
    match level.operator? token.kind with
    | some op =>
      (operand level trail after).bind (Nat.le_add_right _ 2) fun right rest h =>
        (chain level trail (.binary left op token right) rest).widen
          (Nat.succ_le_succ (Nat.le_succ_of_le (Nat.le_of_lt h)))
    | none => .done left (token :: after) (Nat.lt_succ_self _)
termination_by 16 * tokens.length
decreasing_by
  · cases level <;> simp [Level.rank] <;> omega
  · simp; omega

/-- Operators before an operand, which nest to the right. -/
def unary (trail : Trail) (tokens : List Token) : Reading Expr tokens.length :=
  match tokens with
  | [] => primary (.unary :: trail) []
  | token :: after =>
    match unaryOperator? token.kind with
    | some op =>
      (unary (.unary :: trail) after).bind (by simp) fun right rest h =>
        .done (.unary op token right) rest (by simp; omega)
    | none => primary (.unary :: trail) (token :: after)
termination_by 16 * tokens.length + 1

/-- A literal, a variable, or an expression in parentheses. -/
def primary (trail : Trail) (tokens : List Token) : Reading Expr tokens.length :=
  match tokens with
  | [] => .fail (.primary :: trail) .expectedExpression [] (Nat.le_refl _)
  | token :: after =>
    match atom? token with
    | some atom => .done atom after (Nat.lt_succ_self _)
    | none =>
      if token.kind = .leftParen then
        (expression (.primary :: trail) after).bind (by simp) fun inner rest h =>
          (expect (.primary :: trail) .rightParen .expectedGroupClose rest).bind (by simp; omega)
            fun _ rest h' => .done (.grouping inner) rest (by simp; omega)
      else .fail (.primary :: trail) .expectedExpression (token :: after) (Nat.le_refl _)
termination_by 16 * tokens.length
decreasing_by simp; omega

end

end Reading

/-! ### Stretches of statements -/

/-- The statements read up to some place, the tokens from there on, and everything reported
and traced on the way. -/
structure Passage where
  body : Program
  rest : List Token
  reported : List SyntaxError
  traces : List Trace

namespace Passage

/-- Nothing read yet. -/
def empty (tokens : List Token) : Passage := ⟨[], tokens, [], []⟩

/-- A passage always has a result. -/
def reply (passage : Passage) : Reply Program :=
  ⟨.ok (passage.body, passage.rest), passage.reported, passage.traces⟩

/-- Puts one more statement in front, with what its reading reported and traced. -/
def cons (stmt : Stmt) (first : Reply Stmt) (more : Passage) : Passage :=
  ⟨stmt :: more.body, more.rest, first.reported ++ more.reported, first.traces ++ more.traces⟩

/-- Puts the reading of a broken statement in front: its failure is reported now. -/
def skip (failure : Failure) (first : Reply Stmt) (more : Passage) : Passage :=
  ⟨more.body, more.rest, first.reported ++ failure.error :: more.reported,
    first.traces ++ more.traces⟩

end Passage

/-- A statement and the passage after it. After a failure the passage begins where reading
recovers. -/
def Reply.andThen (first : Reply Stmt) (passage : List Token → Passage) : Passage :=
  match first.outcome with
  | .ok (stmt, rest) => (passage rest).cons stmt first
  | .error failure => (passage (recover failure.tokens)).skip failure first

/-- The end of a passage: the end of all tokens and, in a block, a closing brace. -/
def endsPassage (inBlock : Bool) (tokens : List Token) : Bool :=
  atEnd tokens || inBlock && peek tokens == .rightBrace

/-! ### Rules for statements -/

namespace Reading

/-- A reading after a passage. -/
def after {α : Type} {n : Nat} (passage : Passage)
    (next : Program → (rest : List Token) → rest = passage.rest → Reading α n) : Reading α n :=
  let second := next passage.body passage.rest rfl
  ⟨⟨second.val.outcome, passage.reported ++ second.val.reported,
    passage.traces ++ second.val.traces⟩, second.property⟩

theorem reply_after {α : Type} {n : Nat} {passage : Passage}
    {next : Program → (rest : List Token) → rest = passage.rest → Reading α n}
    {plain : Program → List Token → Reply α}
    (same : ∀ body rest hr, (next body rest hr).reply = plain body rest) :
    (after passage next).reply = passage.reply.bind plain := by
  simp only [after, reply, Passage.reply, Reply.bind] at same ⊢
  simp [same]

/-- The value after `=` in a declaration, if there is one. -/
def initial (trail : Trail) (tokens : List Token) : Reading (Option Expr) (tokens.length + 1) :=
  match tokens with
  | [] => .done none [] (Nat.lt_succ_self _)
  | equals :: after =>
    if equals.kind = .equal then
      (expression trail after).bind (Nat.le_add_right _ 2) fun value rest h =>
        .done (some value) rest (Nat.lt_add_right 2 h)
    else .done none (equals :: after) (Nat.lt_succ_self _)

/-- The rest of a variable declaration. -/
def varDeclaration (trail : Trail) (tokens : List Token) : Reading Stmt tokens.length :=
  (expect (.varDeclaration :: trail) .identifier .expectedName tokens).bind (Nat.le_refl _)
    fun name rest h₁ => (initial (.varDeclaration :: trail) rest).bind h₁
      fun value rest h₂ =>
        (expect (.varDeclaration :: trail) .semicolon .expectedDeclarationEnd rest).bind (by omega)
          fun _ rest h₃ => .done (.declare name value) rest (by omega)

/-- The rest of a print statement. -/
def printStatement (trail : Trail) (tokens : List Token) : Reading Stmt tokens.length :=
  (expression (.printStatement :: trail) tokens).bind (Nat.le_refl _) fun value rest h =>
    (expect (.printStatement :: trail) .semicolon .expectedValueEnd rest).bind (Nat.le_of_lt h)
      fun _ rest h' => .done (.print value) rest (by omega)

/-- An expression and its semicolon, which a lenient reading does without at the end. -/
def expressionStatement (lenient : Bool) (trail : Trail) (tokens : List Token) :
    Reading Stmt tokens.length :=
  (expression (.expressionStatement :: trail) tokens).bind (Nat.le_refl _) fun value rest h =>
    if lenient && atEnd rest then .done (.expression value) rest h
    else
      (expect (.expressionStatement :: trail) .semicolon .expectedValueEnd rest).bind (Nat.le_of_lt h)
        fun _ rest h' => .done (.expression value) rest (by omega)

mutual

/-- A variable declaration or another statement. -/
def declaration (lenient : Bool) (trail : Trail) (tokens : List Token) :
    Reading Stmt tokens.length :=
  match tokens with
  | [] => statement lenient (.declaration :: trail) []
  | token :: after =>
    if token.kind = .kwVar then (varDeclaration (.declaration :: trail) after).widen (by simp)
    else statement lenient (.declaration :: trail) (token :: after)
termination_by 16 * tokens.length + 3

/-- Any statement that may stand as a branch. -/
def statement (lenient : Bool) (trail : Trail) (tokens : List Token) : Reading Stmt tokens.length :=
  match tokens with
  | [] => expressionStatement lenient (.statement :: trail) []
  | token :: after =>
    match token.kind with
    | .kwIf => (ifStatement lenient (.statement :: trail) after).widen (by simp)
    | .kwPrint => (printStatement (.statement :: trail) after).widen (by simp)
    | .leftBrace => (block lenient (.statement :: trail) after).widen (by simp)
    | _ => expressionStatement lenient (.statement :: trail) (token :: after)
termination_by 16 * tokens.length + 2
decreasing_by all_goals simp; omega

/-- The rest of a conditional: an `else` belongs to the innermost one. -/
def ifStatement (lenient : Bool) (trail : Trail) (tokens : List Token) :
    Reading Stmt tokens.length :=
  (expect (.ifStatement :: trail) .leftParen .expectedConditionOpen tokens).bind (Nat.le_refl _)
    fun _ rest h₁ => (expression (.ifStatement :: trail) rest).bind (Nat.le_of_lt h₁)
      fun condition rest h₂ =>
        (expect (.ifStatement :: trail) .rightParen .expectedConditionClose rest).bind (by omega)
          fun _ rest h₃ => (statement lenient (.ifStatement :: trail) rest).bind (by omega)
            fun yes rest h₄ =>
              match rest with
              | [] => .done (.conditional condition yes none) [] (by omega)
              | token :: after =>
                if token.kind = .kwElse then
                  (statement lenient (.ifStatement :: trail) after).bind (by simp at h₄; omega)
                    fun no rest h₅ =>
                      .done (.conditional condition yes (some no)) rest (by simp at h₄; omega)
                else .done (.conditional condition yes none) (token :: after) (by omega)
termination_by 16 * tokens.length
decreasing_by
  · omega
  · simp at *; omega

/-- The rest of a block. -/
def block (lenient : Bool) (trail : Trail) (tokens : List Token) : Reading Stmt tokens.length :=
  let passage := statements lenient true (.block :: trail) tokens
  after passage.val fun body rest h =>
    (expect (.block :: trail) .rightBrace .expectedBlockClose rest).bind
      (by have := passage.property; rw [h]; exact this)
      fun _ rest h' => .done (.block body) rest (by have := passage.property; rw [h] at h'; omega)
termination_by 16 * tokens.length + 9
decreasing_by split <;> omega

/-- Statements up to the end of the passage, recovering from those that fail. -/
def statements (lenient inBlock : Bool) (trail : Trail) (tokens : List Token) :
    { passage : Passage // passage.rest.length ≤ tokens.length } :=
  if h : endsPassage inBlock tokens then ⟨.empty tokens, Nat.le_refl _⟩
  else
    let first := declaration lenient trail tokens
    match hf : first.val.outcome with
    | .ok (stmt, rest) =>
      have shorter : rest.length < tokens.length := by simpa [Reply.Within, hf] using first.property
      let more := statements lenient inBlock trail rest
      ⟨more.val.cons stmt first.val, Nat.le_trans more.property (Nat.le_of_lt shorter)⟩
    | .error failure =>
      have within : failure.tokens.length ≤ tokens.length := by
        simpa [Reply.Within, hf] using first.property
      let more := statements lenient inBlock trail (recover failure.tokens)
      ⟨more.val.skip failure first.val,
        Nat.le_trans more.property (Nat.le_trans (length_recover_le failure.tokens) within)⟩
termination_by 16 * tokens.length + if atEnd tokens then 0 else 8
decreasing_by
  · simp [endsPassage] at h; simp [h]
  · split <;> split <;> omega
  · have notAtEnd : atEnd tokens = false := by simp [endsPassage] at h; simp [h]
    rcases recover_shorter_or_atEnd failure.tokens with h | ⟨ended, h⟩
    · simp [notAtEnd]; split <;> omega
    · simp [notAtEnd, ended]; rw [h]; omega

end

end Reading

end LoxLang.Grammar
