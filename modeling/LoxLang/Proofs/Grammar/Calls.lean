import LoxLang.Grammar.Statement

/-!
# Induction over the rules

The rules recur on one another. Each call hands on fewer tokens, or as many to a rule of a
lower rank, or it stands at the end of all tokens. `ExprCall.induct` and `StmtCall.induct`
prove a statement about every call from the calls that it makes; what a call makes is read
off the equation of its rule.
-/

namespace LoxLang.Grammar

/-! ### Rules that take tokens -/

variable {α : Type}

/-- A result of a reading leaves fewer tokens than there were. -/
theorem Reading.length_rest_lt {n : Nat} (reading : Reading α n) {a : α} {rest : List Token}
    (h : reading.reply.outcome = .ok (a, rest)) : rest.length < n := by
  have := reading.property
  unfold Reply.Within at this
  rw [show reading.val.outcome = .ok (a, rest) from h] at this
  exact this

/-- A failure of a reading lies among the tokens that there were. -/
theorem Reading.length_tokens_le {n : Nat} (reading : Reading α n) {failure : Failure}
    (h : reading.reply.outcome = .error failure) : failure.tokens.length ≤ n := by
  have := reading.property
  unfold Reply.Within at this
  rw [show reading.val.outcome = .error failure from h] at this
  exact this

/-! ### Calls for expressions -/

/-- A call of a rule for expressions, or of a part of one. -/
inductive ExprCall where
  | expression
  | assignment
  | binary (level : Level)
  | operand (level : Level)
  | chain (level : Level) (left : Expr)
  | unary
  | primary

namespace ExprCall

/-- How many calls may follow on the same tokens. -/
def rank : ExprCall → Nat
  | .expression => 11
  | .assignment => 10
  | .binary level => 2 * level.rank + 3
  | .operand level => 2 * level.rank + 2
  | .chain _ _ => 0
  | .unary => 1
  | .primary => 0

/-- What a call answers. -/
def reply : ExprCall → Trail → List Token → Reply Expr
  | .expression => Grammar.expression
  | .assignment => Grammar.assignment
  | .binary level => Grammar.binary level
  | .operand level => Grammar.operand level
  | .chain level left => fun trail => Grammar.chain level trail left
  | .unary => Grammar.unary
  | .primary => Grammar.primary

/-- The call to which an operand is handed on: the next tighter level, or what stands inside all. -/
def ofOperand (level : Level) : ExprCall := level.tighter?.elim .unary .binary

theorem reply_operand (level : Level) (trail : Trail) (tokens : List Token) :
    reply (.operand level) trail tokens = (ofOperand level).reply trail tokens := by
  rw [reply, operand_eq]
  cases level <;> rfl

theorem rank_ofOperand_lt (level : Level) : (ofOperand level).rank < rank (.operand level) := by
  cases level <;> decide

/-- What holds of a call when it holds of every call on fewer tokens, and of every call of a
lower rank on the same tokens, holds of every call. -/
theorem induct {P : ExprCall → List Token → Prop}
    (step : ∀ call tokens, (∀ inner shorter, shorter.length < tokens.length → P inner shorter) →
      (∀ inner, inner.rank < call.rank → P inner tokens) → P call tokens) :
    ∀ call tokens, P call tokens := by
  intro call tokens
  exact step call tokens (fun inner shorter _ => induct step inner shorter)
    (fun inner _ => induct step inner tokens)
termination_by call tokens => (tokens.length, call.rank)

end ExprCall

/-! ### Calls for statements -/

/-- A call of a rule for statements that recurs. -/
inductive StmtCall where
  | declaration
  | statement
  | ifStatement
  | block
  | statements (inBlock : Bool)

namespace StmtCall

/-- How many calls may follow on the same tokens. At the end of all tokens no statement is
read any more. -/
def rank (tokens : List Token) : StmtCall → Nat
  | .declaration => 3
  | .statement => 2
  | .ifStatement => 0
  | .block => 9
  | .statements _ => if atEnd tokens then 0 else 8

/-- What holds of a call when it holds of every call on fewer tokens, and of every call of a
lower rank on as many, holds of every call. -/
theorem induct {P : StmtCall → List Token → Prop}
    (step : ∀ call tokens, (∀ inner shorter, shorter.length < tokens.length → P inner shorter) →
      (∀ inner others, others.length = tokens.length → inner.rank others < call.rank tokens →
        P inner others) → P call tokens) :
    ∀ call tokens, P call tokens := by
  intro call tokens
  refine step call tokens (fun inner shorter _ => induct step inner shorter) ?_
  intro inner others same lower
  exact induct step inner others
termination_by call tokens => (tokens.length, call.rank tokens)
decreasing_by
  · exact Prod.Lex.left _ _ ‹_›
  · rw [same]
    exact Prod.Lex.right _ lower

end StmtCall

/-- A call on fewer tokens, or at their end, is of a lower rank than any other passage. -/
theorem recover_lower {n : Nat} {tokens : List Token} (h : tokens.length ≤ n) :
    (recover tokens).length < n ∨ (recover tokens).length = n ∧ atEnd (recover tokens) = true := by
  rcases recover_shorter_or_atEnd tokens with hshorter | ⟨hend, hsame⟩
  · exact .inl (Nat.lt_of_lt_of_le hshorter h)
  · rcases Nat.lt_or_eq_of_le h with hlt | heq
    · exact .inl (by rwa [hsame])
    · exact .inr ⟨by rw [hsame, heq], hend⟩

end LoxLang.Grammar
