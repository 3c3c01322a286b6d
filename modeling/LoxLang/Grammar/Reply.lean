import LoxLang.Grammar.Recovery
import LoxLang.Grammar.SyntaxError

/-!
# Replies of the grammar's rules

A rule of the grammar answers with a `Reply`: a tree and the tokens after it, or a
failure, which holds an error and the place where it was found. Beside its outcome a
reply lists the errors reported on the way, in order, and a trace of every failure with
the rules that were open when it arose. A failure is not yet a reported error: the rule
that recovers from it reports it.

A `Reading` of `n` tokens is a reply that says how far it got: a tree takes at least one
token, and a failure lies within the tokens. The rules recur on this promise.
-/

namespace LoxLang

namespace Grammar

/-! ### Rules and trails -/

/-- The rules of the grammar. -/
inductive Rule where
  | program
  | declaration
  | varDeclaration
  | statement
  | ifStatement
  | printStatement
  | block
  | expressionStatement
  | expression
  | assignment
  | equality
  | comparison
  | term
  | factor
  | unary
  | primary
  deriving DecidableEq

/-- The name of a rule. -/
def Rule.name : Rule → String
  | .program => "program"
  | .declaration => "declaration"
  | .varDeclaration => "var_declaration"
  | .statement => "statement"
  | .ifStatement => "if_statement"
  | .printStatement => "print_statement"
  | .block => "block"
  | .expressionStatement => "expression_statement"
  | .expression => "expression"
  | .assignment => "assignment"
  | .equality => "equality"
  | .comparison => "comparison"
  | .term => "term"
  | .factor => "factor"
  | .unary => "unary"
  | .primary => "primary"

/-- The rules open at some point, the innermost first. -/
abbrev Trail := List Rule

/-- The rules of a trail from the outermost on. -/
def Trail.text (trail : Trail) : String := " > ".intercalate (trail.reverse.map Rule.name)

/-- An error as it arose: the rules then open, the raising one included. -/
structure Trace where
  trail : Trail
  error : SyntaxError
  deriving DecidableEq

/-! ### Replies -/

/-- An error that no rule has recovered from yet, and the tokens from its place on. -/
structure Failure where
  error : SyntaxError
  tokens : List Token
  deriving DecidableEq

/-- What a rule answers. -/
structure Reply (α : Type) where
  outcome : Except Failure (α × List Token)
  reported : List SyntaxError
  traces : List Trace

variable {α β : Type}

namespace Reply

/-- A result and the tokens after it. -/
def done (a : α) (rest : List Token) : Reply α := ⟨.ok (a, rest), [], []⟩

/-- A result, and an error that does not stop the reading. -/
def noted (a : α) (rest : List Token) (error : SyntaxError) : Reply α :=
  ⟨.ok (a, rest), [error], []⟩

/-- The failure of the innermost rule of the trail at the token in front. -/
def fail (trail : Trail) (problem : SyntaxProblem) (tokens : List Token) : Reply α :=
  let error : SyntaxError := ⟨currentToken tokens, problem⟩
  ⟨.error ⟨error, tokens⟩, [], [⟨trail, error⟩]⟩

/-- Goes on after a result; a failure stands. -/
def bind (first : Reply α) (next : α → List Token → Reply β) : Reply β :=
  match first.outcome with
  | .ok (a, rest) =>
    let second := next a rest
    ⟨second.outcome, first.reported ++ second.reported, first.traces ++ second.traces⟩
  | .error failure => ⟨.error failure, first.reported, first.traces⟩

/-- The token in front if it is of the given kind; otherwise the given problem. -/
def expect (trail : Trail) (kind : TokenKind) (problem : SyntaxProblem) (tokens : List Token) :
    Reply Token :=
  match tokens with
  | [] => .fail trail problem []
  | token :: rest =>
    if token.kind = kind then .done token rest else .fail trail problem (token :: rest)

theorem expect_of_peek_ne {trail : Trail} {kind : TokenKind} {problem : SyntaxProblem}
    {tokens : List Token} (h : peek tokens ≠ kind) :
    Reply.expect trail kind problem tokens = .fail trail problem tokens := by
  cases tokens with
  | nil => rfl
  | cons token rest => exact if_neg h

/-- A result leaves fewer than `n` tokens, a failure at most `n`. -/
def Within (n : Nat) (reply : Reply α) : Prop :=
  match reply.outcome with
  | .ok (_, rest) => rest.length < n
  | .error failure => failure.tokens.length ≤ n

end Reply

/-- A reply to `n` tokens that keeps within them. -/
def Reading (α : Type) (n : Nat) : Type := { reply : Reply α // reply.Within n }

namespace Reading

variable {n m : Nat}

/-- The reply itself. -/
def reply (reading : Reading α n) : Reply α := reading.val

/-- A result that has taken a token. -/
def done (a : α) (rest : List Token) (h : rest.length < n) : Reading α n := ⟨.done a rest, h⟩

/-- A failure among the tokens read. -/
def fail (trail : Trail) (problem : SyntaxProblem) (tokens : List Token) (h : tokens.length ≤ n) :
    Reading α n := ⟨.fail trail problem tokens, h⟩

/-- The token in front, if it is of the given kind. -/
def expect (trail : Trail) (kind : TokenKind) (problem : SyntaxProblem) (tokens : List Token) :
    Reading Token tokens.length :=
  ⟨.expect trail kind problem tokens, by
    unfold Reply.expect
    split
    · exact Nat.le_refl _
    · split
      · exact Nat.lt_succ_self _
      · exact Nat.le_refl _⟩

/-- Fewer tokens are also within more. -/
def widen (reading : Reading α n) (h : n ≤ m) : Reading α m :=
  ⟨reading.val, by
    have := reading.property
    unfold Reply.Within at this ⊢
    split at this <;> simp_all <;> omega⟩

/-- Goes on after a result, with what is known of the tokens then left. -/
def bind (first : Reading α n) (h : n ≤ m)
    (next : α → (rest : List Token) → rest.length < n → Reading β m) : Reading β m :=
  match hr : first.val.outcome with
  | .ok (a, rest) =>
    let second := next a rest (by simpa [Reply.Within, hr] using first.property)
    ⟨⟨second.val.outcome, first.val.reported ++ second.val.reported,
      first.val.traces ++ second.val.traces⟩, second.property⟩
  | .error failure =>
    ⟨⟨.error failure, first.val.reported, first.val.traces⟩,
      Nat.le_trans (by simpa [Reply.Within, hr] using first.property) h⟩

@[simp] theorem reply_done (a : α) (rest : List Token) (h : rest.length < n) :
    (done a rest h).reply = Reply.done a rest := rfl

@[simp] theorem reply_fail (trail : Trail) (problem : SyntaxProblem) (tokens : List Token)
    (h : tokens.length ≤ n) : (fail trail problem tokens h : Reading α n).reply =
      Reply.fail trail problem tokens := rfl

@[simp] theorem reply_expect (trail : Trail) (kind : TokenKind) (problem : SyntaxProblem)
    (tokens : List Token) : (expect trail kind problem tokens).reply =
      Reply.expect trail kind problem tokens := rfl

@[simp] theorem reply_widen (reading : Reading α n) (h : n ≤ m) :
    (reading.widen h).reply = reading.reply := rfl

/-- Going on is going on with the plain replies. -/
theorem reply_bind {first : Reading α n} {h : n ≤ m}
    {next : α → (rest : List Token) → rest.length < n → Reading β m}
    {plain : α → List Token → Reply β} (same : ∀ a rest hr, (next a rest hr).reply = plain a rest) :
    (first.bind h next).reply = first.reply.bind plain := by
  unfold bind Reply.bind reply at *
  split
  · next a rest hr => simp [hr, same]
  · next failure hr => simp [hr]

end Reading

end Grammar

end LoxLang
