import LoxLang.Token.Basic

/-!
# Looking ahead and recovering

How the grammar sees a list of tokens: an end token, or the end of the list, is the end,
and nothing behind it counts. `recover` finds the place at which reading goes on after a
syntax error.
-/

namespace LoxLang.Grammar

/-- The kind of the token in front. -/
def peek : List Token → TokenKind
  | [] => .eof
  | token :: _ => token.kind

/-- Nothing but the end is left. -/
def atEnd (tokens : List Token) : Bool := peek tokens == .eof

/-- The token in front; at the end of the list, an end token on line 0. -/
def currentToken : List Token → Token
  | [] => ⟨.eof, "", none, 0⟩
  | token :: _ => token

/-- The keywords that only stand in front of a statement. -/
def startsStatement : TokenKind → Bool
  | .kwFun | .kwVar | .kwFor | .kwIf | .kwWhile | .kwPrint | .kwReturn => true
  | _ => false

/-- Goes on to the end, to a keyword that starts a statement or to the place behind a
semicolon. The first argument is the kind of the token just passed. -/
def seekStatement (passed : TokenKind) : List Token → List Token
  | [] => []
  | token :: rest =>
    if token.kind = .eof ∨ passed = .semicolon ∨ startsStatement token.kind then token :: rest
    else seekStatement token.kind rest

/-- The place at which reading goes on after an error: the token in front is passed in any
case, then all up to where a statement may begin. The end is never passed. -/
def recover : List Token → List Token
  | [] => []
  | token :: rest => if token.kind = .eof then token :: rest else seekStatement token.kind rest

theorem length_seekStatement_le (passed : TokenKind) (tokens : List Token) :
    (seekStatement passed tokens).length ≤ tokens.length := by
  induction tokens generalizing passed with
  | nil => exact Nat.le_refl _
  | cons token rest ih =>
    rw [seekStatement]
    split
    · exact Nat.le_refl _
    · exact Nat.le_succ_of_le (ih token.kind)

/-- Recovery passes at least one token, unless it is at the end already. -/
theorem recover_shorter_or_atEnd (tokens : List Token) :
    (recover tokens).length < tokens.length ∨ atEnd (recover tokens) ∧ recover tokens = tokens := by
  cases tokens with
  | nil => exact .inr ⟨rfl, rfl⟩
  | cons token rest =>
    rw [recover]
    split
    · next h => exact .inr ⟨by simp [atEnd, peek, h], rfl⟩
    · exact .inl (Nat.lt_succ_of_le (length_seekStatement_le token.kind rest))

theorem length_recover_le (tokens : List Token) : (recover tokens).length ≤ tokens.length := by
  rcases recover_shorter_or_atEnd tokens with h | ⟨_, h⟩
  · exact Nat.le_of_lt h
  · exact Nat.le_of_eq (congrArg List.length h)

end LoxLang.Grammar
