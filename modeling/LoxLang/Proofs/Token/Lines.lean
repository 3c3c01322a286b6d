import LoxLang.Token.Scan

/-!
# Tokens on other lines

Tokens, and what else a scan finds, with other numbers for their lines.
-/

namespace LoxLang

/-- The token on the line that is given for its own. -/
def Token.mapLine (g : Nat → Nat) (token : Token) : Token := { token with line := g token.line }

@[simp] theorem Token.lexeme_mapLine (g : Nat → Nat) (token : Token) :
    (token.mapLine g).lexeme = token.lexeme := rfl

@[simp] theorem Token.kind_mapLine (g : Nat → Nat) (token : Token) :
    (token.mapLine g).kind = token.kind := rfl

/-- The error on the line that is given for its own. -/
def LexicalError.mapLine (g : Nat → Nat) (error : LexicalError) : LexicalError :=
  { error with line := g error.line }

/-- What was found, on the line that is given for its own. -/
def Scanned.mapLine (g : Nat → Nat) : Scanned → Scanned
  | .ok token => .ok (token.mapLine g)
  | .error error => .error (error.mapLine g)

theorem tokensOf_map_mapLine (g : Nat → Nat) (items : List Scanned) :
    tokensOf (items.map (Scanned.mapLine g)) = (tokensOf items).map (Token.mapLine g) := by
  induction items with
  | nil => rfl
  | cons item items ih =>
    cases item with
    | ok token => exact congrArg (token.mapLine g :: ·) ih
    | error error => exact ih

theorem errorsOf_map_mapLine (g : Nat → Nat) (items : List Scanned) :
    errorsOf (items.map (Scanned.mapLine g)) = (errorsOf items).map (LexicalError.mapLine g) := by
  induction items with
  | nil => rfl
  | cons item items ih =>
    cases item with
    | ok token => exact ih
    | error error => exact congrArg (error.mapLine g :: ·) ih

end LoxLang
