import LoxLang.Proofs.Tree.Induction

/-!
# Trees with parts changed

A statement may be changed by changing its expressions and the tokens of its declarations, at any depth
(`Stmt.mapParts`). Two such changes are defined here: to leave out all that does not tell what a tree
computes (`Stmt.bare`), and to give its variables other names (`Stmt.rename`).
-/

namespace LoxLang

mutual

/-- The statement with its expressions and the tokens of its declarations changed. -/
def Stmt.mapParts (ofExpr : Expr → Expr) (ofName : Token → Token) : Stmt → Stmt
  | .expression e => .expression (ofExpr e)
  | .print e => .print (ofExpr e)
  | .declare name none => .declare (ofName name) none
  | .declare name (some initial) => .declare (ofName name) (some (ofExpr initial))
  | .block body => .block (Stmt.mapPartsAll ofExpr ofName body)
  | .conditional condition yes none =>
    .conditional (ofExpr condition) (yes.mapParts ofExpr ofName) none
  | .conditional condition yes (some no) =>
    .conditional (ofExpr condition) (yes.mapParts ofExpr ofName) (some (no.mapParts ofExpr ofName))

/-- The statements with their expressions and the tokens of their declarations changed. -/
def Stmt.mapPartsAll (ofExpr : Expr → Expr) (ofName : Token → Token) : List Stmt → List Stmt
  | [] => []
  | s :: rest => s.mapParts ofExpr ofName :: Stmt.mapPartsAll ofExpr ofName rest

end

theorem Stmt.mapPartsAll_eq_map (ofExpr : Expr → Expr) (ofName : Token → Token) (body : List Stmt) :
    Stmt.mapPartsAll ofExpr ofName body = body.map (Stmt.mapParts ofExpr ofName) := by
  induction body with
  | nil => rfl
  | cons s rest ih => rw [Stmt.mapPartsAll, ih, List.map_cons]

theorem Stmt.mapParts_block (ofExpr : Expr → Expr) (ofName : Token → Token) (body : List Stmt) :
    (Stmt.block body).mapParts ofExpr ofName = .block (body.map (Stmt.mapParts ofExpr ofName)) := by
  rw [Stmt.mapParts, Stmt.mapPartsAll_eq_map]

/-! ### Bare trees -/

/-- A name token with nothing but its lexeme. -/
def Token.bareName (token : Token) : Token := ⟨.identifier, token.lexeme, none, 0⟩

/-- The token of every operator in a bare tree. -/
def Token.bareOperator : Token := ⟨.eof, "", none, 0⟩

/-- The expression without groupings, without the tokens of operators, and with nothing but the lexemes
of names. -/
def Expr.bare : Expr → Expr
  | .literal value => .literal value
  | .grouping inner => inner.bare
  | .unary op _ right => .unary op .bareOperator right.bare
  | .binary left op _ right => .binary left.bare op .bareOperator right.bare
  | .variable name => .variable name.bareName
  | .assign name value => .assign name.bareName value.bare

/-- The statement without groupings, without the tokens of operators, and with nothing but the lexemes
of names. -/
def Stmt.bare : Stmt → Stmt := Stmt.mapParts Expr.bare Token.bareName

/-! ### Renamed trees -/

/-- The name token with another lexeme. -/
def Token.rename (f : String → String) (token : Token) : Token :=
  { token with lexeme := f token.lexeme }

/-- The expression with its variables renamed. -/
def Expr.rename (f : String → String) : Expr → Expr
  | .literal value => .literal value
  | .grouping inner => .grouping (inner.rename f)
  | .unary op token right => .unary op token (right.rename f)
  | .binary left op token right => .binary (left.rename f) op token (right.rename f)
  | .variable name => .variable (name.rename f)
  | .assign name value => .assign (name.rename f) (value.rename f)

/-- The statement with its variables renamed. -/
def Stmt.rename (f : String → String) : Stmt → Stmt := Stmt.mapParts (Expr.rename f) (Token.rename f)

end LoxLang
