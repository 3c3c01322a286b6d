import LoxLang.Tree.Basic

/-!
# Writing syntax trees

Two notations for trees. In the parenthesized one a node is `(name part part)`; in
reverse Polish notation the parts come first, each followed by a blank, and the name
last. In reverse Polish notation a grouping leaves no trace, and an assigned variable
stands after its value.
-/

namespace LoxLang

/-- How syntax trees are written. -/
inductive TreeStyle where
  | parenthesized
  | reversePolish
  deriving DecidableEq

/-- A node from its name and the texts of its parts. -/
def TreeStyle.node (style : TreeStyle) (name : String) (parts : List String) : String :=
  match style with
  | .parenthesized => "(" ++ name ++ String.join (parts.map (" " ++ ·)) ++ ")"
  | .reversePolish => String.join (parts.map (· ++ " ")) ++ name

/-- The text of an expression. -/
def Expr.render (style : TreeStyle) : Expr → String
  | .literal value => value.literalText
  | .variable name => name.lexeme
  | .grouping inner =>
    match style with
    | .parenthesized => style.node "group" [inner.render style]
    | .reversePolish => inner.render style
  | .unary op _ right => style.node op.symbol [right.render style]
  | .binary left op _ right => style.node op.symbol [left.render style, right.render style]
  | .assign name value =>
    match style with
    | .parenthesized => style.node "=" [name.lexeme, value.render style]
    | .reversePolish => style.node "=" [value.render style, name.lexeme]

mutual

/-- The text of a statement. -/
def Stmt.render (style : TreeStyle) : Stmt → String
  | .expression e => style.node ";" [e.render style]
  | .print e => style.node "print" [e.render style]
  | .declare name none => style.node "var" [name.lexeme]
  | .declare name (some initial) => style.node "var" [name.lexeme, initial.render style]
  | .block body => style.node "block" (Stmt.renderAll style body)
  | .conditional condition yes none => style.node "if" [condition.render style, yes.render style]
  | .conditional condition yes (some no) =>
    style.node "if" [condition.render style, yes.render style, no.render style]

/-- The texts of statements in order. -/
def Stmt.renderAll (style : TreeStyle) : List Stmt → List String
  | [] => []
  | stmt :: rest => stmt.render style :: Stmt.renderAll style rest

end

/-- The text of a program: one statement per line. -/
def Program.render (style : TreeStyle) (program : Program) : String :=
  "\n".intercalate (Stmt.renderAll style program)

end LoxLang
