import LoxLang.Value.Basic

/-!
# Tokens

The kinds of token, each with a name (used in traces) and a spelling (used to describe
it), the keyword table, and tokens themselves.
-/

namespace LoxLang

/-- The kinds of token. -/
inductive TokenKind where
  | leftParen | rightParen | leftBrace | rightBrace
  | comma | dot | minus | plus | semicolon | slash | star
  | bang | bangEqual | equal | equalEqual
  | greater | greaterEqual | less | lessEqual
  | identifier | string | number
  | kwElse | kwFalse | kwFun | kwFor | kwIf | kwNil | kwOr | kwPrint
  | kwReturn | kwSuper | kwThis | kwTrue | kwVar | kwWhile
  | eof
  deriving DecidableEq, Inhabited

namespace TokenKind

/-- Every kind with its name and its spelling, in the order of their declaration. -/
def table : List (TokenKind × String × String) :=
  [(.leftParen, "LeftParen", "("), (.rightParen, "RightParen", ")"),
   (.leftBrace, "LeftBrace", "\x7b"), (.rightBrace, "RightBrace", "\x7d"),
   (.comma, "Comma", ","), (.dot, "Dot", "."), (.minus, "Minus", "-"), (.plus, "Plus", "+"),
   (.semicolon, "Semicolon", ";"), (.slash, "Slash", "/"), (.star, "Star", "*"),
   (.bang, "Bang", "!"), (.bangEqual, "BangEqual", "!="),
   (.equal, "Equal", "="), (.equalEqual, "EqualEqual", "=="),
   (.greater, "Greater", ">"), (.greaterEqual, "GreaterEqual", ">="),
   (.less, "Less", "<"), (.lessEqual, "LessEqual", "<="),
   (.identifier, "Identifier", "identifier"), (.string, "String", "string"),
   (.number, "Number", "number"),
   (.kwElse, "Else", "else"), (.kwFalse, "False", "false"), (.kwFun, "Fun", "fun"),
   (.kwFor, "For", "for"), (.kwIf, "If", "if"), (.kwNil, "Nil", "nil"), (.kwOr, "Or", "or"),
   (.kwPrint, "Print", "print"), (.kwReturn, "Return", "return"), (.kwSuper, "Super", "super"),
   (.kwThis, "This", "this"), (.kwTrue, "True", "true"), (.kwVar, "Var", "var"),
   (.kwWhile, "While", "while"), (.eof, "Eof", "end of file")]

/-- The name of a kind. -/
def name (kind : TokenKind) : String := (table.lookup kind).elim "" Prod.fst

/-- How a kind is described: its text where that is fixed, else a word for it. -/
def spelling (kind : TokenKind) : String := (table.lookup kind).elim "" Prod.snd

/-- The reserved words. -/
def keywords : List (String × TokenKind) :=
  [("else", .kwElse), ("false", .kwFalse), ("for", .kwFor), ("fun", .kwFun), ("if", .kwIf),
   ("nil", .kwNil), ("or", .kwOr), ("print", .kwPrint), ("return", .kwReturn),
   ("super", .kwSuper), ("this", .kwThis), ("true", .kwTrue), ("var", .kwVar),
   ("while", .kwWhile)]

/-- The kind of a name: a keyword when the whole name is reserved. -/
def ofName (name : String) : TokenKind := (keywords.lookup name).getD .identifier

end TokenKind

/-- A lexeme with its kind, the value it denotes if any, and the line on which it ends. -/
structure Token where
  kind : TokenKind
  lexeme : String
  literal : Option Value
  line : Nat
  deriving DecidableEq, Inhabited

/-- The kind's name and the lexeme. -/
def Token.describe (token : Token) : String := token.kind.name ++ " " ++ token.lexeme

end LoxLang
