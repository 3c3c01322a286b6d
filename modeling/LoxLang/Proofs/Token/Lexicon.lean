import LoxLang.Token.Scan
import Mathlib

/-!
# The lexical grammar

What a source text is made of, said without a cursor. A text is a chain of separators and
lexemes, in which each lexeme is the longest pattern at its place:

    separator  := blank | "//" up to the end of the line | "/*" up to the first "*/"
    pattern    := symbol | digits ("." digits)? | '"' no quotes '"' | name

The kind of a lexeme and the value that it denotes depend on its text alone (`kindOf`,
`literalOf`). `Tokenizes` says that a text falls into separators and the lexemes of given
tokens, `Breaks` that it does up to a stretch that is neither.
-/

namespace LoxLang

namespace Lexical

/-! ### Separators -/

/-- The blank characters. -/
def blanks : List Char := [' ', '\r', '\t', '\n']

/-- The text separates, and the given rest follows it. -/
inductive Separator : List Char → List Char → Prop where
  | blank {c : Char} {rest : List Char} : c ∈ blanks → Separator [c] rest
  | lineComment {body rest : List Char} : '\n' ∉ body → (rest = [] ∨ ∃ more, rest = '\n' :: more) →
      Separator ('/' :: '/' :: body) rest
  /-- The comment is closed by the first `*/` in it. -/
  | blockComment {body rest : List Char} : ¬ ['*', '/'] <:+: body →
      Separator ('/' :: '*' :: (body ++ ['*', '/'])) rest

/-- Any number of separators, and the given rest follows them. -/
inductive Trivia : List Char → List Char → Prop where
  | nil {rest : List Char} : Trivia [] rest
  | cons {text more rest : List Char} : Separator text (more ++ rest) → Trivia more rest →
      Trivia (text ++ more) rest

/-! ### Patterns and lexemes -/

/-- The punctuation and the operators. -/
def symbols : List (List Char × TokenKind) :=
  [(['('], .leftParen), ([')'], .rightParen), (['{'], .leftBrace), (['}'], .rightBrace),
   ([','], .comma), (['.'], .dot), (['-'], .minus), (['+'], .plus), ([';'], .semicolon),
   (['/'], .slash), (['*'], .star), (['!'], .bang), (['!', '='], .bangEqual),
   (['='], .equal), (['=', '='], .equalEqual), (['<'], .less), (['<', '='], .lessEqual),
   (['>'], .greater), (['>', '='], .greaterEqual)]

/-- The texts that may be lexemes. -/
inductive Pattern : List Char → Prop where
  | symbol {text : List Char} {kind : TokenKind} : (text, kind) ∈ symbols → Pattern text
  | integer {digits : List Char} : digits ≠ [] → (∀ d ∈ digits, d.isDigit = true) → Pattern digits
  | decimal {whole fraction : List Char} : whole ≠ [] → (∀ d ∈ whole, d.isDigit = true) →
      fraction ≠ [] → (∀ d ∈ fraction, d.isDigit = true) → Pattern (whole ++ '.' :: fraction)
  | string {body : List Char} : '"' ∉ body → Pattern ('"' :: (body ++ ['"']))
  | name {c : Char} {cs : List Char} : Piece.isNameStart c = true →
      (∀ d ∈ cs, Piece.isNamePart d = true) → Pattern (c :: cs)

/-- The text begins with a comment, closed or not. -/
def StartsComment (text : List Char) : Prop := ['/', '/'] <+: text ∨ ['/', '*'] <+: text

/-- The text is the longest pattern in front of what it and the rest make up, and no comment
begins there. -/
structure Lexeme (text rest : List Char) : Prop where
  pattern : Pattern text
  longest : ∀ longer, Pattern longer → longer <+: text ++ rest → longer.length ≤ text.length
  notComment : ¬ StartsComment (text ++ rest)

/-- The kind of a lexeme. A name is a keyword exactly if the whole name is reserved. -/
def kindOf (lexeme : List Char) : TokenKind :=
  match symbols.lookup lexeme with
  | some kind => kind
  | none =>
    if lexeme.head? = some '"' then .string
    else if lexeme.head?.any Char.isDigit then .number
    else .ofName (String.ofList lexeme)

/-- The value that a lexeme denotes: what a string has between its quotes, the double nearest to a
number, and nothing otherwise. -/
def literalOf (lexeme : List Char) : Option Value :=
  if lexeme.head? = some '"' then some (.string (String.ofList lexeme.tail.dropLast))
  else if lexeme.head?.any Char.isDigit then
    some (Piece.numberValue (lexeme.takeWhile Char.isDigit) (lexeme.dropWhile Char.isDigit).tail)
  else none

/-- The token of a lexeme that ends on the given line. -/
def tokenOf (lexeme : List Char) (line : Nat) : Token :=
  ⟨kindOf lexeme, String.ofList lexeme, literalOf lexeme, line⟩

/-! ### Texts as chains -/

/-- The text that begins on the given line falls into separators and the lexemes of the tokens, and
the end token is last. -/
inductive Tokenizes : Nat → List Char → List Token → Prop where
  | finish {line : Nat} {trivia : List Char} : Trivia trivia [] →
      Tokenizes line trivia [.endAt (line + trivia.count '\n')]
  | token {line : Nat} {trivia lexeme rest : List Char} {tokens : List Token} :
      Trivia trivia (lexeme ++ rest) → Lexeme lexeme rest →
      Tokenizes (line + (trivia ++ lexeme).count '\n') rest tokens →
      Tokenizes line (trivia ++ (lexeme ++ rest))
        (tokenOf lexeme (line + (trivia ++ lexeme).count '\n') :: tokens)

/-- A stretch that is no lexeme and no separator, and the given rest follows it. -/
inductive Broken : LexicalProblem → List Char → List Char → Prop where
  | unexpectedCharacter {c : Char} {rest : List Char} : c ∉ blanks → (∀ cs, ¬ Pattern (c :: cs)) →
      Broken (.unexpectedCharacter c) [c] rest
  | unterminatedString {body : List Char} : '"' ∉ body → Broken .unterminatedString ('"' :: body) []
  | unterminatedComment {body : List Char} : ¬ ['*', '/'] <:+: body →
      Broken .unterminatedComment ('/' :: '*' :: body) []

/-- The text that begins on the given line falls into separators and lexemes up to a stretch that
is neither. -/
inductive Breaks : Nat → List Char → LexicalError → Prop where
  | here {line : Nat} {trivia stretch rest : List Char} {problem : LexicalProblem} :
      Trivia trivia (stretch ++ rest) → Broken problem stretch rest →
      Breaks line (trivia ++ (stretch ++ rest)) ⟨line + (trivia ++ stretch).count '\n', problem⟩
  | later {line : Nat} {trivia lexeme rest : List Char} {error : LexicalError} :
      Trivia trivia (lexeme ++ rest) → Lexeme lexeme rest →
      Breaks (line + (trivia ++ lexeme).count '\n') rest error →
      Breaks line (trivia ++ (lexeme ++ rest)) error

end Lexical

end LoxLang
