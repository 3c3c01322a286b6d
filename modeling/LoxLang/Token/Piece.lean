import LoxLang.Token.Basic

/-!
# The pieces of a source text

A source text is cut into pieces from left to right: blanks and comments, lexemes, and
stretches that are neither. `Piece.front` says what stands at the front of a text that is
not empty. It drops nothing (`front_append`) and takes at least one character
(`front_text_ne_nil`), which is why cutting a text into pieces ends.
-/

namespace LoxLang

/-- Why a stretch of the source is not a lexeme. -/
inductive LexicalProblem where
  | unexpectedCharacter (c : Char)
  | unterminatedString
  | unterminatedComment
  deriving DecidableEq

/-- What a piece of the source is. -/
inductive PieceKind where
  /-- Blanks and comments, which only separate. -/
  | blank
  /-- A lexeme of the given kind, with the value that it denotes. -/
  | lexeme (kind : TokenKind) (literal : Option Value)
  | problem (problem : LexicalProblem)
  deriving DecidableEq

/-- A piece at the front of a source text: what it is, its text, and the text after it. -/
structure Piece where
  kind : PieceKind
  text : List Char
  rest : List Char
  deriving DecidableEq

namespace Piece

/-! ### Character classes -/

/-- The characters that only separate lexemes. -/
def isBlank (c : Char) : Bool := c == ' ' || c == '\r' || c == '\t' || c == '\n'

/-- The ASCII letters and the underscore start a name. -/
def isNameStart (c : Char) : Bool := c.isAlpha || c == '_'

/-- A name goes on with ASCII letters, digits and underscores. -/
def isNamePart (c : Char) : Bool := c.isAlphanum || c == '_'

/-- The lexemes of one character that start no longer lexeme. -/
def single : Char → Option TokenKind
  | '(' => some .leftParen
  | ')' => some .rightParen
  | '{' => some .leftBrace
  | '}' => some .rightBrace
  | ',' => some .comma
  | '.' => some .dot
  | '-' => some .minus
  | '+' => some .plus
  | ';' => some .semicolon
  | '*' => some .star
  | _ => none

/-- The characters that are a lexeme alone and another one before `=`: both kinds. -/
def beforeEqual : Char → Option (TokenKind × TokenKind)
  | '!' => some (.bang, .bangEqual)
  | '=' => some (.equal, .equalEqual)
  | '<' => some (.less, .lessEqual)
  | '>' => some (.greater, .greaterEqual)
  | _ => none

/-! ### The forms of a piece -/

/-- The text up to and with the first `*/`, and the text after it. The characters already
passed are kept in reverse. -/
def closeComment (passed : List Char) : List Char → Option (List Char × List Char)
  | [] => none
  | '*' :: '/' :: rest => some (('/' :: '*' :: passed).reverse, rest)
  | c :: rest => closeComment (c :: passed) rest

/-- After a slash: a comment to the end of the line, a comment to the first `*/`, or the
slash alone. -/
def slash (cs : List Char) : Piece :=
  match cs with
  | '/' :: _ => ⟨.blank, '/' :: cs.takeWhile (· != '\n'), cs.dropWhile (· != '\n')⟩
  | '*' :: inside =>
    match closeComment [] inside with
    | some (text, rest) => ⟨.blank, '/' :: '*' :: text, rest⟩
    | none => ⟨.problem .unterminatedComment, '/' :: cs, []⟩
  | _ => ⟨.lexeme .slash none, ['/'], cs⟩

/-- After a quote: everything up to the next quote, which must be there. -/
def string (cs : List Char) : Piece :=
  match cs.dropWhile (· != '"') with
  | [] => ⟨.problem .unterminatedString, '"' :: cs, []⟩
  | quote :: rest =>
    let body := cs.takeWhile (· != '"')
    ⟨.lexeme .string (some (.string (String.ofList body))), '"' :: (body ++ [quote]), rest⟩

/-- The double nearest to the number with the given digits before and after the point. -/
def numberValue (whole fraction : List Char) : Value :=
  .number (Float.ofScientific (Nat.ofDigitChars 10 (whole ++ fraction) 0) true fraction.length)

/-- After the digits of `whole`: a point with more digits, or nothing more. A point that no
digit follows is left alone. -/
def fraction (whole : List Char) : List Char → Piece
  | '.' :: d :: cs =>
    if d.isDigit then
      let digits := d :: cs.takeWhile Char.isDigit
      ⟨.lexeme .number (some (numberValue whole digits)), whole ++ '.' :: digits,
        cs.dropWhile Char.isDigit⟩
    else ⟨.lexeme .number (some (numberValue whole [])), whole, '.' :: d :: cs⟩
  | cs => ⟨.lexeme .number (some (numberValue whole [])), whole, cs⟩

/-- Digits, then perhaps a fraction. -/
def number (cs : List Char) : Piece :=
  fraction (cs.takeWhile Char.isDigit) (cs.dropWhile Char.isDigit)

/-- A name or keyword: as many name characters as there are. -/
def name (cs : List Char) : Piece :=
  let text := cs.takeWhile isNamePart
  ⟨.lexeme (.ofName (String.ofList text)) none, text, cs.dropWhile isNamePart⟩

/-- One of two kinds, by whether `=` follows. -/
def withEqual (c : Char) (alone paired : TokenKind) : List Char → Piece
  | '=' :: rest => ⟨.lexeme paired none, [c, '='], rest⟩
  | cs => ⟨.lexeme alone none, [c], cs⟩

/-- A lexeme of punctuation, or a character that starts nothing. -/
def punctuation (c : Char) (cs : List Char) : Piece :=
  match single c, beforeEqual c with
  | some kind, _ => ⟨.lexeme kind none, [c], cs⟩
  | none, some (alone, paired) => withEqual c alone paired cs
  | none, none => ⟨.problem (.unexpectedCharacter c), [c], cs⟩

/-- The piece at the front of the text `c :: cs`. -/
def front (c : Char) (cs : List Char) : Piece :=
  if isBlank c then ⟨.blank, [c], cs⟩
  else if c == '/' then slash cs
  else if c == '"' then string cs
  else if c.isDigit then number (c :: cs)
  else if isNameStart c then name (c :: cs)
  else punctuation c cs

/-! ### Nothing is lost -/

theorem closeComment_append {passed cs text rest : List Char}
    (h : closeComment passed cs = some (text, rest)) :
    text ++ rest = passed.reverse ++ cs := by
  fun_induction closeComment passed cs with
  | case1 => simp at h
  | case2 passed rest' =>
    simp only [Option.some.injEq, Prod.mk.injEq] at h
    obtain ⟨rfl, rfl⟩ := h
    simp
  | case3 passed c rest' _ ih => simpa using ih h

theorem slash_append (cs : List Char) : (slash cs).text ++ (slash cs).rest = '/' :: cs := by
  unfold slash
  split
  · simp
  · split
    · next h => simpa using closeComment_append h
    · simp
  · simp

theorem string_append (cs : List Char) : (string cs).text ++ (string cs).rest = '"' :: cs := by
  unfold string
  split
  · simp
  · next h =>
    have := List.takeWhile_append_dropWhile (p := (· != '"')) (l := cs)
    rw [h] at this
    simpa using this

theorem fraction_append (whole cs : List Char) :
    (fraction whole cs).text ++ (fraction whole cs).rest = whole ++ cs := by
  unfold fraction
  split
  · split <;> simp
  · rfl

theorem number_append (cs : List Char) : (number cs).text ++ (number cs).rest = cs := by
  rw [number, fraction_append, List.takeWhile_append_dropWhile]

theorem name_append (cs : List Char) : (name cs).text ++ (name cs).rest = cs := by
  simp [name]

theorem punctuation_append (c : Char) (cs : List Char) :
    (punctuation c cs).text ++ (punctuation c cs).rest = c :: cs := by
  unfold punctuation
  split
  · rfl
  · unfold withEqual; split <;> rfl
  · rfl

/-- A piece and the text after it are the text in front of which it stands. -/
theorem front_append (c : Char) (cs : List Char) :
    (front c cs).text ++ (front c cs).rest = c :: cs := by
  unfold front
  split
  · rfl
  split
  · next h => rw [slash_append, beq_iff_eq.mp h]
  split
  · next h => rw [string_append, beq_iff_eq.mp h]
  split
  · exact number_append _
  split
  · exact name_append _
  · exact punctuation_append c cs

/-- A piece is never empty. -/
theorem front_text_ne_nil (c : Char) (cs : List Char) : (front c cs).text ≠ [] := by
  unfold front
  split
  · simp
  split
  · unfold slash
    split
    · simp
    · split <;> simp
    · simp
  split
  · unfold string; split <;> simp
  split
  · next h =>
    unfold number fraction
    split
    · split <;> simp [h]
    · simp [h]
  split
  · next h =>
    have : isNamePart c = true := by
      simp only [isNameStart, isNamePart, Char.isAlphanum, Bool.or_eq_true] at h ⊢
      exact h.imp_left .inl
    simp [name, this]
  · unfold punctuation
    split
    · simp
    · unfold withEqual; split <;> simp
    · simp

/-- The text after a piece is shorter. -/
theorem length_rest_front_le (c : Char) (cs : List Char) :
    (front c cs).rest.length ≤ cs.length := by
  have h := congrArg List.length (front_append c cs)
  have := List.length_pos_iff.mpr (front_text_ne_nil c cs)
  simp only [List.length_append, List.length_cons] at h
  omega

end Piece

end LoxLang
