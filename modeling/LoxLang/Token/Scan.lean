import LoxLang.Token.Piece

/-!
# Scanning

A `Cursor` is a place in a source text: the text still to come and the line. `next` gives
what stands at the cursor, blanks and comments skipped: a token or a lexical error.
`scan` collects everything up to the end of the text, and `tokenize` gives the tokens, or
all errors if there is one. A line is one more than the line feeds up to its place, so a
token bears the line on which it ends.
-/

namespace LoxLang

/-- A stretch of the source that is no lexeme, and the line on which that was seen. -/
structure LexicalError where
  line : Nat
  problem : LexicalProblem
  deriving DecidableEq

/-- The problem in words. -/
def LexicalProblem.message : LexicalProblem → String
  | .unexpectedCharacter c => "Unexpected character: " ++ c.toString
  | .unterminatedString => "Unterminated string."
  | .unterminatedComment => "Unterminated block comment."

/-- The line and the problem in words. -/
def LexicalError.text (error : LexicalError) : String :=
  "[line " ++ toString error.line ++ "] Error: " ++ error.problem.message

/-- What stands at a cursor. -/
abbrev Scanned := Except LexicalError Token

/-- The token for the end of the text. -/
def Token.endAt (line : Nat) : Token := ⟨.eof, "", none, line⟩

/-- A lexeme as a token and a problem as an error, both with the line at the piece's end;
a blank is neither. -/
def Piece.scanned? (piece : Piece) (line : Nat) : Option Scanned :=
  match piece.kind with
  | .blank => none
  | .lexeme kind literal => some (.ok ⟨kind, String.ofList piece.text, literal, line⟩)
  | .problem problem => some (.error ⟨line, problem⟩)

/-- A place in a source text. -/
structure Cursor where
  rest : List Char
  line : Nat
  deriving DecidableEq

namespace Cursor

/-- The front of a source text. -/
def start (source : String) : Cursor := ⟨source.toList, 1⟩

/-- The place after a piece that began on the given line. -/
def after (piece : Piece) (line : Nat) : Cursor := ⟨piece.rest, line + piece.text.count '\n'⟩

/-- The token or error at the cursor, and the place after it. At the end of the text this
is the end token, and the cursor stays. -/
def next : Cursor → Scanned × Cursor
  | ⟨[], line⟩ => (.ok (.endAt line), ⟨[], line⟩)
  | ⟨c :: cs, line⟩ =>
    let piece := Piece.front c cs
    let place := after piece line
    match piece.scanned? place.line with
    | some found => (found, place)
    | none => next place
termination_by cursor => cursor.rest.length
decreasing_by exact Nat.lt_succ_of_le (Piece.length_rest_front_le c cs)

/-- The results of so many steps from a cursor. -/
def steps : Nat → Cursor → List Scanned
  | 0, _ => []
  | n + 1, cursor => cursor.next.1 :: steps n cursor.next.2

/-- Everything from the cursor to the end of the text, after what was found before (kept in
reverse). -/
def collect (found : List Scanned) : Cursor → List Scanned
  | ⟨[], line⟩ => (.ok (.endAt line) :: found).reverse
  | ⟨c :: cs, line⟩ =>
    let piece := Piece.front c cs
    let place := after piece line
    match piece.scanned? place.line with
    | some item => collect (item :: found) place
    | none => collect found place
termination_by cursor => cursor.rest.length
decreasing_by all_goals exact Nat.lt_succ_of_le (Piece.length_rest_front_le c cs)

/-- Every token and error from the cursor on, up to and with the end token. -/
def scan (cursor : Cursor) : List Scanned := collect [] cursor

theorem collect_append (found older : List Scanned) (cursor : Cursor) :
    collect (found ++ older) cursor = older.reverse ++ collect found cursor := by
  fun_induction collect found cursor with
  | case1 found line => simp [collect]
  | case2 found c cs line piece place item h ih =>
    rw [collect]
    simp only [piece, place] at h ih ⊢
    rw [h]
    exact ih
  | case3 found c cs line piece place h ih =>
    rw [collect]
    simp only [piece, place] at h ih ⊢
    rw [h]
    exact ih

/-- At the end of the text only the end token is left. -/
theorem scan_nil (line : Nat) : scan ⟨[], line⟩ = [.ok (.endAt line)] := by
  simp [scan, collect]

/-- A scan is what the first piece gives and the scan from the place after it. -/
theorem scan_cons (c : Char) (cs : List Char) (line : Nat) :
    scan ⟨c :: cs, line⟩ =
      ((Piece.front c cs).scanned? (after (Piece.front c cs) line).line).toList ++
        scan (after (Piece.front c cs) line) := by
  rw [scan, collect]
  cases h : (Piece.front c cs).scanned? (after (Piece.front c cs) line).line with
  | none => simp [scan]
  | some item => simpa [scan, h] using collect_append [] [item] (after (Piece.front c cs) line)

end Cursor

/-- The tokens among scanned items. -/
def tokensOf (items : List Scanned) : List Token :=
  items.filterMap fun
    | .ok token => some token
    | .error _ => none

/-- The errors among scanned items. -/
def errorsOf (items : List Scanned) : List LexicalError :=
  items.filterMap fun
    | .ok _ => none
    | .error error => some error

/-- The tokens of a source text, the end token last; or all its errors, if it has any. -/
def tokenize (source : String) : Except (List LexicalError) (List Token) :=
  let items := (Cursor.start source).scan
  match errorsOf items with
  | [] => .ok (tokensOf items)
  | errors => .error errors

end LoxLang
