import LoxLang.Proofs.Token.Calls
import LoxLang.Proofs.Token.Contexts

/-!
# Unexpected characters are blanks

A scan goes on behind a character that starts no lexeme as it does behind a blank. So the text with
a space in place of every such character (`mended`) is scanned to the same tokens on the same lines,
and the only error that is left is the one at the end of the text, if there is one
(`tokenize_mended`).
-/

namespace LoxLang

/-- A text with a space in place of every unexpected character that a scan meets. -/
def mended : List Char → List Char
  | [] => []
  | c :: cs =>
    let piece := Piece.front c cs
    match piece.kind with
    | .problem (.unexpectedCharacter _) => ' ' :: mended piece.rest
    | _ => piece.text ++ mended piece.rest
termination_by text => text.length
decreasing_by all_goals exact Nat.lt_succ_of_le (Piece.length_rest_front_le c cs)

/-- The error tells a character that starts nothing. -/
def LexicalError.isUnexpected (error : LexicalError) : Bool :=
  match error.problem with
  | .unexpectedCharacter _ => true
  | _ => false

theorem LexicalError.isUnexpected_eq_false {error : LexicalError}
    (h : error.problem.IsUnterminated) : error.isUnexpected = false := by
  rcases h with h | h <;> simp [isUnexpected, h]

/-- What a scan still finds where its text is mended. -/
def Scanned.isKept : Scanned → Bool
  | .ok _ => true
  | .error error => !error.isUnexpected

@[simp] theorem Scanned.isKept_error (error : LexicalError) :
    Scanned.isKept (.error error) = !error.isUnexpected := rfl

theorem tokensOf_filter_isKept (items : List Scanned) :
    tokensOf (items.filter Scanned.isKept) = tokensOf items := by
  induction items with
  | nil => rfl
  | cons item items ih =>
    cases item with
    | ok token => exact congrArg (token :: ·) ih
    | error error =>
      rw [List.filter_cons]
      split <;> exact ih

theorem errorsOf_filter_isKept (items : List Scanned) :
    errorsOf (items.filter Scanned.isKept) =
      (errorsOf items).filter fun error => !error.isUnexpected := by
  induction items with
  | nil => rfl
  | cons item items ih =>
    cases item with
    | ok token => exact ih
    | error error =>
      show _ = List.filter _ (error :: errorsOf items)
      rw [List.filter_cons, List.filter_cons, ← ih]
      cases h : error.isUnexpected <;> simp [h, errorsOf]

namespace Lexical

variable {text rest : List Char} {line : Nat}

/-- Every text is made of separators, lexemes and unexpected characters, each read with the text
behind it in view. A string or a comment that is not closed may end it. -/
theorem text_induction {motive : List Char → Prop} (text : List Char) (nil : motive [])
    (separator : ∀ {text rest}, Separator text rest → motive rest → motive (text ++ rest))
    (lexeme : ∀ {text rest}, Lexeme text rest → motive rest → motive (text ++ rest))
    (unexpected : ∀ {c rest}, Broken (.unexpectedCharacter c) [c] rest → motive rest →
      motive ([c] ++ rest))
    (unterminated : ∀ {problem text}, problem.IsUnterminated → Broken problem text [] →
      motive (text ++ [])) : motive text := by
  -- The induction is on the length: what is left after a piece is shorter.
  induction hlength : text.length using Nat.strongRecOn generalizing text with
  | _ n ih =>
  cases text with
  | nil => exact nil
  | cons c cs =>
    have hlt : (Piece.front c cs).rest.length < n :=
      hlength ▸ Nat.lt_succ_of_le (Piece.length_rest_front_le c cs)
    have hrest := ih _ hlt _ rfl
    have hsound := front_sound c cs
    rw [← Piece.front_append c cs]
    generalize Piece.front c cs = piece at hrest hsound
    obtain ⟨kind, text, rest⟩ := piece
    cases kind with
    | blank => exact separator hsound hrest
    | lexeme kind literal => exact lexeme hsound.1 hrest
    | problem problem =>
      have hbroken : Broken problem text rest := hsound
      rcases hbroken.cases with ⟨c, rfl, rfl⟩ | ⟨hproblem, rfl⟩
      · exact unexpected hbroken hrest
      · exact unterminated hproblem hbroken

/-! ### What is mended -/

@[simp] theorem mended_nil : mended [] = [] := by
  rw [mended]

theorem mended_separator (h : Separator text rest) : mended (text ++ rest) = text ++ mended rest := by
  obtain ⟨c, cs, hwhole⟩ := List.exists_cons_of_ne_nil
    (List.append_ne_nil_of_left_ne_nil h.ne_nil rest)
  rw [hwhole, mended, front_of_separator h hwhole]

theorem mended_lexeme (h : Lexeme text rest) : mended (text ++ rest) = text ++ mended rest := by
  obtain ⟨c, cs, hwhole⟩ := List.exists_cons_of_ne_nil
    (List.append_ne_nil_of_left_ne_nil h.pattern.ne_nil rest)
  rw [hwhole, mended, front_of_lexeme h hwhole]

theorem mended_unexpected {c : Char} (h : Broken (.unexpectedCharacter c) [c] rest) :
    mended ([c] ++ rest) = [' '] ++ mended rest := by
  have hfront : Piece.front c rest = ⟨.problem (.unexpectedCharacter c), [c], rest⟩ :=
    front_of_broken h rfl
  rw [List.singleton_append, mended, hfront]
  rfl

theorem mended_unterminated {problem : LexicalProblem} (hproblem : problem.IsUnterminated)
    (h : Broken problem text []) : mended (text ++ []) = text ++ [] := by
  obtain ⟨c, cs, hwhole⟩ := List.exists_cons_of_ne_nil
    (List.append_ne_nil_of_left_ne_nil h.ne_nil [])
  rw [hwhole, mended, front_of_broken h hwhole, ← hwhole]
  rcases hproblem with rfl | rfl <;> rw [mended_nil]

/-- Spaces in place of characters: the places are those of the errors, in order, each with the
character that it tells and on its line. -/
inductive Blanked : Nat → List Char → List LexicalError → List Char → Prop where
  | nil {line : Nat} : Blanked line [] [] []
  | keep {line : Nat} {c : Char} {cs ds : List Char} {errors : List LexicalError} :
      Blanked (line + [c].count '\n') cs errors ds → Blanked line (c :: cs) errors (c :: ds)
  | blank {line : Nat} {c : Char} {cs ds : List Char} {errors : List LexicalError} :
      Blanked (line + [c].count '\n') cs errors ds →
      Blanked line (c :: cs) (⟨line, .unexpectedCharacter c⟩ :: errors) (' ' :: ds)

theorem Blanked.keepAll {cs ds : List Char} {errors : List LexicalError} (text : List Char)
    (h : Blanked (line + text.count '\n') cs errors ds) :
    Blanked line (text ++ cs) errors (text ++ ds) := by
  induction text generalizing line with
  | nil => exact h
  | cons c text ih =>
    rw [← List.singleton_append, List.count_append, ← Nat.add_assoc] at h
    exact .keep (ih h)

/-- What has no space in it stands in front of the text with spaces only if it stands in front of
the text without them. -/
theorem Blanked.isPrefix {cs ds front : List Char} {errors : List LexicalError}
    (h : Blanked line cs errors ds) (hspace : ' ' ∉ front) (hfront : front <+: ds) :
    front <+: cs := by
  induction h generalizing front with
  | nil => exact hfront
  | @keep line c cs ds errors _ ih =>
    cases front with
    | nil => exact List.nil_prefix
    | cons d front =>
      obtain ⟨rfl, hmore⟩ := List.cons_prefix_cons.mp hfront
      exact List.cons_prefix_cons.mpr ⟨rfl, ih (fun h => hspace (by simp [h])) hmore⟩
  | blank _ _ =>
    cases front with
    | nil => exact List.nil_prefix
    | cons d front =>
      obtain ⟨rfl, -⟩ := List.cons_prefix_cons.mp hfront
      exact absurd (by simp) hspace

/-- **The spaces stand where the scan reports unexpected characters.** -/
theorem blanked_mended (text : List Char) (line : Nat) :
    Blanked line text
      ((errorsOf (Cursor.scan ⟨text, line⟩)).filter LexicalError.isUnexpected) (mended text) := by
  induction text using text_induction generalizing line with
  | nil =>
    rw [Cursor.scan_nil, mended_nil]
    exact .nil
  | separator hseparator ih =>
    rw [scan_separator hseparator, mended_separator hseparator]
    exact .keepAll _ (ih _)
  | lexeme hlexeme ih =>
    rw [scan_lexeme hlexeme, mended_lexeme hlexeme]
    exact .keepAll _ (ih _)
  | @unexpected c rest hbroken ih =>
    have hline : line + [c].count '\n' = line := by rw [hbroken.of_unexpected.2, Nat.add_zero]
    rw [scan_broken hbroken, mended_unexpected hbroken, hline]
    exact .blank (by rw [hline]; exact ih line)
  | @unterminated problem text hproblem hbroken =>
    have herror : (⟨line + text.count '\n', problem⟩ : LexicalError).isUnexpected = false :=
      LexicalError.isUnexpected_eq_false hproblem
    rw [scan_broken hbroken, mended_unterminated hproblem hbroken, Cursor.scan_nil]
    have hnone : (errorsOf [.error ⟨line + text.count '\n', problem⟩,
        .ok (.endAt (line + text.count '\n'))]).filter LexicalError.isUnexpected = [] :=
      List.filter_cons_of_neg (by simp [herror])
    rw [hnone]
    exact .keepAll _ .nil

/-! ### The mended text is scanned alike -/

theorem Separator.mended (h : Separator text rest) : Separator text (mended rest) := by
  cases h with
  | blank hblank => exact .blank hblank
  | lineComment hbody hrest =>
    refine .lineComment hbody ?_
    rcases hrest with rfl | ⟨more, rfl⟩
    · exact .inl mended_nil
    · exact .inr ⟨_, @mended_separator ['\n'] more (.blank (by decide))⟩
  | blockComment hbody => exact .blockComment hbody

/-- A lexeme ends in front of a space as it does in front of a character that starts nothing. -/
theorem Lexeme.mended (h : Lexeme text rest) : Lexeme text (mended rest) := by
  refine h.of_blank (b := ' ') (by decide) fun front hspace hfront => ?_
  rw [← mended_lexeme h] at hfront
  exact (blanked_mended (text ++ rest) 1).isPrefix hspace hfront

/-- **Mending leaves out the errors at unexpected characters, and nothing else.** -/
theorem scan_mended (text : List Char) (line : Nat) :
    Cursor.scan ⟨mended text, line⟩ = (Cursor.scan ⟨text, line⟩).filter Scanned.isKept := by
  induction text using text_induction generalizing line with
  | nil =>
    rw [mended_nil, Cursor.scan_nil]
    rfl
  | separator hseparator ih =>
    rw [mended_separator hseparator, scan_separator hseparator.mended, scan_separator hseparator, ih]
  | lexeme hlexeme ih =>
    rw [mended_lexeme hlexeme, scan_lexeme hlexeme.mended, scan_lexeme hlexeme, ih]
    rfl
  | @unexpected c rest hbroken ih =>
    have hcount : [' '].count '\n' = [c].count '\n' := hbroken.of_unexpected.2.symm
    have hspace : Separator [' '] (LoxLang.mended rest) := .blank (by decide)
    rw [mended_unexpected hbroken, scan_broken hbroken, scan_separator hspace, hcount, ih]
    rfl
  | @unterminated problem text hproblem hbroken =>
    have herror : (⟨line + text.count '\n', problem⟩ : LexicalError).isUnexpected = false :=
      LexicalError.isUnexpected_eq_false hproblem
    rw [mended_unterminated hproblem hbroken, scan_broken hbroken, Cursor.scan_nil,
      List.filter_cons_of_pos (by simp [herror])]
    rfl

/-- At most one error tells something else than an unexpected character, and it is the last. -/
theorem errors_cases (text : List Char) (line : Nat) :
    (∀ error ∈ errorsOf (Cursor.scan ⟨text, line⟩), error.isUnexpected = true) ∨
    ∃ earlier last, errorsOf (Cursor.scan ⟨text, line⟩) = earlier ++ [last] ∧
      (∀ error ∈ earlier, error.isUnexpected = true) ∧ last.problem.IsUnterminated := by
  induction text using text_induction generalizing line with
  | nil =>
    rw [Cursor.scan_nil]
    exact .inl (by simp [errorsOf])
  | separator hseparator ih =>
    rw [scan_separator hseparator]
    exact ih _
  | lexeme hlexeme ih =>
    rw [scan_lexeme hlexeme]
    exact ih _
  | @unexpected c rest hbroken ih =>
    rw [scan_broken hbroken]
    rcases ih (line + [c].count '\n') with hall | ⟨earlier, last, hlast, hearlier, hproblem⟩
    · exact .inl (List.forall_mem_cons.mpr ⟨rfl, hall⟩)
    · exact .inr ⟨_ :: earlier, last, congrArg (_ :: ·) hlast,
        List.forall_mem_cons.mpr ⟨rfl, hearlier⟩, hproblem⟩
  | unterminated hproblem hbroken =>
    rw [scan_broken hbroken, Cursor.scan_nil]
    exact .inr ⟨[], _, rfl, by simp, hproblem⟩

/-! ### Whole source texts -/

/-- What a scan of the source finds, the end last. -/
def found (source : String) : List Scanned := (Cursor.start source).scan

/-- The source with a space in place of every unexpected character. -/
def mendedSource (source : String) : String := String.ofList (mended source.toList)

theorem found_mendedSource (source : String) :
    found (mendedSource source) = (found source).filter Scanned.isKept := by
  have hscan := scan_mended source.toList 1
  rwa [← @String.toList_ofList (LoxLang.mended source.toList)] at hscan

theorem tokenize_of_errors_nil {source : String} (h : errorsOf (found source) = []) :
    tokenize source = .ok (tokensOf (found source)) := by
  rw [found] at h ⊢
  simp only [tokenize, h]

theorem tokenize_of_errors_cons {source : String} {error : LexicalError}
    {later : List LexicalError} (h : errorsOf (found source) = error :: later) :
    tokenize source = .error (error :: later) := by
  rw [found] at h
  simp only [tokenize, h]

theorem tokenize_eq_ok_iff {source : String} {tokens : List Token} :
    tokenize source = .ok tokens ↔
      errorsOf (found source) = [] ∧ tokensOf (found source) = tokens := by
  cases herrors : errorsOf (found source) with
  | nil => simp [tokenize_of_errors_nil herrors]
  | cons error later => simp [tokenize_of_errors_cons herrors]

/-- **An unexpected character is treated like a blank.** A space in place of every reported
character leaves the tokens as they were collected between the errors. If all errors are of this
kind, there is none left. A string or comment that is not closed is the last error, and the only
one that is left, on the same line. -/
theorem tokenize_mended (source : String) :
    Blanked 1 source.toList ((errorsOf (found source)).filter LexicalError.isUnexpected)
      (mendedSource source).toList ∧
    ((∀ error ∈ errorsOf (found source), error.isUnexpected = true) →
      tokenize (mendedSource source) = .ok (tokensOf (found source))) ∧
    (∀ error ∈ errorsOf (found source), error.problem.IsUnterminated →
      errorsOf (found source) =
        (errorsOf (found source)).filter LexicalError.isUnexpected ++ [error] ∧
      tokenize (mendedSource source) = .error [error]) := by
  have herrors := errorsOf_filter_isKept (found source)
  have htokens := tokensOf_filter_isKept (found source)
  rw [← found_mendedSource] at herrors htokens
  refine ⟨?_, ?_, ?_⟩
  · rw [mendedSource, String.toList_ofList]
    exact blanked_mended source.toList 1
  · intro hall
    have hnone : errorsOf (found (mendedSource source)) = [] := by
      rw [herrors, List.filter_eq_nil_iff]
      intro error herror
      simp [hall error herror]
    rw [tokenize_of_errors_nil hnone, htokens]
  · intro error hmem hproblem
    rcases errors_cases source.toList 1 with hall | ⟨earlier, last, hsplit, hearlier, hlast⟩
    · exact absurd (hall error hmem) (by simp [LexicalError.isUnexpected_eq_false hproblem])
    have hsplit : errorsOf (found source) = earlier ++ [last] := hsplit
    have hsame : error = last := by
      rw [hsplit, List.mem_append, List.mem_singleton] at hmem
      refine hmem.resolve_left fun hmem => ?_
      exact absurd (hearlier error hmem) (by simp [LexicalError.isUnexpected_eq_false hproblem])
    subst hsame
    have hkept : errorsOf (found (mendedSource source)) = [error] := by
      rw [herrors, hsplit, List.filter_append, List.filter_eq_nil_iff.mpr (by simpa using hearlier)]
      simp [LexicalError.isUnexpected_eq_false hproblem]
    refine ⟨?_, ?_⟩
    · rw [hsplit, List.filter_append, List.filter_eq_self.mpr hearlier]
      simp [LexicalError.isUnexpected_eq_false hproblem]
    · exact tokenize_of_errors_cons hkept

/-- The characters in front of the string become spaces, and the one in the string stays. -/
theorem tokenize_mended_string :
    mendedSource "\n@x#\"@" = "\n x \"@" ∧
    Blanked 1 "\n@x#\"@".toList [⟨2, .unexpectedCharacter '@'⟩, ⟨2, .unexpectedCharacter '#'⟩]
      "\n x \"@".toList ∧
    tokenize "\n x \"@" = .error [⟨2, .unterminatedString⟩] ∧
    tokenize "\n x " = .ok [⟨.identifier, "x", none, 2⟩, .endAt 2] := by
  have hmended : mendedSource "\n@x#\"@" = "\n x \"@" := by decide +kernel
  have herrors : errorsOf (found "\n@x#\"@") = [⟨2, .unexpectedCharacter '@'⟩,
    ⟨2, .unexpectedCharacter '#'⟩, ⟨2, .unterminatedString⟩] := by decide +kernel
  obtain ⟨hblanked, -, hlast⟩ := tokenize_mended "\n@x#\"@"
  obtain ⟨-, hall, -⟩ := tokenize_mended "\n@x#"
  rw [herrors, hmended] at hblanked hlast
  refine ⟨hmended, hblanked, (hlast ⟨2, .unterminatedString⟩ (by decide) (.inl rfl)).2, ?_⟩
  have hmended' : mendedSource "\n@x#" = "\n x " := by decide +kernel
  have htokens : tokensOf (found "\n@x#") = [⟨.identifier, "x", none, 2⟩, .endAt 2] := by
    decide +kernel
  rw [← hmended', ← htokens]
  exact hall (by decide +kernel)

end Lexical

end LoxLang
