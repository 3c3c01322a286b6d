import LoxLang.Proofs.Token.Lines
import LoxLang.Proofs.Token.Mending

/-!
# Scanning goes on in the next line

A line feed ends whatever stands before it, unless a string or a comment is still open. So a scan
that leaves none open finds below a text what it finds in the lines there alone, only further down,
and whatever stands above: lexemes, comments to the end of the line, or characters that start
nothing (`found_append_line`).
-/

namespace LoxLang

theorem tokensOf_append (items more : List Scanned) :
    tokensOf (items ++ more) = tokensOf items ++ tokensOf more := List.filterMap_append

theorem errorsOf_append (items more : List Scanned) :
    errorsOf (items ++ more) = errorsOf items ++ errorsOf more := List.filterMap_append

namespace Lexical

/-- A separator is one before a line feed as well: it ends there at the latest. -/
theorem Separator.before_line {text rest later : List Char} (h : Separator text rest) :
    Separator text (rest ++ '\n' :: later) := by
  cases h with
  | blank hblank => exact .blank hblank
  | lineComment hbody hrest =>
    refine .lineComment hbody (.inr ?_)
    rcases hrest with rfl | ⟨more, rfl⟩
    · exact ⟨later, rfl⟩
    · exact ⟨more ++ '\n' :: later, rfl⟩
  | blockComment hbody => exact .blockComment hbody

/-- **The same text further down** gives the same tokens and errors on later lines. -/
theorem scan_add_line (text : List Char) (line n : Nat) :
    Cursor.scan ⟨text, line + n⟩ = (Cursor.scan ⟨text, line⟩).map (Scanned.mapLine (· + n)) := by
  induction text using text_induction generalizing line with
  | nil =>
    rw [Cursor.scan_nil, Cursor.scan_nil]
    rfl
  | separator hseparator ih =>
    rw [scan_separator hseparator, scan_separator hseparator, ← ih, Nat.add_right_comm]
  | lexeme hlexeme ih =>
    rw [scan_lexeme hlexeme, scan_lexeme hlexeme, List.map_cons, ← ih, Nat.add_right_comm]
    rfl
  | unexpected hbroken ih =>
    rw [scan_broken hbroken, scan_broken hbroken, List.map_cons, ← ih, Nat.add_right_comm]
    rfl
  | unterminated _ hbroken =>
    rw [scan_broken hbroken, scan_broken hbroken, Cursor.scan_nil, Cursor.scan_nil,
      Nat.add_right_comm]
    rfl

/-- No error tells that the text ends before a string or a comment does. -/
def Closed (items : List Scanned) : Prop :=
  ∀ error ∈ errorsOf items, ¬ error.problem.IsUnterminated

/-- **A scan goes on below a text where nothing is left open in it**: what it found in the text stays
but for the end, and in the lines below it finds what stands there. -/
theorem scan_append_line {text : List Char} {line : Nat}
    (hclosed : Closed (Cursor.scan ⟨text, line⟩)) :
    ∃ items, Cursor.scan ⟨text, line⟩ = items ++ [.ok (.endAt (line + text.count '\n'))] ∧
      (∀ token ∈ tokensOf items, token.kind ≠ .eof) ∧
      ∀ later, Cursor.scan ⟨text ++ '\n' :: later, line⟩ =
        items ++ Cursor.scan ⟨later, line + text.count '\n' + 1⟩ := by
  induction text using text_induction generalizing line with
  | nil =>
    refine ⟨[], Cursor.scan_nil line, by simp [tokensOf], fun later => ?_⟩
    exact @scan_separator ['\n'] later line (.blank (by decide))
  | @separator text rest hseparator ih =>
    rw [scan_separator hseparator] at hclosed ⊢
    obtain ⟨items, hitems, hne, hbelow⟩ := ih hclosed
    rw [List.count_append, ← Nat.add_assoc]
    refine ⟨items, hitems, hne, fun later => ?_⟩
    rw [List.append_assoc, scan_separator hseparator.before_line, hbelow]
  | @lexeme text rest hlexeme ih =>
    rw [scan_lexeme hlexeme] at hclosed ⊢
    obtain ⟨items, hitems, hne, hbelow⟩ := ih hclosed
    rw [List.count_append, ← Nat.add_assoc, hitems]
    refine ⟨_ :: items, rfl, ?_, fun later => ?_⟩
    · exact List.forall_mem_cons.mpr ⟨hlexeme.pattern.kindOf_ne_eof, hne⟩
    · rw [List.append_assoc, scan_lexeme (hlexeme.before_blank (by decide) later), hbelow]
      rfl
  | @unexpected c rest hbroken ih =>
    rw [scan_broken hbroken] at hclosed ⊢
    obtain ⟨items, hitems, hne, hbelow⟩ := ih (List.forall_mem_cons.mp hclosed).2
    rw [List.count_append, ← Nat.add_assoc, hitems]
    refine ⟨_ :: items, rfl, hne, fun later => ?_⟩
    have hstill : Broken (.unexpectedCharacter c) [c] (rest ++ '\n' :: later) := by
      cases hbroken with
      | unexpectedCharacter hblank hpattern => exact .unexpectedCharacter hblank hpattern
    rw [List.append_assoc, scan_broken hstill, hbelow]
    rfl
  | unterminated hproblem hbroken =>
    rw [scan_broken hbroken] at hclosed
    exact absurd hproblem (List.forall_mem_cons.mp hclosed).1

/-- What is found in a text with another one below, where nothing is left open in it. -/
theorem exists_found_append_line {first : String} (hclosed : Closed (found first))
    (second : String) :
    ∃ items, found first = items ++ [.ok (.endAt (first.toList.count '\n' + 1))] ∧
      (∀ token ∈ tokensOf items, token.kind ≠ .eof) ∧ found (first ++ "\n" ++ second) =
        items ++ (found second).map (Scanned.mapLine (· + (first.toList.count '\n' + 1))) := by
  obtain ⟨items, hfirst, hne, hbelow⟩ := scan_append_line hclosed
  have htext : (first ++ "\n" ++ second).toList = first.toList ++ '\n' :: second.toList := by simp
  refine ⟨items, by rw [found, Cursor.start, hfirst, Nat.add_comm], hne, ?_⟩
  rw [found, Cursor.start, htext, hbelow, Nat.add_assoc, scan_add_line]
  rfl

/-- **Scans go line by line.** Below a text in which no string and no comment is left open, a scan
finds what it finds in the lines there alone, further down by the lines above: the tokens of the
text but for its end and then those below, and the errors of the text and then those below. -/
theorem found_append_line (first second : String) (hclosed : Closed (found first)) :
    let below := first.toList.count '\n' + 1
    (∃ items, found first = items ++ [.ok (.endAt below)] ∧
      found (first ++ "\n" ++ second) = items ++ (found second).map (Scanned.mapLine (· + below))) ∧
    tokensOf (found (first ++ "\n" ++ second)) =
      (tokensOf (found first)).filter (fun token => token.kind != .eof) ++
        (tokensOf (found second)).map (Token.mapLine (· + below)) ∧
    errorsOf (found (first ++ "\n" ++ second)) =
      errorsOf (found first) ++ (errorsOf (found second)).map (LexicalError.mapLine (· + below)) := by
  intro below
  obtain ⟨items, hfirst, hne, hwhole⟩ := exists_found_append_line hclosed second
  refine ⟨⟨items, hfirst, hwhole⟩, ?_, ?_⟩
  · have hkept : (tokensOf items).filter (fun token => token.kind != .eof) = tokensOf items :=
      List.filter_eq_self.mpr fun token htoken => by simpa using hne token htoken
    rw [hwhole, hfirst, tokensOf_append, tokensOf_append, tokensOf_map_mapLine, List.filter_append,
      hkept]
    show _ = tokensOf items ++ [] ++ _
    rw [List.append_nil]
  · rw [hwhole, hfirst, errorsOf_append, errorsOf_append, errorsOf_map_mapLine]
    show _ = errorsOf items ++ [] ++ _
    rw [List.append_nil]

/-- A `!` at the end of a line and a `=` in the next do not pair, and the errors of both lines are
found on their lines. -/
theorem found_append_line_unpaired :
    Closed (found "#!") ∧
    tokensOf (found ("#!" ++ "\n" ++ "=\n\"")) =
      [⟨.bang, "!", none, 1⟩, ⟨.equal, "=", none, 2⟩, .endAt 3] ∧
    errorsOf (found ("#!" ++ "\n" ++ "=\n\"")) =
      [⟨1, .unexpectedCharacter '#'⟩, ⟨3, .unterminatedString⟩] := by
  have herrors : errorsOf (found "#!") = [⟨1, .unexpectedCharacter '#'⟩] := by decide +kernel
  have htokens : tokensOf (found "#!") = [⟨.bang, "!", none, 1⟩, .endAt 1] := by decide +kernel
  have herrors' : errorsOf (found "=\n\"") = [⟨2, .unterminatedString⟩] := by decide +kernel
  have htokens' : tokensOf (found "=\n\"") = [⟨.equal, "=", none, 1⟩, .endAt 2] := by decide +kernel
  have hclosed : Closed (found "#!") := by
    unfold Closed
    rw [herrors]
    simp [LexicalProblem.IsUnterminated]
  obtain ⟨-, hwholeTokens, hwholeErrors⟩ := found_append_line "#!" "=\n\"" hclosed
  rw [htokens, htokens'] at hwholeTokens
  rw [herrors, herrors'] at hwholeErrors
  exact ⟨hclosed, hwholeTokens, hwholeErrors⟩

end Lexical

/-- Two texts one below the other have the tokens of both, with one end token and with those of the
second on later lines. -/
theorem tokenize_append_line {first second : String} {tokens tokens' : List Token}
    (h : tokenize first = .ok tokens) (h' : tokenize second = .ok tokens') :
    ∃ lexemes last, tokens = lexemes ++ [Token.endAt last] ∧ tokenize (first ++ "\n" ++ second) =
      .ok (lexemes ++ tokens'.map (Token.mapLine (· + (first.toList.count '\n' + 1)))) := by
  obtain ⟨herrors, rfl⟩ := Lexical.tokenize_eq_ok_iff.mp h
  obtain ⟨herrors', rfl⟩ := Lexical.tokenize_eq_ok_iff.mp h'
  have hclosed : Lexical.Closed (Lexical.found first) := by simp [Lexical.Closed, herrors]
  obtain ⟨items, hfirst, -, hwhole⟩ := Lexical.exists_found_append_line hclosed second
  rw [hfirst, errorsOf_append] at herrors
  refine ⟨tokensOf items, _, by rw [hfirst, tokensOf_append]; rfl,
    Lexical.tokenize_eq_ok_iff.mpr ⟨?_, ?_⟩⟩
  · rw [hwhole, errorsOf_append, errorsOf_map_mapLine, herrors', (List.append_eq_nil_iff.mp herrors).1]
    rfl
  · rw [hwhole, tokensOf_append, tokensOf_map_mapLine]

end LoxLang
