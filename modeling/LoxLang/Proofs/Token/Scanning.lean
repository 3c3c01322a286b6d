import LoxLang.Proofs.Token.Pieces

/-!
# Scanning is reading by the lexical grammar

A scan gives the tokens into whose lexemes the text falls (`tokenize_eq_ok_iff_tokenizes`), and it
fails exactly if the text breaks, with the first broken stretch as the first error
(`tokenize_eq_error_iff_breaks`).
-/

namespace LoxLang.Lexical

variable {text rest trivia : List Char} {line : Nat}

/-! ### A separator, a lexeme or a broken stretch in front -/

theorem Separator.ne_nil (h : Separator text rest) : text ≠ [] := by
  cases h <;> simp

theorem Broken.ne_nil {problem : LexicalProblem} (h : Broken problem text rest) : text ≠ [] := by
  cases h <;> simp

/-- A scan passes a separator and counts its line feeds. -/
theorem scan_separator (h : Separator text rest) :
    Cursor.scan ⟨text ++ rest, line⟩ = Cursor.scan ⟨rest, line + text.count '\n'⟩ := by
  obtain ⟨c, cs, hwhole⟩ := List.exists_cons_of_ne_nil
    (List.append_ne_nil_of_left_ne_nil h.ne_nil rest)
  rw [hwhole, Cursor.scan_cons, front_of_separator h hwhole]
  rfl

/-- A lexeme gives its token. -/
theorem scan_lexeme (h : Lexeme text rest) :
    Cursor.scan ⟨text ++ rest, line⟩ =
      .ok (tokenOf text (line + text.count '\n')) ::
        Cursor.scan ⟨rest, line + text.count '\n'⟩ := by
  obtain ⟨c, cs, hwhole⟩ := List.exists_cons_of_ne_nil
    (List.append_ne_nil_of_left_ne_nil h.pattern.ne_nil rest)
  rw [hwhole, Cursor.scan_cons, front_of_lexeme h hwhole]
  rfl

/-- A broken stretch gives an error, and the scan goes on after it. -/
theorem scan_broken {problem : LexicalProblem} (h : Broken problem text rest) :
    Cursor.scan ⟨text ++ rest, line⟩ =
      .error ⟨line + text.count '\n', problem⟩ :: Cursor.scan ⟨rest, line + text.count '\n'⟩ := by
  obtain ⟨c, cs, hwhole⟩ := List.exists_cons_of_ne_nil
    (List.append_ne_nil_of_left_ne_nil h.ne_nil rest)
  rw [hwhole, Cursor.scan_cons, front_of_broken h hwhole]
  rfl

theorem scan_trivia (h : Trivia trivia rest) :
    Cursor.scan ⟨trivia ++ rest, line⟩ = Cursor.scan ⟨rest, line + trivia.count '\n'⟩ := by
  induction h generalizing line with
  | nil => rfl
  | cons hseparator _ ih =>
    rw [List.append_assoc, scan_separator hseparator, ih, List.count_append, Nat.add_assoc]

/-! ### Chains are scanned to their tokens -/

theorem scan_of_tokenizes {tokens : List Token} (h : Tokenizes line text tokens) :
    Cursor.scan ⟨text, line⟩ = tokens.map .ok := by
  induction h with
  | @finish line trivia htrivia =>
    have hscan : Cursor.scan ⟨trivia ++ [], line⟩ = _ := scan_trivia htrivia
    rw [List.append_nil] at hscan
    rw [hscan, Cursor.scan_nil]
    rfl
  | @token line trivia lexeme rest tokens htrivia hlexeme _ ih =>
    rw [scan_trivia htrivia, scan_lexeme hlexeme, Nat.add_assoc, ← List.count_append, ih]
    rfl

theorem scan_of_breaks {error : LexicalError} (h : Breaks line text error) :
    ∃ (tokens : List Token) (later : List Scanned), Cursor.scan ⟨text, line⟩ =
      tokens.map .ok ++ .error error :: later := by
  induction h with
  | @here line trivia stretch rest problem htrivia hbroken =>
    rw [scan_trivia htrivia, scan_broken hbroken, Nat.add_assoc, ← List.count_append]
    exact ⟨[], _, rfl⟩
  | @later line trivia lexeme rest error htrivia hlexeme _ ih =>
    rw [scan_trivia htrivia, scan_lexeme hlexeme, Nat.add_assoc, ← List.count_append]
    obtain ⟨tokens, later, hscan⟩ := ih
    exact ⟨_ :: tokens, later, by rw [hscan]; rfl⟩

/-! ### Every text is a chain or breaks -/

theorem add_count_append (line : Nat) (text trivia stretch : List Char) :
    line + text.count '\n' + (trivia ++ stretch).count '\n' =
      line + (text ++ trivia ++ stretch).count '\n' := by
  simp only [List.count_append]
  omega

theorem Tokenizes.separate {tokens : List Token} (hseparator : Separator text rest)
    (h : Tokenizes (line + text.count '\n') rest tokens) :
    Tokenizes line (text ++ rest) tokens := by
  cases h with
  | finish htrivia =>
    rw [Nat.add_assoc, ← List.count_append]
    exact .finish (.cons (by rwa [List.append_nil]) htrivia)
  | token htrivia hlexeme hrest =>
    rw [add_count_append] at hrest ⊢
    rw [← List.append_assoc]
    exact .token (.cons hseparator htrivia) hlexeme hrest

theorem Tokenizes.separateAll {tokens : List Token} (htrivia : Trivia trivia rest)
    (h : Tokenizes (line + trivia.count '\n') rest tokens) :
    Tokenizes line (trivia ++ rest) tokens := by
  induction htrivia generalizing line with
  | nil => exact h
  | cons hseparator _ ih =>
    rw [List.count_append, ← Nat.add_assoc] at h
    rw [List.append_assoc]
    exact (ih h).separate hseparator

theorem Breaks.separate {error : LexicalError} (hseparator : Separator text rest)
    (h : Breaks (line + text.count '\n') rest error) : Breaks line (text ++ rest) error := by
  cases h with
  | here htrivia hbroken =>
    rw [add_count_append, ← List.append_assoc]
    exact .here (.cons hseparator htrivia) hbroken
  | later htrivia hlexeme hrest =>
    rw [add_count_append] at hrest
    rw [← List.append_assoc]
    exact .later (.cons hseparator htrivia) hlexeme hrest

/-- A text falls into separators and lexemes, altogether or up to a broken stretch. -/
theorem tokenizes_or_breaks (text : List Char) (line : Nat) :
    (∃ tokens, Tokenizes line text tokens) ∨ ∃ error, Breaks line text error := by
  -- The induction is on the length: what is left after a piece is shorter.
  induction hlength : text.length using Nat.strongRecOn generalizing text line with
  | _ n ih =>
  cases text with
  | nil => exact .inl ⟨_, .finish .nil⟩
  | cons c cs =>
    have hshort := Piece.length_rest_front_le c cs
    have hsound := front_sound c cs
    have hwhole := Piece.front_append c cs
    cases hfront : Piece.front c cs with
    | mk kind text rest =>
    rw [hfront] at hshort hsound hwhole
    rw [← hwhole]
    have hlt : rest.length < n := by
      rw [← hlength]
      exact Nat.lt_succ_of_le hshort
    cases kind with
    | blank =>
      rcases ih rest.length hlt rest (line + text.count '\n') rfl with ⟨tokens, h⟩ | ⟨error, h⟩
      · exact .inl ⟨tokens, h.separate hsound⟩
      · exact .inr ⟨error, h.separate hsound⟩
    | lexeme kind literal =>
      have hlexeme : Lexeme text rest := hsound.1
      rcases ih rest.length hlt rest (line + text.count '\n') rfl with ⟨tokens, h⟩ | ⟨error, h⟩
      · exact .inl ⟨_, @Tokenizes.token line [] text rest tokens .nil hlexeme h⟩
      · exact .inr ⟨error, @Breaks.later line [] text rest error .nil hlexeme h⟩
    | problem problem =>
      exact .inr ⟨_, @Breaks.here line [] text rest problem .nil hsound⟩

/-! ### Whole source texts -/

theorem errorsOf_map_ok (tokens : List Token) : errorsOf (tokens.map .ok) = [] := by
  induction tokens with
  | nil => rfl
  | cons token tokens ih => exact ih

theorem tokensOf_map_ok (tokens : List Token) : tokensOf (tokens.map .ok) = tokens := by
  induction tokens with
  | nil => rfl
  | cons token tokens ih => exact congrArg (token :: ·) ih

theorem tokenize_of_tokenizes {source : String} {tokens : List Token}
    (h : Tokenizes 1 source.toList tokens) : tokenize source = .ok tokens := by
  have hscan : (Cursor.start source).scan = tokens.map .ok := scan_of_tokenizes h
  simp only [tokenize, hscan, errorsOf_map_ok, tokensOf_map_ok]

theorem tokenize_of_breaks {source : String} {error : LexicalError}
    (h : Breaks 1 source.toList error) : ∃ later, tokenize source = .error (error :: later) := by
  obtain ⟨tokens, later, hscan⟩ := scan_of_breaks h
  have hscan : (Cursor.start source).scan = tokens.map .ok ++ .error error :: later := hscan
  have herrors : errorsOf (tokens.map .ok ++ .error error :: later) = error :: errorsOf later := by
    rw [errorsOf, List.filterMap_append]
    show errorsOf (tokens.map .ok) ++ _ = _
    rw [errorsOf_map_ok]
    rfl
  exact ⟨errorsOf later, by simp only [tokenize, hscan, herrors]⟩

/-- **Scanning succeeds on the texts that fall into separators and lexemes**, and gives the tokens
of the lexemes. -/
theorem tokenize_eq_ok_iff_tokenizes {source : String} {tokens : List Token} :
    tokenize source = .ok tokens ↔ Tokenizes 1 source.toList tokens := by
  refine ⟨fun h => ?_, tokenize_of_tokenizes⟩
  rcases tokenizes_or_breaks source.toList 1 with ⟨tokens', h'⟩ | ⟨error, h'⟩
  · rw [tokenize_of_tokenizes h'] at h
    exact Except.ok.inj h ▸ h'
  · obtain ⟨later, herror⟩ := tokenize_of_breaks h'
    rw [herror] at h
    exact absurd h (by simp)

/-- **Scanning fails on the texts that break**, and the first error tells where and why. -/
theorem tokenize_eq_error_iff_breaks {source : String} {error : LexicalError} :
    (∃ later, tokenize source = .error (error :: later)) ↔ Breaks 1 source.toList error := by
  refine ⟨fun ⟨later, h⟩ => ?_, tokenize_of_breaks⟩
  rcases tokenizes_or_breaks source.toList 1 with ⟨tokens, h'⟩ | ⟨error', h'⟩
  · rw [tokenize_of_tokenizes h'] at h
    exact absurd h (by simp)
  · obtain ⟨later', herror⟩ := tokenize_of_breaks h'
    rw [herror] at h
    obtain ⟨rfl, -⟩ := List.cons.inj (Except.error.inj h)
    exact h'

/-! ### The tokens of a text -/

theorem ofName_mem (name : String) :
    TokenKind.ofName name ∈ TokenKind.identifier :: TokenKind.keywords.map Prod.snd := by
  unfold TokenKind.ofName
  cases hlookup : TokenKind.keywords.lookup name with
  | none => exact List.mem_cons_self
  | some kind =>
    obtain ⟨before, after, hkeywords, -⟩ := List.lookup_eq_some_iff.mp hlookup
    have hmem : (name, kind) ∈ TokenKind.keywords := by simp [hkeywords]
    exact List.mem_cons_of_mem _ (List.mem_map_of_mem hmem)

/-- Numbers and strings denote a number and a string, and nothing else denotes anything. No lexeme
is taken for the end of the text. -/
theorem Pattern.kindOf_cases (h : Pattern text) :
    (∃ x, kindOf text = .number ∧ literalOf text = some (.number x)) ∨
    (∃ s, kindOf text = .string ∧ literalOf text = some (.string s)) ∨
    (kindOf text ∉ [.number, .string, .eof] ∧ literalOf text = none) := by
  obtain ⟨c, cs, rfl⟩ := List.exists_cons_of_ne_nil h.ne_nil
  by_cases hdigit : c.isDigit = true
  · exact .inl ⟨_, kindOf_digit cs hdigit, literalOf_digit cs hdigit⟩
  by_cases hname : Piece.isNameStart c = true
  · have hkinds : ∀ kind ∈ TokenKind.identifier :: TokenKind.keywords.map Prod.snd,
        kind ∉ [.number, .string, .eof] := by decide
    rw [kindOf_nameStart cs hname]
    exact .inr (.inr ⟨hkinds _ (ofName_mem _), literalOf_nameStart cs hname⟩)
  by_cases hquote : c = '"'
  · rw [hquote]
    exact .inr (.inl ⟨_, kindOf_quote cs, literalOf_quote cs⟩)
  · obtain ⟨kind, hmem⟩ := h.of_other (Bool.eq_false_iff.mpr hdigit)
      (Bool.eq_false_iff.mpr hname) hquote
    have hkinds : ∀ entry ∈ symbols, entry.2 ∉ [.number, .string, .eof] := by decide
    rw [kindOf_symbol hmem]
    exact .inr (.inr ⟨hkinds _ hmem, literalOf_symbol hmem⟩)

theorem Pattern.kindOf_ne_eof (h : Pattern text) : kindOf text ≠ .eof := by
  intro heof
  rcases h.kindOf_cases with ⟨_, hkind, -⟩ | ⟨_, hkind, -⟩ | ⟨hkind, -⟩
  · exact absurd (hkind.symm.trans heof) (by decide)
  · exact absurd (hkind.symm.trans heof) (by decide)
  · exact hkind (by simp [heof])

/-- The end token is last, and every other token is that of a pattern. -/
theorem Tokenizes.exists_lexemes {tokens : List Token} (h : Tokenizes line text tokens) :
    ∃ lexemes last, tokens = lexemes ++ [Token.endAt last] ∧
      ∀ token ∈ lexemes, Pattern token.lexeme.toList ∧
        token = tokenOf token.lexeme.toList token.line := by
  induction h with
  | finish _ => exact ⟨[], _, rfl, by simp⟩
  | @token line trivia lexeme rest tokens _ hlexeme _ ih =>
    obtain ⟨lexemes, last, rfl, hlexemes⟩ := ih
    refine ⟨tokenOf lexeme _ :: lexemes, last, rfl, ?_⟩
    intro token htoken
    rcases List.mem_cons.mp htoken with rfl | htoken
    · have htext : (String.ofList lexeme).toList = lexeme := String.toList_ofList
      simp only [tokenOf, htext]
      exact ⟨hlexeme.pattern, trivial⟩
    · exact hlexemes token htoken

/-- A token that is not the end has its lexeme in the text, on the line on which the lexeme ends,
and the tokens behind it are those of the text behind it. -/
theorem Tokenizes.exists_place {tokens : List Token} (h : Tokenizes line text tokens)
    {token : Token} (hmem : token ∈ tokens) (hend : token.kind ≠ .eof) :
    ∃ earlier later front rest, tokens = earlier ++ token :: later ∧
      text = front ++ token.lexeme.toList ++ rest ∧
      token.line = line + (front ++ token.lexeme.toList).count '\n' ∧
      Tokenizes token.line rest later := by
  induction h with
  | finish _ => exact absurd (congrArg Token.kind (List.mem_singleton.mp hmem)) hend
  | @token line trivia lexeme rest tokens _ _ hrest ih =>
    rcases List.mem_cons.mp hmem with rfl | hmem
    · refine ⟨[], tokens, trivia, rest, rfl, ?_, ?_, hrest⟩
      · simp [tokenOf]
      · simp [tokenOf]
    · obtain ⟨earlier, later, front, behind, rfl, rfl, hline, hlater⟩ := ih hmem
      refine ⟨_ :: earlier, later, trivia ++ lexeme ++ front, behind, rfl, ?_, ?_, hlater⟩
      · simp only [List.append_assoc]
      · rw [hline]
        simp only [List.count_append, Nat.add_assoc]

/-- **Scanning is maximal munch.** It gives the tokens of the lexemes into which the text falls,
all of it: each lexeme is the longest pattern at its place, kind and literal depend on its text
alone, and the one end token is last. It fails exactly if the text does not fall into lexemes;
then it breaks at a stretch that the first error tells. -/
theorem tokenize_munches (source : String) :
    (∀ tokens, tokenize source = .ok tokens ↔ Tokenizes 1 source.toList tokens) ∧
    (∀ tokens, tokenize source = .ok tokens →
      ∃ lexemes last, tokens = lexemes ++ [Token.endAt last] ∧
      ∀ token ∈ lexemes, token.kind ≠ .eof ∧ Pattern token.lexeme.toList ∧
        token.kind = kindOf token.lexeme.toList ∧ token.literal = literalOf token.lexeme.toList) ∧
    ((∃ errors, tokenize source = .error errors) ↔ ¬ ∃ tokens, Tokenizes 1 source.toList tokens) ∧
    (∀ error, (∃ later, tokenize source = .error (error :: later)) ↔
      Breaks 1 source.toList error) := by
  refine ⟨fun tokens => tokenize_eq_ok_iff_tokenizes, ?_, ?_,
    fun error => tokenize_eq_error_iff_breaks⟩
  · intro tokens h
    obtain ⟨lexemes, last, rfl, hlexemes⟩ := (tokenize_eq_ok_iff_tokenizes.mp h).exists_lexemes
    refine ⟨lexemes, last, rfl, ?_⟩
    intro token htoken
    obtain ⟨hpattern, heq⟩ := hlexemes token htoken
    have hkind : token.kind = kindOf token.lexeme.toList := congrArg Token.kind heq
    have hliteral : token.literal = literalOf token.lexeme.toList := congrArg Token.literal heq
    exact ⟨hkind ▸ hpattern.kindOf_ne_eof, hpattern, hkind, hliteral⟩
  · constructor
    · intro ⟨errors, h⟩ ⟨tokens, htokens⟩
      rw [tokenize_of_tokenizes htokens] at h
      exact absurd h (by simp)
    · intro h
      rcases tokenizes_or_breaks source.toList 1 with htokens | ⟨error, hbreaks⟩
      · exact absurd htokens h
      · obtain ⟨later, herror⟩ := tokenize_of_breaks hbreaks
        exact ⟨_, herror⟩

/-- The tokens of `x<=1.5`. -/
def comparison : List Token :=
  [⟨.identifier, "x", none, 1⟩, ⟨.lessEqual, "<=", none, 1⟩,
    ⟨.number, "1.5", some (Piece.numberValue ['1'] ['5']), 1⟩, .endAt 1]

/-- A comparison before a comment, and a quote that is not closed. -/
theorem tokenize_munches_comparison :
    tokenize "x<=1.5 // y" = .ok comparison ∧
    (∃ lexemes last, comparison = lexemes ++ [Token.endAt last] ∧
      ∀ token ∈ lexemes, token.kind = kindOf token.lexeme.toList) ∧
    (∃ later, tokenize "x \"" = .error (⟨1, .unterminatedString⟩ :: later)) := by
  have hname : Lexeme ['x'] "<=1.5 // y".toList := (front_sound 'x' "<=1.5 // y".toList).1
  have hless : Lexeme ['<', '='] "1.5 // y".toList := (front_sound '<' "=1.5 // y".toList).1
  have hnumber : Lexeme ['1', '.', '5'] " // y".toList := (front_sound '1' ".5 // y".toList).1
  have htrivia : Trivia " // y".toList [] :=
    @Trivia.cons [' '] ['/', '/', ' ', 'y'] [] (.blank (by decide))
      (@Trivia.cons ['/', '/', ' ', 'y'] [] [] (.lineComment (by decide) (.inl rfl)) .nil)
  have htokens : Tokenizes 1 "x<=1.5 // y".toList comparison :=
    @Tokenizes.token 1 [] ['x'] _ _ .nil hname
      (@Tokenizes.token 1 [] ['<', '='] _ _ .nil hless
        (@Tokenizes.token 1 [] ['1', '.', '5'] _ _ .nil hnumber (.finish htrivia)))
  have hname' : Lexeme ['x'] " \"".toList := (front_sound 'x' " \"".toList).1
  have hbreaks : Breaks 1 "x \"".toList ⟨1, .unterminatedString⟩ :=
    @Breaks.later 1 [] ['x'] [' ', '"'] _ .nil hname'
      (@Breaks.here 1 [' '] ['"'] [] _ (@Trivia.cons [' '] [] _ (.blank (by decide)) .nil)
        (@Broken.unterminatedString [] (by simp)))
  obtain ⟨hok, hlexemes, -⟩ := tokenize_munches "x<=1.5 // y"
  obtain ⟨-, -, -, herror⟩ := tokenize_munches "x \""
  have hscan : tokenize "x<=1.5 // y" = .ok comparison := (hok _).mpr htokens
  obtain ⟨lexemes, last, htext, hall⟩ := hlexemes _ hscan
  exact ⟨hscan, ⟨lexemes, last, htext, fun token htoken => (hall token htoken).2.2.1⟩,
    (herror _).mpr hbreaks⟩

end LoxLang.Lexical
