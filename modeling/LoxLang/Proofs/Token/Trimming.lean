import LoxLang.Proofs.Token.NextLine
import LoxLang.Text.WhiteSpace

/-!
# White space at the ends of a text

White space is more than the blanks that a scan skips, but in a text without errors the rest of it
stands only in strings and comments. So the white space in front of such a text is blank, and that
behind it is blank or belongs to a comment that ends with the text: without both, a scan finds the
same lexemes, higher up by the lines that are gone (`tokenize_trim`).
-/

namespace LoxLang

namespace Text

/-- The white space in front of a text, the trimmed text, and the white space behind it. -/
theorem exists_trimChars (cs : List Char) :
    ∃ back, cs = cs.takeWhile isWhiteSpace ++ (trimChars cs ++ back) ∧
      ∀ c ∈ back, isWhiteSpace c = true := by
  refine ⟨((cs.dropWhile isWhiteSpace).reverse.takeWhile isWhiteSpace).reverse, ?_, ?_⟩
  · rw [trimChars, ← List.reverse_append, List.takeWhile_append_dropWhile, List.reverse_reverse,
      List.takeWhile_append_dropWhile]
  · intro c hc
    exact Lexical.of_mem_takeWhile (List.mem_reverse.mp hc)

end Text

namespace Lexical

variable {text rest : List Char} {c : Char} {line : Nat}

open Text (isWhiteSpace)

/-! ### White space and patterns -/

/-- White space lies below and above the visible characters of ASCII. -/
theorem toNat_of_whiteSpace (h : isWhiteSpace c = true) : c.toNat ≤ 32 ∨ 133 ≤ c.toNat := by
  simp only [isWhiteSpace, Text.whiteSpaceRanges, List.any_cons, List.any_nil, Bool.or_eq_true,
    Bool.and_eq_true, decide_eq_true_eq, Bool.or_false] at h
  omega

theorem toNat_of_namePart (h : Piece.isNamePart c = true) : 33 ≤ c.toNat ∧ c.toNat ≤ 122 := by
  simp only [Piece.isNamePart, Char.isAlphanum, Char.isAlpha, Char.isUpper, Char.isLower,
    Char.isDigit, Bool.or_eq_true, beq_iff_eq, Bool.and_eq_true, decide_eq_true_eq,
    UInt32.le_iff_toNat_le, ge_iff_le] at h
  change (((65 ≤ c.toNat ∧ c.toNat ≤ 90) ∨ 97 ≤ c.toNat ∧ c.toNat ≤ 122) ∨
    48 ≤ c.toNat ∧ c.toNat ≤ 57) ∨ c = '_' at h
  rcases h with h | rfl
  · omega
  · decide

theorem not_namePart_of_whiteSpace (h : isWhiteSpace c = true) : Piece.isNamePart c = false := by
  rw [Bool.eq_false_iff]
  intro hpart
  have hnear := toNat_of_namePart hpart
  have hfar := toNat_of_whiteSpace h
  omega

theorem not_mem_symbols_of_whiteSpace (h : isWhiteSpace c = true) :
    ∀ entry ∈ symbols, c ∉ entry.1 := by
  have visible : ∀ entry ∈ symbols, ∀ d ∈ entry.1, 33 ≤ d.toNat ∧ d.toNat ≤ 132 := by
    simp [symbols]
  intro entry hentry hmem
  have hnear := visible entry hentry c hmem
  have hfar := toNat_of_whiteSpace h
  omega

/-- White space that is no blank begins nothing. -/
theorem broken_of_whiteSpace (h : isWhiteSpace c = true) (hblank : c ∉ blanks) :
    Broken (.unexpectedCharacter c) [c] rest := by
  refine .unexpectedCharacter hblank fun cs hpattern => ?_
  obtain ⟨_, hquote⟩ := hpattern.of_foreign (not_namePart_of_whiteSpace h)
    (not_mem_symbols_of_whiteSpace h) List.mem_cons_self
  obtain ⟨rfl, -⟩ := List.cons.inj hquote
  exact absurd h (by decide)

/-- No pattern ends with white space. -/
theorem Pattern.not_whiteSpace (h : Pattern (text ++ [c])) : isWhiteSpace c = false := by
  rw [Bool.eq_false_iff]
  intro hwhite
  obtain ⟨cs, hquote⟩ := h.of_foreign (not_namePart_of_whiteSpace hwhite)
    (not_mem_symbols_of_whiteSpace hwhite) (List.mem_append_right _ (List.mem_singleton_self c))
  rw [hquote] at h
  obtain ⟨body, rfl, -⟩ := h.of_quote
  have hends : text ++ [c] = ('"' :: body) ++ ['"'] := hquote
  rw [List.singleton_inj.mp (List.append_inj' hends rfl).2] at hwhite
  exact absurd hwhite (by decide)

/-! ### White space in front of a text -/

/-- A scan that finds no error passes white space in front of a text, and counts its lines. -/
theorem scan_whiteSpace_append {front : List Char} (hwhite : ∀ d ∈ front, isWhiteSpace d = true)
    (hok : errorsOf (Cursor.scan ⟨front ++ rest, line⟩) = []) :
    Cursor.scan ⟨front ++ rest, line⟩ = Cursor.scan ⟨rest, line + front.count '\n'⟩ := by
  induction front generalizing line with
  | nil => rfl
  | cons d front ih =>
    obtain ⟨hd, hfront⟩ := List.forall_mem_cons.mp hwhite
    by_cases hblank : d ∈ blanks
    · have hscan : Cursor.scan ⟨d :: front ++ rest, line⟩ = _ :=
        @scan_separator [d] (front ++ rest) line (.blank hblank)
      rw [hscan] at hok ⊢
      rw [ih hfront hok, Nat.add_assoc, ← List.count_append]
      rfl
    · have hscan : Cursor.scan ⟨d :: front ++ rest, line⟩ = _ :=
        @scan_broken [d] (front ++ rest) line _ (broken_of_whiteSpace hd hblank)
      rw [hscan] at hok
      exact absurd hok (by simp [errorsOf])

/-! ### White space behind a text -/

/-- A separator is one as well if the text ends earlier. -/
theorem Separator.of_append {more : List Char} (h : Separator text (rest ++ more)) :
    Separator text rest := by
  cases h with
  | blank hblank => exact .blank hblank
  | lineComment hbody hrest =>
    refine .lineComment hbody ?_
    cases rest with
    | nil => exact .inl rfl
    | cons d rest =>
      obtain hnil | ⟨more, hmore⟩ := hrest
      · exact absurd hnil (by simp)
      · exact .inr ⟨rest, by rw [(List.cons.inj hmore).1]⟩
  | blockComment hbody => exact .blockComment hbody

/-- A lexeme is one as well if the text ends earlier. -/
theorem Lexeme.of_append {more : List Char} (h : Lexeme text (rest ++ more)) :
    Lexeme text rest := by
  have hfront : ∀ front, front <+: text ++ rest → front <+: text ++ (rest ++ more) := by
    intro front hfront
    rw [← List.append_assoc]
    exact hfront.trans (List.prefix_append _ _)
  exact ⟨h.pattern, fun longer hpattern hlonger => h.longest longer hpattern (hfront _ hlonger),
    fun hcomment => h.notComment (hcomment.imp (hfront _) (hfront _))⟩

/-- What is left of a separator that ends with white space, when that is gone, separates as well. -/
theorem Separator.drop_whiteSpace (h : Separator (text ++ [c]) [])
    (hwhite : isWhiteSpace c = true) : text = [] ∨ Separator text [] := by
  generalize hwhole : text ++ [c] = whole at h
  cases h with
  | blank _ => exact .inl (List.append_inj' (hwhole.trans (List.nil_append _).symm) rfl).1
  | @lineComment body _ hbody _ =>
    rcases List.eq_nil_or_concat body with rfl | ⟨inside, d, rfl⟩
    · have hends : text ++ [c] = ['/'] ++ ['/'] := hwhole
      rw [List.singleton_inj.mp (List.append_inj' hends rfl).2] at hwhite
      exact absurd hwhite (by decide)
    · rw [List.concat_eq_append] at hwhole hbody
      have hends : text ++ [c] = ('/' :: '/' :: inside) ++ [d] := hwhole
      rw [(List.append_inj' hends rfl).1]
      exact .inr (.lineComment (fun hmem => hbody (List.mem_append_left _ hmem)) (.inl rfl))
  | @blockComment body _ _ =>
    have hends : text ++ [c] = ('/' :: '*' :: (body ++ ['*'])) ++ ['/'] := by simpa using hwhole
    rw [List.singleton_inj.mp (List.append_inj' hends rfl).2] at hwhite
    exact absurd hwhite (by decide)

/-- A character at the end of two parts ends the second one, unless that is empty. -/
theorem concat_eq_append {first second : List Char} (h : text ++ [c] = first ++ second) :
    (second = [] ∧ first = text ++ [c]) ∨
      ∃ more, second = more ++ [c] ∧ text = first ++ more := by
  rcases List.eq_nil_or_concat second with rfl | ⟨more, d, rfl⟩
  · exact .inl ⟨rfl, by rw [h, List.append_nil]⟩
  · rw [List.concat_eq_append, ← List.append_assoc] at h
    obtain ⟨htext, hlast⟩ := List.append_inj' h rfl
    exact .inr ⟨more, by rw [List.concat_eq_append, hlast], htext⟩

/-- White space at the end of a text in which a scan finds no error is nothing that it needs. -/
theorem exists_scan_concat {whole : List Char} (hwhite : isWhiteSpace c = true)
    (hwhole : text ++ [c] = whole) (hok : errorsOf (Cursor.scan ⟨whole, line⟩) = []) :
    ∃ items last last', Cursor.scan ⟨whole, line⟩ = items ++ [Except.ok (Token.endAt last)] ∧
      Cursor.scan ⟨text, line⟩ = items ++ [Except.ok (Token.endAt last')] := by
  induction whole using text_induction generalizing text line with
  | nil => exact absurd hwhole (by simp)
  | @separator separator rest hseparator ih =>
    rw [scan_separator hseparator] at hok ⊢
    rcases concat_eq_append hwhole with ⟨rfl, rfl⟩ | ⟨more, rfl, rfl⟩
    · refine ⟨[], _, line + text.count '\n', Cursor.scan_nil _, ?_⟩
      rcases hseparator.drop_whiteSpace hwhite with rfl | htext
      · exact Cursor.scan_nil line
      · have hscan := @scan_separator text [] line htext
        rwa [List.append_nil, Cursor.scan_nil] at hscan
    · obtain ⟨items, last, last', hscan, hscan'⟩ := ih rfl hok
      exact ⟨items, last, last', hscan, by rw [scan_separator hseparator.of_append, hscan']⟩
  | @lexeme lexeme rest hlexeme ih =>
    rw [scan_lexeme hlexeme] at hok ⊢
    rcases concat_eq_append hwhole with ⟨rfl, rfl⟩ | ⟨more, rfl, rfl⟩
    · exact absurd hwhite (by simp [hlexeme.pattern.not_whiteSpace])
    · obtain ⟨items, last, last', hscan, hscan'⟩ := ih rfl hok
      refine ⟨_ :: items, last, last', by rw [hscan]; rfl, ?_⟩
      rw [scan_lexeme hlexeme.of_append, hscan']
      rfl
  | unexpected hbroken _ =>
    rw [scan_broken hbroken] at hok
    exact absurd hok (by simp [errorsOf])
  | unterminated _ hbroken =>
    rw [scan_broken hbroken] at hok
    exact absurd hok (by simp [errorsOf])

/-- The same for any amount of white space. -/
theorem exists_scan_append_whiteSpace {back : List Char}
    (hwhite : ∀ d ∈ back, isWhiteSpace d = true)
    (hok : errorsOf (Cursor.scan ⟨text ++ back, line⟩) = []) :
    ∃ items last last', Cursor.scan ⟨text ++ back, line⟩ = items ++ [Except.ok (Token.endAt last)] ∧
      Cursor.scan ⟨text, line⟩ = items ++ [Except.ok (Token.endAt last')] ∧
      ∀ token ∈ tokensOf items, token.kind ≠ .eof := by
  induction back generalizing text with
  | nil =>
    rw [List.append_nil] at hok ⊢
    have hclosed : Closed (Cursor.scan ⟨text, line⟩) := by simp [Closed, hok]
    obtain ⟨items, hscan, hne, -⟩ := scan_append_line hclosed
    exact ⟨items, _, _, hscan, hscan, hne⟩
  | cons d back ih =>
    obtain ⟨hd, hback⟩ := List.forall_mem_cons.mp hwhite
    rw [List.append_cons] at hok ⊢
    obtain ⟨items, last, last', hscan, hscan', hne⟩ := ih hback hok
    have hok' : errorsOf (Cursor.scan ⟨text ++ [d], line⟩) = [] := by
      rw [hscan, errorsOf_append] at hok
      rw [hscan', errorsOf_append, (List.append_eq_nil_iff.mp hok).1]
      rfl
    obtain ⟨items', _, last'', hshorter, hshorter'⟩ := exists_scan_concat hd rfl hok'
    rw [hscan'] at hshorter
    obtain ⟨rfl, -⟩ := List.append_inj' hshorter rfl
    exact ⟨items, last, last'', hscan, hshorter', hne⟩

/-- **Trimming does no harm.** Where a text is scanned to tokens, so is the text without the white
space at its ends: to the same lexemes of the same kinds, with the same literals, each higher up by
the line feeds in front of the trimmed text, and to one end token behind them. -/
theorem tokenize_trim {source : String} {tokens : List Token} (h : tokenize source = .ok tokens) :
    ∃ lexemes last last', (∀ token ∈ lexemes, token.kind ≠ .eof) ∧
      tokenize (Text.trim source) = .ok (lexemes ++ [Token.endAt last']) ∧
      tokens = lexemes.map (Token.mapLine
        (· + (source.toList.takeWhile isWhiteSpace).count '\n')) ++ [Token.endAt last] := by
  obtain ⟨hok, rfl⟩ := tokenize_eq_ok_iff.mp h
  obtain ⟨back, hsource, hback⟩ := Text.exists_trimChars source.toList
  generalize hfront : source.toList.takeWhile isWhiteSpace = front at hsource ⊢
  generalize hmiddle : Text.trimChars source.toList = middle at hsource
  have hwhite : ∀ c ∈ front, isWhiteSpace c = true := by
    intro c hc
    rw [← hfront] at hc
    exact of_mem_takeWhile hc
  -- What is left without the front is the same text further up.
  have hscan : found source =
      (Cursor.scan ⟨middle ++ back, 1⟩).map (Scanned.mapLine (· + front.count '\n')) := by
    rw [← scan_add_line]
    rw [found, Cursor.start, hsource] at hok ⊢
    exact scan_whiteSpace_append hwhite hok
  rw [hscan, errorsOf_map_mapLine, List.map_eq_nil_iff] at hok
  obtain ⟨items, last, last', hwhole, htrimmed, hne⟩ := exists_scan_append_whiteSpace hback hok
  refine ⟨tokensOf items, last + front.count '\n', last', hne, tokenize_eq_ok_iff.mpr ?_, ?_⟩
  · have hfound : found (Text.trim source) = items ++ [Except.ok (Token.endAt last')] := by
      rw [found, Cursor.start, Text.trim, String.toList_ofList, hmiddle, htrimmed]
    rw [hwhole, errorsOf_append] at hok
    rw [hfound, errorsOf_append, tokensOf_append, (List.append_eq_nil_iff.mp hok).1]
    exact ⟨rfl, rfl⟩
  · rw [hscan, hwhole, tokensOf_map_mapLine, tokensOf_append, List.map_append]
    rfl

/-- A string with white space in it, and a comment that ends with white space. -/
def loosely : String := " \n\t\"\u3000\n\" // \u00e9\u00a0\n\r"

/-- The string keeps what is in it. The comment loses its end, and the string is one line higher. -/
theorem tokenize_trim_comment :
    tokenize loosely = .ok
      [⟨.string, "\"\u3000\n\"", some (.string "\u3000\n"), 3⟩, Token.endAt 4] ∧
    ∃ lexemes last last', (∀ token ∈ lexemes, token.kind ≠ .eof) ∧
      tokenize "\"\u3000\n\" // \u00e9" = .ok (lexemes ++ [Token.endAt last']) ∧
      [⟨.string, "\"\u3000\n\"", some (.string "\u3000\n"), 3⟩, Token.endAt 4] =
        lexemes.map (Token.mapLine (· + 1)) ++ [Token.endAt last] := by
  have htokens : tokenize loosely = .ok
      [⟨.string, "\"\u3000\n\"", some (.string "\u3000\n"), 3⟩, Token.endAt 4] := by decide +kernel
  have htrim : Text.trim loosely = "\"\u3000\n\" // \u00e9" := by decide +kernel
  have hlines : (loosely.toList.takeWhile isWhiteSpace).count '\n' = 1 := by decide +kernel
  have hresult := tokenize_trim htokens
  rw [htrim, hlines] at hresult
  exact ⟨htokens, hresult⟩

end Lexical

end LoxLang
