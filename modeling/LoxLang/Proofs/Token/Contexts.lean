import LoxLang.Proofs.Token.Scanning

/-!
# Lexemes in other places

Whether a pattern is a lexeme depends on what comes after it. A blank settles that: no pattern but
a string holds one, and a string ends at its quote. So a pattern is a lexeme at the end of a text
(`Pattern.lexeme_at_end`) and in front of a blank (`Pattern.lexeme_before_blank`), and a lexeme
stays one where the text changes only behind a blank (`Lexeme.of_blank`).
-/

namespace LoxLang.Lexical

variable {text rest rest' : List Char} {b : Char}

/-- A blank is no digit, belongs to no name, and is neither a point nor in the front of a comment. -/
theorem plain_of_mem_blanks (h : b ∈ blanks) :
    b.isDigit = false ∧ Piece.isNameStart b = false ∧ Piece.isNamePart b = false ∧ b ≠ '.' ∧
      b ≠ '/' ∧ b ≠ '*' := by
  have plain : ∀ d ∈ blanks, d.isDigit = false ∧ Piece.isNameStart d = false ∧
      Piece.isNamePart d = false ∧ d ≠ '.' ∧ d ≠ '/' ∧ d ≠ '*' := by
    simp [blanks]
    decide
  exact plain b h

theorem not_mem_symbols_of_mem_blanks (h : b ∈ blanks) : ∀ entry ∈ symbols, b ∉ entry.1 := by
  have plain : ∀ d ∈ blanks, ∀ entry ∈ symbols, d ∉ entry.1 := by simp [blanks, symbols]
  exact plain b h

/-- A pattern is a string if it holds a character that belongs to no name, number or symbol. -/
theorem Pattern.of_foreign (h : Pattern text) (hpart : Piece.isNamePart b = false)
    (hsymbol : ∀ entry ∈ symbols, b ∉ entry.1) (hmem : b ∈ text) : ∃ cs, text = '"' :: cs := by
  simp only [Piece.isNamePart, Char.isAlphanum, Bool.or_eq_false_iff] at hpart
  obtain ⟨⟨halpha, hdigit⟩, hscore⟩ := hpart
  cases h with
  | symbol hentry => exact absurd hmem (hsymbol _ hentry)
  | integer _ hdigits => exact absurd (hdigits b hmem) (by simp [hdigit])
  | decimal _ hwhole _ hfraction =>
    rcases List.mem_append.mp hmem with hmem | hmem
    · exact absurd (hwhole b hmem) (by simp [hdigit])
    · rcases List.mem_cons.mp hmem with rfl | hmem
      · exact absurd (List.mem_singleton_self _) (hsymbol (['.'], .dot) (by decide))
      · exact absurd (hfraction b hmem) (by simp [hdigit])
  | string _ => exact ⟨_, rfl⟩
  | name hname hparts =>
    rcases List.mem_cons.mp hmem with rfl | hmem
    · exact absurd hname (by simp [Piece.isNameStart, halpha, hscore])
    · exact absurd (hparts b hmem) (by simp [Piece.isNamePart, Char.isAlphanum, halpha, hdigit, hscore])

/-- A pattern with a blank in it is a string. -/
theorem Pattern.of_blank (h : Pattern text) (hblank : b ∈ blanks) (hmem : b ∈ text) :
    ∃ cs, text = '"' :: cs :=
  h.of_foreign (plain_of_mem_blanks hblank).2.2.1 (not_mem_symbols_of_mem_blanks hblank) hmem

/-- What stands in front of a text and a character, and does not hold that character, stands in
front of the text. -/
theorem prefix_of_prefix_append_cons {front later : List Char} (h : front <+: text ++ b :: later)
    (hb : b ∉ front) : front <+: text := by
  rcases List.prefix_or_prefix_of_prefix h (List.prefix_append text _) with hfront | ⟨more, rfl⟩
  · exact hfront
  · cases more with
    | nil => simp
    | cons c more =>
      have hmore : c :: more <+: b :: later := (List.prefix_append_right_inj text).mp h
      obtain ⟨rfl, -⟩ := List.cons_prefix_cons.mp hmore
      exact absurd (by simp) hb

/-- **A lexeme stays one where the text changes only behind a blank.** -/
theorem Lexeme.of_blank (h : Lexeme text rest) (hblank : b ∈ blanks)
    (hfront : ∀ front, b ∉ front → front <+: text ++ rest' → front <+: text ++ rest) :
    Lexeme text rest' := by
  refine ⟨h.pattern, ?_, ?_⟩
  · intro longer hpattern hlonger
    by_cases hmem : b ∈ longer
    · -- Only a string goes beyond a blank, and it ends at the same quote.
      obtain ⟨cs, rfl⟩ := hpattern.of_blank hblank hmem
      obtain ⟨d, ds, rfl⟩ := List.exists_cons_of_ne_nil h.pattern.ne_nil
      obtain ⟨rfl, more, hmore⟩ := List.cons_prefix_cons.mp hlonger
      have hsame : cs = ds := hpattern.eq_of_quote h.pattern hmore
      subst hsame
      exact Nat.le_refl _
    · exact h.longest longer hpattern (hfront longer hmem hlonger)
  · obtain ⟨-, -, -, -, hslash, hstar⟩ := plain_of_mem_blanks hblank
    rintro (hline | hblock)
    · exact h.notComment (.inl (hfront _ (by simp [hslash]) hline))
    · exact h.notComment (.inr (hfront _ (by simp [hslash, hstar]) hblock))

theorem Lexeme.before_blank (h : Lexeme text rest) (hblank : b ∈ blanks) (later : List Char) :
    Lexeme text (rest ++ b :: later) := by
  refine h.of_blank hblank fun front hb hfront => ?_
  rw [← List.append_assoc] at hfront
  exact prefix_of_prefix_append_cons hfront hb

/-- No comment begins in a pattern. -/
theorem Pattern.not_startsComment (h : Pattern text) : ¬ StartsComment text := by
  intro hcomment
  have hslash : ∃ c cs, text = '/' :: c :: cs := by
    rcases hcomment with ⟨more, rfl⟩ | ⟨more, rfl⟩
    · exact ⟨'/', more, rfl⟩
    · exact ⟨'*', more, rfl⟩
  obtain ⟨c, cs, rfl⟩ := hslash
  obtain ⟨kind, hmem⟩ := h.of_other (by decide) (by decide) (by decide)
  rcases symbol_cases hmem with ⟨-, hnil, -⟩ | ⟨-, hnil⟩ | ⟨_, _, -, hpaired, -⟩
  · exact absurd hnil (by simp)
  · exact absurd hnil (by simp)
  · exact absurd hpaired (by simp [Piece.beforeEqual])

theorem Pattern.lexeme_at_end (h : Pattern text) : Lexeme text [] := by
  refine ⟨h, fun longer _ hlonger => ?_, ?_⟩
  · simpa using hlonger.length_le
  · rw [List.append_nil]
    exact h.not_startsComment

/-- **A blank makes a pattern in front of it a lexeme.** -/
theorem Pattern.lexeme_before_blank (h : Pattern text) (hblank : b ∈ blanks) (later : List Char) :
    Lexeme text (b :: later) := h.lexeme_at_end.before_blank hblank later

end LoxLang.Lexical
