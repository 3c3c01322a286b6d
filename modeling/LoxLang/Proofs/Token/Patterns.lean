import LoxLang.Proofs.Token.Lexicon

/-!
# Patterns by their first character

The first character of a pattern tells its form: a digit, the start of a name, a quote, or
something else, which only begins symbols.
-/

namespace LoxLang.Lexical

/-! ### Symbols -/

/-- No symbol begins like a lexeme of another form or like a blank. -/
theorem head_of_symbol {c : Char} {cs : List Char} {kind : TokenKind}
    (h : (c :: cs, kind) ∈ symbols) :
    c.isDigit = false ∧ Piece.isNameStart c = false ∧ c ≠ '"' ∧ c ∉ blanks := by
  have heads : ∀ entry ∈ symbols, ∀ c ∈ entry.1.head?,
      c.isDigit = false ∧ Piece.isNameStart c = false ∧ c ≠ '"' ∧ c ∉ blanks := by
    simp [symbols, blanks]
    decide
  exact heads _ h c rfl

/-- A symbol is a slash, a character that starts no longer symbol, or one of the characters that
may stand before `=`, without or with it. -/
theorem symbol_cases {c : Char} {cs : List Char} {kind : TokenKind}
    (h : (c :: cs, kind) ∈ symbols) :
    (c = '/' ∧ cs = [] ∧ kind = .slash) ∨ (Piece.single c = some kind ∧ cs = []) ∨
      ∃ alone paired, Piece.single c = none ∧ Piece.beforeEqual c = some (alone, paired) ∧
        (cs = [] ∧ kind = alone ∨ cs = ['='] ∧ kind = paired) := by
  simp only [symbols, List.mem_cons, Prod.mk.injEq, List.cons.injEq, List.not_mem_nil,
    or_false] at h
  obtain h | h | h | h | h | h | h | h | h | h | h | h | h | h | h | h | h | h | h := h <;>
    obtain ⟨⟨rfl, rfl⟩, rfl⟩ := h <;> simp [Piece.single, Piece.beforeEqual]

theorem symbol_of_single {c : Char} {kind : TokenKind} (h : Piece.single c = some kind) :
    ([c], kind) ∈ symbols := by
  unfold Piece.single at h
  split at h
  case h_11 => exact absurd h (by simp)
  all_goals
    cases h
    decide

theorem symbols_of_beforeEqual {c : Char} {alone paired : TokenKind}
    (h : Piece.beforeEqual c = some (alone, paired)) :
    ([c], alone) ∈ symbols ∧ ([c, '='], paired) ∈ symbols := by
  unfold Piece.beforeEqual at h
  split at h
  case h_5 => exact absurd h (by simp)
  all_goals
    cases h
    decide

/-! ### The forms of a pattern -/

variable {c : Char} {cs : List Char}

/-- A pattern is never empty. -/
theorem Pattern.ne_nil {text : List Char} (h : Pattern text) : text ≠ [] := by
  cases h with
  | symbol hmem =>
    have nonempty : ∀ entry ∈ symbols, entry.1 ≠ [] := by decide
    exact nonempty _ hmem
  | integer hne _ => exact hne
  | decimal hne _ _ _ => simp
  | string _ => simp
  | name _ _ => simp

theorem not_digit_of_nameStart {d : Char} (h : Piece.isNameStart d = true) : d.isDigit = false := by
  simp only [Piece.isNameStart, Char.isAlpha, Char.isUpper, Char.isLower, Bool.or_eq_true,
    beq_iff_eq, Bool.and_eq_true, decide_eq_true_eq, UInt32.le_iff_toNat_le, ge_iff_le] at h
  rw [Bool.eq_false_iff]
  intro hdigit
  simp only [Char.isDigit, Bool.and_eq_true, decide_eq_true_eq, UInt32.le_iff_toNat_le,
    ge_iff_le] at hdigit
  rcases h with (h | h) | rfl
  · simp at h hdigit
    omega
  · simp at h hdigit
    omega
  · simp at hdigit

/-- The first character tells the form of a pattern, and what comes after it is of that form. -/
theorem Pattern.head_cases (h : Pattern (c :: cs)) :
    (c.isDigit = true ∧ ((∀ d ∈ c :: cs, d.isDigit = true) ∨
      ∃ whole fraction, c :: cs = whole ++ '.' :: fraction ∧ (∀ d ∈ whole, d.isDigit = true) ∧
        (∀ d ∈ fraction, d.isDigit = true) ∧ fraction ≠ [])) ∨
    (Piece.isNameStart c = true ∧ ∀ d ∈ cs, Piece.isNamePart d = true) ∨
    (c = '"' ∧ ∃ body, cs = body ++ ['"'] ∧ '"' ∉ body) ∨
    ∃ kind, (c :: cs, kind) ∈ symbols := by
  generalize htext : c :: cs = text at h
  cases h with
  | @symbol _ kind hmem => exact .inr (.inr (.inr ⟨kind, hmem⟩))
  | integer _ hdigits =>
    subst htext
    exact .inl ⟨hdigits c List.mem_cons_self, .inl hdigits⟩
  | @decimal whole fraction hne hwhole hne' hfraction =>
    obtain ⟨d, ds, rfl⟩ := List.exists_cons_of_ne_nil hne
    obtain ⟨rfl, -⟩ := List.cons.inj htext
    exact .inl ⟨hwhole c List.mem_cons_self, .inr ⟨c :: ds, fraction, rfl, hwhole, hfraction, hne'⟩⟩
  | @string body hbody =>
    obtain ⟨rfl, rfl⟩ := List.cons.inj htext
    exact .inr (.inr (.inl ⟨rfl, body, rfl, hbody⟩))
  | name hstart hparts =>
    obtain ⟨rfl, rfl⟩ := List.cons.inj htext
    exact .inr (.inl ⟨hstart, hparts⟩)

/-- What begins with a digit is a number. -/
theorem Pattern.of_digit (h : Pattern (c :: cs)) (hc : c.isDigit = true) :
    (∀ d ∈ c :: cs, d.isDigit = true) ∨ ∃ whole fraction, c :: cs = whole ++ '.' :: fraction ∧
      (∀ d ∈ whole, d.isDigit = true) ∧ (∀ d ∈ fraction, d.isDigit = true) ∧ fraction ≠ [] := by
  rcases h.head_cases with ⟨-, hnumber⟩ | ⟨hstart, -⟩ | ⟨rfl, -⟩ | ⟨kind, hmem⟩
  · exact hnumber
  · exact absurd hc (by simp [not_digit_of_nameStart hstart])
  · exact absurd hc (by decide)
  · exact absurd hc (by simp [(head_of_symbol hmem).1])

/-- What begins with the start of a name is a name. -/
theorem Pattern.of_nameStart (h : Pattern (c :: cs)) (hc : Piece.isNameStart c = true) :
    ∀ d ∈ cs, Piece.isNamePart d = true := by
  rcases h.head_cases with ⟨hdigit, -⟩ | ⟨-, hparts⟩ | ⟨rfl, -⟩ | ⟨kind, hmem⟩
  · exact absurd hdigit (by simp [not_digit_of_nameStart hc])
  · exact hparts
  · exact absurd hc (by decide)
  · exact absurd hc (by simp [(head_of_symbol hmem).2.1])

/-- What begins with a quote ends with the next one. -/
theorem Pattern.of_quote (h : Pattern ('"' :: cs)) : ∃ body, cs = body ++ ['"'] ∧ '"' ∉ body := by
  rcases h.head_cases with ⟨hdigit, -⟩ | ⟨hstart, -⟩ | ⟨-, hbody⟩ | ⟨kind, hmem⟩
  · exact absurd hdigit (by decide)
  · exact absurd hstart (by decide)
  · exact hbody
  · exact absurd rfl (head_of_symbol hmem).2.2.1

/-- What begins otherwise is a symbol. -/
theorem Pattern.of_other (h : Pattern (c :: cs)) (hdigit : c.isDigit = false)
    (hname : Piece.isNameStart c = false) (hquote : c ≠ '"') :
    ∃ kind, (c :: cs, kind) ∈ symbols := by
  rcases h.head_cases with ⟨hc, -⟩ | ⟨hc, -⟩ | ⟨rfl, -⟩ | hsymbol
  · exact absurd hc (by simp [hdigit])
  · exact absurd hc (by simp [hname])
  · exact absurd rfl hquote
  · exact hsymbol

/-- No pattern begins with a blank. -/
theorem Pattern.not_blank (h : Pattern (c :: cs)) : c ∉ blanks := by
  intro hblank
  have plain : ∀ d ∈ blanks, d.isDigit = false ∧ Piece.isNameStart d = false ∧ d ≠ '"' := by
    simp [blanks]
    decide
  obtain ⟨hdigit, hname, hquote⟩ := plain c hblank
  obtain ⟨kind, hmem⟩ := h.of_other hdigit hname hquote
  exact (head_of_symbol hmem).2.2.2 hblank

end LoxLang.Lexical
