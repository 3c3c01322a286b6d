import LoxLang.Proofs.Token.Patterns

/-!
# Pieces are what the lexical grammar says

`Piece.front` cuts a separator, a lexeme or a broken stretch off a text (`front_sound`), and it
cuts off the one that stands there: `front_of_separator`, `front_of_lexeme` and `front_of_broken`
say that no text could be cut in another way.
-/

namespace LoxLang.Lexical

/-! ### Runs of characters -/

section Runs

variable {p : Char → Bool} {text rest : List Char}

theorem takeWhile_append_of_all (htext : ∀ d ∈ text, p d = true)
    (hrest : ∀ d ∈ rest.head?, p d = false) : (text ++ rest).takeWhile p = text := by
  rw [List.takeWhile_append_of_pos htext]
  cases rest with
  | nil => simp
  | cons d rest => simp [hrest d rfl]

theorem dropWhile_append_of_all (htext : ∀ d ∈ text, p d = true)
    (hrest : ∀ d ∈ rest.head?, p d = false) : (text ++ rest).dropWhile p = rest := by
  rw [List.dropWhile_append_of_pos htext]
  cases rest with
  | nil => simp
  | cons d rest => simp [hrest d rfl]

/-- A run in front of a text is no longer than the longest one. -/
theorem length_le_takeWhile {run : List Char} (hrun : ∀ d ∈ run, p d = true)
    (hfront : run <+: text) : run.length ≤ (text.takeWhile p).length := by
  obtain ⟨more, rfl⟩ := hfront
  rw [List.takeWhile_append_of_pos hrun, List.length_append]
  exact Nat.le_add_right _ _

theorem of_mem_takeWhile {d : Char} (h : d ∈ text.takeWhile p) : p d = true :=
  List.all_eq_true.mp List.all_takeWhile d h

/-- The character after the longest run does not belong to it. -/
theorem of_mem_head?_dropWhile {d : Char} (h : d ∈ (text.dropWhile p).head?) : p d = false := by
  have hnot := List.head?_dropWhile_not p text
  rw [Option.mem_def.mp h] at hnot
  simpa using hnot

/-- A character of a class is none that the class lacks. -/
theorem ne_of_class {c d : Char} (hc : p c = true) (hd : p d = false) : c ≠ d := by
  rintro rfl
  exact absurd hc (by simp [hd])

theorem bne_of_not_mem {c : Char} (h : c ∉ text) : ∀ d ∈ text, (d != c) = true := by
  intro d hd
  rw [bne_iff_ne]
  intro heq
  exact h (heq ▸ hd)

/-- What comes before and after the first of a character can be told from the whole. -/
theorem takeWhile_ne_append {c : Char} (h : c ∉ text) :
    (text ++ c :: rest).takeWhile (· != c) = text :=
  takeWhile_append_of_all (bne_of_not_mem h) (by simp)

theorem dropWhile_ne_append {c : Char} (h : c ∉ text) :
    (text ++ c :: rest).dropWhile (· != c) = c :: rest :=
  dropWhile_append_of_all (bne_of_not_mem h) (by simp)

theorem takeWhile_ne_of_not_mem {c : Char} (h : c ∉ text) : text.takeWhile (· != c) = text := by
  have hall := @takeWhile_append_of_all (· != c) text [] (bne_of_not_mem h) (by simp)
  rwa [List.append_nil] at hall

theorem dropWhile_ne_of_not_mem {c : Char} (h : c ∉ text) : text.dropWhile (· != c) = [] := by
  have hall := @dropWhile_append_of_all (· != c) text [] (bne_of_not_mem h) (by simp)
  rwa [List.append_nil] at hall

end Runs

/-! ### Comments up to the first `*/` -/

theorem closeComment_append_close {body : List Char} (h : ¬ ['*', '/'] <:+: body)
    (passed rest : List Char) :
    Piece.closeComment passed (body ++ '*' :: '/' :: rest) =
      some (passed.reverse ++ (body ++ ['*', '/']), rest) := by
  induction body generalizing passed with
  | nil => simp [Piece.closeComment]
  | cons c body ih =>
    rw [List.infix_cons_iff, not_or] at h
    have hopen : ∀ more, c = '*' → body ++ '*' :: '/' :: rest = '/' :: more → False := by
      intro more hc hmore
      cases body with
      | nil => simp at hmore
      | cons d body =>
        obtain ⟨rfl, -⟩ := List.cons.inj hmore
        exact h.1 (by simp [hc])
    rw [List.cons_append, Piece.closeComment.eq_3 _ _ _ hopen, ih h.2]
    simp

theorem closeComment_eq_none {body : List Char} (h : ¬ ['*', '/'] <:+: body) (passed : List Char) :
    Piece.closeComment passed body = none := by
  induction body generalizing passed with
  | nil => rfl
  | cons c body ih =>
    rw [List.infix_cons_iff, not_or] at h
    have hopen : ∀ more, c = '*' → body = '/' :: more → False := by
      intro more hc hmore
      exact h.1 (by simp [hc, hmore])
    rw [Piece.closeComment.eq_3 _ _ _ hopen, ih h.2]

/-- A text is without `*/`, or it falls into what stands before and after the first one. -/
theorem exists_close (text : List Char) : ¬ ['*', '/'] <:+: text ∨
    ∃ body rest, text = body ++ '*' :: '/' :: rest ∧ ¬ ['*', '/'] <:+: body := by
  induction text with
  | nil => exact .inl (by simp)
  | cons c text ih =>
    by_cases hopen : ['*', '/'] <+: c :: text
    · obtain ⟨rest, hrest⟩ := hopen
      exact .inr ⟨[], rest, by simpa using hrest.symm, by simp⟩
    · rcases ih with h | ⟨body, rest, rfl, hbody⟩
      · exact .inl (by rw [List.infix_cons_iff, not_or]; exact ⟨hopen, h⟩)
      · refine .inr ⟨c :: body, rest, rfl, ?_⟩
        rw [List.infix_cons_iff, not_or]
        refine ⟨fun hfront => hopen ?_, hbody⟩
        exact hfront.trans (List.prefix_append (c :: body) _)

/-! ### Lexemes by their form -/

theorem kindOf_symbol {text : List Char} {kind : TokenKind} (h : (text, kind) ∈ symbols) :
    kindOf text = kind := by
  have kinds : ∀ entry ∈ symbols, kindOf entry.1 = entry.2 := by decide
  exact kinds _ h

theorem literalOf_symbol {text : List Char} {kind : TokenKind} (h : (text, kind) ∈ symbols) :
    literalOf text = none := by
  have literals : ∀ entry ∈ symbols, literalOf entry.1 = none := by decide
  exact literals _ h

/-- What begins like another form is no symbol. -/
theorem lookup_symbols_eq_none {c : Char} {cs : List Char}
    (h : c.isDigit = true ∨ Piece.isNameStart c = true ∨ c = '"') :
    symbols.lookup (c :: cs) = none := by
  rw [List.lookup_eq_none_iff]
  intro ⟨text, kind⟩ hmem
  rw [bne_iff_ne]
  intro heq
  subst heq
  obtain ⟨hdigit, hname, hquote, -⟩ := head_of_symbol hmem
  simp [hdigit, hname, hquote] at h

theorem kindOf_quote (cs : List Char) : kindOf ('"' :: cs) = .string := by
  simp [kindOf, lookup_symbols_eq_none (.inr (.inr rfl))]

theorem literalOf_quote (cs : List Char) :
    literalOf ('"' :: cs) = some (.string (String.ofList cs.dropLast)) := by
  simp [literalOf]

theorem kindOf_digit {c : Char} (cs : List Char) (h : c.isDigit = true) :
    kindOf (c :: cs) = .number := by
  have hquote : c ≠ '"' := ne_of_class h (by decide)
  simp [kindOf, lookup_symbols_eq_none (.inl h), hquote, h]

theorem literalOf_digit {c : Char} (cs : List Char) (h : c.isDigit = true) :
    literalOf (c :: cs) = some (Piece.numberValue ((c :: cs).takeWhile Char.isDigit)
      ((c :: cs).dropWhile Char.isDigit).tail) := by
  have hquote : c ≠ '"' := ne_of_class h (by decide)
  rw [literalOf, if_neg (by simpa using hquote), if_pos (by simpa using h)]

theorem kindOf_nameStart {c : Char} (cs : List Char) (h : Piece.isNameStart c = true) :
    kindOf (c :: cs) = .ofName (String.ofList (c :: cs)) := by
  have hquote : c ≠ '"' := ne_of_class h (by decide)
  simp [kindOf, lookup_symbols_eq_none (.inr (.inl h)), hquote, not_digit_of_nameStart h]

theorem literalOf_nameStart {c : Char} (cs : List Char) (h : Piece.isNameStart c = true) :
    literalOf (c :: cs) = none := by
  have hquote : c ≠ '"' := ne_of_class h (by decide)
  simp [literalOf, hquote, not_digit_of_nameStart h]

theorem not_startsComment_of_ne {c : Char} {cs : List Char} (h : c ≠ '/') :
    ¬ StartsComment (c :: cs) := by
  rintro (⟨more, hmore⟩ | ⟨more, hmore⟩) <;> exact h (List.cons.inj hmore).1.symm

/-! ### What is cut off is what the grammar says -/

theorem isBlank_iff {c : Char} : Piece.isBlank c = true ↔ c ∈ blanks := by
  simp [Piece.isBlank, blanks, or_assoc]

/-- What a piece is in the words of the lexical grammar. -/
def Sound (piece : Piece) : Prop :=
  match piece.kind with
  | .blank => Separator piece.text piece.rest
  | .lexeme kind literal =>
    Lexeme piece.text piece.rest ∧ kind = kindOf piece.text ∧ literal = literalOf piece.text
  | .problem problem => Broken problem piece.text piece.rest

/-- A symbol is a lexeme where no longer symbol stands and no comment begins. -/
theorem symbol_sound {c : Char} {cs rest : List Char} {kind : TokenKind}
    (hmem : (c :: cs, kind) ∈ symbols)
    (hlongest : ∀ more kind', (c :: more, kind') ∈ symbols → c :: more <+: c :: (cs ++ rest) →
      more.length ≤ cs.length)
    (hcomment : ¬ StartsComment (c :: (cs ++ rest))) :
    Sound ⟨.lexeme kind none, c :: cs, rest⟩ := by
  obtain ⟨hdigit, hname, hquote, -⟩ := head_of_symbol hmem
  refine ⟨⟨.symbol hmem, ?_, hcomment⟩, (kindOf_symbol hmem).symm, (literalOf_symbol hmem).symm⟩
  intro longer hpattern hfront
  obtain ⟨d, more, rfl⟩ := List.exists_cons_of_ne_nil hpattern.ne_nil
  obtain ⟨rfl, -⟩ := List.cons_prefix_cons.mp hfront
  obtain ⟨kind', hmem'⟩ := hpattern.of_other hdigit hname hquote
  exact Nat.succ_le_succ (hlongest more kind' hmem' hfront)

theorem slash_sound (cs : List Char) : Sound (Piece.slash cs) := by
  unfold Piece.slash
  split
  · next more =>
    show Separator ('/' :: '/' :: more.takeWhile (· != '\n')) (more.dropWhile (· != '\n'))
    by_cases h : '\n' ∈ more
    · obtain ⟨body, rest, rfl, hbody⟩ := List.eq_append_cons_of_mem h
      rw [takeWhile_ne_append hbody, dropWhile_ne_append hbody]
      exact .lineComment hbody (.inr ⟨rest, rfl⟩)
    · rw [takeWhile_ne_of_not_mem h, dropWhile_ne_of_not_mem h]
      exact .lineComment h (.inl rfl)
  · next inside =>
    rcases exists_close inside with h | ⟨body, rest, rfl, hbody⟩
    · rw [closeComment_eq_none h]
      exact Broken.unterminatedComment h
    · rw [closeComment_append_close hbody]
      exact Separator.blockComment hbody
  · next hline hblock =>
    have hmem : (['/'], TokenKind.slash) ∈ symbols := by decide
    refine symbol_sound hmem ?_ ?_
    · intro more kind' hmem' _
      rcases symbol_cases hmem' with ⟨-, rfl, -⟩ | ⟨-, rfl⟩ | ⟨alone, paired, -, hpaired, -⟩
      · exact Nat.le_refl _
      · exact Nat.le_refl _
      · exact absurd hpaired (by simp [Piece.beforeEqual])
    · rintro (⟨more, hmore⟩ | ⟨more, hmore⟩)
      · exact hline more (by simpa using hmore.symm)
      · exact hblock more (by simpa using hmore.symm)

/-- Two strings in front of one text end with the same quote. -/
theorem Pattern.eq_of_quote {cs ds more later : List Char} (h : Pattern ('"' :: cs))
    (h' : Pattern ('"' :: ds)) (hwhole : cs ++ more = ds ++ later) : cs = ds := by
  obtain ⟨body, rfl, hbody⟩ := h.of_quote
  obtain ⟨body', rfl, hbody'⟩ := h'.of_quote
  have hsame : body = body' := calc
    body = (body ++ '"' :: more).takeWhile (· != '"') := (takeWhile_ne_append hbody).symm
    _ = (body' ++ '"' :: later).takeWhile (· != '"') := congrArg _ (by simpa using hwhole)
    _ = body' := takeWhile_ne_append hbody'
  rw [hsame]

theorem string_sound (cs : List Char) : Sound (Piece.string cs) := by
  unfold Piece.string
  by_cases h : '"' ∈ cs
  · obtain ⟨body, rest, rfl, hbody⟩ := List.eq_append_cons_of_mem h
    rw [takeWhile_ne_append hbody, dropWhile_ne_append hbody]
    refine ⟨⟨.string hbody, ?_, not_startsComment_of_ne (by decide)⟩, (kindOf_quote _).symm, ?_⟩
    · intro longer hpattern hfront
      obtain ⟨d, ds, rfl⟩ := List.exists_cons_of_ne_nil hpattern.ne_nil
      obtain ⟨rfl, more, hmore⟩ := List.cons_prefix_cons.mp hfront
      have hsame : ds = body ++ ['"'] := hpattern.eq_of_quote (.string hbody) hmore
      subst hsame
      exact Nat.le_refl _
    · rw [literalOf_quote, List.dropLast_concat]
  · rw [dropWhile_ne_of_not_mem h]
    exact Broken.unterminatedString h

section Numbers

variable {c : Char} {cs tail : List Char}

/-- In front of digits that end there, a pattern goes on only with a point and more digits. -/
theorem Pattern.le_or_fraction {longer : List Char} (hwhole : ∀ e ∈ c :: cs, e.isDigit = true)
    (htail : ∀ e ∈ tail.head?, e.isDigit = false) (h : Pattern longer)
    (hfront : longer <+: c :: cs ++ tail) :
    longer.length ≤ (c :: cs).length ∨ ∃ fraction, fraction ≠ [] ∧
      (∀ e ∈ fraction, e.isDigit = true) ∧
      longer = c :: cs ++ '.' :: fraction ∧ '.' :: fraction <+: tail := by
  obtain ⟨d, ds, rfl⟩ := List.exists_cons_of_ne_nil h.ne_nil
  have hd : d.isDigit = true := by
    obtain ⟨rfl, -⟩ := List.cons_prefix_cons.mp hfront
    exact hwhole d List.mem_cons_self
  rcases h.of_digit hd with hdigits | ⟨whole, fraction, htext, hdigits, hfraction, hne⟩
  · left
    have hle := length_le_takeWhile hdigits hfront
    rwa [takeWhile_append_of_all hwhole htail] at hle
  · right
    obtain ⟨more, hmore⟩ := hfront
    rw [htext, List.append_assoc] at hmore
    -- The digits before the point are all the digits that there are.
    have hsame : whole = c :: cs := calc
      whole = (whole ++ ('.' :: fraction ++ more)).takeWhile Char.isDigit :=
        (takeWhile_append_of_all hdigits (by simp)).symm
      _ = (c :: cs ++ tail).takeWhile Char.isDigit := congrArg _ hmore
      _ = c :: cs := takeWhile_append_of_all hwhole htail
    rw [hsame] at hmore
    exact ⟨fraction, hne, hfraction, by rw [htext, hsame], more, List.append_cancel_left hmore⟩

/-- Digits with more digits after a point are a lexeme. -/
theorem decimal_sound {fraction : List Char} (hwhole : ∀ e ∈ c :: cs, e.isDigit = true)
    (hne : fraction ≠ []) (hfraction : ∀ e ∈ fraction, e.isDigit = true)
    (htail : ∀ e ∈ tail.head?, e.isDigit = false) :
    Sound ⟨.lexeme .number (some (Piece.numberValue (c :: cs) fraction)),
      c :: cs ++ '.' :: fraction, tail⟩ := by
  have hc := hwhole c List.mem_cons_self
  have hpoint : ∀ e ∈ ('.' :: fraction).head?, e.isDigit = false := by simp
  have hslash : c ≠ '/' := ne_of_class hc (by decide)
  refine ⟨⟨.decimal (by simp) hwhole hne hfraction, ?_, not_startsComment_of_ne hslash⟩,
    (kindOf_digit _ hc).symm, ?_⟩
  · intro longer hpattern hfront
    have hfront : longer <+: c :: cs ++ '.' :: (fraction ++ tail) := by simpa using hfront
    rcases hpattern.le_or_fraction hwhole (by simp) hfront with
      hle | ⟨fraction', -, hfraction', rfl, hfront'⟩
    · rw [List.length_append]
      exact Nat.le_add_right_of_le hle
    · have hle := length_le_takeWhile hfraction' (List.cons_prefix_cons.mp hfront').2
      rw [takeWhile_append_of_all hfraction htail] at hle
      simpa using hle
  · show some _ = literalOf (c :: (cs ++ '.' :: fraction))
    rw [literalOf_digit _ hc, ← List.cons_append, takeWhile_append_of_all hwhole hpoint,
      dropWhile_append_of_all hwhole hpoint, List.tail_cons]

/-- Digits alone are a lexeme where no digit follows and no point with digits. -/
theorem integer_sound (hwhole : ∀ e ∈ c :: cs, e.isDigit = true)
    (htail : ∀ e ∈ tail.head?, e.isDigit = false)
    (hpoint : ∀ d more, tail = '.' :: d :: more → d.isDigit = false) :
    Sound ⟨.lexeme .number (some (Piece.numberValue (c :: cs) [])), c :: cs, tail⟩ := by
  have hc := hwhole c List.mem_cons_self
  have hslash : c ≠ '/' := ne_of_class hc (by decide)
  refine ⟨⟨.integer (by simp) hwhole, ?_, not_startsComment_of_ne hslash⟩,
    (kindOf_digit _ hc).symm, ?_⟩
  · intro longer hpattern hfront
    rcases hpattern.le_or_fraction hwhole htail hfront with hle |
      ⟨fraction, hne, hfraction, -, more, hmore⟩
    · exact hle
    · obtain ⟨d, ds, rfl⟩ := List.exists_cons_of_ne_nil hne
      have hd := hpoint d (ds ++ more) hmore.symm
      exact absurd (hfraction d List.mem_cons_self) (by simp [hd])
  · have hall := @takeWhile_append_of_all Char.isDigit (c :: cs) [] hwhole (by simp)
    have hnone := @dropWhile_append_of_all Char.isDigit (c :: cs) [] hwhole (by simp)
    rw [List.append_nil] at hall hnone
    show some _ = literalOf (c :: cs)
    rw [literalOf_digit _ hc, hall, hnone, List.tail_nil]

theorem fraction_sound (hwhole : ∀ e ∈ c :: cs, e.isDigit = true)
    (htail : ∀ e ∈ tail.head?, e.isDigit = false) : Sound (Piece.fraction (c :: cs) tail) := by
  unfold Piece.fraction
  split
  · next d more =>
    split
    · next hd =>
      refine decimal_sound hwhole (by simp) ?_ fun e he => of_mem_head?_dropWhile he
      intro e he
      rcases List.mem_cons.mp he with rfl | he
      · exact hd
      · exact of_mem_takeWhile he
    · next hd =>
      refine integer_sound hwhole htail ?_
      intro d' more' heq
      obtain ⟨-, heq⟩ := List.cons.inj heq
      obtain ⟨rfl, -⟩ := List.cons.inj heq
      exact Bool.eq_false_iff.mpr hd
  · next hpoint =>
    exact integer_sound hwhole htail fun d more heq => absurd heq (hpoint d more)

theorem number_sound (hc : c.isDigit = true) : Sound (Piece.number (c :: cs)) := by
  unfold Piece.number
  rw [List.takeWhile_cons_of_pos hc, List.dropWhile_cons_of_pos hc]
  refine fraction_sound ?_ fun e he => of_mem_head?_dropWhile he
  intro e he
  rcases List.mem_cons.mp he with rfl | he
  · exact hc
  · exact of_mem_takeWhile he

end Numbers

/-- A name goes on as far as it can. -/
theorem name_sound {c : Char} {cs : List Char} (hc : Piece.isNameStart c = true) :
    Sound (Piece.name (c :: cs)) := by
  have hpart : Piece.isNamePart c = true := by
    simp only [Piece.isNameStart, Piece.isNamePart, Char.isAlphanum, Bool.or_eq_true] at hc ⊢
    exact hc.imp_left .inl
  have htake : (c :: cs).takeWhile Piece.isNamePart = c :: cs.takeWhile Piece.isNamePart :=
    List.takeWhile_cons_of_pos hpart
  have hdrop : (c :: cs).dropWhile Piece.isNamePart = cs.dropWhile Piece.isNamePart :=
    List.dropWhile_cons_of_pos hpart
  unfold Piece.name
  dsimp only
  rw [htake, hdrop]
  refine ⟨⟨.name hc fun e he => of_mem_takeWhile he, ?_, ?_⟩, (kindOf_nameStart _ hc).symm,
    (literalOf_nameStart _ hc).symm⟩
  · intro longer hpattern hfront
    obtain ⟨d, ds, rfl⟩ := List.exists_cons_of_ne_nil hpattern.ne_nil
    obtain ⟨rfl, hfront⟩ := List.cons_prefix_cons.mp hfront
    have hfront : ds <+: cs := by simpa using hfront
    exact Nat.succ_le_succ (length_le_takeWhile (hpattern.of_nameStart hc) hfront)
  · exact not_startsComment_of_ne (ne_of_class hc (by decide))

theorem punctuation_sound {c : Char} {cs : List Char} (hblank : c ∉ blanks) (hslash : c ≠ '/')
    (hquote : c ≠ '"') (hdigit : c.isDigit = false) (hname : Piece.isNameStart c = false) :
    Sound (Piece.punctuation c cs) := by
  have hcomment : ∀ {more}, ¬ StartsComment (c :: more) := not_startsComment_of_ne hslash
  unfold Piece.punctuation
  split
  · next kind hsingle =>
    refine symbol_sound (symbol_of_single hsingle) ?_ hcomment
    intro more kind' hmem _
    rcases symbol_cases hmem with ⟨rfl, -⟩ | ⟨-, rfl⟩ | ⟨_, _, hnone, -⟩
    · exact absurd rfl hslash
    · exact Nat.le_refl _
    · exact absurd hsingle (by simp [hnone])
  · next alone paired hsingle hpaired =>
    obtain ⟨halone, hpair⟩ := symbols_of_beforeEqual hpaired
    have hsymbol : ∀ more kind', (c :: more, kind') ∈ symbols → more = [] ∨ more = ['='] := by
      intro more kind' hmem
      rcases symbol_cases hmem with ⟨-, rfl, -⟩ | ⟨-, rfl⟩ |
        ⟨_, _, -, -, ⟨rfl, -⟩ | ⟨rfl, -⟩⟩ <;> simp
    unfold Piece.withEqual
    split
    · refine symbol_sound hpair ?_ hcomment
      intro more kind' hmem _
      rcases hsymbol more kind' hmem with rfl | rfl <;> simp
    · next hequal =>
      refine symbol_sound halone ?_ hcomment
      intro more kind' hmem hfront
      rcases hsymbol more kind' hmem with rfl | rfl
      · exact Nat.le_refl _
      · obtain ⟨-, later, hlater⟩ := List.cons_prefix_cons.mp hfront
        exact absurd hlater.symm (hequal later)
  · next hsingle hpaired =>
    refine Broken.unexpectedCharacter hblank fun more hpattern => ?_
    obtain ⟨kind, hmem⟩ := hpattern.of_other hdigit hname hquote
    rcases symbol_cases hmem with ⟨rfl, -⟩ | ⟨hsome, -⟩ | ⟨_, _, -, hsome, -⟩
    · exact hslash rfl
    · exact absurd hsome (by simp [hsingle])
    · exact absurd hsome (by simp [hpaired])

/-- **What is cut off a text is a separator, a lexeme or a broken stretch** in the sense of the
lexical grammar, and the lexeme's kind and value depend on its text alone. -/
theorem front_sound (c : Char) (cs : List Char) : Sound (Piece.front c cs) := by
  unfold Piece.front
  split
  · next h =>
    exact Separator.blank (isBlank_iff.mp h)
  next hblank =>
  split
  · exact slash_sound cs
  next hslash =>
  split
  · exact string_sound cs
  next hquote =>
  split
  · next hdigit => exact number_sound hdigit
  next hdigit =>
  split
  · next hname => exact name_sound hname
  · next hname =>
    exact punctuation_sound (mt isBlank_iff.mpr hblank) (by simpa using hslash)
      (by simpa using hquote)
      (Bool.eq_false_iff.mpr hdigit) (Bool.eq_false_iff.mpr hname)

/-! ### No text could be cut in another way -/

section Unique

variable {c : Char} {cs text rest : List Char}

theorem front_of_separator (h : Separator text rest) (hwhole : text ++ rest = c :: cs) :
    Piece.front c cs = ⟨.blank, text, rest⟩ := by
  cases h with
  | @blank d _ hd =>
    obtain ⟨rfl, rfl⟩ := List.cons.inj hwhole
    simp [Piece.front, isBlank_iff.mpr hd]
  | @lineComment body _ hbody hrest =>
    obtain ⟨rfl, rfl⟩ := List.cons.inj hwhole
    show Piece.slash ('/' :: (body ++ rest)) = _
    have hline : '\n' ∉ '/' :: body := by simpa using hbody
    simp only [Piece.slash]
    rcases hrest with rfl | ⟨more, rfl⟩
    · rw [List.append_nil, takeWhile_ne_of_not_mem hline, dropWhile_ne_of_not_mem hline]
    · rw [← List.cons_append, takeWhile_ne_append hline, dropWhile_ne_append hline]
  | @blockComment body _ hbody =>
    obtain ⟨rfl, rfl⟩ := List.cons.inj hwhole
    show Piece.slash ('*' :: ((body ++ ['*', '/']) ++ rest)) = _
    rw [List.append_assoc]
    show Piece.slash ('*' :: (body ++ '*' :: '/' :: rest)) = _
    simp only [Piece.slash]
    rw [closeComment_append_close hbody]
    rfl

theorem front_of_broken {problem : LexicalProblem} (h : Broken problem text rest)
    (hwhole : text ++ rest = c :: cs) : Piece.front c cs = ⟨.problem problem, text, rest⟩ := by
  cases h with
  | @unexpectedCharacter d _ hblank hpattern =>
    obtain ⟨rfl, rfl⟩ := List.cons.inj hwhole
    have hnotBlank : Piece.isBlank d = false := Bool.eq_false_iff.mpr (mt isBlank_iff.mp hblank)
    have hsymbol (more : List Char) (kind : TokenKind) : (d :: more, kind) ∉ symbols :=
      fun hmem => hpattern more (.symbol hmem)
    have hslash : d ≠ '/' := by
      rintro rfl
      exact hsymbol [] .slash (by decide)
    have hquote : d ≠ '"' := by
      rintro rfl
      exact hpattern ['"'] (@Pattern.string [] (by simp))
    have hdigit : d.isDigit = false := by
      rw [Bool.eq_false_iff]
      intro hdigit
      exact hpattern [] (.integer (by simp) (by simpa using hdigit))
    have hname : Piece.isNameStart d = false := by
      rw [Bool.eq_false_iff]
      intro hname
      exact hpattern [] (.name hname (by simp))
    have hsingle : Piece.single d = none := by
      rw [Option.eq_none_iff_forall_ne_some]
      intro kind hkind
      exact hsymbol [] kind (symbol_of_single hkind)
    have hpaired : Piece.beforeEqual d = none := by
      rw [Option.eq_none_iff_forall_ne_some]
      intro ⟨alone, paired⟩ hkinds
      exact hsymbol [] alone (symbols_of_beforeEqual hkinds).1
    simp [Piece.front, Piece.punctuation, hnotBlank, hslash, hquote, hdigit, hname, hsingle,
      hpaired]
  | @unterminatedString body hbody =>
    obtain ⟨rfl, rfl⟩ := List.cons.inj hwhole
    show Piece.string (body ++ []) = _
    rw [List.append_nil, Piece.string, dropWhile_ne_of_not_mem hbody]
  | @unterminatedComment body hbody =>
    obtain ⟨rfl, rfl⟩ := List.cons.inj hwhole
    show Piece.slash ('*' :: (body ++ [])) = _
    rw [List.append_nil]
    simp only [Piece.slash]
    rw [closeComment_eq_none hbody]

/-- Where a lexeme stands, there is no separator. -/
theorem Lexeme.not_separator {other more : List Char} (h : Lexeme text rest)
    (hother : Separator other more) : text ++ rest ≠ other ++ more := by
  intro hwhole
  cases hother with
  | blank hblank =>
    obtain ⟨d, ds, rfl⟩ := List.exists_cons_of_ne_nil h.pattern.ne_nil
    obtain ⟨rfl, -⟩ := List.cons.inj hwhole
    exact h.pattern.not_blank hblank
  | lineComment _ _ => exact h.notComment (by rw [hwhole]; exact .inl ⟨_, rfl⟩)
  | blockComment _ => exact h.notComment (by rw [hwhole]; exact .inr ⟨_, rfl⟩)

/-- Where a lexeme stands, the text is not broken. -/
theorem Lexeme.not_broken {other more : List Char} {problem : LexicalProblem} (h : Lexeme text rest)
    (hother : Broken problem other more) : text ++ rest ≠ other ++ more := by
  intro hwhole
  obtain ⟨d, ds, rfl⟩ := List.exists_cons_of_ne_nil h.pattern.ne_nil
  cases hother with
  | unexpectedCharacter _ hpattern =>
    obtain ⟨rfl, -⟩ := List.cons.inj hwhole
    exact hpattern ds h.pattern
  | @unterminatedString body hbody =>
    obtain ⟨rfl, hbodies⟩ := List.cons.inj hwhole
    obtain ⟨inside, rfl, -⟩ := h.pattern.of_quote
    have hinside : inside ++ ['"'] ++ rest = body := by simpa using hbodies
    exact hbody (by simp [← hinside])
  | unterminatedComment _ => exact h.notComment (by rw [hwhole]; exact .inr ⟨_, rfl⟩)

/-- At most one lexeme stands in front of a text. -/
theorem Lexeme.unique {other more : List Char} (h : Lexeme text rest) (hother : Lexeme other more)
    (hwhole : text ++ rest = other ++ more) : text = other ∧ rest = more := by
  have hle : text.length ≤ other.length := hother.longest text h.pattern ⟨rest, hwhole⟩
  have hge : other.length ≤ text.length := h.longest other hother.pattern ⟨more, hwhole.symm⟩
  exact List.append_inj hwhole (Nat.le_antisymm hle hge)

theorem front_of_lexeme (h : Lexeme text rest) (hwhole : text ++ rest = c :: cs) :
    Piece.front c cs = ⟨.lexeme (kindOf text) (literalOf text), text, rest⟩ := by
  have hsound := front_sound c cs
  have hpiece := Piece.front_append c cs
  rw [← hwhole] at hpiece
  cases hfront : Piece.front c cs with
  | mk kind text' rest' =>
    rw [hfront] at hsound hpiece
    cases kind with
    | blank => exact absurd hpiece.symm (h.not_separator hsound)
    | problem problem => exact absurd hpiece.symm (h.not_broken hsound)
    | lexeme kind literal =>
      obtain ⟨hlexeme, hkind, hliteral⟩ := hsound
      obtain ⟨rfl, rfl⟩ := hlexeme.unique h hpiece
      rw [hkind, hliteral]

end Unique

end LoxLang.Lexical
