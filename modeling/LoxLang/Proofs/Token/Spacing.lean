import LoxLang.Proofs.Token.Contexts

/-!
# Lexemes further apart

Only the lexemes of a text matter for its tokens, not what stands between them: written out again
with other gaps between them, they are scanned to the same kinds, lexemes and literals
(`tokenize_spaced`).

A `Gap` begins with a blank. This is what keeps two lexemes apart, since a comment alone does not:
the slash and `/* */` in a row begin with `//`.
-/

namespace LoxLang

/-- What a token is apart from its line. -/
def Token.content (token : Token) : TokenKind × String × Option Value :=
  (token.kind, token.lexeme, token.literal)

namespace Lexical

/-! ### Gaps -/

/-- Any sequence of blanks, closed comments, and comments with the line feed that ends them. -/
inductive Filler : List Char → Prop where
  | nil : Filler []
  | blank {c : Char} {more : List Char} : c ∈ blanks → Filler more → Filler (c :: more)
  | lineComment {body more : List Char} : '\n' ∉ body → Filler more →
      Filler ('/' :: '/' :: (body ++ '\n' :: more))
  | blockComment {body more : List Char} : ¬ ['*', '/'] <:+: body → Filler more →
      Filler ('/' :: '*' :: (body ++ ['*', '/'] ++ more))

/-- A blank and filler behind it. -/
structure Gap where
  first : Char
  more : List Char
  first_blank : first ∈ blanks
  more_filler : Filler more

/-- The characters of a gap. -/
def Gap.text (gap : Gap) : List Char := gap.first :: gap.more

/-- Filler separates, whatever comes after it. -/
theorem Filler.trivia {text : List Char} (h : Filler text) (rest : List Char) :
    Trivia text rest := by
  induction h with
  | nil => exact .nil
  | @blank c more hblank _ ih => exact @Trivia.cons [c] more rest (.blank hblank) ih
  | @lineComment body more hbody _ ih =>
    have hfeed : Trivia ('\n' :: more) rest :=
      @Trivia.cons ['\n'] more rest (.blank (by decide)) ih
    exact @Trivia.cons ('/' :: '/' :: body) ('\n' :: more) rest
      (.lineComment hbody (.inr ⟨more ++ rest, rfl⟩)) hfeed
  | @blockComment body more hbody _ ih =>
    exact @Trivia.cons ('/' :: '*' :: (body ++ ['*', '/'])) more rest (.blockComment hbody) ih

theorem Gap.trivia (gap : Gap) (rest : List Char) : Trivia gap.text rest :=
  Filler.trivia (.blank gap.first_blank gap.more_filler) rest

/-! ### Lexemes with gaps between them -/

/-- The lexemes of tokens in order, with the first gap behind the first of them, the second gap
behind the second, and so on, but no gap behind the last. -/
def spaced (gap : Nat → Gap) : List Token → List Char
  | [] => []
  | [token] => token.lexeme.toList
  | token :: next :: rest =>
    token.lexeme.toList ++ ((gap 0).text ++ spaced (fun i => gap (i + 1)) (next :: rest))

/-- The token of a lexeme is the same on every line but for the line. -/
theorem content_tokenOf {token : Token} (h : token = tokenOf token.lexeme.toList token.line)
    (line : Nat) : (tokenOf token.lexeme.toList line).content = token.content :=
  (congrArg Token.content h).symm

/-- Lexemes with gaps between them are a chain of these lexemes. -/
theorem tokenizes_spaced (gap : Nat → Gap) {lexemes : List Token}
    (h : ∀ token ∈ lexemes, Pattern token.lexeme.toList ∧
      token = tokenOf token.lexeme.toList token.line) (line : Nat) :
    ∃ tokens, Tokenizes line (spaced gap lexemes) tokens ∧
      tokens.map Token.content = lexemes.map Token.content ++ [(Token.endAt line).content] := by
  fun_induction spaced gap lexemes generalizing line with
  | case1 gap => exact ⟨_, .finish .nil, rfl⟩
  | case2 gap token =>
    obtain ⟨hpattern, htoken⟩ := h token List.mem_cons_self
    have hchain := @Tokenizes.token line [] _ [] _ .nil hpattern.lexeme_at_end (.finish .nil)
    rw [List.append_nil, List.nil_append] at hchain
    refine ⟨_, hchain, ?_⟩
    rw [List.map_cons, content_tokenOf htoken]
    rfl
  | case3 gap token next rest ih =>
    obtain ⟨hpattern, htoken⟩ := h token List.mem_cons_self
    generalize hlater : spaced (fun i => gap (i + 1)) (next :: rest) = later at ih ⊢
    -- The gap begins with a blank, so the lexeme ends where it did.
    have hlexeme : Lexeme token.lexeme.toList ((gap 0).text ++ later) :=
      hpattern.lexeme_before_blank (gap 0).first_blank _
    obtain ⟨tokens, htokens, hcontent⟩ := ih
      (fun token htoken => h token (List.mem_cons_of_mem _ htoken))
      (line + token.lexeme.toList.count '\n' + (gap 0).text.count '\n')
    refine ⟨_, @Tokenizes.token line [] _ _ _ .nil hlexeme
      (htokens.separateAll ((gap 0).trivia later)), ?_⟩
    rw [List.map_cons, hcontent, content_tokenOf htoken]
    rfl

/-- **Only the lexemes matter.** The lexemes of a text, written out in order with any gaps between
them, are scanned to tokens of the same kinds, lexemes and literals as the text. -/
theorem tokenize_spaced {source : String} {tokens : List Token} (gap : Nat → Gap)
    (h : tokenize source = .ok tokens) :
    ∃ tokens', tokenize (String.ofList (spaced gap (tokens.filter (·.kind ≠ .eof)))) = .ok tokens' ∧
      tokens'.map Token.content = tokens.map Token.content := by
  obtain ⟨lexemes, last, rfl, hlexemes⟩ := (tokenize_eq_ok_iff_tokenizes.mp h).exists_lexemes
  have hfilter : (lexemes ++ [Token.endAt last]).filter (·.kind ≠ .eof) = lexemes := by
    have hkinds : ∀ token ∈ lexemes, token.kind ≠ .eof := by
      intro token htoken
      obtain ⟨hpattern, heq⟩ := hlexemes token htoken
      rw [heq]
      exact hpattern.kindOf_ne_eof
    rw [List.filter_append, List.filter_eq_self.mpr (by simpa using hkinds)]
    simp [Token.endAt]
  obtain ⟨tokens', htokens, hcontent⟩ := tokenizes_spaced gap hlexemes 1
  refine ⟨tokens', ?_, ?_⟩
  · rw [hfilter]
    exact tokenize_of_tokenizes (by rwa [String.toList_ofList])
  · rw [hcontent, List.map_append]
    rfl

/-- A line feed and a comment with a slash in it. -/
def commentGap : Gap where
  first := '\n'
  more := "/* / */".toList
  first_blank := by decide
  more_filler := @Filler.blockComment " / ".toList [] (by decide) .nil

/-- The slash stays a slash, and the string with the front of a comment in it stays a string. -/
theorem tokenize_spaced_slashes :
    tokenize "/\"//\"" = .ok [⟨.slash, "/", none, 1⟩,
      ⟨.string, "\"//\"", some (.string "//"), 1⟩, .endAt 1] ∧
    ∃ tokens, tokenize "/\n/* / */\"//\"" = .ok tokens ∧ tokens.map Token.content =
      [(.slash, "/", none), (.string, "\"//\"", some (.string "//")), (.eof, "", none)] := by
  have hsource : tokenize "/\"//\"" = .ok [⟨.slash, "/", none, 1⟩,
      ⟨.string, "\"//\"", some (.string "//"), 1⟩, .endAt 1] := by decide +kernel
  obtain ⟨tokens, htokens, hcontent⟩ := tokenize_spaced (fun _ => commentGap) hsource
  exact ⟨hsource, tokens, htokens, hcontent⟩

end Lexical

end LoxLang
