import LoxLang.Proofs.Grammar.EndOfInput
import LoxLang.Proofs.Grammar.NearestElse
import LoxLang.Proofs.Grammar.Soundness
import LoxLang.Proofs.Grammar.Completeness
import LoxLang.Proofs.Grammar.Spelling
import LoxLang.Token.Scan

/-!
# What is read is what the grammar derives

A strict reading accepts a list of tokens exactly if the grammar derives the tokens before the
first end token, and the program read is the one derived program in which every `else` belongs
to the nearest `if` (`parse_eq_ok_iff_derivesProgram`).
-/

namespace LoxLang.Grammar

/-! ### Strict reading -/

/-- **Strict reading is derivation**: the programs read are those derived from the tokens before
the end, every `else` with the nearest `if`. -/
theorem parse_eq_ok_iff_derivesProgram {tokens : List Token} {body : Program} :
    parse false tokens = .ok body ↔
      DerivesProgram (beforeEnd tokens) body ∧ Program.ElseNearest body := by
  rw [parse_eq_ok_iff_accepts]
  constructor
  · intro ⟨rest, haccepts⟩
    obtain ⟨hend, taken, htokens, hderives, hnearest⟩ := derivesProgram_of_accepts haccepts
    have htaken : beforeEnd tokens = taken := by
      rw [htokens]
      exact beforeEnd_append hderives.ne_eof hend
    rw [htaken]
    exact ⟨hderives, hnearest⟩
  · intro ⟨hderives, hnearest⟩
    have haccepts := accepts_of_derivesProgram hderives hnearest (atEnd_fromEnd tokens)
    rw [beforeEnd_append_fromEnd] at haccepts
    exact ⟨_, haccepts⟩

/-- The tokens before the end have at most one derived program with every `else` in its place. -/
theorem DerivesProgram.unique {ts : List Token} {body body' : Program}
    (hbody : DerivesProgram ts body) (hnearest : Program.ElseNearest body)
    (hbody' : DerivesProgram ts body') (hnearest' : Program.ElseNearest body') : body = body' := by
  have hts : beforeEnd ts = ts := by
    have h : beforeEnd (ts ++ []) = ts := beforeEnd_append hbody.ne_eof rfl
    rwa [List.append_nil] at h
  have h : parse false ts = .ok body :=
    parse_eq_ok_iff_derivesProgram.mpr ⟨hts.symm ▸ hbody, hnearest⟩
  have h' : parse false ts = .ok body' :=
    parse_eq_ok_iff_derivesProgram.mpr ⟨hts.symm ▸ hbody', hnearest'⟩
  rw [h] at h'
  exact Except.ok.inj h'

/-- **The reader and the grammar agree**: a program is read exactly from what the grammar derives,
and it is the one derived program with every `else` at the nearest `if`. The kinds of the tokens
before the end can be told from the program, if literals are such as source texts have, and the
tokens behind the end count for nothing. -/
theorem parse_recognizes_grammar (tokens : List Token) :
    (∀ body, parse false tokens = .ok body ↔
      DerivesProgram (beforeEnd tokens) body ∧ Program.ElseNearest body) ∧
    ((∃ body, parse false tokens = .ok body) ↔ ∃ body, DerivesProgram (beforeEnd tokens) body) ∧
    (∀ body body', DerivesProgram (beforeEnd tokens) body → Program.ElseNearest body →
      DerivesProgram (beforeEnd tokens) body' → Program.ElseNearest body' → body = body') ∧
    (∀ others body, (∀ token ∈ beforeEnd tokens, token.LiteralFits) →
      (∀ token ∈ beforeEnd others, token.LiteralFits) →
      parse false tokens = .ok body → parse false others = .ok body →
      (beforeEnd tokens).map Token.kind = (beforeEnd others).map Token.kind) ∧
    (∀ source, tokenize source = .ok tokens → ∀ token ∈ tokens, token.LiteralFits) ∧
    (∀ last later, last.kind = .eof →
      parse false (tokens ++ last :: later) = parse false (tokens ++ [last])) := by
  refine ⟨fun body => parse_eq_ok_iff_derivesProgram, ?_, ?_, ?_,
    fun source h => literalFits_of_tokenize h, ?_⟩
  · constructor
    · intro ⟨body, hbody⟩
      exact ⟨body, (parse_eq_ok_iff_derivesProgram.mp hbody).1⟩
    · intro ⟨body, hbody⟩
      obtain ⟨body', hbody', hnearest⟩ := hbody.exists_elseNearest
      exact ⟨body', parse_eq_ok_iff_derivesProgram.mpr ⟨hbody', hnearest⟩⟩
  · intro body body' hbody hnearest hbody' hnearest'
    exact hbody.unique hnearest hbody' hnearest'
  · intro others body hfits hfits' hbody hbody'
    have hderives := (parse_eq_ok_iff_derivesProgram.mp hbody).1
    have hderives' := (parse_eq_ok_iff_derivesProgram.mp hbody').1
    rw [hderives.map_kind hfits, hderives'.map_kind hfits']
  · intro last later hlast
    rw [← parse_upToEnd, upToEnd_append_eof tokens later hlast, parse_upToEnd]

/-! ### An `else` after two `if` -/

/-- A primary expression is an expression. -/
theorem DerivesExpr.of_primary {ts : List Token} {e : Expr} (h : DerivesExpr .primary ts e) :
    DerivesExpr .expression ts e := by
  have hfactor : DerivesExpr .factor ts e := @DerivesExpr.operand .factor ts e (.primary h)
  have hterm : DerivesExpr .term ts e := @DerivesExpr.operand .term ts e hfactor
  have hcomparison : DerivesExpr .comparison ts e := @DerivesExpr.operand .comparison ts e hterm
  have hequality : DerivesExpr .equality ts e := @DerivesExpr.operand .equality ts e hcomparison
  exact .expression (.value hequality)

/-- A name on the first line. -/
def nameToken (lexeme : String) : Token := ⟨.identifier, lexeme, none, 1⟩

/-- The tokens of `if (a) if (b) x; else y;`, with all but the names on the given line. -/
def twoConditions (line : Nat) : List Token :=
  let sign (kind : TokenKind) : Token := ⟨kind, kind.spelling, none, line⟩
  [sign .kwIf, sign .leftParen, nameToken "a", sign .rightParen,
    sign .kwIf, sign .leftParen, nameToken "b", sign .rightParen,
    nameToken "x", sign .semicolon, sign .kwElse, nameToken "y", sign .semicolon]

/-- The program in which the `else` belongs to the second `if`. -/
def elseAtSecond : Program :=
  [.conditional (.variable (nameToken "a"))
    (.conditional (.variable (nameToken "b")) (.expression (.variable (nameToken "x")))
      (some (.expression (.variable (nameToken "y"))))) none]

theorem derivesProgram_twoConditions (line : Nat) :
    DerivesProgram (twoConditions line) elseAtSecond := by
  have hname (lexeme : String) :
      DerivesExpr .expression [nameToken lexeme] (.variable (nameToken lexeme)) :=
    .of_primary (.name rfl)
  have hyes : DerivesStmt .statement
      [nameToken "x", ⟨.semicolon, TokenKind.semicolon.spelling, none, line⟩]
      (.expression (.variable (nameToken "x"))) :=
    .choice .expressionStatement (.expression (hname "x") rfl)
  have hno : DerivesStmt .statement
      [nameToken "y", ⟨.semicolon, TokenKind.semicolon.spelling, none, line⟩]
      (.expression (.variable (nameToken "y"))) :=
    .choice .expressionStatement (.expression (hname "y") rfl)
  refine ⟨[(twoConditions line, elseAtSecond.head (by simp [elseAtSecond]))], ?_, by simp, rfl⟩
  intro part hpart
  rw [List.mem_singleton.mp hpart]
  refine .choice .statement (.choice .ifStatement ?_)
  refine @DerivesStmt.conditional _ _ _ [nameToken "a"] _ _ _ rfl rfl (hname "a") rfl
    (.choice .ifStatement ?_)
  exact @DerivesStmt.alternative _ _ _ _ [nameToken "b"] _ _ _ _ _ rfl rfl
    (hname "b") rfl hyes rfl hno

theorem elseNearest_elseAtSecond : Program.ElseNearest elseAtSecond := by
  intro s hs
  rw [List.mem_singleton.mp hs]
  exact .conditional (.alternative rfl .expression .expression)

/-- The tokens of `"a";`. -/
def quotedStatement : List Token :=
  [⟨.string, "\"a\"", some (.string "a"), 1⟩, ⟨.semicolon, ";", none, 1⟩, .endAt 1]

/-- The `else` in `if (a) if (b) x; else y;` is read with the second `if`, whatever stands behind
the end and on whatever line its other tokens stand. A string in a source text denotes one. -/
theorem parse_recognizes_twoConditions :
    parse false (twoConditions 1 ++ [Token.endAt 1]) = .ok elseAtSecond ∧
    (beforeEnd (twoConditions 1 ++ [Token.endAt 1])).map Token.kind =
      (beforeEnd (twoConditions 2 ++ [Token.endAt 2])).map Token.kind ∧
    (tokenize "\"a\";" = .ok quotedStatement ∧ ∀ token ∈ quotedStatement, token.LiteralFits) ∧
    parse false (twoConditions 1 ++ Token.endAt 1 :: twoConditions 2) =
      parse false (twoConditions 1 ++ [Token.endAt 1]) := by
  have hbefore (line : Nat) :
      beforeEnd (twoConditions line ++ [Token.endAt line]) = twoConditions line :=
    beforeEnd_append (derivesProgram_twoConditions line).ne_eof rfl
  have hread (line : Nat) :
      parse false (twoConditions line ++ [Token.endAt line]) = .ok elseAtSecond := by
    refine ((parse_recognizes_grammar _).1 elseAtSecond).mpr ⟨?_, elseNearest_elseAtSecond⟩
    rw [hbefore line]
    exact derivesProgram_twoConditions line
  have hfits (line : Nat) : ∀ token ∈ beforeEnd (twoConditions line ++ [Token.endAt line]),
      token.LiteralFits := by
    rw [hbefore line]
    simp [twoConditions, nameToken, Token.LiteralFits]
  obtain ⟨-, -, -, hkinds, -⟩ := parse_recognizes_grammar (twoConditions 1 ++ [Token.endAt 1])
  have hscan : tokenize "\"a\";" = .ok quotedStatement := by decide +kernel
  obtain ⟨-, -, -, -, hscanned, -⟩ := parse_recognizes_grammar quotedStatement
  obtain ⟨-, -, -, -, -, hbehind⟩ := parse_recognizes_grammar (twoConditions 1)
  exact ⟨hread 1, hkinds _ elseAtSecond (hfits 1) (hfits 2) (hread 1) (hread 2),
    ⟨hscan, hscanned _ hscan⟩, hbehind _ _ rfl⟩

end LoxLang.Grammar
