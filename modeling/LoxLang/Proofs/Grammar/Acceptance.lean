import LoxLang.Proofs.Grammar.Derivation

/-!
# Accepting

A reply accepts when it has a result and reports nothing. For every rule, what it accepts is
put in terms of what the rules that it calls accept (`accepts_assignment_iff` and the lemmas
after it). Neither trails nor errors appear on the right-hand sides, so that the rest of the
theory can speak of trees and tokens alone.
-/

namespace LoxLang.Grammar

variable {α β : Type}

/-! ### Replies -/

/-- A result without a reported error. -/
def Reply.Accepts (reply : Reply α) (a : α) (rest : List Token) : Prop :=
  reply.outcome = .ok (a, rest) ∧ reply.reported = []

theorem accepts_done_iff {a b : α} {rest rest' : List Token} :
    (Reply.done a rest).Accepts b rest' ↔ b = a ∧ rest' = rest := by
  simp [Reply.Accepts, Reply.done, eq_comm]

theorem not_accepts_fail {trail : Trail} {problem : SyntaxProblem} {tokens rest : List Token}
    {a : α} : ¬ (Reply.fail trail problem tokens).Accepts a rest := by
  simp [Reply.Accepts, Reply.fail]

theorem accepts_bind_iff {first : Reply α} {next : α → List Token → Reply β} {b : β}
    {rest : List Token} :
    (first.bind next).Accepts b rest ↔
      ∃ a mid, first.Accepts a mid ∧ (next a mid).Accepts b rest := by
  obtain ⟨outcome, reported, traces⟩ := first
  cases outcome with
  | error failure => simp [Reply.Accepts, Reply.bind]
  | ok result =>
    obtain ⟨a, mid⟩ := result
    constructor
    · rintro ⟨houtcome, hreported⟩
      obtain ⟨hfirst, hsecond⟩ := List.append_eq_nil_iff.mp hreported
      exact ⟨a, mid, ⟨rfl, hfirst⟩, houtcome, hsecond⟩
    · rintro ⟨a', mid', ⟨hresult, hfirst⟩, houtcome, hsecond⟩
      simp only [Except.ok.injEq, Prod.mk.injEq] at hresult
      obtain ⟨rfl, rfl⟩ := hresult
      exact ⟨houtcome, List.append_eq_nil_iff.mpr ⟨hfirst, hsecond⟩⟩

theorem accepts_expect_iff {trail : Trail} {kind : TokenKind} {problem : SyntaxProblem}
    {tokens rest : List Token} {token : Token} :
    (Reply.expect trail kind problem tokens).Accepts token rest ↔
      tokens = token :: rest ∧ token.kind = kind := by
  cases tokens with
  | nil => simp [Reply.expect, not_accepts_fail]
  | cons first after =>
    by_cases h : first.kind = kind
    · simp only [Reply.expect, h, ↓reduceIte, accepts_done_iff, List.cons.injEq]
      constructor
      · rintro ⟨rfl, rfl⟩
        exact ⟨⟨rfl, rfl⟩, h⟩
      · rintro ⟨⟨rfl, rfl⟩, -⟩
        exact ⟨rfl, rfl⟩
    · simp only [Reply.expect, h, ↓reduceIte, not_accepts_fail, List.cons.injEq, false_iff, not_and]
      rintro ⟨rfl, -⟩
      exact h

/-- Only a variable is accepted on the left of `=`. -/
theorem accepts_assign_iff {target value e : Expr} {equals : Token} {after rest : List Token} :
    (Reply.assign target equals value after).Accepts e rest ↔
      ∃ name, target = .variable name ∧ e = .assign name value ∧ rest = after := by
  unfold Reply.assign
  split
  · simp only [accepts_done_iff, Expr.variable.injEq, exists_eq_left']
  · next h =>
    simp only [Reply.Accepts, Reply.noted, List.cons_ne_nil, and_false, false_iff]
    rintro ⟨name, rfl, -⟩
    exact h name rfl

/-! ### Rules for expressions -/

theorem accepts_expression_iff {trail : Trail} {tokens rest : List Token} {e : Expr} :
    (expression trail tokens).Accepts e rest ↔
      (assignment (.expression :: trail) tokens).Accepts e rest := by
  rw [expression_eq]

theorem accepts_assignment_iff {trail : Trail} {tokens rest : List Token} {e : Expr} :
    (assignment trail tokens).Accepts e rest ↔
      ∃ target mid, (binary .equality (.assignment :: trail) tokens).Accepts target mid ∧
        (peek mid ≠ .equal ∧ e = target ∧ rest = mid ∨
          ∃ name equals after value, target = .variable name ∧ mid = equals :: after ∧
            equals.kind = .equal ∧ (assignment (.assignment :: trail) after).Accepts value rest ∧
            e = .assign name value) := by
  rw [assignment_eq, accepts_bind_iff]
  refine exists_congr fun target => exists_congr fun mid => and_congr_right fun _ => ?_
  cases mid with
  | nil => simp [accepts_done_iff, peek]
  | cons equals after =>
    by_cases h : equals.kind = .equal
    · simp only [h, ↓reduceIte, accepts_bind_iff, accepts_assign_iff, peek, ne_eq,
        not_true_eq_false, false_and, false_or]
      constructor
      · rintro ⟨value, mid, hvalue, name, rfl, rfl, rfl⟩
        exact ⟨name, equals, after, value, rfl, rfl, h, hvalue, rfl⟩
      · rintro ⟨name, _, _, value, rfl, hmid, -, hvalue, rfl⟩
        obtain ⟨rfl, rfl⟩ := List.cons.inj hmid
        exact ⟨value, rest, hvalue, name, rfl, rfl, rfl⟩
    · simp only [h, ↓reduceIte, accepts_done_iff, peek, ne_eq, not_false_eq_true, true_and,
        iff_self_or]
      rintro ⟨_, _, _, _, -, hmid, hequal, -⟩
      obtain ⟨rfl, rfl⟩ := List.cons.inj hmid
      exact absurd hequal h

theorem accepts_binary_iff {level : Level} {trail : Trail} {tokens rest : List Token} {e : Expr} :
    (binary level trail tokens).Accepts e rest ↔
      ∃ left mid, (operand level (level.rule :: trail) tokens).Accepts left mid ∧
        (chain level (level.rule :: trail) left mid).Accepts e rest := by
  rw [binary_eq, accepts_bind_iff]

theorem accepts_chain_iff {level : Level} {trail : Trail} {left e : Expr}
    {tokens rest : List Token} :
    (chain level trail left tokens).Accepts e rest ↔
      (level.operator? (peek tokens) = none ∧ e = left ∧ rest = tokens) ∨
        ∃ token after op right mid, tokens = token :: after ∧ level.Infix token.kind op ∧
          (operand level trail after).Accepts right mid ∧
          (chain level trail (.binary left op token right) mid).Accepts e rest := by
  rw [chain_eq]
  cases tokens with
  | nil => cases level <;> simp [accepts_done_iff, peek, Level.operator?]
  | cons token after =>
    dsimp only
    cases hop : level.operator? token.kind with
    | none =>
      simp only [accepts_done_iff, peek, hop, true_and, iff_self_or]
      rintro ⟨_, _, op, _, _, htokens, hlevel, -⟩
      obtain ⟨rfl, rfl⟩ := List.cons.inj htokens
      rw [Level.infix_iff, hop] at hlevel
      exact absurd hlevel (by simp)
    | some op =>
      simp only [accepts_bind_iff, peek, hop, reduceCtorEq, false_and, false_or]
      constructor
      · rintro ⟨right, mid, hright, hmore⟩
        exact ⟨token, after, op, right, mid, rfl, (level.infix_iff _ _).mpr hop, hright, hmore⟩
      · rintro ⟨_, _, op', right, mid, htokens, hlevel, hright, hmore⟩
        obtain ⟨rfl, rfl⟩ := List.cons.inj htokens
        rw [Level.infix_iff, hop, Option.some.injEq] at hlevel
        subst hlevel
        exact ⟨right, mid, hright, hmore⟩

theorem accepts_unary_iff {trail : Trail} {tokens rest : List Token} {e : Expr} :
    (unary trail tokens).Accepts e rest ↔
      (unaryOperator? (peek tokens) = none ∧ (primary (.unary :: trail) tokens).Accepts e rest) ∨
        ∃ token after op right, tokens = token :: after ∧ Prefixed token.kind op ∧
          (unary (.unary :: trail) after).Accepts right rest ∧ e = .unary op token right := by
  rw [unary_eq]
  cases tokens with
  | nil => simp [peek, unaryOperator?]
  | cons token after =>
    dsimp only
    cases hop : unaryOperator? token.kind with
    | none =>
      simp only [peek, hop, true_and, iff_self_or]
      rintro ⟨_, _, op, _, htokens, hprefixed, -⟩
      obtain ⟨rfl, rfl⟩ := List.cons.inj htokens
      rw [prefixed_iff, hop] at hprefixed
      exact absurd hprefixed (by simp)
    | some op =>
      simp only [accepts_bind_iff, accepts_done_iff, peek, hop, reduceCtorEq, false_and, false_or]
      constructor
      · rintro ⟨right, mid, hright, rfl, rfl⟩
        exact ⟨token, after, op, right, rfl, (prefixed_iff _ _).mpr hop, hright, rfl⟩
      · rintro ⟨_, _, op', right, htokens, hprefixed, hright, rfl⟩
        obtain ⟨rfl, rfl⟩ := List.cons.inj htokens
        rw [prefixed_iff, hop, Option.some.injEq] at hprefixed
        subst hprefixed
        exact ⟨right, rest, hright, rfl, rfl⟩

theorem accepts_primary_iff {trail : Trail} {tokens rest : List Token} {e : Expr} :
    (primary trail tokens).Accepts e rest ↔
      (∃ token, tokens = token :: rest ∧ atom? token = some e) ∨
        ∃ opening closing after inner, tokens = opening :: after ∧ opening.kind = .leftParen ∧
          (expression (.primary :: trail) after).Accepts inner (closing :: rest) ∧
          closing.kind = .rightParen ∧ e = .grouping inner := by
  rw [primary_eq]
  cases tokens with
  | nil => simp [not_accepts_fail]
  | cons token after =>
    dsimp only
    cases hatom : atom? token with
    | some atom =>
      simp only [accepts_done_iff, List.cons.injEq]
      constructor
      · rintro ⟨rfl, rfl⟩
        exact .inl ⟨token, ⟨rfl, rfl⟩, hatom⟩
      · rintro (⟨_, ⟨rfl, rfl⟩, h⟩ | ⟨_, closing, _, inner, ⟨rfl, rfl⟩, h, -⟩)
        · rw [hatom, Option.some.injEq] at h
          exact ⟨h.symm, rfl⟩
        · rw [atom?, h] at hatom
          exact absurd hatom (by simp)
    | none =>
      by_cases h : token.kind = .leftParen
      · simp only [h, ↓reduceIte, accepts_bind_iff, accepts_expect_iff, accepts_done_iff,
          List.cons.injEq]
        constructor
        · rintro ⟨inner, _, hinner, closing, mid, ⟨rfl, hclosing⟩, rfl, rfl⟩
          exact .inr ⟨token, closing, after, inner, ⟨rfl, rfl⟩, h, hinner, hclosing, rfl⟩
        · rintro (⟨_, ⟨rfl, rfl⟩, h'⟩ |
            ⟨_, closing, _, inner, ⟨rfl, rfl⟩, -, hinner, hclosing, rfl⟩)
          · rw [hatom] at h'
            exact absurd h' (by simp)
          · exact ⟨inner, closing :: rest, hinner, closing, rest, ⟨rfl, hclosing⟩, rfl, rfl⟩
      · simp only [h, ↓reduceIte, not_accepts_fail, List.cons.injEq, false_iff, not_or, not_exists,
          not_and]
        refine ⟨?_, ?_⟩
        · rintro _ ⟨rfl, rfl⟩ h'
          rw [hatom] at h'
          exact absurd h' (by simp)
        · rintro _ closing _ inner ⟨rfl, rfl⟩ h'
          exact absurd h' h

/-! ### Rules for statements -/

theorem accepts_declaration_iff {lenient : Bool} {trail : Trail} {tokens rest : List Token}
    {s : Stmt} :
    (declaration lenient trail tokens).Accepts s rest ↔
      (peek tokens ≠ .kwVar ∧ (statement lenient (.declaration :: trail) tokens).Accepts s rest) ∨
        ∃ keyword after, tokens = keyword :: after ∧ keyword.kind = .kwVar ∧
          (varDeclaration (.declaration :: trail) after).Accepts s rest := by
  rw [declaration_eq]
  cases tokens with
  | nil => simp [peek]
  | cons token after =>
    by_cases h : token.kind = .kwVar <;> simp [peek, h, and_assoc]

theorem accepts_initial_iff {trail : Trail} {tokens rest : List Token} {initial? : Option Expr} :
    (initial trail tokens).Accepts initial? rest ↔
      (peek tokens ≠ .equal ∧ initial? = none ∧ rest = tokens) ∨
        ∃ equals after value, tokens = equals :: after ∧ equals.kind = .equal ∧
          (expression trail after).Accepts value rest ∧ initial? = some value := by
  rw [initial_eq]
  cases tokens with
  | nil => simp [accepts_done_iff, peek]
  | cons equals after =>
    by_cases h : equals.kind = .equal
    · simp only [h, ↓reduceIte, accepts_bind_iff, accepts_done_iff, peek, ne_eq, not_true_eq_false,
        false_and, false_or, List.cons.injEq]
      constructor
      · rintro ⟨value, mid, hvalue, rfl, rfl⟩
        exact ⟨equals, after, value, ⟨rfl, rfl⟩, h, hvalue, rfl⟩
      · rintro ⟨_, _, value, ⟨rfl, rfl⟩, -, hvalue, rfl⟩
        exact ⟨value, rest, hvalue, rfl, rfl⟩
    · simp [accepts_done_iff, peek, h]

theorem accepts_varDeclaration_iff {trail : Trail} {tokens rest : List Token} {s : Stmt} :
    (varDeclaration trail tokens).Accepts s rest ↔
      ∃ name after initial? semicolon, tokens = name :: after ∧ name.kind = .identifier ∧
        (initial (.varDeclaration :: trail) after).Accepts initial? (semicolon :: rest) ∧
        semicolon.kind = .semicolon ∧ s = .declare name initial? := by
  rw [varDeclaration_eq]
  simp only [accepts_bind_iff, accepts_expect_iff, accepts_done_iff]
  constructor
  · rintro ⟨name, after, ⟨rfl, hname⟩, initial?, _, hinitial, semicolon, _, ⟨rfl, hsemicolon⟩,
      rfl, rfl⟩
    exact ⟨name, after, initial?, semicolon, rfl, hname, hinitial, hsemicolon, rfl⟩
  · rintro ⟨name, after, initial?, semicolon, rfl, hname, hinitial, hsemicolon, rfl⟩
    exact ⟨name, after, ⟨rfl, hname⟩, initial?, _, hinitial, semicolon, rest, ⟨rfl, hsemicolon⟩,
      rfl, rfl⟩

theorem accepts_printStatement_iff {trail : Trail} {tokens rest : List Token} {s : Stmt} :
    (printStatement trail tokens).Accepts s rest ↔
      ∃ value semicolon,
        (expression (.printStatement :: trail) tokens).Accepts value (semicolon :: rest) ∧
        semicolon.kind = .semicolon ∧ s = .print value := by
  rw [printStatement_eq]
  simp only [accepts_bind_iff, accepts_expect_iff, accepts_done_iff]
  constructor
  · rintro ⟨value, _, hvalue, semicolon, _, ⟨rfl, hsemicolon⟩, rfl, rfl⟩
    exact ⟨value, semicolon, hvalue, hsemicolon, rfl⟩
  · rintro ⟨value, semicolon, hvalue, hsemicolon, rfl⟩
    exact ⟨value, _, hvalue, semicolon, rest, ⟨rfl, hsemicolon⟩, rfl, rfl⟩

/-- A lenient reading also accepts an expression at the end of all tokens. -/
theorem accepts_expressionStatement_iff {lenient : Bool} {trail : Trail} {tokens rest : List Token}
    {s : Stmt} :
    (expressionStatement lenient trail tokens).Accepts s rest ↔
      ∃ value mid, (expression (.expressionStatement :: trail) tokens).Accepts value mid ∧
        s = .expression value ∧
        (lenient = true ∧ atEnd mid = true ∧ rest = mid ∨
          ∃ semicolon, mid = semicolon :: rest ∧ semicolon.kind = .semicolon) := by
  rw [expressionStatement_eq, accepts_bind_iff]
  refine exists_congr fun value => exists_congr fun mid => and_congr_right fun _ => ?_
  by_cases h : (lenient && atEnd mid) = true
  · simp only [h, ↓reduceIte, accepts_done_iff]
    obtain ⟨hlenient, hend⟩ := Bool.and_eq_true_iff.mp h
    constructor
    · rintro ⟨rfl, rfl⟩
      exact ⟨rfl, .inl ⟨hlenient, hend, rfl⟩⟩
    · rintro ⟨rfl, ⟨-, -, rfl⟩ | ⟨semicolon, rfl, hsemicolon⟩⟩
      · exact ⟨rfl, rfl⟩
      · simp [atEnd, peek, hsemicolon] at hend
  · simp only [h, Bool.false_eq_true, ↓reduceIte, accepts_bind_iff, accepts_expect_iff,
      accepts_done_iff]
    constructor
    · rintro ⟨semicolon, _, ⟨rfl, hsemicolon⟩, rfl, rfl⟩
      exact ⟨rfl, .inr ⟨semicolon, rfl, hsemicolon⟩⟩
    · rintro ⟨rfl, ⟨hlenient, hend, -⟩ | ⟨semicolon, rfl, hsemicolon⟩⟩
      · exact absurd (Bool.and_eq_true_iff.mpr ⟨hlenient, hend⟩) h
      · exact ⟨semicolon, rest, ⟨rfl, hsemicolon⟩, rfl, rfl⟩

theorem accepts_statement_iff {lenient : Bool} {trail : Trail} {tokens rest : List Token}
    {s : Stmt} :
    (statement lenient trail tokens).Accepts s rest ↔
      (peek tokens ∉ [.kwIf, .kwPrint, .leftBrace] ∧
          (expressionStatement lenient (.statement :: trail) tokens).Accepts s rest) ∨
        ∃ keyword after, tokens = keyword :: after ∧
          (keyword.kind = .kwIf ∧ (ifStatement lenient (.statement :: trail) after).Accepts s rest ∨
            keyword.kind = .kwPrint ∧ (printStatement (.statement :: trail) after).Accepts s rest ∨
            keyword.kind = .leftBrace ∧
              (block lenient (.statement :: trail) after).Accepts s rest) := by
  rw [statement_eq]
  cases tokens with
  | nil => simp [peek]
  | cons token after =>
    dsimp only
    split
    · next h => simp [peek, h, and_assoc]
    · next h => simp [peek, h, and_assoc]
    · next h => simp [peek, h, and_assoc]
    · next hif hprint hbrace =>
      have hif : token.kind ≠ .kwIf := hif
      have hprint : token.kind ≠ .kwPrint := hprint
      have hbrace : token.kind ≠ .leftBrace := hbrace
      simp [peek, hif, hprint, hbrace]

theorem accepts_ifStatement_iff {lenient : Bool} {trail : Trail} {tokens rest : List Token}
    {s : Stmt} :
    (ifStatement lenient trail tokens).Accepts s rest ↔
      ∃ opening after condition closing mid yes others, tokens = opening :: after ∧
        opening.kind = .leftParen ∧
        (expression (.ifStatement :: trail) after).Accepts condition (closing :: mid) ∧
        closing.kind = .rightParen ∧
        (statement lenient (.ifStatement :: trail) mid).Accepts yes others ∧
        (peek others ≠ .kwElse ∧ s = .conditional condition yes none ∧ rest = others ∨
          ∃ other more no, others = other :: more ∧ other.kind = .kwElse ∧
            (statement lenient (.ifStatement :: trail) more).Accepts no rest ∧
            s = .conditional condition yes (some no)) := by
  rw [ifStatement_eq]
  simp only [accepts_bind_iff, accepts_expect_iff]
  constructor
  · rintro ⟨opening, after, ⟨rfl, hopening⟩, condition, _, hcondition, closing, mid,
      ⟨rfl, hclosing⟩, yes, others, hyes, hbranch⟩
    refine ⟨opening, after, condition, closing, mid, yes, others, rfl, hopening, hcondition,
      hclosing, hyes, ?_⟩
    cases others with
    | nil => simpa [accepts_done_iff, peek] using hbranch
    | cons other more =>
      by_cases h : other.kind = .kwElse
      · simp only [h, ↓reduceIte, accepts_bind_iff, accepts_done_iff] at hbranch
        obtain ⟨no, _, hno, rfl, rfl⟩ := hbranch
        exact .inr ⟨other, more, no, rfl, h, hno, rfl⟩
      · simp only [h, ↓reduceIte, accepts_done_iff] at hbranch
        exact .inl ⟨h, hbranch⟩
  · rintro ⟨opening, after, condition, closing, mid, yes, others, rfl, hopening, hcondition,
      hclosing, hyes, hbranch⟩
    refine ⟨opening, after, ⟨rfl, hopening⟩, condition, _, hcondition, closing, mid,
      ⟨rfl, hclosing⟩, yes, others, hyes, ?_⟩
    obtain ⟨hother, rfl, rfl⟩ | ⟨other, more, no, rfl, hother, hno, rfl⟩ := hbranch
    · cases rest with
      | nil => exact accepts_done_iff.mpr ⟨rfl, rfl⟩
      | cons other more =>
        have hother : other.kind ≠ .kwElse := hother
        simp only [hother, ↓reduceIte]
        exact accepts_done_iff.mpr ⟨rfl, rfl⟩
    · simp only [hother, ↓reduceIte, accepts_bind_iff]
      exact ⟨no, rest, hno, accepts_done_iff.mpr ⟨rfl, rfl⟩⟩

theorem accepts_block_iff {lenient : Bool} {trail : Trail} {tokens rest : List Token} {s : Stmt} :
    (block lenient trail tokens).Accepts s rest ↔
      ∃ body closing,
        (statements lenient true (.block :: trail) tokens).reply.Accepts body (closing :: rest) ∧
        closing.kind = .rightBrace ∧ s = .block body := by
  rw [block_eq]
  simp only [accepts_bind_iff, accepts_expect_iff, accepts_done_iff]
  constructor
  · rintro ⟨body, _, hbody, closing, _, ⟨rfl, hclosing⟩, rfl, rfl⟩
    exact ⟨body, closing, hbody, hclosing, rfl⟩
  · rintro ⟨body, closing, hbody, hclosing, rfl⟩
    exact ⟨body, _, hbody, closing, rest, ⟨rfl, hclosing⟩, rfl, rfl⟩

/-- Statements are accepted one by one up to the end of the passage: one that fails is reported. -/
theorem accepts_statements_iff {lenient inBlock : Bool} {trail : Trail} {tokens rest : List Token}
    {body : Program} :
    (statements lenient inBlock trail tokens).reply.Accepts body rest ↔
      (endsPassage inBlock tokens = true ∧ body = [] ∧ rest = tokens) ∨
        ∃ stmt mid more, endsPassage inBlock tokens = false ∧
          (declaration lenient trail tokens).Accepts stmt mid ∧
          (statements lenient inBlock trail mid).reply.Accepts more rest ∧ body = stmt :: more := by
  rw [statements_eq]
  by_cases hend : endsPassage inBlock tokens = true
  · simp only [hend, ↓reduceIte, Reply.Accepts, Passage.reply, Passage.empty, Except.ok.injEq,
      Prod.mk.injEq, and_true, true_and, Bool.true_eq_false, false_and, exists_false, or_false]
    exact and_congr eq_comm eq_comm
  · simp only [hend, Bool.false_eq_true, ↓reduceIte, false_and, false_or]
    generalize declaration lenient trail tokens = first
    obtain ⟨outcome, reported, traces⟩ := first
    cases outcome with
    | error failure => simp [Reply.andThen, Passage.reply, Passage.skip, Reply.Accepts]
    | ok result =>
      obtain ⟨stmt, mid⟩ := result
      simp only [Reply.andThen, Passage.reply, Passage.cons, Reply.Accepts, Except.ok.injEq,
        Prod.mk.injEq, List.append_eq_nil_iff]
      constructor
      · rintro ⟨⟨rfl, rfl⟩, hreported, hmore⟩
        exact ⟨stmt, mid, _, trivial, ⟨⟨rfl, rfl⟩, hreported⟩, ⟨⟨rfl, rfl⟩, hmore⟩, rfl⟩
      · rintro ⟨_, _, _, -, ⟨⟨rfl, rfl⟩, hreported⟩, ⟨⟨rfl, rfl⟩, hmore⟩, rfl⟩
        exact ⟨⟨rfl, rfl⟩, hreported, hmore⟩

/-- A token list is the program that is read from it when nothing is reported. -/
theorem parse_eq_ok_iff {lenient : Bool} {tokens : List Token} {body : Program} :
    parse lenient tokens = .ok body ↔
      (program lenient tokens).reported = [] ∧ (program lenient tokens).body = body := by
  unfold parse
  dsimp only
  cases (program lenient tokens).reported <;> simp

/-- Otherwise its errors are what is reported. -/
theorem parse_eq_error_iff {lenient : Bool} {tokens : List Token} {errors : List SyntaxError} :
    parse lenient tokens = .error errors ↔
      (program lenient tokens).reported = errors ∧ errors ≠ [] := by
  unfold parse
  dsimp only
  cases (program lenient tokens).reported with
  | nil => simp
  | cons error more =>
    rw [Except.error.injEq]
    exact ⟨fun h => ⟨h, h ▸ List.cons_ne_nil _ _⟩, And.left⟩

/-- A token list is a program when the passage of all its tokens is accepted. -/
theorem parse_eq_ok_iff_accepts {lenient : Bool} {tokens : List Token} {body : Program} :
    parse lenient tokens = .ok body ↔ ∃ rest, (program lenient tokens).reply.Accepts body rest := by
  rw [parse_eq_ok_iff]
  constructor
  · intro ⟨hreported, hbody⟩
    exact ⟨(program lenient tokens).rest, by rw [← hbody]; rfl, hreported⟩
  · intro ⟨rest, houtcome, hreported⟩
    simp only [Passage.reply, Except.ok.injEq, Prod.mk.injEq] at houtcome
    exact ⟨hreported, houtcome.1⟩

end LoxLang.Grammar
