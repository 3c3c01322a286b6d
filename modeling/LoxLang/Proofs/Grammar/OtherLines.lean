import LoxLang.Proofs.Grammar.Calls
import LoxLang.Proofs.Tree.Lines

/-!
# Tokens that look the same

No rule looks at the line of a token, or behind the first end token. Where one list of tokens shows
another, token by token up to the end and only the lines changed, a reading of it has the same
trees, errors and traces with the lines changed in the same way (`program_shown`).
-/

namespace LoxLang

/-- The error at its token on the line that is given for its own. -/
def SyntaxError.mapLine (g : Nat → Nat) (error : SyntaxError) : SyntaxError :=
  { error with token := error.token.mapLine g }

namespace Grammar

/-- The trace with the token of its error on the line that is given for its own. -/
def Trace.mapLine (g : Nat → Nat) (trace : Trace) : Trace :=
  { trace with error := trace.error.mapLine g }

variable {α β : Type} {g : Nat → Nat}

/-! ### Tokens -/

/-- The second list shows the first up to its end, with the tokens on the lines that are given for
theirs. -/
inductive Shown (g : Nat → Nat) : List Token → List Token → Prop where
  | nil : Shown g [] []
  | last {token : Token} {rest rest' : List Token} :
      token.kind = .eof → Shown g (token :: rest) (token.mapLine g :: rest')
  | cons {token : Token} {rest rest' : List Token} :
      token.kind ≠ .eof → Shown g rest rest' → Shown g (token :: rest) (token.mapLine g :: rest')

/-- Before the end, what is shown behind a token is what stands behind it. -/
theorem Shown.exists_cons {token : Token} {rest shown : List Token}
    (h : Shown g (token :: rest) shown) :
    ∃ rest', shown = token.mapLine g :: rest' ∧ (token.kind ≠ .eof → Shown g rest rest') := by
  cases h with
  | last hkind => exact ⟨_, rfl, fun hne => absurd hkind hne⟩
  | cons _ hrest => exact ⟨_, rfl, fun _ => hrest⟩

theorem Shown.peek_eq {tokens shown : List Token} (h : Shown g tokens shown) :
    peek shown = peek tokens := by
  cases h <;> rfl

theorem Shown.atEnd_eq {tokens shown : List Token} (h : Shown g tokens shown) :
    atEnd shown = atEnd tokens := by
  rw [atEnd, atEnd, h.peek_eq]

theorem Shown.endsPassage_eq {tokens shown : List Token} (h : Shown g tokens shown)
    (inBlock : Bool) : endsPassage inBlock shown = endsPassage inBlock tokens := by
  rw [endsPassage, endsPassage, h.atEnd_eq, h.peek_eq]

/-- The token in front is shown, also the one that stands for the end of the list, on line 0. -/
theorem Shown.currentToken_eq {tokens shown : List Token} (h : Shown g tokens shown)
    (hzero : g 0 = 0) : currentToken shown = (currentToken tokens).mapLine g := by
  cases h with
  | nil => rw [currentToken, Token.mapLine, hzero]
  | last | cons => rfl

theorem Shown.seekStatement {tokens shown : List Token} (h : Shown g tokens shown)
    (passed : TokenKind) : Shown g (seekStatement passed tokens) (seekStatement passed shown) := by
  induction h generalizing passed with
  | nil => exact .nil
  | last hkind =>
    rw [Grammar.seekStatement, Grammar.seekStatement, Token.kind_mapLine, if_pos (.inl hkind),
      if_pos (.inl hkind)]
    exact .last hkind
  | @cons token rest rest' hkind hrest ih =>
    rw [Grammar.seekStatement, Grammar.seekStatement, Token.kind_mapLine]
    split
    · exact .cons hkind hrest
    · exact ih _

/-- Reading recovers at the same place. -/
theorem Shown.recover {tokens shown : List Token} (h : Shown g tokens shown) :
    Shown g (recover tokens) (recover shown) := by
  cases h with
  | nil => exact .nil
  | last hkind =>
    rw [Grammar.recover, Grammar.recover, Token.kind_mapLine, if_pos hkind, if_pos hkind]
    exact .last hkind
  | cons hkind hrest =>
    rw [Grammar.recover, Grammar.recover, Token.kind_mapLine, if_neg hkind, if_neg hkind]
    exact hrest.seekStatement _

/-- All tokens on other lines. -/
theorem shown_map (g : Nat → Nat) (tokens : List Token) :
    Shown g tokens (tokens.map (Token.mapLine g)) := by
  induction tokens with
  | nil => exact .nil
  | cons token rest ih =>
    by_cases h : token.kind = .eof
    · exact .last h
    · exact .cons h ih

/-! ### Replies -/

/-- The second reply is the first, its result changed as given, with the tokens on other lines. -/
inductive Reply.Shown (g : Nat → Nat) (f : α → α) : Reply α → Reply α → Prop where
  | done {a : α} {rest rest' : List Token} (reported : List SyntaxError) (traces : List Trace) :
      Grammar.Shown g rest rest' → Reply.Shown g f ⟨.ok (a, rest), reported, traces⟩
        ⟨.ok (f a, rest'), reported.map (.mapLine g), traces.map (.mapLine g)⟩
  | fail {error : SyntaxError} {place place' : List Token} (reported : List SyntaxError)
      (traces : List Trace) : Grammar.Shown g place place' →
      Reply.Shown g f ⟨.error ⟨error, place⟩, reported, traces⟩
        ⟨.error ⟨error.mapLine g, place'⟩, reported.map (.mapLine g), traces.map (.mapLine g)⟩

namespace Reply.Shown

variable {f : α → α} {f' : β → β} {tokens tokens' : List Token}

theorem pure (a : α) (h : Grammar.Shown g tokens tokens') :
    Reply.Shown g f (.done a tokens) (.done (f a) tokens') := .done [] [] h

theorem raise (hzero : g 0 = 0) (trail : Trail) (problem : SyntaxProblem)
    (h : Grammar.Shown g tokens tokens') :
    Reply.Shown g f (.fail trail problem tokens) (.fail trail problem tokens') := by
  rw [Reply.fail, Reply.fail, h.currentToken_eq hzero]
  exact .fail [] [⟨trail, _⟩] h

/-- What is shown of each part is shown of the whole. -/
theorem bind {first first' : Reply α} {next next' : α → List Token → Reply β}
    (h : Reply.Shown g f first first')
    (hnext : ∀ a rest rest', first.outcome = .ok (a, rest) → Grammar.Shown g rest rest' →
      Reply.Shown g f' (next a rest) (next' (f a) rest')) :
    Reply.Shown g f' (first.bind next) (first'.bind next') := by
  cases h with
  | fail reported traces hplace => exact .fail reported traces hplace
  | @done a rest rest' reported traces hrest =>
    have hsecond := hnext a rest rest' rfl hrest
    simp only [Reply.bind]
    generalize next a rest = second at hsecond
    generalize next' (f a) rest' = second' at hsecond
    cases hsecond with
    | done _ _ hrest' =>
      rw [← List.map_append, ← List.map_append]
      exact .done _ _ hrest'
    | fail _ _ hplace =>
      rw [← List.map_append, ← List.map_append]
      exact .fail _ _ hplace

theorem expect (hzero : g 0 = 0) (trail : Trail) {kind : TokenKind} (problem : SyntaxProblem)
    (hkind : kind ≠ .eof) (h : Grammar.Shown g tokens tokens') :
    Reply.Shown g (Token.mapLine g) (.expect trail kind problem tokens)
      (.expect trail kind problem tokens') := by
  cases tokens with
  | nil =>
    cases h
    exact raise hzero trail problem .nil
  | cons token rest =>
    obtain ⟨rest', rfl, hrest⟩ := h.exists_cons
    by_cases hmatch : token.kind = kind
    · simp only [Reply.expect, Token.kind_mapLine, hmatch, ↓reduceIte]
      exact pure token (hrest (hmatch ▸ hkind))
    · simp only [Reply.expect, Token.kind_mapLine, hmatch, ↓reduceIte]
      exact raise hzero trail problem h

theorem assign (target : Expr) (equals : Token) (value : Expr)
    (h : Grammar.Shown g tokens tokens') :
    Reply.Shown g (Expr.mapLine g) (.assign target equals value tokens)
      (.assign (target.mapLine g) (equals.mapLine g) (value.mapLine g) tokens') :=
  match target with
  | .variable name => pure (Expr.assign name value) h
  | .literal _ | .grouping _ | .unary _ _ _ | .binary _ _ _ _ | .assign _ _ =>
    .done [⟨equals, .invalidTarget⟩] [] h

end Reply.Shown

/-! ### Rules for expressions -/

theorem atom?_mapLine (g : Nat → Nat) (token : Token) :
    atom? (token.mapLine g) = (atom? token).map (Expr.mapLine g) := by
  obtain ⟨kind, lexeme, literal, line⟩ := token
  cases kind <;> cases literal <;> rfl

/-- What a call answers is shown where its tokens are, the left operand of a chain on other lines
as well. -/
def ExprCall.Shown (g : Nat → Nat) : ExprCall → List Token → Prop
  | .expression, tokens => ∀ trail shown, Grammar.Shown g tokens shown →
    Reply.Shown g (Expr.mapLine g) (Grammar.expression trail tokens)
      (Grammar.expression trail shown)
  | .assignment, tokens => ∀ trail shown, Grammar.Shown g tokens shown →
    Reply.Shown g (Expr.mapLine g) (Grammar.assignment trail tokens)
      (Grammar.assignment trail shown)
  | .binary level, tokens => ∀ trail shown, Grammar.Shown g tokens shown →
    Reply.Shown g (Expr.mapLine g) (Grammar.binary level trail tokens)
      (Grammar.binary level trail shown)
  | .operand level, tokens => ∀ trail shown, Grammar.Shown g tokens shown →
    Reply.Shown g (Expr.mapLine g) (Grammar.operand level trail tokens)
      (Grammar.operand level trail shown)
  | .chain level left, tokens => ∀ trail shown, Grammar.Shown g tokens shown →
    Reply.Shown g (Expr.mapLine g) (Grammar.chain level trail left tokens)
      (Grammar.chain level trail (left.mapLine g) shown)
  | .unary, tokens => ∀ trail shown, Grammar.Shown g tokens shown →
    Reply.Shown g (Expr.mapLine g) (Grammar.unary trail tokens) (Grammar.unary trail shown)
  | .primary, tokens => ∀ trail shown, Grammar.Shown g tokens shown →
    Reply.Shown g (Expr.mapLine g) (Grammar.primary trail tokens) (Grammar.primary trail shown)

theorem ExprCall.shown (hzero : g 0 = 0) :
    ∀ (call : ExprCall) (tokens : List Token), call.Shown g tokens := by
  apply ExprCall.induct
  intro call tokens shorter lower
  cases call with
  | expression =>
    intro trail shown h
    rw [expression_eq, expression_eq]
    exact lower .assignment (by decide) _ shown h
  | assignment =>
    intro trail shown h
    rw [assignment_eq, assignment_eq]
    refine (lower (.binary .equality) (by decide) _ shown h).bind ?_
    intro target rest rest' hrest hshown
    have hlength := (Reading.binary .equality _ tokens).length_rest_lt hrest
    cases rest with
    | nil =>
      cases hshown
      exact .pure target .nil
    | cons equals after =>
      obtain ⟨after', rfl, hafter⟩ := hshown.exists_cons
      by_cases hequals : equals.kind = .equal
      · simp only [Token.kind_mapLine, hequals, ↓reduceIte]
        refine (shorter .assignment after (Nat.lt_of_succ_lt hlength) _ after'
          (hafter (by simp [hequals]))).bind ?_
        intro value rest rest' _ hshown'
        exact .assign target equals value hshown'
      · simp only [Token.kind_mapLine, hequals, ↓reduceIte]
        exact .pure target hshown
  | binary level =>
    intro trail shown h
    rw [binary_eq, binary_eq]
    refine (lower (.operand level) (Nat.lt_succ_self _) _ shown h).bind ?_
    intro left rest rest' hrest hshown
    exact shorter (.chain level left) rest ((Reading.operand level _ tokens).length_rest_lt hrest)
      _ rest' hshown
  | operand level =>
    intro trail shown h
    rw [operand_eq, operand_eq]
    have hlower := lower (.ofOperand level) (rank_ofOperand_lt level)
    cases level <;> exact hlower trail shown h
  | chain level left =>
    intro trail shown h
    rw [chain_eq, chain_eq]
    cases tokens with
    | nil =>
      cases h
      exact .pure left .nil
    | cons token after =>
      obtain ⟨after', rfl, hafter⟩ := h.exists_cons
      cases hop : level.operator? token.kind with
      | none =>
        simp only [Token.kind_mapLine, hop]
        exact .pure left h
      | some op =>
        simp only [Token.kind_mapLine, hop]
        refine (shorter (.operand level) after (Nat.lt_succ_self _) _ after'
          (hafter ((level.infix_iff _ _).mpr hop).ne_eof)).bind ?_
        intro right rest rest' hrest hshown
        have hlength := (Reading.operand level _ after).length_rest_lt hrest
        exact shorter (.chain level (.binary left op token right)) rest (Nat.lt_succ_of_lt hlength)
          _ rest' hshown
  | unary =>
    intro trail shown h
    rw [unary_eq, unary_eq]
    have hprimary := lower .primary (by decide) (.unary :: trail) shown h
    cases tokens with
    | nil =>
      cases h
      exact hprimary
    | cons token after =>
      obtain ⟨after', rfl, hafter⟩ := h.exists_cons
      cases hop : unaryOperator? token.kind with
      | none =>
        simp only [Token.kind_mapLine, hop]
        exact hprimary
      | some op =>
        simp only [Token.kind_mapLine, hop]
        refine (shorter .unary after (Nat.lt_succ_self _) _ after'
          (hafter ((prefixed_iff _ _).mpr hop).ne_eof)).bind ?_
        intro right rest rest' _ hshown
        exact .pure (Expr.unary op token right) hshown
  | primary =>
    intro trail shown h
    rw [primary_eq, primary_eq]
    cases tokens with
    | nil =>
      cases h
      exact .raise hzero _ _ .nil
    | cons token after =>
      obtain ⟨after', rfl, hafter⟩ := h.exists_cons
      cases hatom : atom? token with
      | some atom =>
        simp only [atom?_mapLine, hatom, Option.map_some]
        exact .pure atom (hafter (by rintro heof; simp [atom?, heof] at hatom))
      | none =>
        by_cases hopening : token.kind = .leftParen
        · simp only [atom?_mapLine, hatom, Option.map_none, Token.kind_mapLine, hopening,
            ↓reduceIte]
          refine (shorter .expression after (Nat.lt_succ_self _) _ after'
            (hafter (by simp [hopening]))).bind ?_
          intro inner rest rest' _ hshown
          refine (Reply.Shown.expect hzero _ _ (by decide) hshown).bind ?_
          intro _ rest rest' _ hshown'
          exact .pure (Expr.grouping inner) hshown'
        · simp only [atom?_mapLine, hatom, Option.map_none, Token.kind_mapLine, hopening,
            ↓reduceIte]
          exact .raise hzero _ _ h

theorem expression_shown (hzero : g 0 = 0) (trail : Trail) {tokens shown : List Token}
    (h : Shown g tokens shown) :
    Reply.Shown g (Expr.mapLine g) (expression trail tokens) (expression trail shown) :=
  ExprCall.shown hzero .expression tokens trail shown h

/-! ### Rules for statements -/

theorem Stmt.mapLine_declare (g : Nat → Nat) (name : Token) (value : Option Expr) :
    (Stmt.declare name value).mapLine g = .declare (name.mapLine g) (value.map (Expr.mapLine g)) := by
  cases value <;> rfl

theorem initial_shown (hzero : g 0 = 0) (trail : Trail) {tokens shown : List Token}
    (h : Shown g tokens shown) :
    Reply.Shown g (Option.map (Expr.mapLine g)) (initial trail tokens) (initial trail shown) := by
  rw [initial_eq, initial_eq]
  cases tokens with
  | nil =>
    cases h
    exact .pure none .nil
  | cons equals after =>
    obtain ⟨after', rfl, hafter⟩ := h.exists_cons
    by_cases hequals : equals.kind = .equal
    · simp only [Token.kind_mapLine, hequals, ↓reduceIte]
      refine (expression_shown hzero trail (hafter (by simp [hequals]))).bind ?_
      intro value rest rest' _ hshown
      exact .pure (some value) hshown
    · simp only [Token.kind_mapLine, hequals, ↓reduceIte]
      exact .pure none h

theorem varDeclaration_shown (hzero : g 0 = 0) (trail : Trail) {tokens shown : List Token}
    (h : Shown g tokens shown) :
    Reply.Shown g (Stmt.mapLine g) (varDeclaration trail tokens) (varDeclaration trail shown) := by
  rw [varDeclaration_eq, varDeclaration_eq]
  refine (Reply.Shown.expect hzero _ _ (by decide) h).bind ?_
  intro name rest rest' _ hshown
  refine (initial_shown hzero _ hshown).bind ?_
  intro value rest rest' _ hshown'
  refine (Reply.Shown.expect hzero _ _ (by decide) hshown').bind ?_
  intro _ rest rest' _ hshown''
  rw [← Stmt.mapLine_declare]
  exact .pure (Stmt.declare name value) hshown''

theorem printStatement_shown (hzero : g 0 = 0) (trail : Trail) {tokens shown : List Token}
    (h : Shown g tokens shown) :
    Reply.Shown g (Stmt.mapLine g) (printStatement trail tokens) (printStatement trail shown) := by
  rw [printStatement_eq, printStatement_eq]
  refine (expression_shown hzero _ h).bind ?_
  intro value rest rest' _ hshown
  refine (Reply.Shown.expect hzero _ _ (by decide) hshown).bind ?_
  intro _ rest rest' _ hshown'
  exact .pure (Stmt.print value) hshown'

theorem expressionStatement_shown (hzero : g 0 = 0) (lenient : Bool) (trail : Trail)
    {tokens shown : List Token} (h : Shown g tokens shown) :
    Reply.Shown g (Stmt.mapLine g) (expressionStatement lenient trail tokens)
      (expressionStatement lenient trail shown) := by
  rw [expressionStatement_eq, expressionStatement_eq]
  refine (expression_shown hzero _ h).bind ?_
  intro value rest rest' _ hshown
  rw [hshown.atEnd_eq]
  cases lenient && atEnd rest with
  | true => exact .pure (Stmt.expression value) hshown
  | false =>
    refine (Reply.Shown.expect hzero _ _ (by decide) hshown).bind ?_
    intro _ rest rest' _ hshown'
    exact .pure (Stmt.expression value) hshown'

/-- The passage is shown: its statements with their tokens on other lines, and the rest. -/
structure Passage.Shown (g : Nat → Nat) (passage shown : Passage) : Prop where
  body : shown.body = passage.body.map (Stmt.mapLine g)
  rest : Grammar.Shown g passage.rest shown.rest
  reported : shown.reported = passage.reported.map (SyntaxError.mapLine g)
  traces : shown.traces = passage.traces.map (Trace.mapLine g)

theorem Passage.Shown.reply {passage shown : Passage} (h : passage.Shown g shown) :
    Reply.Shown g (List.map (Stmt.mapLine g)) passage.reply shown.reply := by
  rw [Passage.reply, Passage.reply, h.body, h.reported, h.traces]
  exact .done _ _ h.rest

/-- A statement and the passage after it: after a failure, reading recovers at the same place. -/
theorem Reply.Shown.andThen {first first' : Reply Stmt} {passage : List Token → Passage}
    (h : Reply.Shown g (Stmt.mapLine g) first first')
    (hok : ∀ stmt rest rest', first.outcome = .ok (stmt, rest) → Grammar.Shown g rest rest' →
      (passage rest).Shown g (passage rest'))
    (hfail : ∀ failure place', first.outcome = .error failure →
      Grammar.Shown g (recover failure.tokens) place' →
      (passage (recover failure.tokens)).Shown g (passage place')) :
    (first.andThen passage).Shown g (first'.andThen passage) := by
  cases h with
  | @done stmt rest rest' reported traces hrest =>
    have hmore := hok stmt rest rest' rfl hrest
    exact ⟨by simp [Reply.andThen, Passage.cons, hmore.body], hmore.rest,
      by simp [Reply.andThen, Passage.cons, hmore.reported],
      by simp [Reply.andThen, Passage.cons, hmore.traces]⟩
  | @fail error place place' reported traces hplace =>
    have hmore := hfail ⟨error, place⟩ _ rfl hplace.recover
    exact ⟨by simp [Reply.andThen, Passage.skip, hmore.body], hmore.rest,
      by simp [Reply.andThen, Passage.skip, hmore.reported],
      by simp [Reply.andThen, Passage.skip, hmore.traces]⟩

/-- What a call answers is shown where its tokens are. -/
def StmtCall.Shown (g : Nat → Nat) (lenient : Bool) : StmtCall → List Token → Prop
  | .declaration, tokens => ∀ trail shown, Grammar.Shown g tokens shown →
    Reply.Shown g (Stmt.mapLine g) (Grammar.declaration lenient trail tokens)
      (Grammar.declaration lenient trail shown)
  | .statement, tokens => ∀ trail shown, Grammar.Shown g tokens shown →
    Reply.Shown g (Stmt.mapLine g) (Grammar.statement lenient trail tokens)
      (Grammar.statement lenient trail shown)
  | .ifStatement, tokens => ∀ trail shown, Grammar.Shown g tokens shown →
    Reply.Shown g (Stmt.mapLine g) (Grammar.ifStatement lenient trail tokens)
      (Grammar.ifStatement lenient trail shown)
  | .block, tokens => ∀ trail shown, Grammar.Shown g tokens shown →
    Reply.Shown g (Stmt.mapLine g) (Grammar.block lenient trail tokens)
      (Grammar.block lenient trail shown)
  | .statements inBlock, tokens => ∀ trail shown, Grammar.Shown g tokens shown →
    (Grammar.statements lenient inBlock trail tokens).Shown g
      (Grammar.statements lenient inBlock trail shown)

theorem StmtCall.shown (hzero : g 0 = 0) (lenient : Bool) :
    ∀ (call : StmtCall) (tokens : List Token), call.Shown g lenient tokens := by
  apply StmtCall.induct
  intro call tokens shorter lower
  cases call with
  | declaration =>
    intro trail shown h
    have hstatement := lower .statement tokens rfl (by simp [rank]) (.declaration :: trail) shown h
    rw [declaration_eq, declaration_eq]
    cases tokens with
    | nil =>
      cases h
      exact hstatement
    | cons token after =>
      obtain ⟨after', rfl, hafter⟩ := h.exists_cons
      by_cases hvar : token.kind = .kwVar
      · simp only [Token.kind_mapLine, hvar, ↓reduceIte]
        exact varDeclaration_shown hzero _ (hafter (by simp [hvar]))
      · simp only [Token.kind_mapLine, hvar, ↓reduceIte]
        exact hstatement
  | statement =>
    intro trail shown h
    rw [statement_eq, statement_eq]
    have hexpression := expressionStatement_shown hzero lenient (.statement :: trail) h
    cases tokens with
    | nil =>
      cases h
      exact hexpression
    | cons token after =>
      obtain ⟨after', rfl, hafter⟩ := h.exists_cons
      simp only [Token.kind_mapLine]
      split
      · next hkind =>
        exact shorter .ifStatement after (Nat.lt_succ_self _) _ after' (hafter (by simp [hkind]))
      · next hkind => exact printStatement_shown hzero _ (hafter (by simp [hkind]))
      · next hkind =>
        exact shorter .block after (Nat.lt_succ_self _) _ after' (hafter (by simp [hkind]))
      · exact hexpression
  | ifStatement =>
    intro trail shown h
    rw [ifStatement_eq, ifStatement_eq]
    refine (Reply.Shown.expect hzero _ _ (by decide) h).bind ?_
    intro _ afterOpening _ hopening hshown
    have h₁ := (Reading.expect _ .leftParen .expectedConditionOpen tokens).length_rest_lt hopening
    refine (expression_shown hzero _ hshown).bind ?_
    intro condition afterCondition _ hcondition hshown
    have h₂ := (Reading.expression _ afterOpening).length_rest_lt hcondition
    refine (Reply.Shown.expect hzero _ _ (by decide) hshown).bind ?_
    intro _ afterClosing _ hclosing hshown
    have h₃ := (Reading.expect _ .rightParen .expectedConditionClose
      afterCondition).length_rest_lt hclosing
    refine (shorter .statement afterClosing (by omega) _ _ hshown).bind ?_
    intro yes others _ hyes hshown
    have h₄ := (Reading.statement lenient _ afterClosing).length_rest_lt hyes
    cases others with
    | nil =>
      cases hshown
      exact .pure (Stmt.conditional condition yes none) .nil
    | cons other after =>
      obtain ⟨after', rfl, hafter⟩ := hshown.exists_cons
      by_cases helse : other.kind = .kwElse
      · simp only [Token.kind_mapLine, helse, ↓reduceIte]
        refine (shorter .statement after (by simp at h₄; omega) _ after'
          (hafter (by simp [helse]))).bind ?_
        intro no rest rest' _ hshown'
        exact .pure (Stmt.conditional condition yes (some no)) hshown'
      · simp only [Token.kind_mapLine, helse, ↓reduceIte]
        exact .pure (Stmt.conditional condition yes none) hshown
  | block =>
    intro trail shown h
    rw [block_eq, block_eq]
    refine (lower (.statements true) tokens rfl (by simp only [rank]; split <;> omega) _ shown
      h).reply.bind ?_
    intro body rest rest' _ hshown
    refine (Reply.Shown.expect hzero _ _ (by decide) hshown).bind ?_
    intro _ rest rest' _ hshown'
    rw [← Stmt.mapLine_block]
    exact .pure (Stmt.block body) hshown'
  | statements inBlock =>
    intro trail shown h
    rw [statements_eq, statements_eq, h.endsPassage_eq]
    split
    · exact ⟨rfl, h, rfl, rfl⟩
    · next hend =>
      have hatEnd : atEnd tokens = false := (Bool.or_eq_false_iff.mp (eq_false_of_ne_true hend)).1
      refine (lower .declaration tokens rfl (by simp [rank, hatEnd]) trail shown h).andThen ?_ ?_
      · intro stmt rest rest' hrest hshown
        exact shorter (.statements inBlock) rest
          ((Reading.declaration lenient trail tokens).length_rest_lt hrest) trail rest' hshown
      · intro failure place' hfailure hshown
        have hlength := (Reading.declaration lenient trail tokens).length_tokens_le hfailure
        rcases recover_lower hlength with hlt | ⟨hsame, hrecover⟩
        · exact shorter (.statements inBlock) _ hlt trail place' hshown
        · exact lower (.statements inBlock) _ hsame (by simp [rank, hatEnd, hrecover]) trail place'
            hshown

/-- **A reading shows what is read**: of tokens on other lines, and with anything behind the end,
the same program is read with the same errors and traces, all on those lines. -/
theorem program_shown (hzero : g 0 = 0) (lenient : Bool) {tokens shown : List Token}
    (h : Shown g tokens shown) : (program lenient tokens).Shown g (program lenient shown) :=
  StmtCall.shown hzero lenient (.statements false) tokens [.program] shown h

end Grammar

end LoxLang
