import LoxLang.Proofs.Grammar.Acceptance

/-!
# What is derivable is accepted

A rule accepts every tree that the grammar derives, wherever the tokens of the tree stand,
as long as the tokens after them cannot continue it (`accepts_of_derivesExpr`,
`DerivesStmt.completes`, `accepts_of_derivesProgram`). What cannot continue an expression is
any token but an operator or `=`; what cannot continue a statement is any token but an `else`
that its last conditional lacks.
-/

namespace LoxLang.Grammar

/-! ### The first token -/

/-- The kinds of token with which an expression begins. -/
def startsExpr : TokenKind → Bool
  | .number | .string | .kwTrue | .kwFalse | .kwNil | .identifier | .leftParen | .minus | .bang =>
    true
  | _ => false

/-- The kinds of token with which a statement that may stand as a branch begins. -/
def startsBranch : TokenKind → Bool
  | .kwIf | .kwPrint | .leftBrace => true
  | kind => startsExpr kind

/-- The kinds of token with which what a rule derives begins. -/
def Rule.starts : Rule → TokenKind → Bool
  | .varDeclaration, kind => kind == .kwVar
  | .ifStatement, kind => kind == .kwIf
  | .printStatement, kind => kind == .kwPrint
  | .block, kind => kind == .leftBrace
  | .statement, kind => startsBranch kind
  | .declaration, kind => kind == .kwVar || startsBranch kind
  | _, kind => startsExpr kind

theorem Prefixed.starts {kind : TokenKind} {op : UnaryOp} (h : Prefixed kind op) :
    startsExpr kind = true := by
  cases h <;> rfl

theorem startsBranch_of_startsExpr {kind : TokenKind} (h : startsExpr kind = true) :
    startsBranch kind = true := by
  unfold startsBranch
  split
  · rfl
  · rfl
  · rfl
  · exact h

/-- What an expression begins with. -/
theorem DerivesExpr.first {rule : Rule} {ts : List Token} {e : Expr} (h : DerivesExpr rule ts e) :
    ∃ first more, ts = first :: more ∧ startsExpr first.kind = true := by
  induction h with
  | expression _ ih => exact ih
  | value _ ih => exact ih
  | operand _ ih => exact ih
  | primary _ ih => exact ih
  | assign _ _ _ ih _ | operation _ _ _ ih _ =>
    obtain ⟨first, more, rfl, hfirst⟩ := ih
    exact ⟨first, _, rfl, hfirst⟩
  | unary hprefixed _ _ => exact ⟨_, _, rfl, hprefixed.starts⟩
  | grouping hopening _ _ _ => exact ⟨_, _, rfl, by rw [hopening]; rfl⟩
  | number hkind _ | string hkind _ => exact ⟨_, _, rfl, by rw [hkind]; rfl⟩
  | truth hkind | falsity hkind | nil hkind | name hkind => exact ⟨_, _, rfl, by rw [hkind]; rfl⟩

/-- What is derived without an operator before it does not begin with one. -/
theorem DerivesExpr.not_prefixed {ts : List Token} {e : Expr} (h : DerivesExpr .primary ts e)
    (rest : List Token) : unaryOperator? (peek (ts ++ rest)) = none := by
  generalize hrule : Rule.primary = rule at h
  cases h with
  | operand => cases ‹Level› <;> simp [Level.rule] at hrule
  | operation => cases ‹Level› <;> simp [Level.rule] at hrule
  | grouping hopening _ _ => simp [peek, hopening, unaryOperator?]
  | number hkind _ | string hkind _ => simp [peek, hkind, unaryOperator?]
  | truth hkind | falsity hkind | nil hkind | name hkind => simp [peek, hkind, unaryOperator?]
  | _ => simp at hrule

theorem Rule.Choice.starts {rule chosen : Rule} (h : rule.Choice chosen) {kind : TokenKind}
    (hkind : chosen.starts kind = true) : rule.starts kind = true := by
  cases h with
  | varDeclaration | statement => simp_all [Rule.starts]
  | ifStatement | printStatement | block => simp_all [Rule.starts, startsBranch]
  | expressionStatement => exact startsBranch_of_startsExpr hkind

/-- What a statement begins with. -/
theorem DerivesStmt.first {rule : Rule} {ts : List Token} {s : Stmt} (h : DerivesStmt rule ts s) :
    ∃ first more, ts = first :: more ∧ rule.starts first.kind = true := by
  induction h with
  | choice hchoice _ ih =>
    obtain ⟨first, more, rfl, hfirst⟩ := ih
    exact ⟨first, more, rfl, hchoice.starts hfirst⟩
  | declare hkeyword _ _ => exact ⟨_, _, rfl, by rw [hkeyword]; rfl⟩
  | define hkeyword _ _ _ _ => exact ⟨_, _, rfl, by rw [hkeyword]; rfl⟩
  | conditional hkeyword _ _ _ _ _ => exact ⟨_, _, rfl, by rw [hkeyword]; rfl⟩
  | alternative hkeyword _ _ _ _ _ _ _ _ => exact ⟨_, _, rfl, by rw [hkeyword]; rfl⟩
  | print hkeyword _ _ => exact ⟨_, _, rfl, by rw [hkeyword]; rfl⟩
  | body hopening _ _ _ => exact ⟨_, _, rfl, by rw [hopening]; rfl⟩
  | expression hvalue _ =>
    obtain ⟨first, more, rfl, hfirst⟩ := hvalue.first
    exact ⟨first, _, rfl, hfirst⟩

/-! ### Tokens that cannot continue an expression -/

/-- No operator of a tighter level is in front. -/
def Level.TighterEnd (level : Level) (rest : List Token) : Prop :=
  ∀ inner : Level, inner.rank < level.rank → inner.operator? (peek rest) = none

/-- Neither an operator nor `=` is in front. -/
def ExprEnd (rest : List Token) : Prop :=
  (∀ level : Level, level.operator? (peek rest) = none) ∧ peek rest ≠ .equal

/-- An operator of one level is none of a tighter level. -/
theorem Level.Infix.tighterEnd {level : Level} {operator : Token} {op : BinaryOp}
    (h : level.Infix operator.kind op) (rest : List Token) :
    level.TighterEnd (operator :: rest) := by
  intro inner hrank
  rw [peek]
  generalize operator.kind = kind at h
  cases h <;> cases inner <;> simp [Level.rank] at hrank <;> rfl

theorem exprEnd_of_kind {token : Token} {rest : List Token}
    (h : token.kind ∈ [.semicolon, .rightParen]) : ExprEnd (token :: rest) := by
  rw [ExprEnd, peek]
  generalize token.kind = kind at h
  simp only [List.mem_cons, List.not_mem_nil, or_false] at h
  obtain rfl | rfl := h <;> exact ⟨fun level => by cases level <;> rfl, by simp⟩

/-! ### Expressions -/

/-- A level goes on with the tree, once it is read, as if it had been the first operand. -/
def Level.Completes (level : Level) (ts : List Token) (e : Expr) : Prop :=
  ∀ trail rest tree after, level.TighterEnd rest →
    (chain level (level.rule :: trail) e rest).Accepts tree after →
      (binary level trail (ts ++ rest)).Accepts tree after

/-- What acceptance of a derived tree means, rule by rule. -/
def Rule.Completes : Rule → List Token → Expr → Prop
  | .expression, ts, e => ∀ trail rest, ExprEnd rest →
    (Grammar.expression trail (ts ++ rest)).Accepts e rest
  | .assignment, ts, e => ∀ trail rest, ExprEnd rest →
    (Grammar.assignment trail (ts ++ rest)).Accepts e rest
  | .equality, ts, e => Level.equality.Completes ts e
  | .comparison, ts, e => Level.comparison.Completes ts e
  | .term, ts, e => Level.term.Completes ts e
  | .factor, ts, e => Level.factor.Completes ts e
  | .unary, ts, e => ∀ trail rest, (Grammar.unary trail (ts ++ rest)).Accepts e rest
  | .primary, ts, e => ∀ trail rest, (Grammar.primary trail (ts ++ rest)).Accepts e rest
  | _, _, _ => True

theorem Rule.completes_level {level : Level} {ts : List Token} {e : Expr} :
    level.rule.Completes ts e ↔ level.Completes ts e := by
  cases level <;> rfl

/-- A level without more operators of its own is a whole tree. -/
theorem Level.Completes.accepts {level : Level} {ts rest : List Token} {e : Expr}
    (h : level.Completes ts e) (trail : Trail) (hend : level.TighterEnd rest)
    (hlevel : level.operator? (peek rest) = none) :
    (binary level trail (ts ++ rest)).Accepts e rest :=
  h trail rest e rest hend (accepts_chain_iff.mpr (.inl ⟨hlevel, rfl, rfl⟩))

/-- An operand of a level is complete when no tighter operator follows. -/
theorem accepts_operand_of_completes {level : Level} {ts rest : List Token} {e : Expr}
    (h : level.operandRule.Completes ts e) (trail : Trail) (hend : level.TighterEnd rest) :
    (operand level trail (ts ++ rest)).Accepts e rest := by
  rw [operand_eq]
  cases level with
  | factor => exact h trail rest
  | equality =>
    have h : Level.comparison.Completes ts e := h
    exact h.accepts trail (fun inner hrank => hend inner (Nat.lt_trans hrank (by decide)))
      (hend .comparison (by decide))
  | comparison =>
    have h : Level.term.Completes ts e := h
    exact h.accepts trail (fun inner hrank => hend inner (Nat.lt_trans hrank (by decide)))
      (hend .term (by decide))
  | term =>
    have h : Level.factor.Completes ts e := h
    exact h.accepts trail (fun inner hrank => hend inner (Nat.lt_trans hrank (by decide)))
      (hend .factor (by decide))

/-- A token that is an expression by itself is accepted as one. -/
theorem accepts_primary_of_atom {token : Token} {e : Expr} (h : atom? token = some e)
    (trail : Trail) (rest : List Token) : (primary trail ([token] ++ rest)).Accepts e rest :=
  accepts_primary_iff.mpr (.inl ⟨token, rfl, h⟩)

theorem DerivesExpr.completes {rule : Rule} {ts : List Token} {e : Expr}
    (h : DerivesExpr rule ts e) : rule.Completes ts e := by
  induction h with
  | expression _ ih =>
    intro trail rest hend
    exact accepts_expression_iff.mpr (ih _ rest hend)
  | value _ ih =>
    intro trail rest hend
    have hvalue := ih.accepts (.assignment :: trail) (fun inner _ => hend.1 inner) (hend.1 _)
    exact accepts_assignment_iff.mpr ⟨_, rest, hvalue, .inl ⟨hend.2, rfl, rfl⟩⟩
  | @assign ts us name equals value _ hequals _ ihtarget ihvalue =>
    intro trail rest hend
    have hnone : ∀ level : Level, level.operator? (peek (equals :: (us ++ rest))) = none := by
      intro level
      rw [peek, hequals]
      cases level <;> rfl
    have htarget := ihtarget.accepts (.assignment :: trail) (fun inner _ => hnone inner) (hnone _)
    rw [List.append_assoc, List.cons_append]
    exact accepts_assignment_iff.mpr ⟨_, _, htarget,
      .inr ⟨name, equals, us ++ rest, value, rfl, rfl, hequals, ihvalue _ rest hend, rfl⟩⟩
  | operand _ ih =>
    rw [Rule.completes_level]
    intro trail rest tree after hend hchain
    exact accepts_binary_iff.mpr ⟨_, rest, accepts_operand_of_completes ih _ hend, hchain⟩
  | @operation level ts us operator op left right _ hop _ ihleft ihright =>
    rw [Rule.completes_level] at ihleft ⊢
    intro trail rest tree after hend hchain
    rw [List.append_assoc, List.cons_append]
    refine ihleft trail _ tree after (hop.tighterEnd _) ?_
    exact accepts_chain_iff.mpr (.inr ⟨operator, _, op, right, rest, rfl, hop,
      accepts_operand_of_completes ihright _ hend, hchain⟩)
  | unary hprefixed _ ih =>
    intro trail rest
    exact accepts_unary_iff.mpr (.inr ⟨_, _, _, _, rfl, hprefixed, ih _ rest, rfl⟩)
  | primary hprimary ih =>
    intro trail rest
    refine accepts_unary_iff.mpr (.inl ⟨?_, ih _ rest⟩)
    exact hprimary.not_prefixed rest
  | number hkind hliteral =>
    exact accepts_primary_of_atom (by simp only [atom?, hkind, hliteral])
  | string hkind hliteral =>
    exact accepts_primary_of_atom (by simp only [atom?, hkind, hliteral])
  | truth hkind | falsity hkind | nil hkind | name hkind =>
    exact accepts_primary_of_atom (by simp only [atom?, hkind])
  | @grouping ts opening closing inner hopening _ hclosing ih =>
    intro trail rest
    rw [List.cons_append, List.append_assoc]
    exact accepts_primary_iff.mpr (.inr ⟨opening, closing, _, inner, rfl, hopening,
      ih _ _ (exprEnd_of_kind (by simp [hclosing])), hclosing, rfl⟩)

/-- **Expressions**: a derived tree is accepted when nothing after it continues it. -/
theorem accepts_of_derivesExpr {trail : Trail} {ts rest : List Token} {e : Expr}
    (h : DerivesExpr .expression ts e) (hend : ExprEnd rest) :
    (expression trail (ts ++ rest)).Accepts e rest :=
  h.completes trail rest hend

/-! ### Statements -/

/-- No `else` is in front that the statement could take as its own. -/
def StmtEnd (s : Stmt) (rest : List Token) : Prop := s.endsOpen = true → peek rest ≠ .kwElse

/-- What acceptance of a derived statement means, rule by rule. The rules that are told from one
another by their first token are called behind it. -/
def Rule.CompletesStmt : Rule → List Token → Stmt → Prop
  | .declaration, ts, s => ∀ trail rest, StmtEnd s rest →
    (Grammar.declaration false trail (ts ++ rest)).Accepts s rest
  | .statement, ts, s => ∀ trail rest, StmtEnd s rest →
    (Grammar.statement false trail (ts ++ rest)).Accepts s rest
  | .expressionStatement, ts, s => ∀ trail rest,
    (Grammar.expressionStatement false trail (ts ++ rest)).Accepts s rest
  | .varDeclaration, ts, s => ∃ keyword more, ts = keyword :: more ∧ keyword.kind = .kwVar ∧
    ∀ trail rest, (Grammar.varDeclaration trail (more ++ rest)).Accepts s rest
  | .printStatement, ts, s => ∃ keyword more, ts = keyword :: more ∧ keyword.kind = .kwPrint ∧
    ∀ trail rest, (Grammar.printStatement trail (more ++ rest)).Accepts s rest
  | .ifStatement, ts, s => ∃ keyword more, ts = keyword :: more ∧ keyword.kind = .kwIf ∧
    ∀ trail rest, StmtEnd s rest → (Grammar.ifStatement false trail (more ++ rest)).Accepts s rest
  | .block, ts, s => ∃ opening more, ts = opening :: more ∧ opening.kind = .leftBrace ∧
    ∀ trail rest, (Grammar.block false trail (more ++ rest)).Accepts s rest
  | _, _, _ => True

/-- What a declaration begins with neither ends a passage nor is an `else`. -/
theorem not_ends_of_starts {kind : TokenKind} (h : Rule.declaration.starts kind = true) :
    kind ≠ .eof ∧ kind ≠ .rightBrace ∧ kind ≠ .kwElse := by
  refine ⟨?_, ?_, ?_⟩ <;> rintro rfl <;> exact absurd h (by decide)

/-- A passage does not end where a declaration begins. -/
theorem endsPassage_of_starts {first : Token} {more : List Token}
    (h : Rule.declaration.starts first.kind = true) (inBlock : Bool) :
    endsPassage inBlock (first :: more) = false := by
  obtain ⟨hne, hbrace, -⟩ := not_ends_of_starts h
  simp [endsPassage, atEnd, peek, hne, hbrace]

theorem peek_ne_else_of_endsPassage {inBlock : Bool} {rest : List Token}
    (h : endsPassage inBlock rest = true) : peek rest ≠ .kwElse := by
  intro helse
  simp [endsPassage, atEnd, helse] at h

/-- Declarations one after the other are accepted up to the end of the passage. -/
theorem accepts_statements_of_parts {inBlock : Bool} {rest : List Token}
    (hend : endsPassage inBlock rest = true) (trail : Trail) (parts : List (List Token × Stmt))
    (hparts : ∀ part ∈ parts, DerivesStmt .declaration part.1 part.2 ∧
      Rule.declaration.CompletesStmt part.1 part.2) :
    (statements false inBlock trail (parts.flatMap Prod.fst ++ rest)).reply.Accepts
        (parts.map Prod.snd) rest ∧
      peek (parts.flatMap Prod.fst ++ rest) ≠ .kwElse := by
  induction parts with
  | nil =>
    exact ⟨accepts_statements_iff.mpr (.inl ⟨hend, rfl, rfl⟩), peek_ne_else_of_endsPassage hend⟩
  | cons part parts ih =>
    obtain ⟨⟨hderives, hcompletes⟩, hparts⟩ := List.forall_mem_cons.mp hparts
    obtain ⟨hmore, helse⟩ := ih hparts
    obtain ⟨ts, s⟩ := part
    obtain ⟨first, more, rfl, hfirst⟩ := hderives.first
    rw [List.flatMap_cons, List.append_assoc]
    refine ⟨?_, (not_ends_of_starts hfirst).2.2⟩
    exact accepts_statements_iff.mpr (.inr ⟨s, _, _, endsPassage_of_starts hfirst inBlock,
      hcompletes trail _ fun _ => helse, hmore, rfl⟩)

/-- Which alternative of a choice is read is decided by the first token. -/
theorem Rule.Choice.completes {rule chosen : Rule} (h : rule.Choice chosen) {ts : List Token}
    {s : Stmt} (hderives : DerivesStmt chosen ts s) (hcompletes : chosen.CompletesStmt ts s) :
    rule.CompletesStmt ts s := by
  obtain ⟨first, after, hts, hfirst⟩ := hderives.first
  cases h with
  | varDeclaration =>
    obtain ⟨keyword, more, rfl, hkeyword, haccepts⟩ := hcompletes
    intro trail rest _
    exact accepts_declaration_iff.mpr (.inr ⟨keyword, _, rfl, hkeyword, haccepts _ rest⟩)
  | statement =>
    intro trail rest hend
    refine accepts_declaration_iff.mpr (.inl ⟨?_, hcompletes _ rest hend⟩)
    intro hvar
    rw [hts, show peek (first :: after ++ rest) = first.kind from rfl] at hvar
    rw [hvar] at hfirst
    exact absurd hfirst (by decide)
  | ifStatement =>
    obtain ⟨keyword, more, rfl, hkeyword, haccepts⟩ := hcompletes
    intro trail rest hend
    exact accepts_statement_iff.mpr (.inr ⟨keyword, _, rfl, .inl ⟨hkeyword, haccepts _ rest hend⟩⟩)
  | printStatement =>
    obtain ⟨keyword, more, rfl, hkeyword, haccepts⟩ := hcompletes
    intro trail rest _
    exact accepts_statement_iff.mpr
      (.inr ⟨keyword, _, rfl, .inr (.inl ⟨hkeyword, haccepts _ rest⟩)⟩)
  | block =>
    obtain ⟨opening, more, rfl, hopening, haccepts⟩ := hcompletes
    intro trail rest _
    exact accepts_statement_iff.mpr
      (.inr ⟨opening, _, rfl, .inr (.inr ⟨hopening, haccepts _ rest⟩)⟩)
  | expressionStatement =>
    intro trail rest _
    refine accepts_statement_iff.mpr (.inl ⟨?_, hcompletes _ rest⟩)
    intro hmem
    rw [hts, show peek (first :: after ++ rest) = first.kind from rfl] at hmem
    generalize first.kind = kind at hmem hfirst
    simp only [List.mem_cons, List.not_mem_nil, or_false] at hmem
    obtain rfl | rfl | rfl := hmem <;> exact absurd hfirst (by decide)

theorem DerivesStmt.completes {rule : Rule} {ts : List Token} {s : Stmt} (h : DerivesStmt rule ts s)
    (hnearest : s.ElseNearest) : rule.CompletesStmt ts s := by
  induction h with
  | choice hchoice hchosen ih => exact hchoice.completes hchosen (ih hnearest)
  | @declare keyword name semicolon hkeyword hname hsemicolon =>
    refine ⟨keyword, _, rfl, hkeyword, fun trail rest => ?_⟩
    refine accepts_varDeclaration_iff.mpr
      ⟨name, _, none, semicolon, rfl, hname, ?_, hsemicolon, rfl⟩
    exact accepts_initial_iff.mpr (.inl ⟨by simp [peek, hsemicolon], rfl, rfl⟩)
  | @define keyword name equals semicolon ts initial hkeyword hname hequals hinitial hsemicolon =>
    refine ⟨keyword, _, rfl, hkeyword, fun trail rest => ?_⟩
    simp only [List.cons_append, List.append_assoc]
    refine accepts_varDeclaration_iff.mpr
      ⟨name, _, some initial, semicolon, rfl, hname, ?_, hsemicolon, rfl⟩
    refine accepts_initial_iff.mpr (.inr ⟨equals, _, initial, rfl, hequals, ?_, rfl⟩)
    exact accepts_of_derivesExpr hinitial (exprEnd_of_kind (by simp [hsemicolon]))
  | @conditional keyword opening closing ts us condition yes hkeyword hopening hcondition
      hclosing _ ih =>
    cases hnearest with
    | conditional hnearest =>
      refine ⟨keyword, _, rfl, hkeyword, fun trail rest hend => ?_⟩
      have helse : peek rest ≠ .kwElse := hend rfl
      simp only [List.cons_append, List.append_assoc]
      refine accepts_ifStatement_iff.mpr ⟨opening, _, condition, closing, us ++ rest, yes, rest,
        rfl, hopening, ?_, hclosing, ih hnearest _ rest fun _ => helse, .inl ⟨helse, rfl, rfl⟩⟩
      exact accepts_of_derivesExpr hcondition (exprEnd_of_kind (by simp [hclosing]))
  | @alternative keyword opening closing other ts us vs condition yes no hkeyword hopening
      hcondition hclosing
      _ hother _ ihyes ihno =>
    cases hnearest with
    | alternative hclosed hyes hno =>
      refine ⟨keyword, _, rfl, hkeyword, fun trail rest hend => ?_⟩
      have hopen : StmtEnd yes (other :: (vs ++ rest)) := by
        intro h
        rw [hclosed] at h
        exact absurd h Bool.false_ne_true
      simp only [List.cons_append, List.append_assoc]
      refine accepts_ifStatement_iff.mpr ⟨opening, _, condition, closing,
        us ++ other :: (vs ++ rest), yes, _, rfl, hopening, ?_, hclosing, ihyes hyes _ _ hopen,
        .inr ⟨other, vs ++ rest, no, rfl, hother, ihno hno _ rest hend, rfl⟩⟩
      exact accepts_of_derivesExpr hcondition (exprEnd_of_kind (by simp [hclosing]))
  | @print keyword semicolon ts value hkeyword hvalue hsemicolon =>
    refine ⟨keyword, _, rfl, hkeyword, fun trail rest => ?_⟩
    refine accepts_printStatement_iff.mpr ⟨value, semicolon, ?_, hsemicolon, rfl⟩
    rw [List.append_assoc]
    exact accepts_of_derivesExpr hvalue (exprEnd_of_kind (by simp [hsemicolon]))
  | @body opening closing parts hopening hparts hclosing ih =>
    cases hnearest with
    | block hnearest =>
      refine ⟨opening, _, rfl, hopening, fun trail rest => ?_⟩
      refine accepts_block_iff.mpr ⟨_, closing, ?_, hclosing, rfl⟩
      rw [List.append_assoc]
      refine (accepts_statements_of_parts (by simp [endsPassage, peek, hclosing]) _ parts ?_).1
      intro part hpart
      exact ⟨hparts part hpart, ih part hpart (hnearest _ (List.mem_map_of_mem hpart))⟩
  | @expression semicolon ts value hvalue hsemicolon =>
    intro trail rest
    refine accepts_expressionStatement_iff.mpr
      ⟨value, _, ?_, rfl, .inr ⟨semicolon, rfl, hsemicolon⟩⟩
    rw [List.append_assoc]
    exact accepts_of_derivesExpr hvalue (exprEnd_of_kind (by simp [hsemicolon]))

/-- **Programs**: a derived program is accepted up to the end of all tokens. -/
theorem accepts_of_derivesProgram {ts rest : List Token} {body : Program}
    (h : DerivesProgram ts body) (hnearest : Program.ElseNearest body) (hend : atEnd rest = true) :
    (program false (ts ++ rest)).reply.Accepts body rest := by
  obtain ⟨parts, hparts, rfl, rfl⟩ := h
  refine (accepts_statements_of_parts (by simp [endsPassage, hend]) _ parts ?_).1
  intro part hpart
  exact ⟨hparts part hpart, (hparts part hpart).completes (hnearest _ (List.mem_map_of_mem hpart))⟩

end LoxLang.Grammar
