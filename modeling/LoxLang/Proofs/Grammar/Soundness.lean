import LoxLang.Proofs.Grammar.Acceptance
import LoxLang.Proofs.Grammar.Calls

/-!
# What is accepted is derivable

Whatever a rule accepts, it accepts for a stretch of tokens at the front, and the grammar
derives the tree from that stretch (`derivesExpr_of_accepts`, `StmtCall.sound`,
`derivesProgram_of_accepts`). In the trees of statements every `else` belongs to the nearest
`if`: a conditional is left without `else` only where none follows.
-/

namespace LoxLang.Grammar

/-! ### Expressions -/

/-- The grammar's part in a call: a chain of operators goes on with a tree of its level, any
other call begins one. -/
def ExprCall.Derives : ExprCall → List Token → Expr → Prop
  | .expression, ts, e => DerivesExpr .expression ts e
  | .assignment, ts, e => DerivesExpr .assignment ts e
  | .binary level, ts, e => DerivesExpr level.rule ts e
  | .operand level, ts, e => DerivesExpr level.operandRule ts e
  | .chain level left, ts, e =>
    ∀ before, DerivesExpr level.rule before left → DerivesExpr level.rule (before ++ ts) e
  | .unary, ts, e => DerivesExpr .unary ts e
  | .primary, ts, e => DerivesExpr .primary ts e

/-- What a call accepts, it derives from the tokens that it takes. -/
def ExprCall.Sound (call : ExprCall) (tokens : List Token) : Prop :=
  ∀ trail e rest, (call.reply trail tokens).Accepts e rest → ∃ taken, tokens = taken ++ rest ∧
    call.Derives taken e

/-- A token that is an expression by itself. -/
theorem derivesExpr_of_atom {token : Token} {e : Expr} (h : atom? token = some e) :
    DerivesExpr .primary [token] e := by
  unfold atom? at h
  split at h <;> simp only [Option.some.injEq, reduceCtorEq] at h <;> subst h
  · next hkind hliteral => exact .number hkind hliteral
  · next hkind hliteral => exact .string hkind hliteral
  · next hkind => exact .truth hkind
  · next hkind => exact .falsity hkind
  · next hkind => exact .nil hkind
  · next hkind => exact .name hkind

theorem ExprCall.sound : ∀ (call : ExprCall) (tokens : List Token), call.Sound tokens := by
  apply ExprCall.induct
  intro call tokens shorter lower trail e rest h
  cases call with
  | expression =>
    obtain ⟨taken, htaken, hderives⟩ :=
      lower .assignment (by decide) _ e rest (accepts_expression_iff.mp h)
    exact ⟨taken, htaken, .expression hderives⟩
  | assignment =>
    obtain ⟨target, mid, htarget, hrest⟩ := accepts_assignment_iff.mp h
    obtain ⟨taken, rfl, hderives⟩ := lower (.binary .equality) (by decide) _ target mid htarget
    obtain ⟨-, rfl, rfl⟩ | ⟨name, equals, after, value, rfl, rfl, hequals, hvalue, rfl⟩ := hrest
    · exact ⟨taken, rfl, .value hderives⟩
    · obtain ⟨more, rfl, hmore⟩ := shorter .assignment after (by simp; omega) _ value rest hvalue
      exact ⟨taken ++ equals :: more, by simp, .assign hderives hequals hmore⟩
  | binary level =>
    obtain ⟨left, mid, hleft, hchain⟩ := accepts_binary_iff.mp h
    have hlength := (Reading.operand level _ tokens).length_rest_lt hleft.1
    obtain ⟨taken, rfl, hderives⟩ := lower (.operand level) (Nat.lt_succ_self _) _ left mid hleft
    obtain ⟨more, rfl, hmore⟩ := shorter (.chain level left) mid hlength _ e rest hchain
    exact ⟨taken ++ more, (List.append_assoc ..).symm, hmore taken (.operand hderives)⟩
  | operand level =>
    rw [ExprCall.reply_operand] at h
    obtain ⟨taken, htaken, hderives⟩ :=
      lower (.ofOperand level) (rank_ofOperand_lt level) trail e rest h
    exact ⟨taken, htaken, by cases level <;> exact hderives⟩
  | chain level left =>
    obtain ⟨-, rfl, rfl⟩ | ⟨token, after, op, right, mid, rfl, hop, hright, hmore⟩ :=
      accepts_chain_iff.mp h
    · exact ⟨[], rfl, fun before hbefore => by rwa [List.append_nil]⟩
    · have hlength := (Reading.operand level _ after).length_rest_lt hright.1
      obtain ⟨taken, rfl, hderives⟩ := shorter (.operand level) after (by simp) _ right mid hright
      obtain ⟨more, rfl, hchain⟩ := shorter (.chain level (.binary left op token right)) mid
        (Nat.lt_succ_of_lt hlength) _ e rest hmore
      refine ⟨token :: (taken ++ more), by simp, fun before hbefore => ?_⟩
      have := hchain _ (.operation hbefore hop hderives)
      simpa using this
  | unary =>
    obtain ⟨-, hprimary⟩ | ⟨token, after, op, right, rfl, hprefixed, hright, rfl⟩ :=
      accepts_unary_iff.mp h
    · obtain ⟨taken, htaken, hderives⟩ := lower .primary (by decide) _ e rest hprimary
      exact ⟨taken, htaken, .primary hderives⟩
    · obtain ⟨taken, rfl, hderives⟩ := shorter .unary after (by simp) _ right rest hright
      exact ⟨token :: taken, rfl, .unary hprefixed hderives⟩
  | primary =>
    obtain ⟨token, rfl, hatom⟩ |
      ⟨opening, closing, after, inner, rfl, hopening, hinner, hclosing, rfl⟩ :=
      accepts_primary_iff.mp h
    · exact ⟨[token], rfl, derivesExpr_of_atom hatom⟩
    · obtain ⟨taken, rfl, hderives⟩ := shorter .expression after (by simp) _ inner _ hinner
      exact ⟨opening :: (taken ++ [closing]), by simp, .grouping hopening hderives hclosing⟩

/-- **Expressions**: what is accepted as one is derived from the tokens taken. -/
theorem derivesExpr_of_accepts {trail : Trail} {tokens rest : List Token} {e : Expr}
    (h : (expression trail tokens).Accepts e rest) :
    ∃ taken, tokens = taken ++ rest ∧ DerivesExpr .expression taken e :=
  ExprCall.sound .expression tokens trail e rest h

/-! ### Statements -/

/-- The statement is derived from the tokens in front of `rest`, every `else` in it belongs to
the nearest `if`, and an `else` in `rest` is none of its own. -/
def Taken (derives : List Token → Stmt → Prop) (tokens : List Token) (s : Stmt)
    (rest : List Token) : Prop :=
  ∃ taken, tokens = taken ++ rest ∧ derives taken s ∧ s.ElseNearest ∧
    (s.endsOpen = true → peek rest ≠ .kwElse)

theorem Taken.imp {derives derives' : List Token → Stmt → Prop} {tokens rest : List Token}
    {s : Stmt} (h : Taken derives tokens s rest)
    (himp : ∀ taken, derives taken s → derives' taken s) : Taken derives' tokens s rest := by
  obtain ⟨taken, htaken, hderives, hnearest, helse⟩ := h
  exact ⟨taken, htaken, himp taken hderives, hnearest, helse⟩

/-- A token in front that has been taken already. -/
theorem Taken.cons {derives derives' : List Token → Stmt → Prop} {tokens rest : List Token}
    {s : Stmt} {token : Token} (h : Taken derives tokens s rest)
    (himp : ∀ taken, derives taken s → derives' (token :: taken) s) :
    Taken derives' (token :: tokens) s rest := by
  obtain ⟨taken, rfl, hderives, hnearest, helse⟩ := h
  exact ⟨token :: taken, rfl, himp taken hderives, hnearest, helse⟩

theorem taken_varDeclaration {trail : Trail} {tokens rest : List Token} {s : Stmt} {keyword : Token}
    (hkeyword : keyword.kind = .kwVar) (h : (varDeclaration trail tokens).Accepts s rest) :
    Taken (fun taken => DerivesStmt .varDeclaration (keyword :: taken)) tokens s rest := by
  obtain ⟨name, after, initial?, semicolon, rfl, hname, hinitial, hsemicolon, rfl⟩ :=
    accepts_varDeclaration_iff.mp h
  obtain ⟨-, rfl, rfl⟩ | ⟨equals, more, value, rfl, hequals, hvalue, rfl⟩ :=
    accepts_initial_iff.mp hinitial
  · exact ⟨[name, semicolon], rfl, .declare hkeyword hname hsemicolon, .declare,
      by simp [Stmt.endsOpen]⟩
  · obtain ⟨taken, rfl, hderives⟩ := derivesExpr_of_accepts hvalue
    exact ⟨name :: equals :: (taken ++ [semicolon]), by simp,
      .define hkeyword hname hequals hderives hsemicolon, .declare, by simp [Stmt.endsOpen]⟩

theorem taken_printStatement {trail : Trail} {tokens rest : List Token} {s : Stmt} {keyword : Token}
    (hkeyword : keyword.kind = .kwPrint) (h : (printStatement trail tokens).Accepts s rest) :
    Taken (fun taken => DerivesStmt .printStatement (keyword :: taken)) tokens s rest := by
  obtain ⟨value, semicolon, hvalue, hsemicolon, rfl⟩ := accepts_printStatement_iff.mp h
  obtain ⟨taken, rfl, hderives⟩ := derivesExpr_of_accepts hvalue
  exact ⟨taken ++ [semicolon], by simp, .print hkeyword hderives hsemicolon, .print,
    by simp [Stmt.endsOpen]⟩

theorem taken_expressionStatement {trail : Trail} {tokens rest : List Token} {s : Stmt}
    (h : (expressionStatement false trail tokens).Accepts s rest) :
    Taken (DerivesStmt .expressionStatement) tokens s rest := by
  obtain ⟨value, mid, hvalue, rfl, ⟨hlenient, -⟩ | ⟨semicolon, rfl, hsemicolon⟩⟩ :=
    accepts_expressionStatement_iff.mp h
  · exact absurd hlenient Bool.false_ne_true
  · obtain ⟨taken, rfl, hderives⟩ := derivesExpr_of_accepts hvalue
    exact ⟨taken ++ [semicolon], by simp, .expression hderives hsemicolon, .expression,
      by simp [Stmt.endsOpen]⟩

/-- What a call accepts, it derives from the tokens that it takes. Conditionals and blocks are
called behind their first token. -/
def StmtCall.Sound : StmtCall → List Token → Prop
  | .declaration, tokens => ∀ trail s rest,
    (Grammar.declaration false trail tokens).Accepts s rest →
    Taken (DerivesStmt .declaration) tokens s rest
  | .statement, tokens => ∀ trail s rest, (Grammar.statement false trail tokens).Accepts s rest →
    Taken (DerivesStmt .statement) tokens s rest
  | .ifStatement, tokens => ∀ trail s rest,
    (Grammar.ifStatement false trail tokens).Accepts s rest →
    ∀ keyword : Token, keyword.kind = .kwIf →
      Taken (fun taken => DerivesStmt .ifStatement (keyword :: taken)) tokens s rest
  | .block, tokens => ∀ trail s rest, (Grammar.block false trail tokens).Accepts s rest →
    ∀ opening : Token, opening.kind = .leftBrace →
      Taken (fun taken => DerivesStmt .block (opening :: taken)) tokens s rest
  | .statements inBlock, tokens => ∀ trail body rest,
    (Grammar.statements false inBlock trail tokens).reply.Accepts body rest →
      endsPassage inBlock rest = true ∧ ∃ taken, tokens = taken ++ rest ∧
        DerivesProgram taken body ∧
        Program.ElseNearest body

theorem StmtCall.sound : ∀ (call : StmtCall) (tokens : List Token), call.Sound tokens := by
  apply StmtCall.induct
  intro call tokens shorter lower
  cases call with
  | declaration =>
    intro trail s rest h
    obtain ⟨-, hstatement⟩ | ⟨keyword, after, rfl, hkeyword, hvar⟩ := accepts_declaration_iff.mp h
    · exact (lower .statement tokens rfl (by simp [rank]) _ s rest hstatement).imp fun _ =>
        .choice .statement
    · exact (taken_varDeclaration hkeyword hvar).cons fun _ => .choice .varDeclaration
  | statement =>
    intro trail s rest h
    obtain ⟨-, hexpression⟩ |
      ⟨keyword, after, rfl, ⟨hkeyword, hstmt⟩ | ⟨hkeyword, hstmt⟩ | ⟨hkeyword, hstmt⟩⟩ :=
      accepts_statement_iff.mp h
    · exact (taken_expressionStatement hexpression).imp fun _ => .choice .expressionStatement
    · exact (shorter .ifStatement after (by simp) _ s rest hstmt keyword hkeyword).cons fun _ =>
        .choice .ifStatement
    · exact (taken_printStatement hkeyword hstmt).cons fun _ => .choice .printStatement
    · exact (shorter .block after (by simp) _ s rest hstmt keyword hkeyword).cons fun _ =>
        .choice .block
  | ifStatement =>
    intro trail s rest h keyword hkeyword
    obtain ⟨opening, after, condition, closing, mid, yes, others, rfl, hopening, hcondition,
      hclosing, hyes, hbranch⟩ := accepts_ifStatement_iff.mp h
    obtain ⟨ts, rfl, hts⟩ := derivesExpr_of_accepts hcondition
    obtain ⟨us, rfl, hus, hnearest, helse⟩ :=
      shorter .statement mid (by simp; omega) _ yes others hyes
    obtain ⟨hother, rfl, rfl⟩ | ⟨other, more, no, rfl, hother, hno, rfl⟩ := hbranch
    · exact ⟨opening :: (ts ++ closing :: us), by simp,
        .conditional hkeyword hopening hts hclosing hus, .conditional hnearest, fun _ => hother⟩
    · obtain ⟨vs, rfl, hvs, hnearest', helse'⟩ :=
        shorter .statement more (by simp; omega) _ no rest hno
      -- The first branch left this `else` alone, so it ends in no open conditional.
      have hclosed : yes.endsOpen = false := eq_false_of_ne_true fun hopen => helse hopen hother
      exact ⟨opening :: (ts ++ closing :: (us ++ other :: vs)), by simp,
        .alternative hkeyword hopening hts hclosing hus hother hvs,
        .alternative hclosed hnearest hnearest', helse'⟩
  | block =>
    intro trail s rest h opening hopening
    obtain ⟨body, closing, hbody, hclosing, rfl⟩ := accepts_block_iff.mp h
    obtain ⟨-, taken, rfl, ⟨parts, hparts, rfl, rfl⟩, hnearest⟩ :=
      lower (.statements true) tokens rfl (by simp only [rank]; split <;> omega) _ body _ hbody
    exact ⟨parts.flatMap Prod.fst ++ [closing], by simp, .body hopening hparts hclosing,
      .block hnearest, by simp [Stmt.endsOpen]⟩
  | statements inBlock =>
    intro trail body rest h
    obtain ⟨hend, rfl, rfl⟩ | ⟨stmt, mid, more, hend, hstmt, hmore, rfl⟩ :=
      accepts_statements_iff.mp h
    · exact ⟨hend, [], rfl, ⟨[], by simp, rfl, rfl⟩, by simp [Program.ElseNearest]⟩
    · have hlength := (Reading.declaration false trail tokens).length_rest_lt hstmt.1
      have hatEnd : atEnd tokens = false := (Bool.or_eq_false_iff.mp hend).1
      obtain ⟨ts, rfl, hts, hnearest, -⟩ :=
        lower .declaration tokens rfl (by simp [rank, hatEnd]) _ stmt mid hstmt
      obtain ⟨hend', us, rfl, ⟨parts, hparts, rfl, rfl⟩, hnearest'⟩ :=
        shorter (.statements inBlock) mid hlength _ more rest hmore
      refine ⟨hend', ts ++ parts.flatMap Prod.fst, by simp,
        ⟨(ts, stmt) :: parts, ?_, by simp, by simp⟩, ?_⟩
      · exact List.forall_mem_cons.mpr ⟨hts, hparts⟩
      · exact List.forall_mem_cons.mpr ⟨hnearest, hnearest'⟩

/-- **Programs**: what is accepted as one is derived from all tokens up to the end. -/
theorem derivesProgram_of_accepts {tokens rest : List Token} {body : Program}
    (h : (program false tokens).reply.Accepts body rest) :
    atEnd rest = true ∧ ∃ taken, tokens = taken ++ rest ∧ DerivesProgram taken body ∧
      Program.ElseNearest body := by
  obtain ⟨hend, htaken⟩ := StmtCall.sound (.statements false) tokens [.program] body rest h
  exact ⟨by simpa [endsPassage] using hend, htaken⟩

end LoxLang.Grammar
