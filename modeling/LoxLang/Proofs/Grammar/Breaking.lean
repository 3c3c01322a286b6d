import LoxLang.Proofs.Grammar.Completeness
import LoxLang.Proofs.Grammar.EndOfInput
import LoxLang.Proofs.Grammar.Joining

/-!
# Statements that break at their end

A statement whose last semicolon is missing breaks at the token in front of what follows, if that
cannot continue it: nothing is reported on the way (`DerivesStmt.breaks`). Recovery then passes the
next statement, if that is a simple one, and stops behind its semicolon (`recover_simple`).
-/

namespace LoxLang.Grammar

variable {α β : Type}

/-! ### Replies -/

/-- The outcome of the reply, and all that it reports. -/
def Reply.Gives (reply : Reply α) (outcome : Except Failure (α × List Token))
    (errors : List SyntaxError) : Prop :=
  reply.outcome = outcome ∧ reply.reported = errors

theorem Reply.Accepts.gives {reply : Reply α} {a : α} {rest : List Token}
    (h : reply.Accepts a rest) : reply.Gives (.ok (a, rest)) [] := h

theorem Reply.Gives.bind {first : Reply α} {next : α → List Token → Reply β} {a : α}
    {mid : List Token} {errors more : List SyntaxError} {outcome : Except Failure (β × List Token)}
    (h : first.Gives (.ok (a, mid)) errors) (hnext : (next a mid).Gives outcome more) :
    (first.bind next).Gives outcome (errors ++ more) := by
  obtain ⟨houtcome, rfl⟩ := h
  obtain ⟨rfl, rfl⟩ := hnext
  simp only [Reply.Gives, Reply.bind, houtcome, and_self]

theorem Reply.Gives.bind_error {first : Reply α} {next : α → List Token → Reply β}
    {failure : Failure} {errors : List SyntaxError} (h : first.Gives (.error failure) errors) :
    (first.bind next).Gives (.error failure) errors := by
  obtain ⟨houtcome, rfl⟩ := h
  simp only [Reply.Gives, Reply.bind, houtcome, and_self]

/-- A failure at the place, with nothing reported before it. -/
def Reply.BreaksAt (reply : Reply α) (place : List Token) : Prop :=
  ∃ problem, reply.Gives (.error ⟨⟨currentToken place, problem⟩, place⟩) []

namespace Reply.BreaksAt

variable {place : List Token}

theorem bind {first : Reply α} {next : α → List Token → Reply β} (h : first.BreaksAt place) :
    (first.bind next).BreaksAt place := by
  obtain ⟨problem, hgives⟩ := h
  exact ⟨problem, hgives.bind_error⟩

theorem after {first : Reply α} {next : α → List Token → Reply β} {a : α} {mid : List Token}
    (h : first.Accepts a mid) (hnext : (next a mid).BreaksAt place) :
    (first.bind next).BreaksAt place := by
  obtain ⟨problem, hgives⟩ := hnext
  exact ⟨problem, h.gives.bind hgives⟩

theorem expect {trail : Trail} {kind : TokenKind} {problem : SyntaxProblem}
    (h : peek place ≠ kind) : (Reply.expect trail kind problem place).BreaksAt place := by
  rw [Reply.expect_of_peek_ne h]
  exact ⟨problem, rfl, rfl⟩

end Reply.BreaksAt

/-! ### Conditionals -/

/-- The branches of a conditional, behind its condition. -/
def branches (trail : Trail) (condition : Expr) (tokens : List Token) : Reply Stmt :=
  (statement false trail tokens).bind fun yes rest =>
    match rest with
    | [] => .done (.conditional condition yes none) []
    | token :: after =>
      if token.kind = .kwElse then
        (statement false trail after).bind fun no rest =>
          .done (.conditional condition yes (some no)) rest
      else .done (.conditional condition yes none) (token :: after)

/-- A condition in order adds nothing to what the branches give. -/
theorem gives_ifStatement {trail : Trail} {opening closing : Token} {cs more : List Token}
    {condition : Expr} {outcome : Except Failure (Stmt × List Token)} {errors : List SyntaxError}
    (hopening : opening.kind = .leftParen) (hcondition : DerivesExpr .expression cs condition)
    (hclosing : closing.kind = .rightParen)
    (h : (branches (.ifStatement :: trail) condition more).Gives outcome errors) :
    (ifStatement false trail (opening :: (cs ++ closing :: more))).Gives outcome errors := by
  have hend : ExprEnd (closing :: more) := exprEnd_of_kind (by simp [hclosing])
  rw [ifStatement_eq]
  refine (accepts_expect_iff.mpr ⟨rfl, hopening⟩).gives.bind ?_
  refine (accepts_of_derivesExpr hcondition hend).gives.bind ?_
  exact (accepts_expect_iff.mpr ⟨rfl, hclosing⟩).gives.bind h

/-! ### Rules for statements -/

/-- The reply of the strict rule for what a grammar rule derives. The rules that are told from one
another by their first token are called behind it. -/
inductive Reads : Rule → Trail → List Token → Reply Stmt → Prop where
  | declaration (trail : Trail) (tokens : List Token) :
      Reads .declaration trail tokens (declaration false trail tokens)
  | statement (trail : Trail) (tokens : List Token) :
      Reads .statement trail tokens (statement false trail tokens)
  | varDeclaration {keyword : Token} (trail : Trail) (tokens : List Token) :
      keyword.kind = .kwVar →
      Reads .varDeclaration trail (keyword :: tokens) (varDeclaration trail tokens)
  | ifStatement {keyword : Token} (trail : Trail) (tokens : List Token) :
      keyword.kind = .kwIf →
      Reads .ifStatement trail (keyword :: tokens) (ifStatement false trail tokens)
  | printStatement {keyword : Token} (trail : Trail) (tokens : List Token) :
      keyword.kind = .kwPrint →
      Reads .printStatement trail (keyword :: tokens) (printStatement trail tokens)
  | block {opening : Token} (trail : Trail) (tokens : List Token) :
      opening.kind = .leftBrace →
      Reads .block trail (opening :: tokens) (block false trail tokens)
  | expressionStatement (trail : Trail) (tokens : List Token) :
      Reads .expressionStatement trail tokens (expressionStatement false trail tokens)

/-- Which alternative of a choice is read is decided by the first token. -/
theorem Reads.choose {rule chosen : Rule} {trail : Trail} {token : Token} {after : List Token}
    {reply : Reply Stmt} (h : Reads rule trail (token :: after) reply) (hchoice : rule.Choice chosen)
    (hfirst : chosen.starts token.kind = true) :
    Reads chosen (rule :: trail) (token :: after) reply := by
  cases hchoice with
  | varDeclaration =>
    cases h
    have hkind : token.kind = .kwVar := by simpa [Rule.starts] using hfirst
    rw [declaration_eq]
    simp only [hkind, ↓reduceIte]
    exact .varDeclaration _ _ hkind
  | statement =>
    cases h
    have hkind : token.kind ≠ .kwVar := by
      intro hkind
      rw [hkind] at hfirst
      exact absurd hfirst (by decide)
    rw [declaration_eq]
    simp only [hkind, ↓reduceIte]
    exact .statement _ _
  | ifStatement =>
    cases h
    have hkind : token.kind = .kwIf := by simpa [Rule.starts] using hfirst
    rw [statement_eq]
    simp only [hkind]
    exact .ifStatement _ _ hkind
  | printStatement =>
    cases h
    have hkind : token.kind = .kwPrint := by simpa [Rule.starts] using hfirst
    rw [statement_eq]
    simp only [hkind]
    exact .printStatement _ _ hkind
  | block =>
    cases h
    have hkind : token.kind = .leftBrace := by simpa [Rule.starts] using hfirst
    rw [statement_eq]
    simp only [hkind]
    exact .block _ _ hkind
  | expressionStatement =>
    cases h
    have hstarts : startsExpr token.kind = true := hfirst
    rw [statement_eq]
    dsimp only
    split
    · next hkind => simp [hkind, startsExpr] at hstarts
    · next hkind => simp [hkind, startsExpr] at hstarts
    · next hkind => simp [hkind, startsExpr] at hstarts
    · exact .expressionStatement _ _

/-- No statement begins with a semicolon. -/
theorem DerivesStmt.exists_cons {rule : Rule} {tokens ts later : List Token} {s : Stmt}
    {semicolon : Token} (h : DerivesStmt rule tokens s) (htokens : tokens = ts ++ semicolon :: later)
    (hsemicolon : semicolon.kind = .semicolon) :
    ∃ first more, ts = first :: more ∧ rule.starts first.kind = true := by
  obtain ⟨first, more, hfirst, hstarts⟩ := h.first
  cases ts with
  | nil =>
    obtain ⟨rfl, -⟩ := List.cons.inj (hfirst.symm.trans htokens)
    rw [hsemicolon] at hstarts
    cases rule <;> exact absurd hstarts (by decide)
  | cons token ts =>
    obtain ⟨rfl, -⟩ := List.cons.inj (hfirst.symm.trans htokens)
    exact ⟨_, _, rfl, hstarts⟩

/-- **A statement without its last semicolon breaks behind the rest of it**, if what follows there
cannot continue it. -/
theorem DerivesStmt.breaks {rule : Rule} {tokens next : List Token} {s : Stmt}
    (h : DerivesStmt rule tokens s) (hnearest : s.ElseNearest)
    (hoperator : (∃ name, s = .declare name none) ∨
      ∀ level : Level, level.operator? (peek next) = none)
    (hequal : peek next ≠ .equal) (hmissing : peek next ≠ .semicolon) :
    ∀ ts last, tokens = ts ++ [last] → last.kind = .semicolon →
      ∀ trail reply, Reads rule trail (ts ++ next) reply → reply.BreaksAt next := by
  induction h with
  | choice hchoice hchosen ih =>
    intro ts last htokens hlast trail reply hreads
    obtain ⟨first, more, rfl, hfirst⟩ := hchosen.exists_cons htokens hlast
    exact ih hnearest hoperator _ last htokens hlast _ reply (hreads.choose hchoice hfirst)
  | @declare keyword name semicolon hkeyword hname _ =>
    intro ts last htokens _ trail reply hreads
    obtain ⟨rfl, -⟩ := List.append_singleton_inj.mp
      (show [keyword, name] ++ [semicolon] = ts ++ [last] from htokens)
    cases hreads
    rw [varDeclaration_eq]
    refine .after (accepts_expect_iff.mpr ⟨rfl, hname⟩) ?_
    refine .after (accepts_initial_iff.mpr (.inl ⟨hequal, rfl, rfl⟩)) ?_
    exact (Reply.BreaksAt.expect hmissing).bind
  | @define keyword name equals semicolon es initial hkeyword hname hequals hinitial _ =>
    intro ts last htokens _ trail reply hreads
    obtain ⟨rfl, -⟩ := List.append_singleton_inj.mp
      (show (keyword :: name :: equals :: es) ++ [semicolon] = ts ++ [last] from htokens)
    have hend : ExprEnd next := ⟨hoperator.resolve_left (by simp), hequal⟩
    cases hreads
    rw [varDeclaration_eq]
    refine .after (accepts_expect_iff.mpr ⟨rfl, hname⟩) ?_
    refine .after (accepts_initial_iff.mpr (.inr ⟨equals, es ++ next, initial, rfl, hequals,
      accepts_of_derivesExpr hinitial hend, rfl⟩)) ?_
    exact (Reply.BreaksAt.expect hmissing).bind
  | @conditional keyword opening closing cs yes condition _ hkeyword hopening hcondition hclosing
      hyes ih =>
    intro ts last htokens hlast trail reply hreads
    obtain ⟨us, rfl, rfl⟩ := exists_last_of_append
      (show (keyword :: opening :: (cs ++ [closing])) ++ yes = ts ++ [last] by simpa using htokens)
      hyes.ne_nil
    cases hnearest with
    | conditional hnearest =>
      simp only [List.cons_append, List.append_assoc, List.nil_append] at hreads
      cases hreads
      have hyesBreaks : (branches (.ifStatement :: trail) condition (us ++ next)).BreaksAt next :=
        (ih hnearest (.inr (hoperator.resolve_left (by simp))) us last rfl hlast _ _
          (.statement _ _)).bind
      exact hyesBreaks.imp fun _ => gives_ifStatement hopening hcondition hclosing
  | @alternative keyword opening closing other cs yes no condition yesTree noTree hkeyword hopening
      hcondition hclosing hyes hother hno _ ih =>
    intro ts last htokens hlast trail reply hreads
    obtain ⟨us, rfl, rfl⟩ := exists_last_of_append
      (show (keyword :: opening :: (cs ++ closing :: (yes ++ [other]))) ++ no = ts ++ [last] by
        simpa using htokens) hno.ne_nil
    cases hnearest with
    | alternative hclosed hyesNearest hnoNearest =>
      simp only [List.cons_append, List.append_assoc, List.nil_append] at hreads
      cases hreads
      have hyesAccepts := hyes.completes hyesNearest (.ifStatement :: trail) (other :: (us ++ next))
        (by simp [StmtEnd, hclosed])
      have hnoBreaks : (branches (.ifStatement :: trail) condition
          (yes ++ other :: (us ++ next))).BreaksAt next := by
        refine .after hyesAccepts ?_
        simp only [hother, ↓reduceIte]
        exact (ih hnoNearest (.inr (hoperator.resolve_left (by simp))) us last rfl hlast _ _
          (.statement _ _)).bind
      exact hnoBreaks.imp fun _ => gives_ifStatement hopening hcondition hclosing
  | @print keyword semicolon es value hkeyword hvalue _ =>
    intro ts last htokens _ trail reply hreads
    obtain ⟨rfl, -⟩ := List.append_singleton_inj.mp
      (show (keyword :: es) ++ [semicolon] = ts ++ [last] from htokens)
    have hend : ExprEnd next := ⟨hoperator.resolve_left (by simp), hequal⟩
    cases hreads
    rw [printStatement_eq]
    exact .after (accepts_of_derivesExpr hvalue hend) (Reply.BreaksAt.expect hmissing).bind
  | @body opening closing parts _ _ hclosing _ =>
    intro ts last htokens hlast
    obtain ⟨-, rfl⟩ := List.append_singleton_inj.mp
      (show (opening :: parts.flatMap Prod.fst) ++ [closing] = ts ++ [last] from htokens)
    simp [hclosing] at hlast
  | expression hvalue _ =>
    intro ts last htokens _ trail reply hreads
    obtain ⟨rfl, -⟩ := List.append_singleton_inj.mp htokens
    have hend : ExprEnd next := ⟨hoperator.resolve_left (by simp), hequal⟩
    cases hreads
    rw [expressionStatement_eq]
    refine .after (accepts_of_derivesExpr hvalue hend) ?_
    exact (Reply.BreaksAt.expect hmissing).bind

/-! ### Recovery -/

/-- A kind of token that recovery passes on its way to a semicolon. -/
def Passable (kind : TokenKind) : Prop :=
  kind ≠ .eof ∧ kind ≠ .semicolon ∧ startsStatement kind = false

theorem passable_of_inExpr {kind : TokenKind} (h : inExpr kind = true) : Passable kind := by
  refine ⟨ne_of_inExpr h rfl, ne_of_inExpr h rfl, ?_⟩
  cases kind <;> revert h <;> decide

/-- Recovery stops behind a semicolon. -/
theorem seekStatement_behind_semicolon (tokens : List Token) :
    seekStatement .semicolon tokens = tokens := by
  cases tokens with
  | nil => rfl
  | cons token tokens => rw [seekStatement, if_pos (.inr (.inl rfl))]

/-- Behind tokens that are passed, the next semicolon is where recovery stops. -/
theorem seekStatement_semicolon {passed : TokenKind} {mid : List Token} {semicolon : Token}
    (hpassed : passed ≠ .semicolon) (hmid : ∀ token ∈ mid, Passable token.kind)
    (hsemicolon : semicolon.kind = .semicolon) (more : List Token) :
    seekStatement passed (mid ++ semicolon :: more) = more := by
  induction mid generalizing passed with
  | nil =>
    rw [List.nil_append, seekStatement, hsemicolon, if_neg (by simp [hpassed, startsStatement]),
      seekStatement_behind_semicolon]
  | cons token mid ih =>
    obtain ⟨⟨heof, hsemi, hstarts⟩, hmid⟩ := List.forall_mem_cons.mp hmid
    have hkind : ¬ (token.kind = .eof ∨ passed = .semicolon ∨ startsStatement token.kind = true) := by
      simp [heof, hpassed, hstarts]
    rw [List.cons_append, seekStatement, if_neg hkind]
    exact ih hsemi hmid

/-- A simple statement has its one semicolon at its end, and only its first token may be one that no
expression holds. -/
theorem DerivesStmt.exists_simple {rule : Rule} {ts : List Token} {s : Stmt}
    (h : DerivesStmt rule ts s) (hfirst : peek ts ∉ [.kwIf, .leftBrace]) :
    ∃ first mid semicolon, ts = first :: (mid ++ [semicolon]) ∧
      first.kind ≠ .eof ∧ first.kind ≠ .semicolon ∧
      (∀ token ∈ mid, inExpr token.kind = true) ∧ semicolon.kind = .semicolon := by
  induction h with
  | choice _ _ ih => exact ih hfirst
  | @declare keyword name semicolon hkeyword hname hsemicolon =>
    exact ⟨keyword, [name], semicolon, rfl, by simp [hkeyword], by simp [hkeyword],
      List.forall_mem_singleton.mpr (by rw [hname]; rfl), hsemicolon⟩
  | @define keyword name equals semicolon es initial hkeyword hname hequals hinitial hsemicolon =>
    exact ⟨keyword, name :: equals :: es, semicolon, rfl, by simp [hkeyword], by simp [hkeyword],
      List.forall_mem_cons.mpr ⟨by rw [hname]; rfl,
        List.forall_mem_cons.mpr ⟨by rw [hequals]; rfl, hinitial.inExpr⟩⟩, hsemicolon⟩
  | conditional hkeyword | alternative hkeyword => simp [peek, hkeyword] at hfirst
  | @print keyword semicolon es value hkeyword hvalue hsemicolon =>
    exact ⟨keyword, es, semicolon, rfl, by simp [hkeyword], by simp [hkeyword], hvalue.inExpr,
      hsemicolon⟩
  | body hopening => simp [peek, hopening] at hfirst
  | @expression semicolon es value hvalue hsemicolon =>
    obtain ⟨first, more, rfl, -⟩ := hvalue.first
    obtain ⟨hkind, hmore⟩ := List.forall_mem_cons.mp hvalue.inExpr
    exact ⟨first, more, semicolon, rfl, ne_of_inExpr hkind rfl, ne_of_inExpr hkind rfl, hmore,
      hsemicolon⟩

/-- Recovery passes a simple statement, and nothing behind it. -/
theorem recover_simple {ts : List Token} {s : Stmt} (h : DerivesStmt .declaration ts s)
    (hfirst : peek ts ∉ [.kwIf, .leftBrace]) (more : List Token) : recover (ts ++ more) = more := by
  obtain ⟨first, mid, semicolon, rfl, hne, hpassed, hmid, hsemicolon⟩ := h.exists_simple hfirst
  rw [List.cons_append, List.append_assoc, recover, if_neg hne]
  exact seekStatement_semicolon hpassed (fun token htoken => passable_of_inExpr (hmid token htoken))
    hsemicolon more

end LoxLang.Grammar
