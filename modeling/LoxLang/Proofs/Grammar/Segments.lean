import LoxLang.Proofs.Grammar.Breaking
import LoxLang.Proofs.Grammar.Orderly
import LoxLang.Proofs.Grammar.Soundness

/-!
# Statements between semicolons

A segment is a stretch of tokens up to a semicolon in which no other statement may begin. Whatever it
holds, reading does not get past its semicolon: a result of it ends there, and after a failure in it
recovery stops there (`program_segment`). So segments are read one by one, each as it is on its own:
the errors of the whole are those of its segments, one after the other (`parse_segments`).
-/

namespace LoxLang.Grammar

variable {α β : Type}

/-- A stretch of tokens and the semicolon behind it. There is no block in it and no other semicolon,
and only its first token may be a keyword in front of a statement. -/
structure Segment where
  tokens : List Token
  semicolon : Token
  ends : semicolon.kind = .semicolon
  plain : ∀ token ∈ tokens, token.kind ∉ [.semicolon, .leftBrace, .rightBrace, .eof]
  first : peek tokens ≠ .kwElse
  later : ∀ token ∈ tokens.tail, startsStatement token.kind = false

namespace Segment

/-- The tokens with the semicolon. -/
def all (segment : Segment) : List Token := segment.tokens ++ [segment.semicolon]

/-- What may be left of a segment when its semicolon has not been taken. -/
def Left (segment : Segment) (left : List Token) : Prop :=
  ∃ mid, left = mid ++ [segment.semicolon] ∧ mid <:+ segment.tokens

variable {segment : Segment} {token : Token} {after left : List Token}

theorem left_all (segment : Segment) : segment.Left segment.all :=
  ⟨segment.tokens, rfl, List.suffix_refl _⟩

theorem Left.exists_cons (h : segment.Left left) : ∃ token after, left = token :: after := by
  obtain ⟨mid, rfl, -⟩ := h
  exact List.exists_cons_of_ne_nil (by simp)

/-- The token in front is the semicolon, and then nothing is left behind it; or it is a token of the
segment. -/
theorem Left.cases_cons (h : segment.Left (token :: after)) :
    token = segment.semicolon ∧ after = [] ∨ token ∈ segment.tokens ∧ segment.Left after := by
  obtain ⟨mid, heq, hsuffix⟩ := h
  cases mid with
  | nil => exact .inl (List.cons.inj heq)
  | cons first mid =>
    obtain ⟨rfl, rfl⟩ := List.cons.inj heq
    exact .inr ⟨hsuffix.subset List.mem_cons_self, mid, rfl, (List.suffix_cons _ _).trans hsuffix⟩

/-- No token but the semicolon is the last. -/
theorem Left.next (h : segment.Left (token :: after)) (hkind : token.kind ≠ .semicolon) :
    segment.Left after := by
  rcases h.cases_cons with ⟨rfl, -⟩ | ⟨-, hafter⟩
  · exact absurd segment.ends hkind
  · exact hafter

theorem Left.eq_nil (h : segment.Left (token :: after)) (hkind : token.kind = .semicolon) :
    after = [] := by
  rcases h.cases_cons with ⟨-, hafter⟩ | ⟨hmem, -⟩
  · exact hafter
  · exact absurd (segment.plain token hmem) (by simp [hkind])

theorem Left.ne_eof (h : segment.Left (token :: after)) : token.kind ≠ .eof := by
  rcases h.cases_cons with ⟨rfl, -⟩ | ⟨hmem, -⟩
  · simp [segment.ends]
  · intro hkind
    exact segment.plain token hmem (by simp [hkind])

theorem Left.ne_leftBrace (h : segment.Left (token :: after)) : token.kind ≠ .leftBrace := by
  rcases h.cases_cons with ⟨rfl, -⟩ | ⟨hmem, -⟩
  · simp [segment.ends]
  · intro hkind
    exact segment.plain token hmem (by simp [hkind])

theorem Left.atEnd_eq (h : segment.Left left) : atEnd left = false := by
  obtain ⟨token, after, rfl⟩ := h.exists_cons
  simpa [atEnd, peek] using h.ne_eof

/-- When a token has been taken, no statement may begin with any that is left. -/
theorem Left.later (h : segment.Left left) (hshorter : left.length < segment.all.length) :
    ∀ token ∈ left, startsStatement token.kind = false := by
  obtain ⟨mid, rfl, front, htokens⟩ := h
  intro token htoken
  cases front with
  | nil => simp [all, ← htokens] at hshorter
  | cons first front =>
    rcases List.mem_append.mp htoken with hmid | hlast
    · refine segment.later token ?_
      rw [← htokens]
      exact List.mem_append_right front hmid
    · rw [List.mem_singleton.mp hlast, segment.ends]
      rfl

theorem Left.length_le (h : segment.Left left) : left.length ≤ segment.all.length := by
  obtain ⟨mid, rfl, hsuffix⟩ := h
  simpa [all] using hsuffix.length_le

/-- **Recovery stops behind the semicolon**, wherever in the segment the failure is. -/
theorem Left.recover (h : segment.Left left) (more : List Token) :
    recover (left ++ more) = more := by
  obtain ⟨token, after, rfl⟩ := h.exists_cons
  rw [List.cons_append, Grammar.recover, if_neg h.ne_eof]
  by_cases hkind : token.kind = .semicolon
  · rw [h.eq_nil hkind, hkind, List.nil_append, seekStatement_behind_semicolon]
  · have hafter := h.next hkind
    have hlater := hafter.later (Nat.lt_of_lt_of_le (Nat.lt_succ_self _) h.length_le)
    obtain ⟨mid, rfl, hsuffix⟩ := hafter
    have hmid : ∀ other ∈ mid, Passable other.kind := by
      intro other hother
      have hplain := segment.plain other (hsuffix.subset hother)
      simp only [List.mem_cons, List.not_mem_nil, or_false, not_or] at hplain
      exact ⟨hplain.2.2.2, hplain.1, hlater other (List.mem_append_left _ hother)⟩
    rw [List.append_assoc]
    exact seekStatement_semicolon hkind hmid segment.ends more

end Segment

/-! ### Replies -/

/-- The second reply is the first, with more tokens behind what is left. What is left after a result
is as given; a failure is in front of the semicolon. -/
inductive Reply.Extends (segment : Segment) (leaves : List Token → Prop) (more : List Token) :
    Reply α → Reply α → Prop where
  | done {a : α} {rest : List Token} (reported : List SyntaxError) (traces : List Trace) :
      leaves rest → Reply.Extends segment leaves more ⟨.ok (a, rest), reported, traces⟩
        ⟨.ok (a, rest ++ more), reported, traces⟩
  | fail {error : SyntaxError} {place : List Token} (reported : List SyntaxError)
      (traces : List Trace) : segment.Left place →
      Reply.Extends segment leaves more ⟨.error ⟨error, place⟩, reported, traces⟩
        ⟨.error ⟨error, place ++ more⟩, reported, traces⟩

namespace Reply.Extends

variable {segment : Segment} {leaves leaves' : List Token → Prop} {more tokens : List Token}

theorem pure (a : α) (h : leaves tokens) :
    Reply.Extends segment leaves more (.done a tokens) (.done a (tokens ++ more)) := .done [] [] h

theorem raise (trail : Trail) (problem : SyntaxProblem) (h : segment.Left tokens) :
    Reply.Extends segment leaves more (.fail trail problem tokens : Reply α)
      (.fail trail problem (tokens ++ more)) := by
  obtain ⟨token, after, rfl⟩ := h.exists_cons
  exact .fail [] [⟨trail, token, problem⟩] h

/-- What is extended in each part is extended in the whole. -/
theorem bind {first first' : Reply α} {next next' : α → List Token → Reply β}
    (h : first.Extends segment leaves more first')
    (hnext : ∀ a rest, first.outcome = .ok (a, rest) → leaves rest →
      (next a rest).Extends segment leaves' more (next' a (rest ++ more))) :
    (first.bind next).Extends segment leaves' more (first'.bind next') := by
  cases h with
  | fail reported traces hplace => exact .fail reported traces hplace
  | @done a rest reported traces hrest =>
    have hsecond := hnext a rest rfl hrest
    simp only [Reply.bind]
    generalize next a rest = second at hsecond
    generalize next' a (rest ++ more) = second' at hsecond
    cases hsecond with
    | done _ _ hrest' => exact .done _ _ hrest'
    | fail _ _ hplace => exact .fail _ _ hplace

theorem expect (trail : Trail) {kind : TokenKind} (problem : SyntaxProblem)
    (hkind : kind ≠ .semicolon) (h : segment.Left tokens) :
    Reply.Extends segment segment.Left more (.expect trail kind problem tokens)
      (.expect trail kind problem (tokens ++ more)) := by
  obtain ⟨token, after, rfl⟩ := h.exists_cons
  simp only [List.cons_append, Reply.expect]
  split
  · next hmatch => exact pure token (h.next (hmatch ▸ hkind))
  · exact raise trail problem h

/-- The semicolon is the end of the segment. -/
theorem expect_semicolon (trail : Trail) (problem : SyntaxProblem) (h : segment.Left tokens) :
    Reply.Extends segment (· = []) more (.expect trail .semicolon problem tokens)
      (.expect trail .semicolon problem (tokens ++ more)) := by
  obtain ⟨token, after, rfl⟩ := h.exists_cons
  simp only [List.cons_append, Reply.expect]
  split
  · next hmatch => exact pure token (h.eq_nil hmatch)
  · exact raise trail problem h

theorem assign (target : Expr) (equals : Token) (value : Expr) (h : leaves tokens) :
    Reply.Extends segment leaves more (.assign target equals value tokens)
      (.assign target equals value (tokens ++ more)) := by
  rcases assign_cases target equals with ⟨name, rfl⟩ | hnoted
  · exact pure (Expr.assign name value) h
  · rw [hnoted, hnoted]
    exact .done [⟨equals, .invalidTarget⟩] [] h

end Reply.Extends

/-! ### Rules for expressions -/

variable {segment : Segment}

/-- No call for an expression takes the semicolon. -/
theorem ExprCall.extends (more : List Token) : ∀ (call : ExprCall) (tokens : List Token),
    ∀ trail, segment.Left tokens → (call.reply trail tokens).Extends segment segment.Left more
      (call.reply trail (tokens ++ more)) := by
  apply ExprCall.induct
  intro call tokens shorter lower trail h
  obtain ⟨token, after, rfl⟩ := h.exists_cons
  have hnext : inExpr token.kind = true → segment.Left after :=
    fun hkind => h.next (ne_of_inExpr hkind rfl)
  cases call with
  | expression =>
    rw [reply, expression_eq, expression_eq]
    exact lower .assignment (by decide) _ h
  | assignment =>
    rw [reply, assignment_eq, assignment_eq]
    refine (lower (.binary .equality) (by decide) _ h).bind fun target rest hrest hleft => ?_
    have hlength := (Reading.binary .equality _ (token :: after)).length_rest_lt hrest
    obtain ⟨equals, others, rfl⟩ := hleft.exists_cons
    simp only [List.cons_append]
    split
    · next hequals =>
      refine (shorter .assignment others (Nat.lt_of_succ_lt hlength) _
        (hleft.next (by simp [hequals]))).bind fun value rest _ hleft' => ?_
      exact .assign target equals value hleft'
    · exact .pure target hleft
  | binary level =>
    rw [reply, binary_eq, binary_eq]
    refine (lower (.operand level) (Nat.lt_succ_self _) _ h).bind fun left rest hrest hleft => ?_
    exact shorter (.chain level left) rest
      ((Reading.operand level _ (token :: after)).length_rest_lt hrest) _ hleft
  | operand level =>
    rw [reply_operand, reply_operand]
    exact lower (.ofOperand level) (rank_ofOperand_lt level) trail h
  | chain level left =>
    simp only [reply]
    rw [chain_eq, chain_eq]
    simp only [List.cons_append]
    cases hop : level.operator? token.kind with
    | none => exact .pure left h
    | some op =>
      refine (shorter (.operand level) after (Nat.lt_succ_self _) _
        (hnext ((level.infix_iff _ _).mpr hop).inExpr)).bind fun right rest hrest hleft => ?_
      have hlength := (Reading.operand level _ after).length_rest_lt hrest
      exact shorter (.chain level (.binary left op token right)) rest (Nat.lt_succ_of_lt hlength) _
        hleft
  | unary =>
    have hprimary := lower .primary (by decide) (.unary :: trail) h
    rw [reply, unary_eq, unary_eq]
    simp only [List.cons_append]
    cases hop : unaryOperator? token.kind with
    | none => exact hprimary
    | some op =>
      refine (shorter .unary after (Nat.lt_succ_self _) _
        (hnext ((prefixed_iff _ _).mpr hop).inExpr)).bind fun right rest _ hleft => ?_
      exact .pure (Expr.unary op token right) hleft
  | primary =>
    rw [reply, primary_eq, primary_eq]
    simp only [List.cons_append]
    cases hatom : atom? token with
    | some atom =>
      have hatomic : inExpr token.kind = true :=
        (derivesExpr_of_atom hatom).inExpr token (List.mem_singleton_self _)
      exact .pure atom (hnext hatomic)
    | none =>
      dsimp only
      split
      · next hopening =>
        refine (shorter .expression after (Nat.lt_succ_self _) _
          (h.next (by simp [hopening]))).bind fun inner rest _ hleft => ?_
        refine (Reply.Extends.expect _ _ (by decide) hleft).bind fun _ rest _ hleft' => ?_
        exact .pure (Expr.grouping inner) hleft'
      · exact .raise _ _ h

theorem expression_extends (trail : Trail) {tokens : List Token} (more : List Token)
    (h : segment.Left tokens) : (expression trail tokens).Extends segment segment.Left more
      (expression trail (tokens ++ more)) :=
  ExprCall.extends more .expression tokens trail h

/-! ### Rules for statements -/

variable {tokens more : List Token}

theorem initial_extends (trail : Trail) (h : segment.Left tokens) :
    (initial trail tokens).Extends segment segment.Left more (initial trail (tokens ++ more)) := by
  obtain ⟨token, after, rfl⟩ := h.exists_cons
  simp only [initial_eq, List.cons_append]
  split
  · next hequals =>
    refine (expression_extends trail more (h.next (by simp [hequals]))).bind
      fun value rest _ hleft => ?_
    exact .pure (some value) hleft
  · exact .pure none h

theorem varDeclaration_extends (trail : Trail) (h : segment.Left tokens) :
    (varDeclaration trail tokens).Extends segment (· = []) more
      (varDeclaration trail (tokens ++ more)) := by
  rw [varDeclaration_eq, varDeclaration_eq]
  refine (Reply.Extends.expect _ _ (by decide) h).bind fun name _ _ hleft => ?_
  refine (initial_extends _ hleft).bind fun value _ _ hleft => ?_
  refine (Reply.Extends.expect_semicolon _ _ hleft).bind fun _ _ _ hrest => ?_
  exact .pure (Stmt.declare name value) hrest

theorem printStatement_extends (trail : Trail) (h : segment.Left tokens) :
    (printStatement trail tokens).Extends segment (· = []) more
      (printStatement trail (tokens ++ more)) := by
  rw [printStatement_eq, printStatement_eq]
  refine (expression_extends _ more h).bind fun value _ _ hleft => ?_
  refine (Reply.Extends.expect_semicolon _ _ hleft).bind fun _ _ _ hrest => ?_
  exact .pure (Stmt.print value) hrest

/-- A lenient reading takes the semicolon as a strict one does: it is not at the end. -/
theorem expressionStatement_extends (lenient : Bool) (trail : Trail) (h : segment.Left tokens) :
    (expressionStatement lenient trail tokens).Extends segment (· = []) more
      (expressionStatement lenient trail (tokens ++ more)) := by
  rw [expressionStatement_eq, expressionStatement_eq]
  refine (expression_extends _ more h).bind fun value rest _ hleft => ?_
  have hmore : atEnd (rest ++ more) = false := by
    obtain ⟨token, after, rfl⟩ := hleft.exists_cons
    exact hleft.atEnd_eq
  simp only [hleft.atEnd_eq, hmore, Bool.and_false, Bool.false_eq_true, ↓reduceIte]
  refine (Reply.Extends.expect_semicolon _ _ hleft).bind fun _ _ _ hrest => ?_
  exact .pure (Stmt.expression value) hrest

/-- A branch is an expression statement: no other statement begins inside a segment. -/
theorem branch_extends (lenient : Bool) (trail : Trail) (h : segment.Left tokens)
    (hshorter : tokens.length < segment.all.length) :
    (statement lenient trail tokens).Extends segment (· = []) more
      (statement lenient trail (tokens ++ more)) := by
  have hlater := h.later hshorter
  obtain ⟨token, after, rfl⟩ := h.exists_cons
  have hfirst := hlater token List.mem_cons_self
  rw [statement_eq, statement_eq]
  simp only [List.cons_append]
  split
  · next hkind => simp [hkind, startsStatement] at hfirst
  · next hkind => simp [hkind, startsStatement] at hfirst
  · next hkind => exact absurd hkind h.ne_leftBrace
  · exact expressionStatement_extends lenient _ h

/-- The branch takes the semicolon, and what follows is no `else`. -/
theorem ifStatement_extends (lenient : Bool) (trail : Trail) (h : segment.Left tokens)
    (hshorter : tokens.length < segment.all.length) (helse : peek more ≠ .kwElse) :
    (ifStatement lenient trail tokens).Extends segment (· = []) more
      (ifStatement lenient trail (tokens ++ more)) := by
  rw [ifStatement_eq, ifStatement_eq]
  refine (Reply.Extends.expect _ _ (by decide) h).bind fun _ afterOpening hopening hleft => ?_
  have h₁ := (Reading.expect _ .leftParen .expectedConditionOpen tokens).length_rest_lt hopening
  refine (expression_extends _ more hleft).bind fun condition afterCondition hcondition hleft => ?_
  have h₂ := (Reading.expression _ afterOpening).length_rest_lt hcondition
  refine (Reply.Extends.expect _ _ (by decide) hleft).bind fun _ branch hclosing hleft => ?_
  have h₃ := (Reading.expect _ .rightParen .expectedConditionClose
    afterCondition).length_rest_lt hclosing
  refine (branch_extends lenient _ hleft (by omega)).bind fun yes rest _ hrest => ?_
  subst hrest
  cases more with
  | nil => exact .pure (Stmt.conditional condition yes none) rfl
  | cons token after =>
    have hkind : token.kind ≠ .kwElse := helse
    simp only [List.nil_append, hkind, ↓reduceIte]
    exact .pure (Stmt.conditional condition yes none) rfl

/-- **A segment is read alike with anything behind it** but an `else`: it gives the same result, and
then all of it is taken, or it fails in the same place. -/
theorem declaration_extends (lenient : Bool) (trail : Trail) (segment : Segment)
    (helse : peek more ≠ .kwElse) :
    (declaration lenient trail segment.all).Extends segment (· = []) more
      (declaration lenient trail (segment.all ++ more)) := by
  have h := segment.left_all
  obtain ⟨token, after, hall⟩ := h.exists_cons
  have hshorter : after.length < segment.all.length := by simp [hall]
  rw [hall] at h ⊢
  rw [declaration_eq, declaration_eq]
  simp only [List.cons_append]
  split
  · next hkind => exact varDeclaration_extends _ (h.next (by simp [hkind]))
  · rw [statement_eq, statement_eq]
    dsimp only
    split
    · next hkind => exact ifStatement_extends lenient _ (h.next (by simp [hkind])) hshorter helse
    · next hkind => exact printStatement_extends _ (h.next (by simp [hkind]))
    · next hkind => exact absurd hkind h.ne_leftBrace
    · exact expressionStatement_extends lenient _ h

/-! ### Passages -/

/-- A passage and the one that is read behind it. -/
def Passage.append (earlier later : Passage) : Passage :=
  ⟨earlier.body ++ later.body, later.rest, earlier.reported ++ later.reported,
    earlier.traces ++ later.traces⟩

/-- **A segment in front of other tokens is read as it is on its own**, and they are too. -/
theorem program_segment (lenient : Bool) (segment : Segment) (helse : peek more ≠ .kwElse) :
    program lenient (segment.all ++ more) =
      (program lenient segment.all).append (program lenient more) := by
  have hend : endsPassage false segment.all = false := by
    simpa [endsPassage] using segment.left_all.atEnd_eq
  have hends : endsPassage false (segment.all ++ more) = false := by
    obtain ⟨token, after, hall⟩ := segment.left_all.exists_cons
    rw [hall] at hend ⊢
    exact hend
  have hnil : statements lenient false [.program] [] = .empty [] :=
    statements_of_endsPassage rfl
  have hfirst := declaration_extends lenient [.program] segment helse
  rw [program, program, statements_eq, hends, statements_eq lenient false _ segment.all, hend,
    if_neg Bool.false_ne_true, if_neg Bool.false_ne_true]
  generalize declaration lenient [.program] segment.all = first at hfirst
  generalize declaration lenient [.program] (segment.all ++ more) = first' at hfirst
  cases hfirst with
  | @done stmt rest reported traces hrest =>
    subst hrest
    simp [Reply.andThen, Passage.cons, Passage.append, hnil, Passage.empty, program]
  | @fail error place reported traces hplace =>
    have hrecover : recover place = [] := by simpa using hplace.recover []
    simp [Reply.andThen, Passage.skip, Passage.append, hplace.recover, hrecover, hnil,
      Passage.empty, program]

/-- A segment does not begin with an `else`. -/
theorem Segment.peek_all (segment : Segment) (more : List Token) :
    peek (segment.all ++ more) ≠ .kwElse := by
  have hfirst := segment.first
  cases htokens : segment.tokens with
  | nil => simp [all, htokens, peek, segment.ends]
  | cons token tokens =>
    rw [htokens] at hfirst
    rw [all, htokens]
    exact hfirst

/-- Segments are read one by one, and then what stands behind them. -/
theorem program_segments (lenient : Bool) (segments : List Segment) {rest : List Token}
    (helse : peek rest ≠ .kwElse) :
    (program lenient (segments.flatMap Segment.all ++ rest)).reported =
        (segments.flatMap fun segment => (program lenient segment.all).reported) ++
          (program lenient rest).reported ∧
      (program lenient (segments.flatMap Segment.all ++ rest)).body =
        (segments.flatMap fun segment => (program lenient segment.all).body) ++
          (program lenient rest).body ∧
      peek (segments.flatMap Segment.all ++ rest) ≠ .kwElse := by
  induction segments with
  | nil => exact ⟨rfl, rfl, helse⟩
  | cons segment segments ih =>
    obtain ⟨hreported, hbody, helseMore⟩ := ih
    simp only [List.flatMap_cons, List.append_assoc]
    rw [program_segment lenient segment helseMore]
    exact ⟨congrArg _ hreported, congrArg _ hbody, segment.peek_all _⟩

/-! ### Errors -/

/-- The errors for which tokens are no program; none if they are one. -/
def rejections : Except (List SyntaxError) Program → List SyntaxError
  | .ok _ => []
  | .error errors => errors

theorem rejections_parse (lenient : Bool) (tokens : List Token) :
    rejections (parse lenient tokens) = (program lenient tokens).reported := by
  unfold parse
  dsimp only
  cases (program lenient tokens).reported <;> rfl

/-- **Errors of statements between semicolons are independent**: with segments in front of any tokens
that do not begin with an `else`, the errors are those of each segment on its own, in order, and then
those of the tokens behind. If none of them has any, the statements follow each other likewise. -/
theorem parse_segments (lenient : Bool) (segments : List Segment) (rest : List Token)
    (helse : peek rest ≠ .kwElse) :
    rejections (parse lenient (segments.flatMap Segment.all ++ rest)) =
        (segments.flatMap fun segment => rejections (parse lenient segment.all)) ++
          rejections (parse lenient rest) ∧
      ∀ (body : Segment → Program) (last : Program),
        (∀ segment ∈ segments, parse lenient segment.all = .ok (body segment)) →
        parse lenient rest = .ok last →
        parse lenient (segments.flatMap Segment.all ++ rest) = .ok (segments.flatMap body ++ last) := by
  obtain ⟨hreported, hbody, -⟩ := program_segments lenient segments helse
  refine ⟨by simp only [rejections_parse, hreported], fun body last hsegments hlast => ?_⟩
  simp only [parse_eq_ok_iff] at hsegments hlast ⊢
  have hnone : (segments.flatMap fun segment => (program lenient segment.all).reported) = [] :=
    List.flatMap_eq_nil_iff.mpr fun segment hmem => (hsegments segment hmem).1
  have hbodies : (segments.flatMap fun segment => (program lenient segment.all).body) =
      segments.flatMap body := List.flatMap_congr fun segment hmem => (hsegments segment hmem).2
  exact ⟨by rw [hreported, hnone, hlast.1, List.append_nil], by rw [hbody, hbodies, hlast.2]⟩

/-- The segments of `print; nil = nil; ;`, each on a line of its own. The first breaks at its
semicolon, and so does the last, which is empty. -/
def brokenSegments : List Segment :=
  [{ tokens := [⟨.kwPrint, "print", none, 1⟩], semicolon := ⟨.semicolon, ";", none, 1⟩,
     ends := rfl, plain := by decide, first := by decide, later := by decide },
   { tokens := [⟨.kwNil, "nil", none, 2⟩, ⟨.equal, "=", none, 2⟩, ⟨.kwNil, "nil", none, 2⟩],
     semicolon := ⟨.semicolon, ";", none, 2⟩,
     ends := rfl, plain := by decide, first := by decide, later := by decide },
   { tokens := [], semicolon := ⟨.semicolon, ";", none, 3⟩,
     ends := rfl, plain := by decide, first := by decide, later := by decide }]

/-- `true;`, which is in order. -/
def soundSegment : Segment :=
  { tokens := [⟨.kwTrue, "true", none, 4⟩], semicolon := ⟨.semicolon, ";", none, 4⟩,
    ends := rfl, plain := by decide, first := by decide, later := by decide }

/-- Each of the broken segments has its error, and the brace behind them has one. Segments that are in
order are a program. -/
theorem parse_segments_broken :
    let brace : Token := ⟨.rightBrace, "\x7d", none, 5⟩
    let truth : Stmt := .expression (.literal (.boolean true))
    peek [brace] ≠ .kwElse ∧
    (rejections (parse false (brokenSegments.flatMap Segment.all ++ [brace]))).map
        (fun error => (error.token.line, error.problem)) =
      [(1, .expectedExpression), (2, .invalidTarget), (3, .expectedExpression),
        (5, .expectedExpression)] ∧
    parse true ([soundSegment, soundSegment].flatMap Segment.all ++ soundSegment.tokens) =
      .ok [truth, truth, truth] := by
  intro brace truth
  have hbrace : peek [brace] ≠ .kwElse := by decide
  have hsound : ∀ segment ∈ [soundSegment, soundSegment], parse true segment.all = .ok [truth] := by
    decide +kernel
  refine ⟨hbrace, ?_, (parse_segments true _ soundSegment.tokens (by decide)).2 (fun _ => [truth])
    [truth] hsound (by decide +kernel)⟩
  rw [(parse_segments false brokenSegments [brace] hbrace).1]
  decide +kernel

end LoxLang.Grammar
