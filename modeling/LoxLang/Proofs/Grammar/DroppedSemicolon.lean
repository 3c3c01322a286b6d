import LoxLang.Proofs.Grammar.Breaking
import LoxLang.Proofs.Grammar.Orderly
import LoxLang.Proofs.Grammar.Recognition

/-!
# One semicolon less

A program from which one semicolon is taken has one error at most, wherever the semicolon stood, if
the token behind it is not one that recovery should stop at but passes when it is in front: a brace,
an `else` or an `if` (`dropped_semicolon_breaks_once`). The statement in front breaks there, or goes
on over a `-`; recovery stops behind the next statement, and all around is read as before
(`DerivesStmt.survives`). With a brace behind there may be more: the block that it closes stays open
(`dropped_semicolon_breaks_twice`).
-/

namespace LoxLang.Grammar

variable {α β : Type}

/-! ### One error -/

/-- No error, or one at the place. -/
def OneErrorAt (place : List Token) (errors : List SyntaxError) : Prop :=
  errors = [] ∨ ∃ problem, errors = [⟨currentToken place, problem⟩]

/-- The reply has a result with one error at most, at the place. -/
def Reply.SurvivesAt (reply : Reply α) (place rest : List Token) : Prop :=
  ∃ a errors, reply.Gives (.ok (a, rest)) errors ∧ OneErrorAt place errors

namespace Reply.SurvivesAt

variable {place mid rest : List Token} {a : α}

theorem of_accepts {reply : Reply α} (h : reply.Accepts a rest) : reply.SurvivesAt place rest :=
  ⟨a, [], h.gives, .inl rfl⟩

/-- The error comes after what is accepted. -/
theorem after {first : Reply α} {next : α → List Token → Reply β} (h : first.Accepts a mid)
    (hnext : (next a mid).SurvivesAt place rest) : (first.bind next).SurvivesAt place rest := by
  obtain ⟨b, errors, hgives, herrors⟩ := hnext
  exact ⟨b, errors, h.gives.bind hgives, herrors⟩

/-- The error comes before what is accepted. -/
theorem before {first : Reply α} {next : α → List Token → Reply β}
    (h : first.SurvivesAt place mid) (hnext : ∀ a, ∃ b, (next a mid).Accepts b rest) :
    (first.bind next).SurvivesAt place rest := by
  obtain ⟨a, errors, hgives, herrors⟩ := h
  obtain ⟨b, hb⟩ := hnext a
  exact ⟨b, errors, by simpa using hgives.bind hb.gives, herrors⟩

/-- The error of a conditional comes behind its condition. -/
theorem conditional {trail : Trail} {opening closing : Token} {cs more : List Token}
    {condition : Expr} (hopening : opening.kind = .leftParen)
    (hcondition : DerivesExpr .expression cs condition) (hclosing : closing.kind = .rightParen)
    (h : (branches (.ifStatement :: trail) condition more).SurvivesAt place rest) :
    (ifStatement false trail (opening :: (cs ++ closing :: more))).SurvivesAt place rest := by
  obtain ⟨s, errors, hgives, herrors⟩ := h
  exact ⟨s, errors, gives_ifStatement hopening hcondition hclosing hgives, herrors⟩

end Reply.SurvivesAt

section Statements

variable {inBlock : Bool} {trail : Trail} {tokens mid place rest : List Token} {s : Stmt}
  {body : Program} {errors more : List SyntaxError}

/-- A statement and those after it. -/
theorem gives_statements_cons (hend : endsPassage inBlock tokens = false)
    (hfirst : (declaration false trail tokens).Gives (.ok (s, mid)) errors)
    (hmore : (statements false inBlock trail mid).reply.Gives (.ok (body, rest)) more) :
    (statements false inBlock trail tokens).reply.Gives (.ok (s :: body, rest)) (errors ++ more) := by
  obtain ⟨houtcome, rfl⟩ := hfirst
  obtain ⟨hbody, rfl⟩ := hmore
  simp only [Passage.reply, Except.ok.injEq, Prod.mk.injEq] at hbody
  obtain ⟨rfl, rfl⟩ := hbody
  rw [statements_eq, hend, if_neg Bool.false_ne_true]
  simp only [Reply.andThen, houtcome]
  exact ⟨rfl, rfl⟩

/-- A statement that breaks and those after the place of recovery. -/
theorem gives_statements_skip (hend : endsPassage inBlock tokens = false)
    (hfirst : (declaration false trail tokens).BreaksAt place)
    (hmore : (statements false inBlock trail (recover place)).reply.Accepts body rest) :
    (statements false inBlock trail tokens).reply.SurvivesAt place rest := by
  obtain ⟨problem, houtcome, hreported⟩ := hfirst
  obtain ⟨hbody, hmoreReported⟩ := hmore
  refine ⟨body, [⟨currentToken place, problem⟩], ⟨?_, ?_⟩, .inr ⟨problem, rfl⟩⟩
  · rw [statements_eq, hend, if_neg Bool.false_ne_true]
    simp only [Reply.andThen, houtcome]
    exact hbody
  · rw [statements_eq, hend, if_neg Bool.false_ne_true]
    simp only [Reply.andThen, houtcome, Passage.reply, Passage.skip, hreported, List.nil_append]
    exact congrArg _ hmoreReported

end Statements

/-! ### What may follow -/

/-- The kinds of token that belong to what stands around a broken statement, and that recovery
passes all the same when one is in front. -/
def passedInFront : List TokenKind := [.rightBrace, .leftBrace, .kwElse, .kwIf]

/-- What a declaration begins with is no operator, but for `-`. -/
theorem operator?_of_starts {kind : TokenKind} (h : Rule.declaration.starts kind = true)
    (hminus : kind ≠ .minus) (level : Level) : level.operator? kind = none := by
  cases hop : level.operator? kind with
  | none => rfl
  | some op =>
    cases (level.infix_iff kind op).mpr hop with
    | minus => exact absurd rfl hminus
    | _ => exact absurd h (by decide)

/-- A declaration that begins with `-` is an expression and a semicolon. -/
theorem DerivesStmt.of_minus {rule : Rule} {ts : List Token} {s : Stmt} (h : DerivesStmt rule ts s)
    (hminus : peek ts = .minus) :
    ∃ minus us semicolon e, ts = minus :: (us ++ [semicolon]) ∧ minus.kind = .minus ∧
      DerivesExpr .expression (minus :: us) e ∧ semicolon.kind = .semicolon := by
  induction h with
  | choice _ _ ih => exact ih hminus
  | declare hkeyword | define hkeyword | conditional hkeyword | alternative hkeyword
    | print hkeyword => simp [peek, hkeyword] at hminus
  | body hopening => simp [peek, hopening] at hminus
  | @expression semicolon ts value hvalue hsemicolon =>
    obtain ⟨minus, us, rfl, -⟩ := hvalue.first
    exact ⟨minus, us, semicolon, value, rfl, hminus, hvalue, hsemicolon⟩

/-! ### The statement that loses its last semicolon -/

/-- Declarations one after the other, each in order on its own, are in order. -/
theorem accepts_parts {inBlock : Bool} {rest : List Token}
    (hend : endsPassage inBlock rest = true) (trail : Trail) {parts : List (List Token × Stmt)}
    (hparts : ∀ part ∈ parts, DerivesStmt .declaration part.1 part.2 ∧ part.2.ElseNearest) :
    (statements false inBlock trail (parts.flatMap Prod.fst ++ rest)).reply.Accepts
        (parts.map Prod.snd) rest ∧
      peek (parts.flatMap Prod.fst ++ rest) ≠ .kwElse :=
  accepts_statements_of_parts hend trail parts fun part hpart =>
    ⟨(hparts part hpart).1, (hparts part hpart).1.completes (hparts part hpart).2⟩

theorem peek_append {ts : List Token} (hne : ts ≠ []) (more : List Token) :
    peek (ts ++ more) = peek ts := by
  cases ts with
  | nil => exact absurd rfl hne
  | cons token ts => rfl

/-- What follows a declaration in its passage: the end of the passage, or another declaration. -/
theorem peek_parts {inBlock : Bool} {rest : List Token} (hend : endsPassage inBlock rest = true)
    {parts : List (List Token × Stmt)}
    (hparts : ∀ part ∈ parts, DerivesStmt .declaration part.1 part.2 ∧ part.2.ElseNearest) :
    peek (parts.flatMap Prod.fst ++ rest) ∈ [.eof, .rightBrace] ∨
      Rule.declaration.starts (peek (parts.flatMap Prod.fst ++ rest)) = true := by
  cases parts with
  | nil =>
    have hrest : peek rest = .eof ∨ inBlock = true ∧ peek rest = .rightBrace := by
      simpa [endsPassage, atEnd] using hend
    exact .inl (by simpa using hrest.imp_right And.right)
  | cons part parts =>
    obtain ⟨first, more, hfirst, hstarts⟩ := (hparts part List.mem_cons_self).1.first
    rw [List.flatMap_cons, hfirst]
    exact .inr hstarts

/-- A statement that ends in an expression goes on over the `-` behind it. -/
theorem statements_join {inBlock : Bool} {rest ts : List Token} {s : Stmt} {semicolon : Token}
    {parts : List (List Token × Stmt)} (hend : endsPassage inBlock rest = true)
    (hs : DerivesStmt .declaration (ts ++ [semicolon]) s) (hs' : ∀ name, s ≠ .declare name none)
    (hsemicolon : semicolon.kind = .semicolon)
    (hparts : ∀ part ∈ parts, DerivesStmt .declaration part.1 part.2 ∧ part.2.ElseNearest)
    (hminus : peek (parts.flatMap Prod.fst ++ rest) = .minus) (trail : Trail) :
    ∃ body, (statements false inBlock trail (ts ++ (parts.flatMap Prod.fst ++ rest))).reply.Accepts
      body rest := by
  cases parts with
  | nil =>
    rw [List.flatMap_nil, List.nil_append] at hminus
    simp [endsPassage, atEnd, hminus] at hend
  | cons part parts =>
    obtain ⟨part, t⟩ := part
    obtain ⟨⟨hpart, -⟩, hmore⟩ := List.forall_mem_cons.mp hparts
    rw [List.flatMap_cons, List.append_assoc, peek_append hpart.ne_nil] at hminus
    obtain ⟨minus, us, last, right, rfl, hkind, hright, hlast⟩ := hpart.of_minus hminus
    rcases hs.join hkind hright hlast ts semicolon rfl hsemicolon with ⟨name, rfl⟩ | ⟨joined, hjoined⟩
    · exact absurd rfl (hs' name)
    · obtain ⟨tree, htree, hnearest⟩ := hjoined.exists_elseNearest
      have hothers : ∀ part ∈ (ts ++ (minus :: us ++ [last]), tree) :: parts,
          DerivesStmt .declaration part.1 part.2 ∧ part.2.ElseNearest :=
        List.forall_mem_cons.mpr ⟨⟨htree, hnearest⟩, hmore⟩
      exact ⟨_, by simpa using (accepts_parts hend trail hothers).1⟩

/-- After a failure in front of the others, all but the first of them are read. -/
theorem accepts_recovered {inBlock : Bool} {rest : List Token} {parts : List (List Token × Stmt)}
    (hend : endsPassage inBlock rest = true)
    (hparts : ∀ part ∈ parts, DerivesStmt .declaration part.1 part.2 ∧ part.2.ElseNearest)
    (hnext : peek (parts.flatMap Prod.fst ++ rest) ∉ passedInFront) (trail : Trail) :
    ∃ body, (statements false inBlock trail
      (recover (parts.flatMap Prod.fst ++ rest))).reply.Accepts body rest := by
  cases parts with
  | nil =>
    rw [List.flatMap_nil, List.nil_append] at hnext ⊢
    have hbrace : peek rest ≠ .rightBrace := fun hbrace => hnext (by rw [hbrace]; decide)
    have hatEnd : atEnd rest = true := by simpa [endsPassage, hbrace] using hend
    rw [recover_of_atEnd hatEnd]
    exact ⟨[], accepts_statements_iff.mpr (.inl ⟨hend, rfl, rfl⟩)⟩
  | cons part parts =>
    obtain ⟨⟨hpart, -⟩, hmore⟩ := List.forall_mem_cons.mp hparts
    rw [List.flatMap_cons, List.append_assoc] at hnext ⊢
    rw [peek_append hpart.ne_nil] at hnext
    have hsimple : peek part.1 ∉ [.kwIf, .leftBrace] := fun hmem =>
      hnext (by simp only [passedInFront, List.mem_cons] at hmem ⊢; tauto)
    rw [recover_simple hpart hsimple]
    exact ⟨_, (accepts_parts hend trail hmore).1⟩

/-- **The statement breaks once**, or goes on over a `-`; either way those after it are read. -/
theorem statements_break {inBlock : Bool} {rest ts : List Token} {s : Stmt} {semicolon : Token}
    {parts : List (List Token × Stmt)} (hend : endsPassage inBlock rest = true)
    (hs : DerivesStmt .declaration (ts ++ [semicolon]) s) (hnearest : s.ElseNearest)
    (hsemicolon : semicolon.kind = .semicolon)
    (hparts : ∀ part ∈ parts, DerivesStmt .declaration part.1 part.2 ∧ part.2.ElseNearest)
    (hnext : peek (parts.flatMap Prod.fst ++ rest) ∉ passedInFront) (trail : Trail) :
    (statements false inBlock trail (ts ++ (parts.flatMap Prod.fst ++ rest))).reply.SurvivesAt
      (parts.flatMap Prod.fst ++ rest) rest := by
  have hpeek : peek (parts.flatMap Prod.fst ++ rest) = .eof ∨
      Rule.declaration.starts (peek (parts.flatMap Prod.fst ++ rest)) = true := by
    refine (peek_parts hend hparts).imp_left fun hend => ?_
    simp only [List.mem_cons, List.not_mem_nil, or_false] at hend
    exact hend.resolve_right fun hbrace => hnext (by rw [hbrace]; decide)
  by_cases hjoin : peek (parts.flatMap Prod.fst ++ rest) = .minus ∧ ∀ name, s ≠ .declare name none
  · obtain ⟨body, haccepts⟩ :=
      statements_join hend hs hjoin.2 hsemicolon hparts hjoin.1 trail
    exact .of_accepts haccepts
  · obtain ⟨first, more, rfl, hfirst⟩ := hs.exists_cons rfl hsemicolon
    have hbreaks : (declaration false trail (first :: more ++ (parts.flatMap Prod.fst ++ rest))).BreaksAt
        (parts.flatMap Prod.fst ++ rest) := by
      refine hs.breaks hnearest ?_ ?_ ?_ _ semicolon rfl hsemicolon trail _ (.declaration trail _)
      · by_cases hdeclare : ∃ name, s = .declare name none
        · exact .inl hdeclare
        · have hminus : peek (parts.flatMap Prod.fst ++ rest) ≠ .minus := fun hminus =>
            hjoin ⟨hminus, fun name hname => hdeclare ⟨name, hname⟩⟩
          refine .inr fun level => ?_
          rcases hpeek with heof | hstarts
          · rw [heof]
            cases level <;> rfl
          · exact operator?_of_starts hstarts hminus level
      · rintro hequal
        rw [hequal] at hpeek
        exact absurd hpeek (by decide)
      · rintro hmissing
        rw [hmissing] at hpeek
        exact absurd hpeek (by decide)
    obtain ⟨body, haccepts⟩ := accepts_recovered hend hparts hnext trail
    exact gives_statements_skip (endsPassage_of_starts hfirst inBlock) hbreaks haccepts

/-! ### The statements around it -/

/-- A statement that loses a semicolon within is read up to its end, with one error at most. -/
def Rule.Survives (rule : Rule) (tokens : List Token) (s : Stmt) : Prop :=
  ∀ earlier semicolon later, tokens = earlier ++ semicolon :: later → semicolon.kind = .semicolon →
    later ≠ [] → peek later ∉ passedInFront → ∀ rest trail reply, StmtEnd s rest →
      Reads rule trail (earlier ++ (later ++ rest)) reply → reply.SurvivesAt (later ++ rest) rest

/-- A simple statement has no semicolon but its last. -/
theorem eq_nil_of_simple {front earlier later : List Token} {last semicolon : Token}
    (h : front ++ [last] = earlier ++ semicolon :: later)
    (hfront : ∀ token ∈ front, token.kind ≠ .semicolon) (hsemicolon : semicolon.kind = .semicolon) :
    later = [] := by
  by_contra hne
  obtain ⟨us, -, hus⟩ := exists_last_of_append
    (show (earlier ++ [semicolon]) ++ later = front ++ [last] by simp [h]) hne
  exact hfront semicolon (by simp [hus]) hsemicolon

theorem DerivesExpr.ne_semicolon {rule : Rule} {ts : List Token} {e : Expr}
    (h : DerivesExpr rule ts e) : ∀ token ∈ ts, token.kind ≠ .semicolon :=
  fun token htoken => ne_of_inExpr (h.inExpr token htoken) rfl

/-- A token is among the first of two lists, or among the second. -/
theorem split_at_token {front behind earlier later : List Token} {token : Token}
    (h : front ++ behind = earlier ++ token :: later) :
    (∃ us, front = earlier ++ token :: us ∧ later = us ++ behind) ∨
      ∃ us, earlier = front ++ us ∧ behind = us ++ token :: later := by
  rcases List.append_eq_append_iff.mp h with ⟨us, hearlier, hbehind⟩ | ⟨us, hfront, hlater⟩
  · exact .inr ⟨us, hearlier, hbehind⟩
  · cases us with
    | nil => exact .inr ⟨[], by simpa using hfront.symm, by simpa using hlater.symm⟩
    | cons first us =>
      obtain ⟨rfl, hbehind⟩ := List.cons.inj hlater
      exact .inl ⟨us, hfront, hbehind⟩

/-- A semicolon is behind tokens that are none. -/
theorem exists_behind {front behind earlier later : List Token} {semicolon : Token}
    (h : front ++ behind = earlier ++ semicolon :: later)
    (hfront : ∀ token ∈ front, token.kind ≠ .semicolon) (hsemicolon : semicolon.kind = .semicolon) :
    ∃ us, earlier = front ++ us ∧ behind = us ++ semicolon :: later := by
  refine (split_at_token h).resolve_left ?_
  rintro ⟨us, rfl, -⟩
  exact hfront semicolon (by simp) hsemicolon

/-- A semicolon of a conditional is behind the condition. -/
theorem exists_behind_condition {keyword opening closing semicolon : Token}
    {cs behind earlier later : List Token} {condition : Expr} (hkeyword : keyword.kind = .kwIf)
    (hopening : opening.kind = .leftParen) (hcondition : DerivesExpr .expression cs condition)
    (hclosing : closing.kind = .rightParen) (hsemicolon : semicolon.kind = .semicolon)
    (h : keyword :: opening :: (cs ++ closing :: behind) = earlier ++ semicolon :: later) :
    ∃ us, earlier = keyword :: opening :: (cs ++ closing :: us) ∧
      behind = us ++ semicolon :: later := by
  have hfront : ∀ token ∈ keyword :: opening :: (cs ++ [closing]), token.kind ≠ .semicolon := by
    simp only [List.forall_mem_cons, List.forall_mem_append]
    exact ⟨by simp [hkeyword], by simp [hopening], hcondition.ne_semicolon, by simp [hclosing]⟩
  simpa using exists_behind
    (show (keyword :: opening :: (cs ++ [closing])) ++ behind = earlier ++ semicolon :: later by
      simpa using h) hfront hsemicolon

/-- **A passage that loses a semicolon** is read up to its end, with one error at most. -/
theorem statements_survive {inBlock : Bool} {rest : List Token}
    (hend : endsPassage inBlock rest = true) (trail : Trail) (parts : List (List Token × Stmt))
    (hparts : ∀ part ∈ parts, (DerivesStmt .declaration part.1 part.2 ∧ part.2.ElseNearest) ∧
      Rule.declaration.Survives part.1 part.2) :
    ∀ earlier semicolon later, parts.flatMap Prod.fst = earlier ++ semicolon :: later →
      semicolon.kind = .semicolon → peek (later ++ rest) ∉ passedInFront →
      (statements false inBlock trail (earlier ++ (later ++ rest))).reply.SurvivesAt (later ++ rest)
        rest := by
  induction parts with
  | nil => simp
  | cons part parts ih =>
    obtain ⟨ts, s⟩ := part
    obtain ⟨⟨⟨hs, hnearest⟩, hsurvives⟩, hmore⟩ := List.forall_mem_cons.mp hparts
    have hothers : ∀ part ∈ parts, DerivesStmt .declaration part.1 part.2 ∧ part.2.ElseNearest :=
      fun part hpart => (hmore part hpart).1
    obtain ⟨hmoreAccepts, hmoreElse⟩ := accepts_parts hend trail hothers
    intro earlier semicolon later htokens hsemicolon hnext
    rw [List.flatMap_cons] at htokens
    rcases split_at_token htokens with ⟨us, rfl, rfl⟩ | ⟨us, rfl, hflat⟩
    · by_cases hus : us = []
      · subst hus
        exact statements_break hend hs hnearest hsemicolon hothers hnext trail
      · -- The statement itself goes on behind the semicolon.
        obtain ⟨first, more, rfl, hstarts⟩ := hs.exists_cons rfl hsemicolon
        simp only [List.append_assoc] at hnext ⊢
        rw [peek_append hus] at hnext
        obtain ⟨t, errors, hgives, herrors⟩ := hsurvives _ semicolon us rfl hsemicolon hus hnext _
          trail _ (fun _ => hmoreElse) (.declaration trail _)
        refine ⟨t :: parts.map Prod.snd, errors, ?_, herrors⟩
        simpa using gives_statements_cons (endsPassage_of_starts hstarts inBlock) hgives
          hmoreAccepts.gives
    · -- One of the statements behind it loses the semicolon.
      have helse : peek (us ++ (later ++ rest)) ≠ .kwElse := by
        cases us with
        | nil => exact fun helse => hnext (by rw [← List.nil_append (later ++ rest), helse]; decide)
        | cons token us => simpa [hflat, peek] using hmoreElse
      obtain ⟨body, errors, hgives, herrors⟩ :=
        ih hmore us semicolon later hflat hsemicolon hnext
      have hfirst : (declaration false trail (ts ++ (us ++ (later ++ rest)))).Accepts s _ :=
        hs.completes hnearest trail _ fun _ => helse
      obtain ⟨first, more, rfl, hstarts⟩ := hs.first
      refine ⟨s :: body, errors, ?_, herrors⟩
      rw [List.append_assoc]
      exact gives_statements_cons (endsPassage_of_starts hstarts inBlock) hfirst.gives hgives

theorem DerivesStmt.survives {rule : Rule} {tokens : List Token} {s : Stmt}
    (h : DerivesStmt rule tokens s) (hnearest : s.ElseNearest) : rule.Survives tokens s := by
  induction h with
  | choice hchoice hchosen ih =>
    intro earlier semicolon later htokens hsemicolon hne hnext rest trail reply hend hreads
    obtain ⟨first, more, rfl, hfirst⟩ := hchosen.exists_cons htokens hsemicolon
    exact ih hnearest _ semicolon later htokens hsemicolon hne hnext rest _ reply hend
      (hreads.choose hchoice hfirst)
  | @declare keyword name last hkeyword hname _ =>
    intro earlier semicolon later htokens hsemicolon hne
    refine absurd (eq_nil_of_simple (show [keyword, name] ++ [last] = _ from htokens) ?_ hsemicolon)
      hne
    simp [hkeyword, hname]
  | @define keyword name equals last es initial hkeyword hname hequals hinitial _ =>
    intro earlier semicolon later htokens hsemicolon hne
    refine absurd (eq_nil_of_simple
      (show (keyword :: name :: equals :: es) ++ [last] = _ from htokens) ?_ hsemicolon) hne
    simpa [hkeyword, hname, hequals] using hinitial.ne_semicolon
  | @print keyword last es value hkeyword hvalue _ =>
    intro earlier semicolon later htokens hsemicolon hne
    refine absurd (eq_nil_of_simple (show (keyword :: es) ++ [last] = _ from htokens) ?_ hsemicolon)
      hne
    simpa [hkeyword] using hvalue.ne_semicolon
  | expression hvalue _ =>
    intro earlier semicolon later htokens hsemicolon hne
    exact absurd (eq_nil_of_simple htokens hvalue.ne_semicolon hsemicolon) hne
  | @conditional keyword opening closing cs yes condition _ hkeyword hopening hcondition hclosing
      hyes ih =>
    intro earlier semicolon later htokens hsemicolon hne hnext rest trail reply hend hreads
    obtain ⟨us, rfl, rfl⟩ :=
      exists_behind_condition hkeyword hopening hcondition hclosing hsemicolon htokens
    cases hnearest with
    | conditional hnearest =>
      have helse : peek rest ≠ .kwElse := hend rfl
      simp only [List.cons_append, List.append_assoc] at hreads
      cases hreads
      refine .conditional hopening hcondition hclosing ?_
      refine (ih hnearest us semicolon later rfl hsemicolon hne hnext rest _ _ (fun _ => helse)
        (.statement _ _)).before fun tree => ?_
      cases rest with
      | nil => exact ⟨_, accepts_done_iff.mpr ⟨rfl, rfl⟩⟩
      | cons other more =>
        have hother : other.kind ≠ .kwElse := helse
        simp only [hother, ↓reduceIte]
        exact ⟨_, accepts_done_iff.mpr ⟨rfl, rfl⟩⟩
  | @alternative keyword opening closing other cs yes no condition yesTree noTree hkeyword hopening
      hcondition hclosing hyes hother hno ihyes ihno =>
    intro earlier semicolon later htokens hsemicolon hne hnext rest trail reply hend hreads
    obtain ⟨us, rfl, hbranches⟩ :=
      exists_behind_condition hkeyword hopening hcondition hclosing hsemicolon htokens
    cases hnearest with
    | alternative hclosed hyesNearest hnoNearest =>
      have hopen : ∀ more, StmtEnd yesTree more := fun more => by simp [StmtEnd, hclosed]
      simp only [List.cons_append, List.append_assoc] at hreads
      cases hreads
      refine .conditional hopening hcondition hclosing ?_
      rcases split_at_token hbranches with ⟨vs, rfl, rfl⟩ | ⟨vs, rfl, hvs⟩
      · -- The first branch loses the semicolon, and not its last, as `else` is not behind it.
        have hvs : vs ≠ [] := by
          rintro rfl
          exact hnext (by rw [List.nil_append, peek, hother]; decide)
        rw [peek_append hvs] at hnext
        simp only [List.append_assoc, List.cons_append]
        refine (ihyes hyesNearest us semicolon vs rfl hsemicolon hvs hnext _ _ _ (hopen _)
          (.statement _ _)).before fun tree => ?_
        simp only [hother, ↓reduceIte]
        exact ⟨_, accepts_bind_iff.mpr ⟨noTree, rest, hno.completes hnoNearest _ rest hend,
          accepts_done_iff.mpr ⟨rfl, rfl⟩⟩⟩
      · cases vs with
        | nil =>
          obtain ⟨rfl, -⟩ := List.cons.inj hvs
          simp [hother] at hsemicolon
        | cons first vs =>
          obtain ⟨rfl, rfl⟩ := List.cons.inj hvs
          simp only [List.append_assoc, List.cons_append]
          refine .after (hyes.completes hyesNearest _ _ (hopen _)) ?_
          simp only [hother, ↓reduceIte]
          refine (ihno hnoNearest vs semicolon later rfl hsemicolon hne hnext rest _ _ hend
            (.statement _ _)).before fun tree => ?_
          exact ⟨_, accepts_done_iff.mpr ⟨rfl, rfl⟩⟩
  | @body opening closing parts hopening hparts hclosing ih =>
    intro earlier semicolon later htokens hsemicolon hne hnext rest trail reply hend hreads
    obtain ⟨us, rfl, hbody⟩ := exists_behind
      (show [opening] ++ (parts.flatMap Prod.fst ++ [closing]) = earlier ++ semicolon :: later from
        htokens) (by simp [hopening]) hsemicolon
    cases hnearest with
    | block hnearest =>
      rcases split_at_token hbody with ⟨vs, hflat, rfl⟩ | ⟨vs, rfl, hvs⟩
      · have hclosed : endsPassage true (closing :: rest) = true := by
          simp [endsPassage, peek, hclosing]
        have hclosingNext : vs ++ [closing] ++ rest = vs ++ closing :: rest := by simp
        have hbodyNext : peek (vs ++ closing :: rest) ∉ passedInFront := by
          rwa [← hclosingNext, peek_append hne]
        have hsurvives := statements_survive hclosed (.block :: trail) parts
          (fun part hpart => ⟨⟨hparts part hpart, hnearest _ (List.mem_map_of_mem hpart)⟩,
            ih part hpart (hnearest _ (List.mem_map_of_mem hpart))⟩)
          us semicolon vs hflat hsemicolon hbodyNext
        simp only [List.cons_append, List.nil_append, hclosingNext] at hreads ⊢
        cases hreads
        rw [block_eq]
        refine hsurvives.before fun body => ⟨.block body, accepts_bind_iff.mpr ⟨closing, rest, ?_, ?_⟩⟩
        · exact accepts_expect_iff.mpr ⟨rfl, hclosing⟩
        · exact accepts_done_iff.mpr ⟨rfl, rfl⟩
      · cases vs with
        | nil =>
          obtain ⟨rfl, -⟩ := List.cons.inj hvs
          simp [hclosing] at hsemicolon
        | cons first vs => simp at hvs

/-! ### Programs -/

/-- What stands behind an end token, and what is taken from there, counts for nothing. -/
theorem parse_dropped_behind_eof {earlier later : List Token} {token : Token}
    (heof : ∃ last ∈ earlier, last.kind = .eof) (lenient : Bool) :
    parse lenient (earlier ++ later) = parse lenient (earlier ++ token :: later) := by
  obtain ⟨last, hlast, hkind⟩ := heof
  obtain ⟨front, behind, rfl⟩ := List.append_of_mem hlast
  rw [← parse_upToEnd, ← parse_upToEnd lenient (front ++ last :: behind ++ token :: later)]
  simp only [List.append_assoc, List.cons_append]
  rw [upToEnd_append_eof front (behind ++ later) hkind,
    upToEnd_append_eof front (behind ++ token :: later) hkind]

/-- **A program that loses one semicolon has one error at most**, at the token behind, if that is no
brace, no `else` and no `if`. -/
theorem dropped_semicolon_breaks_once {earlier later : List Token} {semicolon : Token}
    {body : Program} (hsemicolon : semicolon.kind = .semicolon)
    (hbody : parse false (earlier ++ semicolon :: later) = .ok body)
    (hnext : peek later ∉ passedInFront) :
    (∃ body', parse false (earlier ++ later) = .ok body') ∨
      ∃ problem, parse false (earlier ++ later) = .error [⟨currentToken later, problem⟩] := by
  by_cases heof : ∃ last ∈ earlier, last.kind = .eof
  · exact .inl ⟨body, (parse_dropped_behind_eof heof false).trans hbody⟩
  · have hne : ∀ token ∈ earlier ++ semicolon :: beforeEnd later, token.kind ≠ .eof := by
      simp only [List.forall_mem_append, List.forall_mem_cons]
      exact ⟨fun token htoken hkind => heof ⟨token, htoken, hkind⟩, by simp [hsemicolon],
        ne_eof_of_mem_beforeEnd⟩
    have hbefore : beforeEnd (earlier ++ semicolon :: later) =
        earlier ++ semicolon :: beforeEnd later := by
      conv_lhs => rw [← beforeEnd_append_fromEnd later, ← List.cons_append, ← List.append_assoc]
      exact beforeEnd_append hne (atEnd_fromEnd later)
    obtain ⟨⟨parts, hparts, hflat, rfl⟩, hnearest⟩ := parse_eq_ok_iff_derivesProgram.mp hbody
    have hend : endsPassage false (fromEnd later) = true :=
      endsPassage_of_atEnd (atEnd_fromEnd later)
    have hsurvives := statements_survive hend [.program] parts
      (fun part hpart => ⟨⟨hparts part hpart, hnearest _ (List.mem_map_of_mem hpart)⟩,
        (hparts part hpart).survives (hnearest _ (List.mem_map_of_mem hpart))⟩)
      earlier semicolon (beforeEnd later) (hflat.symm.trans hbefore) hsemicolon
      (by rwa [beforeEnd_append_fromEnd])
    rw [beforeEnd_append_fromEnd] at hsurvives
    obtain ⟨body', errors, ⟨-, hreported⟩, rfl | ⟨problem, rfl⟩⟩ := hsurvives
    · exact .inl ⟨_, parse_eq_ok_iff.mpr ⟨hreported, rfl⟩⟩
    · exact .inr ⟨problem, parse_eq_error_iff.mpr ⟨hreported, List.cons_ne_nil _ _⟩⟩

/-- The front of a block, up to the end of its first expression. -/
def blockFront : List Token := [⟨.leftBrace, "\x7b", none, 1⟩, ⟨.kwTrue, "true", none, 1⟩]

def semicolonToken : Token := ⟨.semicolon, ";", none, 1⟩

def braceToken : Token := ⟨.rightBrace, "\x7d", none, 2⟩

/-- The rest of a block behind the semicolon of its first statement. -/
def printBehind : List Token :=
  [⟨.kwPrint, "print", none, 2⟩, ⟨.kwNil, "nil", none, 2⟩, semicolonToken, braceToken]

/-- In `{ true; print nil; }` the first statement breaks alone. -/
theorem dropped_semicolon_breaks_once_print :
    parse false (blockFront ++ semicolonToken :: printBehind) =
      .ok [.block [.expression (.literal (.boolean true)), .print (.literal .nil)]] ∧
    peek printBehind ∉ passedInFront ∧
    ((∃ body, parse false (blockFront ++ printBehind) = .ok body) ∨
      ∃ problem, parse false (blockFront ++ printBehind) =
        .error [⟨currentToken printBehind, problem⟩]) := by
  have hbody : parse false (blockFront ++ semicolonToken :: printBehind) =
      .ok [.block [.expression (.literal (.boolean true)), .print (.literal .nil)]] := by
    decide +kernel
  have hnext : peek printBehind ∉ passedInFront := by decide
  exact ⟨hbody, hnext, dropped_semicolon_breaks_once rfl hbody hnext⟩

/-- In `{ true; }` it does not: behind `true` the brace is passed, and the block stays open. -/
theorem dropped_semicolon_breaks_twice :
    parse false (blockFront ++ semicolonToken :: [braceToken]) =
      .ok [.block [.expression (.literal (.boolean true))]] ∧
    parse false (blockFront ++ [braceToken]) =
      .error [⟨braceToken, .expectedValueEnd⟩, ⟨currentToken [], .expectedBlockClose⟩] := by
  decide +kernel

end LoxLang.Grammar
