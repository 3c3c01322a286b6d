import LoxLang.Proofs.Grammar.Leniency
import LoxLang.Proofs.Grammar.Progress
import LoxLang.Proofs.Grammar.Recognition

/-!
# Lenient reading adds one semicolon

What a lenient reading accepts is accepted by a strict one as well, or else it ends at the end of
all tokens, and with a semicolon there the grammar derives it (`StmtCall.lenient`). Together with
the errors, which are the same but for one (`program_relaxed`), this says all that lenience does
(`lenient_reading_adds_semicolon`).
-/

namespace LoxLang.Grammar

/-! ### What is accepted -/

/-- The statement reaches to the end of all tokens, and is derived once a semicolon is added there. -/
def Spared (derives : List Token → Stmt → Prop) (tokens : List Token) (s : Stmt)
    (rest : List Token) : Prop :=
  atEnd rest = true ∧ ∃ taken, tokens = taken ++ rest ∧ s.ElseNearest ∧
    ∀ semicolon : Token, semicolon.kind = .semicolon → derives (taken ++ [semicolon]) s

theorem Spared.imp {derives derives' : List Token → Stmt → Prop} {tokens rest : List Token}
    {s : Stmt} (h : Spared derives tokens s rest)
    (himp : ∀ taken, derives taken s → derives' taken s) : Spared derives' tokens s rest := by
  obtain ⟨hend, taken, htaken, hnearest, hderives⟩ := h
  exact ⟨hend, taken, htaken, hnearest, fun semicolon h => himp _ (hderives semicolon h)⟩

/-- A token in front that has been taken already. -/
theorem Spared.cons {derives derives' : List Token → Stmt → Prop} {tokens rest : List Token}
    {s : Stmt} {token : Token} (h : Spared derives tokens s rest)
    (himp : ∀ taken, derives taken s → derives' (token :: taken) s) :
    Spared derives' (token :: tokens) s rest := by
  obtain ⟨hend, taken, rfl, hnearest, hderives⟩ := h
  exact ⟨hend, token :: taken, rfl, hnearest, fun semicolon h => himp _ (hderives semicolon h)⟩

theorem expressionStatement_lenient {trail : Trail} {tokens rest : List Token} {s : Stmt}
    (h : (expressionStatement true trail tokens).Accepts s rest) :
    (expressionStatement false trail tokens).Accepts s rest ∨
      Spared (DerivesStmt .expressionStatement) tokens s rest := by
  obtain ⟨value, mid, hvalue, rfl, ⟨-, hend, rfl⟩ | hsemicolon⟩ :=
    accepts_expressionStatement_iff.mp h
  · obtain ⟨taken, rfl, hderives⟩ := derivesExpr_of_accepts hvalue
    exact .inr ⟨hend, taken, rfl, .expression, fun semicolon h => .expression hderives h⟩
  · exact .inl (accepts_expressionStatement_iff.mpr ⟨value, mid, hvalue, rfl, .inr hsemicolon⟩)

/-- A call that accepts leniently accepts strictly too, or with a semicolon at the end. No closed
block needs one. -/
def StmtCall.Lenient : StmtCall → List Token → Prop
  | .declaration, tokens => ∀ trail s rest,
    (Grammar.declaration true trail tokens).Accepts s rest →
      (Grammar.declaration false trail tokens).Accepts s rest ∨
        Spared (DerivesStmt .declaration) tokens s rest
  | .statement, tokens => ∀ trail s rest, (Grammar.statement true trail tokens).Accepts s rest →
    (Grammar.statement false trail tokens).Accepts s rest ∨
      Spared (DerivesStmt .statement) tokens s rest
  | .ifStatement, tokens => ∀ trail s rest,
    (Grammar.ifStatement true trail tokens).Accepts s rest →
      (Grammar.ifStatement false trail tokens).Accepts s rest ∨
        ∀ keyword : Token, keyword.kind = .kwIf →
          Spared (fun taken => DerivesStmt .ifStatement (keyword :: taken)) tokens s rest
  | .block, tokens => ∀ trail s rest, (Grammar.block true trail tokens).Accepts s rest →
    (Grammar.block false trail tokens).Accepts s rest
  | .statements inBlock, tokens => ∀ trail body rest,
    (Grammar.statements true inBlock trail tokens).reply.Accepts body rest →
      (Grammar.statements false inBlock trail tokens).reply.Accepts body rest ∨
        atEnd rest = true ∧ ∃ taken, tokens = taken ++ rest ∧ Program.ElseNearest body ∧
          ∀ semicolon : Token, semicolon.kind = .semicolon →
            DerivesProgram (taken ++ [semicolon]) body

theorem StmtCall.lenient : ∀ (call : StmtCall) (tokens : List Token), call.Lenient tokens := by
  apply StmtCall.induct
  intro call tokens shorter lower
  cases call with
  | declaration =>
    intro trail s rest h
    obtain ⟨hvar, hstatement⟩ | hvar := accepts_declaration_iff.mp h
    · refine (lower .statement tokens rfl (by simp [rank]) _ s rest hstatement).imp ?_ ?_
      · exact fun hstrict => accepts_declaration_iff.mpr (.inl ⟨hvar, hstrict⟩)
      · exact fun hspared => hspared.imp fun _ => .choice .statement
    · exact .inl (accepts_declaration_iff.mpr (.inr hvar))
  | statement =>
    intro trail s rest h
    obtain ⟨hother, hexpression⟩ |
      ⟨keyword, after, rfl, ⟨hkeyword, hstmt⟩ | ⟨hkeyword, hstmt⟩ | ⟨hkeyword, hstmt⟩⟩ :=
      accepts_statement_iff.mp h
    · refine (expressionStatement_lenient hexpression).imp ?_ ?_
      · exact fun hstrict => accepts_statement_iff.mpr (.inl ⟨hother, hstrict⟩)
      · exact fun hspared => hspared.imp fun _ => .choice .expressionStatement
    · refine (shorter .ifStatement after (by simp) _ s rest hstmt).imp ?_ ?_
      · exact fun hstrict => accepts_statement_iff.mpr
          (.inr ⟨keyword, after, rfl, .inl ⟨hkeyword, hstrict⟩⟩)
      · exact fun hspared => (hspared keyword hkeyword).cons fun _ => .choice .ifStatement
    · exact .inl (accepts_statement_iff.mpr
        (.inr ⟨keyword, after, rfl, .inr (.inl ⟨hkeyword, hstmt⟩)⟩))
    · have hstrict := shorter .block after (by simp) _ s rest hstmt
      exact .inl (accepts_statement_iff.mpr
        (.inr ⟨keyword, after, rfl, .inr (.inr ⟨hkeyword, hstrict⟩)⟩))
  | ifStatement =>
    intro trail s rest h
    obtain ⟨opening, after, condition, closing, mid, yes, others, rfl, hopening, hcondition,
      hclosing, hyes, hbranch⟩ := accepts_ifStatement_iff.mp h
    obtain ⟨ts, rfl, hts⟩ := derivesExpr_of_accepts hcondition
    rcases shorter .statement mid (by simp; omega) _ yes others hyes with
      hstrict | ⟨hend, us, rfl, hnearest, hus⟩
    · obtain ⟨us, rfl, hus, hnearest, helse⟩ := StmtCall.sound .statement mid _ yes others hstrict
      obtain ⟨hother, rfl, rfl⟩ | ⟨other, more, no, rfl, hother, hno, rfl⟩ := hbranch
      · exact .inl (accepts_ifStatement_iff.mpr ⟨opening, _, condition, closing, _, yes, _, rfl,
          hopening, hcondition, hclosing, hstrict, .inl ⟨hother, rfl, rfl⟩⟩)
      · rcases shorter .statement more (by simp; omega) _ no rest hno with
          hstrict' | ⟨hend, vs, rfl, hnearest', hvs⟩
        · exact .inl (accepts_ifStatement_iff.mpr ⟨opening, _, condition, closing, _, yes, _, rfl,
            hopening, hcondition, hclosing, hstrict, .inr ⟨other, more, no, rfl, hother, hstrict',
              rfl⟩⟩)
        · refine .inr fun keyword hkeyword => ⟨hend, opening :: (ts ++ closing :: (us ++ other :: vs)),
            by simp, ?_, fun semicolon hsemicolon => ?_⟩
          · exact .alternative (eq_false_of_ne_true fun hopen => helse hopen hother) hnearest
              hnearest'
          · simpa using DerivesStmt.alternative hkeyword hopening hts hclosing hus hother
              (hvs semicolon hsemicolon)
    · -- At the end no `else` follows.
      obtain ⟨-, rfl, rfl⟩ | ⟨other, more, no, rfl, hother, -⟩ := hbranch
      · refine .inr fun keyword hkeyword => ⟨hend, opening :: (ts ++ closing :: us), by simp,
          .conditional hnearest, fun semicolon hsemicolon => ?_⟩
        simpa using DerivesStmt.conditional hkeyword hopening hts hclosing (hus semicolon hsemicolon)
      · simp [atEnd, peek, hother] at hend
  | block =>
    intro trail s rest h
    obtain ⟨body, closing, hbody, hclosing, rfl⟩ := accepts_block_iff.mp h
    rcases lower (.statements true) tokens rfl (by simp only [rank]; split <;> omega) _ body _ hbody
      with hstrict | ⟨hend, -⟩
    · exact accepts_block_iff.mpr ⟨body, closing, hstrict, hclosing, rfl⟩
    · simp [atEnd, peek, hclosing] at hend
  | statements inBlock =>
    intro trail body rest h
    obtain hend | ⟨stmt, mid, more, hend, hstmt, hmore, rfl⟩ := accepts_statements_iff.mp h
    · exact .inl (accepts_statements_iff.mpr (.inl hend))
    · have hlength := (Reading.declaration true trail tokens).length_rest_lt hstmt.1
      have hatEnd : atEnd tokens = false := (Bool.or_eq_false_iff.mp hend).1
      rcases lower .declaration tokens rfl (by simp [rank, hatEnd]) trail stmt mid hstmt with
        hstrict | ⟨hmid, ts, rfl, hnearest, hts⟩
      · rcases shorter (.statements inBlock) mid hlength trail more rest hmore with
          hstrict' | ⟨hrest, us, rfl, hnearest', hus⟩
        · exact .inl (accepts_statements_iff.mpr (.inr ⟨stmt, mid, more, hend, hstrict, hstrict',
            rfl⟩))
        · obtain ⟨ts, rfl, hts, hnearest, -⟩ :=
            StmtCall.sound .declaration tokens trail stmt _ hstrict
          refine .inr ⟨hrest, ts ++ us, by simp, List.forall_mem_cons.mpr ⟨hnearest, hnearest'⟩,
            fun semicolon hsemicolon => ?_⟩
          obtain ⟨parts, hparts, husparts, rfl⟩ := hus semicolon hsemicolon
          exact ⟨(ts, stmt) :: parts, List.forall_mem_cons.mpr ⟨hts, hparts⟩, by simp [← husparts],
            by simp⟩
      · -- Nothing comes after a statement that reaches to the end.
        obtain ⟨-, rfl, rfl⟩ | ⟨_, _, _, hnot, -⟩ := accepts_statements_iff.mp hmore
        · refine .inr ⟨hmid, ts, rfl, List.forall_mem_singleton.mpr hnearest,
            fun semicolon hsemicolon => ?_⟩
          exact ⟨[(ts ++ [semicolon], stmt)], by simpa using hts semicolon hsemicolon, by simp,
            by simp⟩
        · rw [endsPassage_of_atEnd hmid] at hnot
          exact absurd hnot (by decide)

/-! ### Programs -/

/-- The two readings report the same and have the same program, or the strict one reports one error
more: that of a semicolon missing at the end. -/
theorem program_spared (tokens : List Token) :
    ((program true tokens).reported = (program false tokens).reported ∧
        (program true tokens).body = (program false tokens).body) ∨
      Adds (missingSemicolon (fromEnd tokens)) (program false tokens).reported
        (program true tokens).reported := by
  have hrelaxed := program_relaxed tokens
  have hrest := program_rest false tokens
  generalize program false tokens = strict at hrelaxed hrest
  generalize program true tokens = lenient at hrelaxed
  cases hrelaxed with
  | same => exact .inl ⟨rfl, rfl⟩
  | passed _ _ _ _ _ hadds =>
    subst hrest
    exact .inr hadds

/-- A program that only a lenient reading accepts is accepted with a semicolon before the end. -/
theorem parse_semicolon {tokens : List Token} {body : Program} {semicolon : Token}
    (hlenient : parse true tokens = .ok body) (hstrict : parse false tokens ≠ .ok body)
    (hsemicolon : semicolon.kind = .semicolon) :
    parse false (beforeEnd tokens ++ semicolon :: fromEnd tokens) = .ok body := by
  obtain ⟨rest, haccepts⟩ := parse_eq_ok_iff_accepts.mp hlenient
  rcases StmtCall.lenient (.statements false) tokens [.program] body rest haccepts with
    haccepts' | ⟨hend, taken, htokens, hnearest, hderives⟩
  · exact absurd (parse_eq_ok_iff_accepts.mpr ⟨rest, haccepts'⟩) hstrict
  · have hderived := hderives semicolon hsemicolon
    have hne : ∀ token ∈ taken, token.kind ≠ .eof := fun token htoken =>
      hderived.ne_eof token (List.mem_append_left _ htoken)
    rw [htokens, beforeEnd_append hne hend, fromEnd_append hne hend, parse_eq_ok_iff_derivesProgram,
      List.append_cons, beforeEnd_append hderived.ne_eof hend]
    exact ⟨hderived, hnearest⟩

/-- **Either reading is a derivation**: from tokens that were read, and a semicolon perhaps. -/
theorem exists_derivesProgram {lenient : Bool} {tokens : List Token} {body : Program}
    (h : parse lenient tokens = .ok body) : ∃ ts, DerivesProgram ts body ∧
      ∀ token ∈ ts, token.kind ≠ .semicolon → token ∈ tokens := by
  have hsub : ∀ token ∈ beforeEnd tokens, token ∈ tokens := fun token htoken =>
    (List.takeWhile_sublist _).mem htoken
  by_cases hstrict : parse false tokens = .ok body
  · exact ⟨beforeEnd tokens, (parse_eq_ok_iff_derivesProgram.mp hstrict).1,
      fun token htoken _ => hsub token htoken⟩
  · cases lenient with
    | false => exact absurd h hstrict
    | true =>
      let semicolon : Token := ⟨.semicolon, ";", none, 0⟩
      have hadded := parse_semicolon h hstrict (show semicolon.kind = .semicolon from rfl)
      refine ⟨_, (parse_eq_ok_iff_derivesProgram.mp hadded).1, fun token htoken hkind => ?_⟩
      have hmem := (List.takeWhile_sublist _).mem htoken
      rcases List.mem_append.mp hmem with hbefore | hfrom
      · exact hsub token hbefore
      · rcases List.mem_cons.mp hfrom with rfl | hfrom
        · exact absurd rfl hkind
        · exact (List.dropWhile_sublist _).mem hfrom

/-- **Lenient reading adds one semicolon at most.** What is a program to a strict reading is the same
program to a lenient one. Where only the lenient one has a program, the strict one has one error,
that a semicolon is missing at the end, and has the same program when it is put there, before the
first end token. And whatever the tokens, the lenient reading has the errors of the strict one, but
for that one at most. -/
theorem lenient_reading_adds_semicolon (tokens : List Token) :
    (∀ body, parse false tokens = .ok body → parse true tokens = .ok body) ∧
    (∀ body errors, parse true tokens = .ok body → parse false tokens = .error errors →
      errors = [⟨currentToken (fromEnd tokens), .expectedValueEnd⟩] ∧
      ∀ semicolon : Token, semicolon.kind = .semicolon →
        parse false (beforeEnd tokens ++ semicolon :: fromEnd tokens) = .ok body) ∧
    ∃ before removed after, (program false tokens).reported = before ++ removed ++ after ∧
      (program true tokens).reported = before ++ after ∧
      (removed = [] ∨ removed = [⟨currentToken (fromEnd tokens), .expectedValueEnd⟩]) := by
  refine ⟨?_, ?_, ?_⟩
  · intro body hbody
    obtain ⟨hreported, hsame⟩ := parse_eq_ok_iff.mp hbody
    rcases program_spared tokens with ⟨hreported', hsame'⟩ | ⟨before, after, hstrict, -⟩
    · exact parse_eq_ok_iff.mpr ⟨hreported'.trans hreported, hsame'.trans hsame⟩
    · simp [hstrict] at hreported
  · intro body errors hlenient hstrict
    refine ⟨?_, fun semicolon hsemicolon => parse_semicolon hlenient (by simp [hstrict]) hsemicolon⟩
    obtain ⟨hreported, -⟩ := parse_eq_ok_iff.mp hlenient
    obtain ⟨rfl, hne⟩ := parse_eq_error_iff.mp hstrict
    rcases program_spared tokens with ⟨hreported', -⟩ | ⟨before, after, hadded, hspared⟩
    · exact absurd (hreported'.symm.trans hreported) hne
    · obtain ⟨rfl, rfl⟩ := List.append_eq_nil_iff.mp (hspared.symm.trans hreported)
      exact hadded
  · rcases program_spared tokens with ⟨hreported, -⟩ | ⟨before, after, hstrict, hlenient⟩
    · exact ⟨(program false tokens).reported, [], [], by simp, by simp [hreported], .inl rfl⟩
    · exact ⟨before, [missingSemicolon (fromEnd tokens)], after, by simp [hstrict], hlenient, .inr rfl⟩

/-- A conditional whose branch has no semicolon, before the end and what stands behind it. -/
def openBranch : List Token :=
  [⟨.kwIf, "if", none, 1⟩, ⟨.leftParen, "(", none, 1⟩, ⟨.kwTrue, "true", none, 1⟩,
    ⟨.rightParen, ")", none, 1⟩, ⟨.kwNil, "nil", none, 1⟩, ⟨.eof, "", none, 1⟩,
    ⟨.rightBrace, "\x7d", none, 1⟩]

/-- The conditional is read leniently, and strictly with a semicolon on the next line, then also
leniently. -/
theorem lenient_reading_adds_semicolon_openBranch :
    let body : Program := [.conditional (.literal (.boolean true)) (.expression (.literal .nil)) none]
    let semicolon : Token := ⟨.semicolon, ";", none, 2⟩
    parse true openBranch = .ok body ∧
    parse false openBranch = .error [⟨⟨.eof, "", none, 1⟩, .expectedValueEnd⟩] ∧
    parse false (beforeEnd openBranch ++ semicolon :: fromEnd openBranch) = .ok body ∧
    parse true (beforeEnd openBranch ++ semicolon :: fromEnd openBranch) = .ok body := by
  intro body semicolon
  have hlenient : parse true openBranch = .ok body := by decide +kernel
  have hstrict : parse false openBranch = .error [⟨⟨.eof, "", none, 1⟩, .expectedValueEnd⟩] := by
    decide +kernel
  have hadded := ((lenient_reading_adds_semicolon openBranch).2.1 body _ hlenient hstrict).2
    semicolon rfl
  exact ⟨hlenient, hstrict, hadded, (lenient_reading_adds_semicolon _).1 body hadded⟩

end LoxLang.Grammar
