import LoxLang.Proofs.Grammar.Calls
import LoxLang.Proofs.Grammar.Orderly

/-!
# What a lenient reading spares

A strict and a lenient reading of the same tokens go the same way until the last expression
statement has no semicolon. There the strict one fails at the end of all tokens, and all it still
does is report that, and close what is open; the lenient one has a result there and closes the same
(`StmtCall.relaxed`). So the errors are the same but for that one (`program_relaxed`).
-/

namespace LoxLang.Grammar

variable {α β : Type}

/-! ### One error more -/

/-- The error that a strict reading has at the end and a lenient one has not. -/
def missingSemicolon (place : List Token) : SyntaxError := ⟨currentToken place, .expectedValueEnd⟩

/-- The errors are the others and one more among them. -/
def Adds (error : SyntaxError) (errors others : List SyntaxError) : Prop :=
  ∃ before after, errors = before ++ error :: after ∧ others = before ++ after

theorem Adds.last (error : SyntaxError) (errors : List SyntaxError) :
    Adds error (errors ++ [error]) errors :=
  ⟨errors, [], rfl, (List.append_nil errors).symm⟩

theorem Adds.append_left {error : SyntaxError} {errors others : List SyntaxError}
    (h : Adds error errors others) (earlier : List SyntaxError) :
    Adds error (earlier ++ errors) (earlier ++ others) := by
  obtain ⟨before, after, rfl, rfl⟩ := h
  exact ⟨earlier ++ before, after, by simp, by simp⟩

theorem Adds.append_right {error : SyntaxError} {errors others : List SyntaxError}
    (h : Adds error errors others) (later : List SyntaxError) :
    Adds error (errors ++ later) (others ++ later) := by
  obtain ⟨before, after, rfl, rfl⟩ := h
  exact ⟨before, after ++ later, by simp, by simp⟩

/-! ### Replies -/

/-- The strict and the lenient reply to the same tokens. -/
inductive Reply.Relaxed : Reply α → Reply α → Prop where
  /-- No semicolon was missing at the end. -/
  | same (outcome : Except Failure (α × List Token)) (reported : List SyntaxError)
      (traces traces' : List Trace) :
      Relaxed ⟨outcome, reported, traces⟩ ⟨outcome, reported, traces'⟩
  /-- The strict reading has failed at the end, and the lenient one has a result there. -/
  | spared (a : α) {place : List Token} (reported : List SyntaxError)
      (traces traces' : List Trace) : atEnd place = true →
      Relaxed ⟨.error ⟨missingSemicolon place, place⟩, reported, traces⟩
        ⟨.ok (a, place), reported, traces'⟩
  /-- The strict reading has failed before, and both fail now, as a block is not closed. -/
  | passed {failure : Failure} {errors others : List SyntaxError} (traces traces' : List Trace) :
      atEnd failure.tokens = true → Adds (missingSemicolon failure.tokens) errors others →
      Relaxed ⟨.error failure, errors, traces⟩ ⟨.error failure, others, traces'⟩

namespace Reply.Relaxed

theorem refl (reply : Reply α) : reply.Relaxed reply := .same _ _ _ _

/-- Errors reported before make no difference. -/
theorem follow {second second' : Reply α} (h : second.Relaxed second')
    (reported : List SyntaxError) (traces traces' : List Trace) :
    Reply.Relaxed ⟨second.outcome, reported ++ second.reported, traces⟩
      ⟨second'.outcome, reported ++ second'.reported, traces'⟩ := by
  cases h with
  | same => exact .same _ _ _ _
  | spared a _ _ _ hplace => exact .spared a _ _ _ hplace
  | passed _ _ hplace hadds => exact .passed _ _ hplace (hadds.append_left reported)

/-- Two readings that begin in the same way. -/
theorem bind_left (first : Reply α) {next next' : α → List Token → Reply β}
    (hnext : ∀ a rest, first.outcome = .ok (a, rest) → (next a rest).Relaxed (next' a rest)) :
    (first.bind next).Relaxed (first.bind next') := by
  obtain ⟨outcome, reported, traces⟩ := first
  cases outcome with
  | error failure => exact .same _ _ _ _
  | ok result => exact (hnext result.1 result.2 rfl).follow _ _ _

/-- Two readings that go on from related ones, if the lenient one only puts its result together at
the end. -/
theorem bind {first first' : Reply α} {next next' : α → List Token → Reply β}
    (h : first.Relaxed first')
    (hnext : ∀ a rest, first.outcome = .ok (a, rest) → (next a rest).Relaxed (next' a rest))
    (hend : ∀ a place, atEnd place = true → ∃ b, next' a place = .done b place) :
    (first.bind next).Relaxed (first'.bind next') := by
  cases h with
  | spared a reported traces traces' hplace =>
    obtain ⟨b, hb⟩ := hend a _ hplace
    simp only [Reply.bind, hb, Reply.done, List.append_nil]
    exact .spared b _ _ _ hplace
  | passed traces traces' hplace hadds => exact .passed _ _ hplace hadds
  | same outcome reported traces traces' =>
    cases outcome with
    | error failure => exact .same _ _ _ _
    | ok result => exact (hnext result.1 result.2 rfl).follow _ _ _

end Reply.Relaxed

/-! ### Passages -/

/-- The strict and the lenient reading of the same passage. -/
inductive Passage.Relaxed : Passage → Passage → Prop where
  /-- No semicolon was missing at the end. -/
  | same (body : Program) (rest : List Token) (reported : List SyntaxError)
      (traces traces' : List Trace) :
      Relaxed ⟨body, rest, reported, traces⟩ ⟨body, rest, reported, traces'⟩
  /-- The strict reading has reported one at the end. -/
  | passed (body body' : Program) {rest : List Token} {errors others : List SyntaxError}
      (traces traces' : List Trace) : atEnd rest = true →
      Adds (missingSemicolon rest) errors others →
      Relaxed ⟨body, rest, errors, traces⟩ ⟨body', rest, others, traces'⟩

/-- At the end a block fails, whatever it has read. -/
theorem bind_close_of_atEnd {body : Program} {rest : List Token} {reported : List SyntaxError}
    {traces : List Trace} (trail : Trail) (hend : atEnd rest = true) :
    ((Passage.reply ⟨body, rest, reported, traces⟩).bind fun body rest =>
      (Reply.expect (.block :: trail) .rightBrace .expectedBlockClose rest).bind
        fun _ rest => .done (Stmt.block body) rest) =
      ⟨.error ⟨⟨currentToken rest, .expectedBlockClose⟩, rest⟩, reported ++ [],
        traces ++ [⟨.block :: trail, ⟨currentToken rest, .expectedBlockClose⟩⟩]⟩ := by
  have hend : peek rest = .eof := by simpa [atEnd] using hend
  have hopen : peek rest ≠ .rightBrace := by simp [hend]
  simp only [Passage.reply, Reply.bind, Reply.expect_of_peek_ne hopen, Reply.fail]

/-- A block that is not closed fails in both readings. -/
theorem Passage.Relaxed.close {passage passage' : Passage} (h : passage.Relaxed passage')
    (trail : Trail) :
    (passage.reply.bind fun body rest =>
      (Reply.expect (.block :: trail) .rightBrace .expectedBlockClose rest).bind
        fun _ rest => .done (Stmt.block body) rest).Relaxed
    (passage'.reply.bind fun body rest =>
      (Reply.expect (.block :: trail) .rightBrace .expectedBlockClose rest).bind
        fun _ rest => .done (Stmt.block body) rest) := by
  cases h with
  | same body rest reported traces traces' =>
    simp only [Passage.reply, Reply.bind]
    exact .same _ _ _ _
  | passed body body' traces traces' hend hadds =>
    rw [bind_close_of_atEnd trail hend, bind_close_of_atEnd trail hend]
    exact .passed _ _ hend (hadds.append_right [])

/-- Errors reported before make no difference. -/
theorem Passage.Relaxed.follow {more more' : Passage} (h : more.Relaxed more') (front : Program)
    (reported : List SyntaxError) (traces traces' : List Trace) :
    Passage.Relaxed ⟨front ++ more.body, more.rest, reported ++ more.reported, traces⟩
      ⟨front ++ more'.body, more'.rest, reported ++ more'.reported, traces'⟩ := by
  cases h with
  | same => exact .same _ _ _ _ _
  | passed _ _ _ _ hrest hadds => exact .passed _ _ _ _ hrest (hadds.append_left reported)

/-- A statement and the passage after it. At the end there is nothing after it. -/
theorem Reply.Relaxed.andThen {first first' : Reply Stmt} {passage passage' : List Token → Passage}
    (h : first.Relaxed first')
    (hok : ∀ stmt rest, first.outcome = .ok (stmt, rest) → (passage rest).Relaxed (passage' rest))
    (herror : ∀ failure, first.outcome = .error failure →
      (passage (recover failure.tokens)).Relaxed (passage' (recover failure.tokens)))
    (hend : ∀ place, atEnd place = true →
      passage place = .empty place ∧ passage' place = .empty place) :
    (first.andThen passage).Relaxed (first'.andThen passage') := by
  cases h with
  | spared stmt reported traces traces' hplace =>
    obtain ⟨hpassage, hpassage'⟩ := hend _ hplace
    simp only [Reply.andThen, recover_of_atEnd hplace, hpassage, hpassage', Passage.empty,
      Passage.skip, Passage.cons, List.append_nil]
    exact .passed _ _ _ _ hplace (.last _ _)
  | @passed failure errors others traces traces' hplace hadds =>
    obtain ⟨hpassage, hpassage'⟩ := hend _ hplace
    simp only [Reply.andThen, recover_of_atEnd hplace, hpassage, hpassage', Passage.empty,
      Passage.skip, List.append_nil]
    exact .passed _ _ _ _ hplace (hadds.append_right [failure.error])
  | same outcome reported traces traces' =>
    cases outcome with
    | ok result => exact (hok result.1 result.2 rfl).follow [result.1] reported _ _
    | error failure =>
      have hmore := (herror failure rfl).follow [] (reported ++ [failure.error])
      simp only [List.append_assoc, List.singleton_append, List.nil_append] at hmore
      exact hmore _ _

/-! ### Rules -/

theorem expressionStatement_relaxed (trail : Trail) (tokens : List Token) :
    (expressionStatement false trail tokens).Relaxed (expressionStatement true trail tokens) := by
  rw [expressionStatement_eq, expressionStatement_eq]
  refine .bind_left _ fun value rest _ => ?_
  cases hend : atEnd rest with
  | false => exact .refl _
  | true =>
    -- Here alone the readings part.
    cases rest with
    | nil => exact .spared _ _ _ _ hend
    | cons token rest =>
      have hkind : token.kind = .eof := by simpa [atEnd, peek] using hend
      simp only [Bool.and_true, Bool.false_eq_true, ↓reduceIte, Reply.bind, Reply.expect, hkind,
        reduceCtorEq, Reply.fail, Bool.and_self]
      exact .spared _ _ _ _ hend

/-- The strict and the lenient reply to a call are related. -/
def StmtCall.Relaxed : StmtCall → List Token → Prop
  | .declaration, tokens => ∀ trail, (Grammar.declaration false trail tokens).Relaxed
    (Grammar.declaration true trail tokens)
  | .statement, tokens => ∀ trail, (Grammar.statement false trail tokens).Relaxed
    (Grammar.statement true trail tokens)
  | .ifStatement, tokens => ∀ trail, (Grammar.ifStatement false trail tokens).Relaxed
    (Grammar.ifStatement true trail tokens)
  | .block, tokens => ∀ trail, (Grammar.block false trail tokens).Relaxed
    (Grammar.block true trail tokens)
  | .statements inBlock, tokens => ∀ trail, (Grammar.statements false inBlock trail tokens).Relaxed
    (Grammar.statements true inBlock trail tokens)

theorem StmtCall.relaxed : ∀ (call : StmtCall) (tokens : List Token), call.Relaxed tokens := by
  apply StmtCall.induct
  intro call tokens shorter lower
  cases call with
  | declaration =>
    intro trail
    have hstatement := lower .statement tokens rfl (by simp [rank]) (.declaration :: trail)
    rw [declaration_eq, declaration_eq]
    cases tokens with
    | nil => exact hstatement
    | cons token after =>
      by_cases h : token.kind = .kwVar
      · simp only [h, ↓reduceIte]
        exact .refl _
      · simp only [h, ↓reduceIte]
        exact hstatement
  | statement =>
    intro trail
    rw [statement_eq, statement_eq]
    cases tokens with
    | nil => exact expressionStatement_relaxed _ []
    | cons token after =>
      dsimp only
      split
      · exact shorter .ifStatement after (Nat.lt_succ_self _) _
      · exact .refl _
      · exact shorter .block after (Nat.lt_succ_self _) _
      · exact expressionStatement_relaxed _ _
  | ifStatement =>
    intro trail
    rw [ifStatement_eq, ifStatement_eq]
    refine .bind_left _ fun _ afterOpening hopening => ?_
    have h₁ := (Reading.expect _ .leftParen .expectedConditionOpen tokens).length_rest_lt hopening
    refine .bind_left _ fun condition afterCondition hcondition => ?_
    have h₂ := (Reading.expression _ afterOpening).length_rest_lt hcondition
    refine .bind_left _ fun _ afterClosing hclosing => ?_
    have h₃ := (Reading.expect _ .rightParen .expectedConditionClose
      afterCondition).length_rest_lt hclosing
    refine (shorter .statement afterClosing (by omega) _).bind ?_ ?_
    · intro yes others hyes
      have h₄ := (Reading.statement false _ afterClosing).length_rest_lt hyes
      cases others with
      | nil => exact .refl _
      | cons other after =>
        by_cases h : other.kind = .kwElse
        · simp only [h, ↓reduceIte]
          refine (shorter .statement after (by simp at h₄; omega) _).bind ?_ ?_
          · exact fun no rest _ => .refl _
          · exact fun no place _ => ⟨_, rfl⟩
        · simp only [h, ↓reduceIte]
          exact .refl _
    · intro yes place hplace
      cases place with
      | nil => exact ⟨_, rfl⟩
      | cons token rest =>
        have hkind : token.kind = .eof := by simpa [atEnd, peek] using hplace
        simp only [hkind, reduceCtorEq, ↓reduceIte]
        exact ⟨_, rfl⟩
  | block =>
    intro trail
    rw [block_eq, block_eq]
    exact (lower (.statements true) tokens rfl (by simp only [rank]; split <;> omega) _).close trail
  | statements inBlock =>
    intro trail
    rw [statements_eq, statements_eq]
    split
    · exact .same _ _ _ _ _
    · next hend =>
      have hatEnd : atEnd tokens = false := (Bool.or_eq_false_iff.mp (eq_false_of_ne_true hend)).1
      refine (lower .declaration tokens rfl (by simp [rank, hatEnd]) trail).andThen ?_ ?_ ?_
      · intro stmt rest hrest
        exact shorter (.statements inBlock) rest
          ((Reading.declaration false trail tokens).length_rest_lt hrest) trail
      · intro failure hfailure
        have hlength := (Reading.declaration false trail tokens).length_tokens_le hfailure
        rcases recover_lower hlength with hlt | ⟨hsame, hrecover⟩
        · exact shorter (.statements inBlock) _ hlt trail
        · exact lower (.statements inBlock) _ hsame (by simp [rank, hatEnd, hrecover]) trail
      · intro place hplace
        have hends : endsPassage inBlock place = true := endsPassage_of_atEnd hplace
        exact ⟨statements_of_endsPassage hends, statements_of_endsPassage hends⟩

/-- **A lenient reading spares one error at most**: the two readings end with the same program and
the same errors, or with the same errors but for that of the semicolon missing at the end. -/
theorem program_relaxed (tokens : List Token) :
    (program false tokens).Relaxed (program true tokens) :=
  StmtCall.relaxed (.statements false) tokens [.program]

end LoxLang.Grammar
