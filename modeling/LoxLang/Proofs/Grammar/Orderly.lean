import LoxLang.Proofs.Grammar.CallGraph
import LoxLang.Proofs.Grammar.Calls
import LoxLang.Proofs.Grammar.Derivation
import Mathlib.Data.List.Perm.Subperm

/-!
# Orderly replies

What every rule keeps to, whatever the tokens. It takes tokens from the front, never an end token.
The errors on the way stand at tokens that it took: no two at one token, and those that stopped a
rule in the order of the tokens. Each stop was traced when it arose, on a trail that the call
graph has. If the rule fails, it fails at the token in front of those it left. Only the end of all
tokens can see more than one error: there every open block fails in turn, so that the errors there
are at most one more than the blocks.

`ExprCall.orderly` and `StmtCall.orderly` prove this of every call, `statements_orderly` of the
loops that recover from failures.
-/

namespace LoxLang.Grammar

variable {α β : Type}

/-! ### Errors at the tokens taken -/

/-- The errors that stopped a rule: all but the invalid targets. -/
def failuresOf (errors : List SyntaxError) : List SyntaxError :=
  errors.filter fun error => error.problem != .invalidTarget

theorem failuresOf_append (errors more : List SyntaxError) :
    failuresOf (errors ++ more) = failuresOf errors ++ failuresOf more := List.filter_append ..

theorem failuresOf_eq_self {errors : List SyntaxError}
    (h : ∀ error ∈ errors, error.problem ≠ .invalidTarget) : failuresOf errors = errors :=
  List.filter_eq_self.mpr fun error herror => by simpa using h error herror

/-- The errors stand at the tokens: no two at one token, and those that stopped a rule in the order
of the tokens. -/
def Placed (taken : List Token) (errors : List SyntaxError) : Prop :=
  (errors.map SyntaxError.token).Subperm taken ∧
    ((failuresOf errors).map SyntaxError.token).Sublist taken

theorem Placed.nil {taken : List Token} : Placed taken [] := ⟨List.nil_subperm, List.nil_sublist _⟩

theorem Placed.append {taken more : List Token} {errors others : List SyntaxError}
    (h : Placed taken errors) (h' : Placed more others) :
    Placed (taken ++ more) (errors ++ others) := by
  refine ⟨?_, ?_⟩
  · rw [List.map_append]
    exact h.1.append h'.1
  · rw [failuresOf_append, List.map_append]
    exact h.2.append h'.2

theorem Placed.cons {taken : List Token} {errors : List SyntaxError} (token : Token)
    (h : Placed taken errors) : Placed (token :: taken) errors :=
  ⟨h.1.cons_right token, h.2.cons token⟩

/-- An error at the token in front. -/
theorem Placed.singleton {taken : List Token} {token : Token} {problem : SyntaxProblem} :
    Placed (token :: taken) [⟨token, problem⟩] := by
  refine ⟨(List.singleton_sublist.mpr List.mem_cons_self).subperm, ?_⟩
  exact (List.Sublist.map _ List.filter_sublist).trans (List.singleton_sublist.mpr List.mem_cons_self)

/-- An invalid target is noted at the token in front, after the errors behind it. -/
theorem Placed.noted {taken : List Token} {errors : List SyntaxError} (token : Token)
    (h : Placed taken errors) : Placed (token :: taken) (errors ++ [⟨token, .invalidTarget⟩]) := by
  refine ⟨?_, ?_⟩
  · rw [List.map_append, List.map_singleton]
    have hswap : (errors.map SyntaxError.token ++ [token]).Perm
        (token :: errors.map SyntaxError.token) := List.perm_append_singleton _ _
    exact hswap.subperm.trans ((List.subperm_cons token).mpr h.1)
  · rw [failuresOf_append]
    simpa [failuresOf] using h.2.cons token

/-! ### Accounts -/

/-- Reading from `tokens` on to `rest` met the errors, with the traces. The `late` traces are of
errors met at `rest`; the errors before them stand at tokens that were taken, and each that stopped
a rule was traced. -/
def Accounts (tokens rest : List Token) (errors : List SyntaxError) (traces late : List Trace) :
    Prop :=
  ∃ taken early earlier, tokens = taken ++ rest ∧ (∀ token ∈ taken, token.kind ≠ .eof) ∧
    Placed taken early ∧ earlier.map Trace.error = failuresOf early ∧
    errors = early ++ late.map Trace.error ∧ traces = earlier ++ late

namespace Accounts

variable {tokens mid rest after : List Token} {errors more : List SyntaxError}
variable {traces others late : List Trace} {token : Token}

theorem refl (tokens : List Token) : Accounts tokens tokens [] [] [] :=
  ⟨[], [], [], rfl, by simp, .nil, rfl, rfl, rfl⟩

theorem trans (h : Accounts tokens mid errors traces []) (h' : Accounts mid rest more others late) :
    Accounts tokens rest (errors ++ more) (traces ++ others) late := by
  obtain ⟨taken, early, earlier, rfl, hne, hplaced, htraced, rfl, rfl⟩ := h
  obtain ⟨taken', early', earlier', rfl, hne', hplaced', htraced', rfl, rfl⟩ := h'
  refine ⟨taken ++ taken', early ++ early', earlier ++ earlier', (List.append_assoc ..).symm,
    List.forall_mem_append.mpr ⟨hne, hne'⟩, hplaced.append hplaced', ?_, by simp, by simp⟩
  rw [List.map_append, failuresOf_append, htraced, htraced']

/-- A token in front that was taken as well. -/
theorem cons (hne : token.kind ≠ .eof) (h : Accounts after rest errors traces late) :
    Accounts (token :: after) rest errors traces late := by
  obtain ⟨taken, early, earlier, rfl, hnes, hplaced, h⟩ := h
  exact ⟨token :: taken, early, earlier, rfl, List.forall_mem_cons.mpr ⟨hne, hnes⟩,
    hplaced.cons token, h⟩

/-- A token in front that was taken as well, at which an invalid target was noted. -/
theorem noted (hne : token.kind ≠ .eof) (h : Accounts after rest errors traces []) :
    Accounts (token :: after) rest (errors ++ [⟨token, .invalidTarget⟩]) traces [] := by
  obtain ⟨taken, early, earlier, rfl, hnes, hplaced, htraced, rfl, htraces⟩ := h
  refine ⟨token :: taken, early ++ [⟨token, .invalidTarget⟩], earlier, rfl,
    List.forall_mem_cons.mpr ⟨hne, hnes⟩, hplaced.noted token, ?_, by simp, htraces⟩
  rw [failuresOf_append, htraced]
  simp [failuresOf]

/-- The tokens left are at the end of those there were, and those taken are before the end. -/
theorem exists_taken (h : Accounts tokens rest errors traces late) :
    ∃ taken, tokens = taken ++ rest ∧ ∀ token ∈ taken, token.kind ≠ .eof := by
  obtain ⟨taken, -, -, htokens, hne, -⟩ := h
  exact ⟨taken, htokens, hne⟩

/-- One more error at the place where reading stopped. -/
theorem add_late (h : Accounts tokens rest errors traces late) (trace : Trace) :
    Accounts tokens rest (errors ++ [trace.error]) (traces ++ [trace]) (late ++ [trace]) := by
  obtain ⟨taken, early, earlier, htokens, hne, hplaced, htraced, rfl, rfl⟩ := h
  exact ⟨taken, early, earlier, htokens, hne, hplaced, htraced, by simp, by simp⟩

end Accounts

/-- The errors at one place: one, or several if the place is the end of all tokens, and then at most
one more than the blocks open, outside the trail not counted, when the first of them arose. -/
structure Ends (trail : Trail) (place : List Token) (late : List Trace) : Prop where
  token_eq : ∀ trace ∈ late, trace.error.token = currentToken place
  once : late.length ≤ 1 ∨ atEnd place = true
  open_blocks : ∀ first others, late = first :: others →
    late.length + trail.count .block ≤ first.trail.count .block + 1

theorem Ends.nil {trail : Trail} {place : List Token} : Ends trail place [] :=
  ⟨by simp, .inl (by simp), by simp⟩

/-- At the end a block that is open fails in turn, and counts for one. -/
theorem Ends.close {trail : Trail} {place : List Token} {late : List Trace}
    (h : Ends (.block :: trail) place late) (hend : atEnd place = true) (problem : SyntaxProblem) :
    Ends trail place (late ++ [⟨.block :: trail, ⟨currentToken place, problem⟩⟩]) := by
  refine ⟨List.forall_mem_append.mpr ⟨h.token_eq, by simp⟩, .inr hend, fun first others hfirst => ?_⟩
  cases late with
  | nil =>
    obtain ⟨rfl, -⟩ := List.cons.inj hfirst
    simp only [List.nil_append, List.length_singleton, List.count_cons_self]
    omega
  | cons earliest more =>
    obtain ⟨rfl, -⟩ := List.cons.inj hfirst
    have hopen := h.open_blocks earliest more rfl
    simp only [List.count_cons_self, List.length_append, List.length_singleton] at hopen ⊢
    omega

theorem count_block_le {inner outer : Trail} (h : outer <:+ inner) :
    outer.count .block ≤ inner.count .block := h.sublist.count_le _

/-! ### Replies -/

/-- What stands before `=` is a name, or else noted as an invalid target. -/
theorem assign_cases (target : Expr) (equals : Token) :
    (∃ name, target = .variable name) ∨ ∀ value rest,
      Reply.assign target equals value rest = .noted target rest ⟨equals, .invalidTarget⟩ := by
  by_cases h : ∃ name, target = .variable name
  · exact .inl h
  · refine .inr fun value rest => ?_
    unfold Reply.assign
    split
    · exact absurd ⟨_, rfl⟩ h
    · rfl

/-- The reply keeps to the order, for a rule that opened the trail and was called on the tokens. -/
def Reply.Orderly (trail : Trail) (tokens : List Token) (reply : Reply α) : Prop :=
  (∀ trace ∈ reply.traces, trace.RaisedOn trail) ∧
    match reply.outcome with
    | .ok (_, rest) => Accounts tokens rest reply.reported reply.traces []
    | .error failure => ∃ late,
      Accounts tokens failure.tokens (reply.reported ++ [failure.error]) reply.traces late ∧
        late ≠ [] ∧ Ends trail.tail failure.tokens late

namespace Reply.Orderly

variable {trail : Trail} {tokens rest after : List Token} {reply : Reply α} {a : α}

theorem accounts_of_ok (h : reply.Orderly trail tokens) (hok : reply.outcome = .ok (a, rest)) :
    Accounts tokens rest reply.reported reply.traces [] := by
  have h := h.2
  rwa [hok] at h

theorem accounts_of_error {failure : Failure} (h : reply.Orderly trail tokens)
    (herror : reply.outcome = .error failure) :
    ∃ late, Accounts tokens failure.tokens (reply.reported ++ [failure.error]) reply.traces late ∧
      late ≠ [] ∧ Ends trail.tail failure.tokens late := by
  have h := h.2
  rwa [herror] at h

theorem done (a : α) (tokens : List Token) : (Reply.done a tokens).Orderly trail tokens :=
  ⟨by simp [Reply.done], .refl tokens⟩

/-- A rule that fails by itself fails at the token in front. -/
theorem fail {rule : Rule} {outer : Trail} {problem : SyntaxProblem}
    (hproblem : problem ∈ rule.problems) (tokens : List Token) :
    (Reply.fail (rule :: outer) problem tokens : Reply α).Orderly (rule :: outer) tokens := by
  refine ⟨?_, [⟨rule :: outer, ⟨currentToken tokens, problem⟩⟩], ?_, by simp, ?_⟩
  · intro trace htrace
    rw [List.mem_singleton.mp htrace]
    exact Trace.raisedOn_self hproblem
  · exact ⟨[], [], [], rfl, by simp, .nil, rfl, rfl, rfl⟩
  · refine ⟨by simp, .inl (by simp), ?_⟩
    rintro first others hfirst
    obtain ⟨rfl, -⟩ := List.cons.inj hfirst
    have := count_block_le (List.suffix_cons rule outer)
    simp only [List.tail_cons, List.length_singleton]
    omega

/-- A rule that goes on after a result keeps to the order if both parts do. -/
theorem bind {first : Reply α} {next : α → List Token → Reply β} (h : first.Orderly trail tokens)
    (hnext : ∀ a rest, first.outcome = .ok (a, rest) → (next a rest).Orderly trail rest) :
    (first.bind next).Orderly trail tokens := by
  obtain ⟨outcome, reported, traces⟩ := first
  cases outcome with
  | error failure => exact h
  | ok result =>
    obtain ⟨a, mid⟩ := result
    obtain ⟨hraised, haccounts⟩ := hnext a mid rfl
    refine ⟨List.forall_mem_append.mpr ⟨h.1, hraised⟩, ?_⟩
    have hfirst : Accounts tokens mid reported traces [] := h.2
    simp only [Reply.bind]
    generalize next a mid = second at haccounts
    obtain ⟨outcome, reported', traces'⟩ := second
    cases outcome with
    | ok result => exact hfirst.trans haccounts
    | error failure =>
      obtain ⟨late, haccounts, hlate, hends⟩ := haccounts
      refine ⟨late, ?_, hlate, hends⟩
      rw [List.append_assoc]
      exact hfirst.trans haccounts

/-- A rule that calls another keeps to the order if that one does. -/
theorem call {inner outer : Rule} {trail : Trail}
    (h : reply.Orderly (inner :: outer :: trail) tokens) (hcall : inner ∈ outer.callees) :
    reply.Orderly (outer :: trail) tokens := by
  refine ⟨fun trace htrace => (h.1 trace htrace).call hcall, ?_⟩
  have haccounts := h.2
  obtain ⟨outcome, reported, traces⟩ := reply
  cases outcome with
  | ok result => exact haccounts
  | error failure =>
    obtain ⟨late, haccounts, hlate, hends⟩ := haccounts
    refine ⟨late, haccounts, hlate, hends.token_eq, hends.once, fun first others hfirst => ?_⟩
    have := hends.open_blocks first others hfirst
    have hle := count_block_le (List.suffix_cons outer trail)
    simp only [List.tail_cons] at this ⊢
    omega

/-- A token in front that was taken as well. -/
theorem cons {token : Token} (hne : token.kind ≠ .eof) (h : reply.Orderly trail after) :
    reply.Orderly trail (token :: after) := by
  refine ⟨h.1, ?_⟩
  have haccounts := h.2
  obtain ⟨outcome, reported, traces⟩ := reply
  cases outcome with
  | ok result => exact haccounts.cons hne
  | error failure =>
    obtain ⟨late, haccounts, hlate⟩ := haccounts
    exact ⟨late, haccounts.cons hne, hlate⟩

theorem expect {rule : Rule} {outer : Trail} {problem : SyntaxProblem} {kind : TokenKind}
    (hproblem : problem ∈ rule.problems) (hkind : kind ≠ .eof) (tokens : List Token) :
    (Reply.expect (rule :: outer) kind problem tokens).Orderly (rule :: outer) tokens := by
  cases tokens with
  | nil => exact fail hproblem []
  | cons token rest =>
    by_cases h : token.kind = kind
    · simp only [Reply.expect, h, ↓reduceIte]
      exact (done token rest).cons (h ▸ hkind)
    · simp only [Reply.expect, h, ↓reduceIte]
      exact fail hproblem _

/-- An assignment to what stands before the `=` in front: an invalid target is noted there. -/
theorem assign {equals : Token} (hequals : equals.kind = .equal) {values : Reply Expr}
    (h : values.Orderly trail after) (target : Expr) :
    (values.bind fun value rest => Reply.assign target equals value rest).Orderly trail
      (equals :: after) := by
  have hne : equals.kind ≠ .eof := by simp [hequals]
  rcases assign_cases target equals with ⟨name, rfl⟩ | hnoted
  · exact (h.bind fun value rest _ => done _ rest).cons hne
  · simp only [hnoted]
    obtain ⟨outcome, reported, traces⟩ := values
    cases outcome with
    | error failure => exact h.cons hne
    | ok result =>
      obtain ⟨value, rest⟩ := result
      have haccounts : Accounts after rest reported traces [] := h.2
      refine ⟨?_, ?_⟩
      · simpa [Reply.bind, Reply.noted] using h.1
      · simpa [Reply.bind, Reply.noted] using haccounts.noted hne

end Reply.Orderly

/-! ### Rules for expressions -/

/-- Every call for an expression keeps to the order. An operand, or the rest of a chain, is read
inside the rule of its level. -/
def ExprCall.Orderly : ExprCall → List Token → Prop
  | .expression, tokens => ∀ trail,
    (Grammar.expression trail tokens).Orderly (.expression :: trail) tokens
  | .assignment, tokens => ∀ trail,
    (Grammar.assignment trail tokens).Orderly (.assignment :: trail) tokens
  | .binary level, tokens => ∀ trail,
    (Grammar.binary level trail tokens).Orderly (level.rule :: trail) tokens
  | .operand level, tokens => ∀ trail,
    (Grammar.operand level (level.rule :: trail) tokens).Orderly (level.rule :: trail) tokens
  | .chain level left, tokens => ∀ trail,
    (Grammar.chain level (level.rule :: trail) left tokens).Orderly (level.rule :: trail) tokens
  | .unary, tokens => ∀ trail, (Grammar.unary trail tokens).Orderly (.unary :: trail) tokens
  | .primary, tokens => ∀ trail, (Grammar.primary trail tokens).Orderly (.primary :: trail) tokens

theorem ExprCall.orderly : ∀ (call : ExprCall) (tokens : List Token), call.Orderly tokens := by
  apply ExprCall.induct
  intro call tokens shorter lower
  cases call with
  | expression =>
    intro trail
    rw [expression_eq]
    exact (lower .assignment (by decide) _).call (by decide)
  | assignment =>
    intro trail
    rw [assignment_eq]
    refine ((lower (.binary .equality) (by decide) _).call (by decide)).bind ?_
    intro target rest hrest
    have hlength := (Reading.binary .equality _ tokens).length_rest_lt hrest
    cases rest with
    | nil => exact .done target []
    | cons equals after =>
      by_cases h : equals.kind = .equal
      · simp only [h, ↓reduceIte]
        have hvalue := shorter .assignment after (Nat.lt_of_succ_lt hlength) (.assignment :: trail)
        exact (hvalue.call (by decide)).assign h target
      · simp only [h, ↓reduceIte]
        exact .done target _
  | binary level =>
    intro trail
    rw [binary_eq]
    refine (lower (.operand level) (Nat.lt_succ_self _) trail).bind ?_
    intro left rest hrest
    exact shorter (.chain level left) rest
      ((Reading.operand level _ tokens).length_rest_lt hrest) trail
  | operand level =>
    intro trail
    rw [operand_eq]
    have hlower := lower (.ofOperand level) (rank_ofOperand_lt level)
    cases level <;> exact (hlower _).call (by decide)
  | chain level left =>
    intro trail
    rw [chain_eq]
    cases tokens with
    | nil => exact .done left []
    | cons token after =>
      cases hop : level.operator? token.kind with
      | none =>
        simp only [hop]
        exact .done left _
      | some op =>
        simp only [hop]
        refine Reply.Orderly.cons ((level.infix_iff _ _).mpr hop).ne_eof ?_
        refine (shorter (.operand level) after (Nat.lt_succ_self _) trail).bind ?_
        intro right rest hrest
        have hlength := (Reading.operand level _ after).length_rest_lt hrest
        exact shorter (.chain level _) rest (Nat.lt_succ_of_lt hlength) trail
  | unary =>
    intro trail
    rw [unary_eq]
    have hprimary := lower .primary (by decide) (.unary :: trail)
    cases tokens with
    | nil => exact hprimary.call (by decide)
    | cons token after =>
      cases hop : unaryOperator? token.kind with
      | none =>
        simp only [hop]
        exact hprimary.call (by decide)
      | some op =>
        simp only [hop]
        refine Reply.Orderly.cons ((prefixed_iff _ _).mpr hop).ne_eof ?_
        refine ((shorter .unary after (Nat.lt_succ_self _) _).call (by decide)).bind ?_
        intro right rest _
        exact .done _ rest
  | primary =>
    intro trail
    rw [primary_eq]
    cases tokens with
    | nil => exact .fail (by decide) []
    | cons token after =>
      cases hatom : atom? token with
      | some atom =>
        simp only [hatom]
        refine (Reply.Orderly.done atom after).cons ?_
        intro h
        simp [atom?, h] at hatom
      | none =>
        by_cases h : token.kind = .leftParen
        · simp only [hatom, h, ↓reduceIte]
          refine Reply.Orderly.cons (by simp [h]) ?_
          refine ((shorter .expression after (Nat.lt_succ_self _) _).call (by decide)).bind ?_
          intro inner rest _
          refine (Reply.Orderly.expect (by decide) (by decide) rest).bind ?_
          intro _ rest _
          exact .done _ rest
        · simp only [hatom, h, ↓reduceIte]
          exact .fail (by decide) _

theorem expression_orderly {rule : Rule} (hcall : .expression ∈ rule.callees) (trail : Trail)
    (tokens : List Token) :
    (expression (rule :: trail) tokens).Orderly (rule :: trail) tokens :=
  (ExprCall.orderly .expression tokens _).call hcall

/-! ### Rules for statements -/

theorem varDeclaration_orderly (trail : Trail) (tokens : List Token) :
    (varDeclaration trail tokens).Orderly (.varDeclaration :: trail) tokens := by
  rw [varDeclaration_eq]
  refine (Reply.Orderly.expect (by decide) (by decide) tokens).bind ?_
  intro name rest _
  refine Reply.Orderly.bind ?_ ?_
  · rw [initial_eq]
    cases rest with
    | nil => exact .done none []
    | cons equals after =>
      by_cases h : equals.kind = .equal
      · simp only [h, ↓reduceIte]
        refine Reply.Orderly.cons (by simp [h]) ?_
        exact (expression_orderly (by decide) trail after).bind fun value rest _ => .done _ rest
      · simp only [h, ↓reduceIte]
        exact .done none _
  intro value rest _
  exact (Reply.Orderly.expect (by decide) (by decide) rest).bind fun _ rest _ => .done _ rest

theorem printStatement_orderly (trail : Trail) (tokens : List Token) :
    (printStatement trail tokens).Orderly (.printStatement :: trail) tokens := by
  rw [printStatement_eq]
  refine (expression_orderly (by decide) trail tokens).bind ?_
  intro value rest _
  exact (Reply.Orderly.expect (by decide) (by decide) rest).bind fun _ rest _ => .done _ rest

theorem expressionStatement_orderly (lenient : Bool) (trail : Trail) (tokens : List Token) :
    (expressionStatement lenient trail tokens).Orderly (.expressionStatement :: trail) tokens := by
  rw [expressionStatement_eq]
  refine (expression_orderly (by decide) trail tokens).bind ?_
  intro value rest _
  split
  · exact .done _ rest
  · exact (Reply.Orderly.expect (by decide) (by decide) rest).bind fun _ rest _ => .done _ rest

/-! ### Loops that recover -/

/-- The passage keeps to the order, for a loop that was called with the trail: each stop arose in a
declaration that the loop called, and what stopped the last ones stands at the end of all tokens. -/
structure Passage.Orderly (trail : Trail) (tokens : List Token) (passage : Passage) : Prop where
  raised : ∀ trace ∈ passage.traces, trace.RaisedOn (.declaration :: trail)
  accounts : ∃ late, Accounts tokens passage.rest passage.reported passage.traces late ∧
    (late = [] ∨ atEnd passage.rest = true) ∧ Ends trail passage.rest late

theorem exists_seekStatement (passed : TokenKind) (tokens : List Token) :
    ∃ skipped, tokens = skipped ++ seekStatement passed tokens ∧
      ∀ token ∈ skipped, token.kind ≠ .eof := by
  induction tokens generalizing passed with
  | nil => exact ⟨[], rfl, by simp⟩
  | cons token rest ih =>
    rw [seekStatement]
    split
    · exact ⟨[], rfl, by simp⟩
    · next hstop =>
      obtain ⟨skipped, hskipped, hne⟩ := ih token.kind
      exact ⟨token :: skipped, congrArg _ hskipped,
        List.forall_mem_cons.mpr ⟨fun h => hstop (.inl h), hne⟩⟩

/-- Before the end, recovery passes the token in front and perhaps others. -/
theorem exists_recover {token : Token} (hne : token.kind ≠ .eof) (rest : List Token) :
    ∃ skipped, token :: rest = token :: skipped ++ recover (token :: rest) ∧
      ∀ token ∈ skipped, token.kind ≠ .eof := by
  rw [recover, if_neg hne]
  obtain ⟨skipped, hskipped, hnes⟩ := exists_seekStatement token.kind rest
  exact ⟨skipped, congrArg _ hskipped, hnes⟩

theorem recover_of_atEnd {tokens : List Token} (h : atEnd tokens = true) :
    recover tokens = tokens := by
  cases tokens with
  | nil => rfl
  | cons token rest =>
    have hkind : token.kind = .eof := by simpa [atEnd, peek] using h
    rw [recover, if_pos hkind]

/-- At the end nothing more is read. -/
theorem statements_of_endsPassage {lenient inBlock : Bool} {trail : Trail} {tokens : List Token}
    (h : endsPassage inBlock tokens = true) :
    statements lenient inBlock trail tokens = .empty tokens := by
  rw [statements_eq, if_pos h]

theorem endsPassage_of_atEnd {inBlock : Bool} {tokens : List Token} (h : atEnd tokens = true) :
    endsPassage inBlock tokens = true := by
  simp [endsPassage, h]

theorem Passage.Orderly.empty (trail : Trail) (tokens : List Token) :
    (Passage.empty tokens).Orderly trail tokens :=
  ⟨by simp [Passage.empty], [], .refl tokens, .inl rfl, .nil⟩

theorem Passage.Orderly.cons {trail : Trail} {tokens rest : List Token} {first : Reply Stmt}
    {stmt : Stmt} {more : Passage} (h : first.Orderly (.declaration :: trail) tokens)
    (hok : first.outcome = .ok (stmt, rest)) (hmore : more.Orderly trail rest) :
    (more.cons stmt first).Orderly trail tokens := by
  obtain ⟨late, haccounts, hlate⟩ := hmore.accounts
  exact ⟨List.forall_mem_append.mpr ⟨h.1, hmore.raised⟩, late,
    (h.accounts_of_ok hok).trans haccounts, hlate⟩

/-- A failure before the end is one error at a token, which recovery passes. -/
theorem Accounts.recover {tokens place : List Token} {errors : List SyntaxError}
    {traces late : List Trace} {trail : Trail} (h : Accounts tokens place errors traces late)
    (hlate : late ≠ []) (hends : Ends trail place late) (hplace : atEnd place = false)
    (hraised : ∀ trace ∈ late, trace.error.problem ≠ .invalidTarget) :
    Accounts tokens (recover place) errors traces [] := by
  obtain ⟨taken, early, earlier, htokens, hne, hplaced, htraced, rfl, rfl⟩ := h
  obtain ⟨last, rfl⟩ : ∃ last, late = [last] := by
    have hone : late.length ≤ 1 := hends.once.resolve_right (by simp [hplace])
    have hpos := List.length_pos_iff.mpr hlate
    exact List.length_eq_one_iff.mp (by omega)
  cases place with
  | nil => simp [atEnd, peek] at hplace
  | cons token rest =>
    have hkind : token.kind ≠ .eof := by simpa [atEnd, peek] using hplace
    obtain ⟨skipped, hskipped, hnes⟩ := exists_recover hkind rest
    have htoken : last.error.token = token := hends.token_eq last (by simp)
    have herror : last.error = ⟨token, last.error.problem⟩ := by rw [← htoken]
    refine ⟨taken ++ token :: skipped, early ++ [last.error], earlier ++ [last], ?_, ?_, ?_, ?_,
      by simp, by simp⟩
    · rw [List.append_assoc, ← hskipped, htokens]
    · exact List.forall_mem_append.mpr ⟨hne, List.forall_mem_cons.mpr ⟨hkind, hnes⟩⟩
    · rw [herror]
      exact hplaced.append .singleton
    · rw [List.map_append, failuresOf_append, htraced, List.map_singleton]
      refine congrArg _ (failuresOf_eq_self ?_).symm
      simpa using hraised last (by simp)

theorem Passage.Orderly.skip {lenient inBlock : Bool} {trail : Trail} {tokens : List Token}
    {first : Reply Stmt} {failure : Failure} (h : first.Orderly (.declaration :: trail) tokens)
    (herror : first.outcome = .error failure)
    (hmore : (statements lenient inBlock trail (recover failure.tokens)).Orderly trail
      (recover failure.tokens)) :
    ((statements lenient inBlock trail (recover failure.tokens)).skip failure first).Orderly trail
      tokens := by
  obtain ⟨late, haccounts, hlate, hends⟩ := h.accounts_of_error herror
  refine ⟨List.forall_mem_append.mpr ⟨h.1, hmore.raised⟩, ?_⟩
  have hreported (more : List SyntaxError) : first.reported ++ failure.error :: more =
      first.reported ++ [failure.error] ++ more := by simp
  cases hend : atEnd failure.tokens with
  | true =>
    -- Recovery stays at the end, where the loop ends as well.
    have hempty : statements lenient inBlock trail (Grammar.recover failure.tokens) =
        .empty failure.tokens := by
      rw [recover_of_atEnd hend, statements_of_endsPassage (endsPassage_of_atEnd hend)]
    rw [hempty]
    refine ⟨late, ?_, .inr hend, hends⟩
    simpa [Passage.skip, Passage.empty] using haccounts
  | false =>
    obtain ⟨later, hmoreAccounts, hlater⟩ := hmore.accounts
    refine ⟨later, ?_, hlater⟩
    have hraised : ∀ trace ∈ late, trace.error.problem ≠ .invalidTarget := by
      obtain ⟨-, -, earlier, -, -, -, -, -, htraces⟩ := haccounts
      intro trace htrace
      exact (h.1 trace (by rw [htraces]; exact List.mem_append_right _ htrace)).ne_invalidTarget
    rw [Passage.skip, hreported]
    exact (haccounts.recover hlate hends hend hraised).trans hmoreAccounts

/-- A block that is not closed fails once more at the end of all tokens, after everything in it. -/
theorem Passage.Orderly.close {trail : Trail} {tokens : List Token} {passage : Passage}
    (h : passage.Orderly (.block :: trail) tokens) (hend : endsPassage true passage.rest = true) :
    (passage.reply.bind fun body rest =>
      (Reply.expect (.block :: trail) .rightBrace .expectedBlockClose rest).bind
        fun _ rest => .done (Stmt.block body) rest).Orderly (.block :: trail) tokens := by
  obtain ⟨body, rest, reported, traces⟩ := passage
  obtain ⟨hraised, late, haccounts, hlate, hends⟩ := h
  have hraised : ∀ trace ∈ traces, trace.RaisedOn (.block :: trail) := fun trace htrace =>
    (hraised trace htrace).call (by decide)
  by_cases hclosed : peek rest = .rightBrace
  · have hnotEnd : atEnd rest = false := by simp [atEnd, hclosed]
    obtain rfl : late = [] := hlate.resolve_right (by simp [hnotEnd])
    have hpassage : (Passage.reply ⟨body, rest, reported, traces⟩).Orderly (.block :: trail) tokens :=
      ⟨hraised, haccounts⟩
    refine hpassage.bind ?_
    intro _ rest _
    exact (Reply.Orderly.expect (by decide) (by decide) rest).bind fun _ rest _ => .done _ rest
  · have hatEnd : atEnd rest = true := by simpa [endsPassage, hclosed] using hend
    simp only [Passage.reply, Reply.bind, Reply.expect_of_peek_ne hclosed, Reply.fail,
      List.append_nil]
    have hadded := haccounts.add_late ⟨.block :: trail, ⟨currentToken rest, .expectedBlockClose⟩⟩
    refine ⟨List.forall_mem_append.mpr ⟨hraised, List.forall_mem_singleton.mpr ?_⟩, _, hadded,
      by simp, hends.close hatEnd _⟩
    exact Trace.raisedOn_self List.mem_cons_self

/-! ### Rules for statements that recur -/

/-- Every call for statements keeps to the order. -/
def StmtCall.Orderly (lenient : Bool) : StmtCall → List Token → Prop
  | .declaration, tokens => ∀ trail,
    (Grammar.declaration lenient trail tokens).Orderly (.declaration :: trail) tokens
  | .statement, tokens => ∀ trail,
    (Grammar.statement lenient trail tokens).Orderly (.statement :: trail) tokens
  | .ifStatement, tokens => ∀ trail,
    (Grammar.ifStatement lenient trail tokens).Orderly (.ifStatement :: trail) tokens
  | .block, tokens => ∀ trail,
    (Grammar.block lenient trail tokens).Orderly (.block :: trail) tokens
  | .statements inBlock, tokens => ∀ trail,
    endsPassage inBlock (Grammar.statements lenient inBlock trail tokens).rest = true ∧
      (Grammar.statements lenient inBlock trail tokens).Orderly trail tokens

theorem StmtCall.orderly (lenient : Bool) :
    ∀ (call : StmtCall) (tokens : List Token), call.Orderly lenient tokens := by
  apply StmtCall.induct
  intro call tokens shorter lower
  cases call with
  | declaration =>
    intro trail
    have hstatement := lower .statement tokens rfl (by simp [rank]) (.declaration :: trail)
    rw [declaration_eq]
    cases tokens with
    | nil => exact hstatement.call (by decide)
    | cons token after =>
      by_cases h : token.kind = .kwVar
      · simp only [h, ↓reduceIte]
        exact ((varDeclaration_orderly _ after).call (by decide)).cons (by simp [h])
      · simp only [h, ↓reduceIte]
        exact hstatement.call (by decide)
  | statement =>
    intro trail
    rw [statement_eq]
    cases tokens with
    | nil => exact (expressionStatement_orderly lenient _ []).call (by decide)
    | cons token after =>
      dsimp only
      split
      · next h =>
        refine Reply.Orderly.cons (by simp [h]) ?_
        exact (shorter .ifStatement after (Nat.lt_succ_self _) _).call (by decide)
      · next h =>
        exact ((printStatement_orderly _ after).call (by decide)).cons (by simp [h])
      · next h =>
        refine Reply.Orderly.cons (by simp [h]) ?_
        exact (shorter .block after (Nat.lt_succ_self _) _).call (by decide)
      · exact (expressionStatement_orderly lenient _ _).call (by decide)
  | ifStatement =>
    intro trail
    rw [ifStatement_eq]
    refine (Reply.Orderly.expect (by decide) (by decide) tokens).bind ?_
    intro _ afterOpening hopening
    have h₁ := (Reading.expect _ .leftParen .expectedConditionOpen tokens).length_rest_lt hopening
    refine (expression_orderly (by decide) trail afterOpening).bind ?_
    intro condition afterCondition hcondition
    have h₂ := (Reading.expression _ afterOpening).length_rest_lt hcondition
    refine (Reply.Orderly.expect (by decide) (by decide) afterCondition).bind ?_
    intro _ afterClosing hclosing
    have h₃ := (Reading.expect _ .rightParen .expectedConditionClose
      afterCondition).length_rest_lt hclosing
    refine ((shorter .statement afterClosing (by omega) _).call (by decide)).bind ?_
    intro yes others hyes
    have h₄ := (Reading.statement lenient _ afterClosing).length_rest_lt hyes
    cases others with
    | nil => exact .done _ []
    | cons other after =>
      by_cases h : other.kind = .kwElse
      · simp only [h, ↓reduceIte]
        refine Reply.Orderly.cons (by simp [h]) ?_
        refine ((shorter .statement after (by simp at h₄; omega) _).call (by decide)).bind ?_
        intro no rest _
        exact .done _ rest
      · simp only [h, ↓reduceIte]
        exact .done _ _
  | block =>
    intro trail
    rw [block_eq]
    obtain ⟨hend, hbody⟩ := lower (.statements true) tokens rfl
      (by simp only [rank]; split <;> omega) (.block :: trail)
    exact hbody.close hend
  | statements inBlock =>
    intro trail
    rw [statements_eq]
    split
    · next hend => exact ⟨hend, .empty trail tokens⟩
    · next hend =>
      have hatEnd : atEnd tokens = false := (Bool.or_eq_false_iff.mp (eq_false_of_ne_true hend)).1
      have hfirst := lower .declaration tokens rfl (by simp [rank, hatEnd]) trail
      unfold Reply.andThen
      split
      · next stmt rest hrest =>
        obtain ⟨hend', hmore⟩ := shorter (.statements inBlock) rest
          ((Reading.declaration lenient trail tokens).length_rest_lt hrest) trail
        exact ⟨hend', .cons hfirst hrest hmore⟩
      · next failure hfailure =>
        have hrecovered : StmtCall.Orderly lenient (.statements inBlock) (recover failure.tokens) := by
          have hlength := (Reading.declaration lenient trail tokens).length_tokens_le hfailure
          rcases recover_lower hlength with hlt | ⟨hsame, hrecover⟩
          · exact shorter (.statements inBlock) _ hlt
          · exact lower (.statements inBlock) _ hsame (by simp [rank, hatEnd, hrecover])
        obtain ⟨hend', hmore⟩ := hrecovered trail
        exact ⟨hend', .skip hfirst hfailure hmore⟩

/-- **A loop that recovers keeps to the order**, and it goes on to the end of its passage. -/
theorem statements_orderly (lenient inBlock : Bool) (trail : Trail) (tokens : List Token) :
    endsPassage inBlock (statements lenient inBlock trail tokens).rest = true ∧
      (statements lenient inBlock trail tokens).Orderly trail tokens :=
  StmtCall.orderly lenient (.statements inBlock) tokens trail

end LoxLang.Grammar
