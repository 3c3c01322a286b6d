import LoxLang.Proofs.Grammar.EndOfInput
import LoxLang.Proofs.Grammar.Orderly

/-!
# Reading makes progress

Whatever the tokens, every rule that has a result took a token, and none behind the end; a rule that
fails does so at tokens it was given; and the loops that recover go on behind at least one more
token in every round, up to the end (`Progress`, `Reply.resume`). For that reason no two errors
stand at one place. To speak of places, the tokens are numbered: as no rule looks at the line of a
token, the numbers can stand in its place (`reported_numbered`).
-/

namespace LoxLang

/-- The error is at the end of all tokens. -/
def SyntaxError.isAtEnd (error : SyntaxError) : Bool := error.token.kind == .eof

namespace Grammar

variable {α : Type}

/-! ### What a rule leaves -/

/-- What is left after tokens were taken from the front: at least one, and none of them an end. -/
def Advances (tokens rest : List Token) : Prop :=
  ∃ taken, taken ≠ [] ∧ tokens = taken ++ rest ∧ ∀ token ∈ taken, token.kind ≠ .eof

/-- What an answer to the tokens leaves: after a result fewer of them, after a failure a place among
them. -/
def Progress (tokens : List Token) : Except Failure (List Token) → Prop
  | .ok rest => Advances tokens rest
  | .error failure => failure.tokens <:+ tokens

/-- The tokens behind the result, or the failure. -/
def Reply.left (reply : Reply α) : Except Failure (List Token) := reply.outcome.map Prod.snd

/-- Where a loop that recovers goes on: behind the result, or at the place found after a failure. -/
def Reply.resume (reply : Reply α) : List Token :=
  match reply.outcome with
  | .ok (_, rest) => rest
  | .error failure => recover failure.tokens

/-- What a rule leaves of the tokens that it is called on. -/
def Rule.leaves (lenient : Bool) (trail : Trail) (tokens : List Token) :
    Rule → Except Failure (List Token)
  | .program => .ok (Grammar.program lenient tokens).rest
  | .declaration => (Grammar.declaration lenient trail tokens).left
  | .varDeclaration => (Grammar.varDeclaration trail tokens).left
  | .statement => (Grammar.statement lenient trail tokens).left
  | .ifStatement => (Grammar.ifStatement lenient trail tokens).left
  | .printStatement => (Grammar.printStatement trail tokens).left
  | .block => (Grammar.block lenient trail tokens).left
  | .expressionStatement => (Grammar.expressionStatement lenient trail tokens).left
  | .expression => (Grammar.expression trail tokens).left
  | .assignment => (Grammar.assignment trail tokens).left
  | .equality => (Grammar.binary .equality trail tokens).left
  | .comparison => (Grammar.binary .comparison trail tokens).left
  | .term => (Grammar.binary .term trail tokens).left
  | .factor => (Grammar.binary .factor trail tokens).left
  | .unary => (Grammar.unary trail tokens).left
  | .primary => (Grammar.primary trail tokens).left

/-- A reading in order makes progress. -/
theorem Reading.progress {trail : Trail} {tokens : List Token} (reading : Reading α tokens.length)
    (h : reading.reply.Orderly trail tokens) : Progress tokens reading.reply.left := by
  unfold Reply.left
  cases houtcome : reading.reply.outcome with
  | ok result =>
    obtain ⟨a, rest⟩ := result
    obtain ⟨taken, htokens, hne⟩ := (h.accounts_of_ok houtcome).exists_taken
    have hlength := reading.length_rest_lt houtcome
    refine ⟨taken, ?_, htokens, hne⟩
    rintro rfl
    simp [htokens] at hlength
  | error failure =>
    obtain ⟨late, haccounts, -⟩ := h.accounts_of_error houtcome
    obtain ⟨taken, htokens, -⟩ := haccounts.exists_taken
    exact ⟨taken, htokens.symm⟩

/-- Every rule below the whole program makes progress. -/
theorem Rule.progress_leaves {rule : Rule} (hrule : rule ≠ .program) (lenient : Bool)
    (trail : Trail) (tokens : List Token) : Progress tokens (rule.leaves lenient trail tokens) := by
  cases rule with
  | program => exact absurd rfl hrule
  | declaration =>
    exact (Reading.declaration lenient trail tokens).progress
      (StmtCall.orderly lenient .declaration tokens trail)
  | varDeclaration =>
    exact (Reading.varDeclaration trail tokens).progress (varDeclaration_orderly trail tokens)
  | statement =>
    exact (Reading.statement lenient trail tokens).progress
      (StmtCall.orderly lenient .statement tokens trail)
  | ifStatement =>
    exact (Reading.ifStatement lenient trail tokens).progress
      (StmtCall.orderly lenient .ifStatement tokens trail)
  | printStatement =>
    exact (Reading.printStatement trail tokens).progress (printStatement_orderly trail tokens)
  | block =>
    exact (Reading.block lenient trail tokens).progress
      (StmtCall.orderly lenient .block tokens trail)
  | expressionStatement =>
    exact (Reading.expressionStatement lenient trail tokens).progress
      (expressionStatement_orderly lenient trail tokens)
  | expression =>
    exact (Reading.expression trail tokens).progress (ExprCall.orderly .expression tokens trail)
  | assignment =>
    exact (Reading.assignment trail tokens).progress (ExprCall.orderly .assignment tokens trail)
  | equality =>
    exact (Reading.binary .equality trail tokens).progress
      (ExprCall.orderly (.binary .equality) tokens trail)
  | comparison =>
    exact (Reading.binary .comparison trail tokens).progress
      (ExprCall.orderly (.binary .comparison) tokens trail)
  | term =>
    exact (Reading.binary .term trail tokens).progress
      (ExprCall.orderly (.binary .term) tokens trail)
  | factor =>
    exact (Reading.binary .factor trail tokens).progress
      (ExprCall.orderly (.binary .factor) tokens trail)
  | unary => exact (Reading.unary trail tokens).progress (ExprCall.orderly .unary tokens trail)
  | primary => exact (Reading.primary trail tokens).progress (ExprCall.orderly .primary tokens trail)

/-! ### Loops that recover -/

/-- A loop goes on with the passage from where it resumes. -/
theorem andThen_rest (first : Reply Stmt) (passage : List Token → Passage) :
    (first.andThen passage).rest = (passage first.resume).rest := by
  obtain ⟨outcome, reported, traces⟩ := first
  cases outcome <;> rfl

theorem Advances.append {taken mid rest : List Token} (hne : ∀ token ∈ taken, token.kind ≠ .eof)
    (h : Advances mid rest) : Advances (taken ++ mid) rest := by
  obtain ⟨more, hmore, rfl, hnes⟩ := h
  exact ⟨taken ++ more, by simp [hmore], (List.append_assoc ..).symm,
    List.forall_mem_append.mpr ⟨hne, hnes⟩⟩

theorem advances_recover {place : List Token} (h : atEnd place = false) :
    Advances place (recover place) := by
  cases place with
  | nil => simp [atEnd, peek] at h
  | cons token rest =>
    have hkind : token.kind ≠ .eof := by simpa [atEnd, peek] using h
    obtain ⟨skipped, hskipped, hne⟩ := exists_recover hkind rest
    exact ⟨token :: skipped, List.cons_ne_nil _ _, hskipped,
      List.forall_mem_cons.mpr ⟨hkind, hne⟩⟩

/-- Every round of a loop takes a token, also one that fails: recovery does not stay where the
failure is, unless that is the end. -/
theorem advances_resume (lenient inBlock : Bool) (trail : Trail) {tokens : List Token}
    (h : endsPassage inBlock tokens = false) :
    Advances tokens (declaration lenient trail tokens).resume := by
  have hprogress := Rule.progress_leaves (by decide : Rule.declaration ≠ .program) lenient trail tokens
  have horderly := StmtCall.orderly lenient .declaration tokens trail
  have hend : atEnd tokens = false := (Bool.or_eq_false_iff.mp h).1
  unfold Rule.leaves Reply.left at hprogress
  unfold Reply.resume
  cases houtcome : (declaration lenient trail tokens).outcome with
  | ok result =>
    rw [houtcome] at hprogress
    exact hprogress
  | error failure =>
    obtain ⟨late, haccounts, -⟩ := horderly.accounts_of_error houtcome
    obtain ⟨taken, htokens, hne⟩ := haccounts.exists_taken
    dsimp only
    cases hplace : atEnd failure.tokens with
    | false =>
      rw [htokens]
      exact (advances_recover hplace).append hne
    | true =>
      rw [recover_of_atEnd hplace]
      refine ⟨taken, ?_, htokens, hne⟩
      rintro rfl
      rw [htokens, List.nil_append, hplace] at hend
      exact absurd hend (by decide)

/-- The whole program is read up to the end. -/
theorem program_rest (lenient : Bool) (tokens : List Token) :
    (program lenient tokens).rest = fromEnd tokens := by
  obtain ⟨hend, horderly⟩ := statements_orderly lenient false [.program] tokens
  have hatEnd : atEnd (program lenient tokens).rest = true := by
    simpa [program, endsPassage] using hend
  obtain ⟨late, haccounts, -⟩ := horderly.accounts
  obtain ⟨taken, htokens, hne⟩ := haccounts.exists_taken
  conv_rhs => rw [htokens]
  exact (fromEnd_append hne hatEnd).symm

/-! ### Places -/

/-- The tokens with their numbers for lines: the first is on line 1. -/
def numbered (tokens : List Token) : List Token :=
  tokens.mapIdx fun i token => { token with line := i + 1 }

/-- The line of the token with the number. What stands for the end of the list is on line 0. -/
def lineOf (tokens : List Token) : Nat → Nat
  | 0 => 0
  | i + 1 => tokens[i]?.elim 0 Token.line

theorem numbered_strictly_increasing (tokens : List Token) :
    (numbered tokens).Pairwise fun a b => a.line < b.line := by
  rw [List.pairwise_iff_getElem]
  intro i j hi hj hij
  simpa [numbered] using hij

theorem map_lineOf_numbered (tokens : List Token) :
    (numbered tokens).map (Token.mapLine (lineOf tokens)) = tokens := by
  refine List.ext_getElem (by simp [numbered]) fun i hi hi' => ?_
  simp [numbered, Token.mapLine, lineOf, hi']

/-- The errors of the numbered tokens are the errors, with numbers for lines. -/
theorem reported_numbered (lenient : Bool) (tokens : List Token) :
    (program lenient tokens).reported =
      (program lenient (numbered tokens)).reported.map (SyntaxError.mapLine (lineOf tokens)) := by
  have hshown := shown_map (lineOf tokens) (numbered tokens)
  rw [map_lineOf_numbered] at hshown
  exact (program_shown rfl lenient hshown).reported

/-- Of tokens on increasing lines, no two errors are on one line. -/
theorem Placed.nodup_lines {taken : List Token} {errors : List SyntaxError} (h : Placed taken errors)
    (hincreasing : taken.Pairwise fun a b => a.line < b.line) :
    (errors.map fun error => error.token.line).Nodup := by
  obtain ⟨sub, hperm, hsub⟩ := h.1
  have hnodup : (sub.map Token.line).Nodup :=
    (List.pairwise_map.mpr (hincreasing.sublist hsub)).imp Nat.ne_of_lt
  rwa [(hperm.map Token.line).nodup_iff, List.map_map] at hnodup

/-- Of tokens on increasing lines, those that stopped a rule are on increasing lines. -/
theorem Placed.increasing_lines {taken : List Token} {errors : List SyntaxError}
    (h : Placed taken errors) (hincreasing : taken.Pairwise fun a b => a.line < b.line) :
    ((failuresOf errors).map fun error => error.token.line).Pairwise (· < ·) := by
  have hlines := List.pairwise_map.mpr (hincreasing.sublist h.2)
  rwa [List.map_map] at hlines

/-- The blocks that were open when reading failed at the end first, by the traces. -/
def blocksOpenAtEnd (traces : List Trace) : Nat :=
  (traces.find? fun trace => trace.error.isAtEnd).elim 0 fun trace => trace.trail.count .block

/-- The first failure at the end counts. -/
theorem blocksOpenAtEnd_append {earlier late : List Trace} {first : Trace}
    (hearlier : ∀ trace ∈ earlier, trace.error.isAtEnd = false) (hfirst : first.error.isAtEnd = true) :
    blocksOpenAtEnd (earlier ++ first :: late) = first.trail.count .block := by
  have hnone : earlier.find? (fun trace => trace.error.isAtEnd) = none :=
    List.find?_eq_none.mpr fun trace htrace => by simp [hearlier trace htrace]
  simp [blocksOpenAtEnd, hnone, hfirst]

/-- The errors of tokens whose lines increase. Those that stopped a rule come in the order of the
tokens, except that the end may see several, at most one more than the blocks open there. And of all
errors, no token before the end sees two. -/
structure ErrorsInPlace (tokens : List Token) (passage : Passage) (early late : List SyntaxError) :
    Prop where
  failures : failuresOf passage.reported = early ++ late
  increasing : (early.map fun error => error.token.line).Pairwise (· < ·)
  early_before_end : ∀ error ∈ early, error.isAtEnd = false
  late_at_end : ∀ error ∈ late, error.token = currentToken passage.rest
  length_late : late.length ≤ blocksOpenAtEnd passage.traces + 1
  mem_beforeEnd : ∀ error ∈ passage.reported, error.isAtEnd = false →
    error.token ∈ beforeEnd tokens
  once : ((passage.reported.filter fun error => !error.isAtEnd).map
    fun error => error.token.line).Nodup

theorem exists_errorsInPlace (lenient : Bool) {tokens : List Token}
    (h : tokens.Pairwise fun a b => a.line < b.line) :
    ∃ early late, ErrorsInPlace tokens (program lenient tokens) early late := by
  obtain ⟨hend, horderly⟩ := statements_orderly lenient false [.program] tokens
  rw [← program] at hend horderly
  generalize program lenient tokens = passage at hend horderly
  have hatEnd : atEnd passage.rest = true := by simpa [endsPassage] using hend
  obtain ⟨late, ⟨taken, early, earlier, htokens, hne, hplaced, htraced, hreported, htraces⟩, -,
    hends⟩ := horderly.accounts
  have htaken : beforeEnd tokens = taken := by
    rw [htokens]
    exact beforeEnd_append hne hatEnd
  have hincreasing : taken.Pairwise fun a b => a.line < b.line := by
    rw [htokens] at h
    exact (List.pairwise_append.mp h).1
  have hplace : ∀ error ∈ late.map Trace.error, error.token = currentToken passage.rest := by
    intro error herror
    obtain ⟨trace, htrace, rfl⟩ := List.mem_map.mp herror
    exact hends.token_eq trace htrace
  have hlate : ∀ error ∈ late.map Trace.error, error.isAtEnd = true := by
    intro error herror
    rw [SyntaxError.isAtEnd, hplace error herror]
    cases hrest : passage.rest with
    | nil => rfl
    | cons token rest => simpa [hrest, atEnd, peek, currentToken] using hatEnd
  have htakenEarly : ∀ error ∈ early, error.token ∈ taken := fun error herror =>
    hplaced.1.subset (List.mem_map_of_mem herror)
  have hearly : ∀ error ∈ early, error.isAtEnd = false := fun error herror => by
    simpa [SyntaxError.isAtEnd] using hne _ (htakenEarly error herror)
  refine ⟨failuresOf early, late.map Trace.error, ?_, hplaced.increasing_lines hincreasing,
    fun error herror => hearly error (List.mem_of_mem_filter herror), hplace, ?_, ?_, ?_⟩
  · rw [hreported, failuresOf_append]
    refine congrArg _ (failuresOf_eq_self fun error herror => ?_)
    obtain ⟨trace, htrace, rfl⟩ := List.mem_map.mp herror
    exact (horderly.raised trace (htraces ▸ List.mem_append_right _ htrace)).ne_invalidTarget
  · cases late with
    | nil => exact Nat.zero_le _
    | cons first others =>
      have hearlier : ∀ trace ∈ earlier, trace.error.isAtEnd = false := by
        intro trace htrace
        have herror : trace.error ∈ failuresOf early := htraced ▸ List.mem_map_of_mem htrace
        exact hearly _ (List.mem_of_mem_filter herror)
      rw [htraces, blocksOpenAtEnd_append hearlier (hlate _ List.mem_cons_self), List.length_map]
      exact Nat.le_of_add_right_le (hends.open_blocks first others rfl)
  · intro error herror hnotEnd
    rw [htaken]
    rw [hreported] at herror
    rcases List.mem_append.mp herror with hmem | hmem
    · exact htakenEarly error hmem
    · exact absurd (hlate error hmem) (by simp [hnotEnd])
  · have hbefore : passage.reported.filter (fun error => !error.isAtEnd) = early := by
      rw [hreported, List.filter_append, List.filter_eq_self.mpr, List.filter_eq_nil_iff.mpr,
        List.append_nil]
      · intro error herror
        simp [hlate error herror]
      · intro error herror
        simp [hearly error herror]
    rw [hbefore]
    exact hplaced.nodup_lines hincreasing

/-! ### The whole -/

/-- **Reading makes progress and reports no place twice.** Every rule below the whole program takes
a token for a result, and none behind the end, and fails among the tokens that it was given; every
round of a loop that recovers does so too, and the whole program is read to the end. With the
tokens numbered in place of their lines, the errors stand in their places: those that stopped a rule
at increasing numbers up to the end, where there is at most one more of them than blocks are open;
and before the end there are no two errors of any kind at one token. -/
theorem reading_makes_progress (lenient : Bool) (tokens : List Token) :
    (∀ (rule : Rule) (trail : Trail), rule ≠ .program → Progress tokens (rule.leaves lenient trail tokens)) ∧
    (∀ (inBlock : Bool) (trail : Trail), endsPassage inBlock tokens = false →
      Advances tokens (declaration lenient trail tokens).resume ∧
      (statements lenient inBlock trail tokens).rest =
        (statements lenient inBlock trail (declaration lenient trail tokens).resume).rest) ∧
    (program lenient tokens).rest = fromEnd tokens ∧
    (program lenient tokens).reported =
      (program lenient (numbered tokens)).reported.map (SyntaxError.mapLine (lineOf tokens)) ∧
    ∃ early late,
      ErrorsInPlace (numbered tokens) (program lenient (numbered tokens)) early late := by
  refine ⟨fun rule trail hrule => Rule.progress_leaves hrule lenient trail tokens, ?_,
    program_rest lenient tokens, reported_numbered lenient tokens,
    exists_errorsInPlace lenient (numbered_strictly_increasing tokens)⟩
  intro inBlock trail hend
  refine ⟨advances_resume lenient inBlock trail hend, ?_⟩
  rw [statements_eq, hend, if_neg Bool.false_ne_true, andThen_rest]

/-- A block that is not closed, with a statement that breaks at its first token, and an assignment
to a number that breaks at the end. -/
def brokenBlock : List Token :=
  [⟨.leftBrace, "\x7b", none, 1⟩, ⟨.plus, "+", none, 1⟩, ⟨.semicolon, ";", none, 1⟩,
    ⟨.kwTrue, "true", none, 1⟩, ⟨.equal, "=", none, 1⟩, ⟨.kwFalse, "false", none, 1⟩]

/-- The block fails at its second token and twice at the end, where one block is open; and the
target of its assignment is noted at the fifth token. -/
theorem reading_makes_progress_brokenBlock :
    Rule.block ≠ .program ∧ Progress brokenBlock (Rule.leaves false [] brokenBlock .block) ∧
    endsPassage true brokenBlock = false ∧
    Advances brokenBlock (declaration false [.block] brokenBlock).resume ∧
    (program false (numbered brokenBlock)).reported.map (fun error => error.token.line) =
      [2, 5, 0, 0] ∧
    blocksOpenAtEnd (program false (numbered brokenBlock)).traces = 1 := by
  obtain ⟨hrules, hrounds, -⟩ := reading_makes_progress false brokenBlock
  exact ⟨by decide, hrules .block [] (by decide), by decide, (hrounds true [.block] (by decide)).1,
    by decide +kernel, by decide +kernel⟩

end Grammar

end LoxLang
