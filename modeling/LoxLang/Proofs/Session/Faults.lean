import LoxLang.Proofs.Execution.Faults
import LoxLang.Proofs.Session.Lines

/-!
# Where faults are reported in a session

Bindings and values stay from one source text to the next, but a fault is reported at a token of the
text that was run, whatever was run before (`Session.fault_in_source`).
-/

namespace LoxLang

/-- Reading runs nothing, so it never fails at run time. -/
theorem Program.ofSource_ne_execution {lenient : Bool} {source : String} (error : ExecutionError) :
    Program.ofSource lenient source ≠ .error (.execution error) := by
  unfold Program.ofSource
  cases tokenize source with
  | error errors => simp
  | ok tokens =>
    intro h
    obtain ⟨errors, -, herrors⟩ := exists_of_mapError_eq_error h
    exact absurd herrors (by simp)

variable {σ : Type} [Sink σ]

/-- The fault that stops a program arises at one of the tokens that the program was read from. -/
theorem Session.arisesIn_of_execute {session : Session σ} {lenient : Bool} {tokens : List Token}
    {program : Program} (hread : Grammar.parse lenient tokens = .ok program) {error : RuntimeError}
    (h : (session.execute program).outcome = .error (.execution (.runtime error))) :
    error.ArisesIn tokens := by
  rcases hrun : Stmt.execAll session.interpreter.echo program
    ⟨session.interpreter.scopes, session.output⟩ with ⟨result, state⟩
  rw [(Session.execute_of_execAll hrun).1] at h
  obtain ⟨stopped, rfl, hstopped⟩ := exists_of_mapError_eq_error h
  cases hstopped
  exact Stmt.execAll_error
    (fun s hs _ _ hexec => Stmt.exec_error (Grammar.drawnFrom_of_parse hread s hs) hexec) hrun

/-- **A fault is reported where it is in the source text.** Whatever a session has run before, the
token of the error is one of the tokens of this source text: its lexeme stands in the text, it is on
the line on which the lexeme ends, counted from the beginning of this text, and it fits the
fault. -/
theorem Session.fault_in_source {session : Session σ} {source : String} {error : RuntimeError}
    (h : (session.run source).outcome = .error (.execution (.runtime error))) :
    (∃ earlier later front rest, tokenize source = .ok (earlier ++ error.token :: later) ∧
      source.toList = front ++ error.token.lexeme.toList ++ rest ∧
      error.token.line = 1 + (front ++ error.token.lexeme.toList).count '\n' ∧
      Lexical.Tokenizes error.token.line rest later) ∧
    error.Fits := by
  rw [(session.run_of_ofSource source).1] at h
  split at h
  · next hread =>
    rw [Except.error.inj h] at hread
    exact absurd hread (Program.ofSource_ne_execution _)
  · next program hread =>
    obtain ⟨tokens, htokens, hparse⟩ := Program.ofSource_eq_ok_iff.mp hread
    obtain ⟨hmem, hfits⟩ := Session.arisesIn_of_execute hparse h
    obtain ⟨earlier, later, front, rest, rfl, hplace⟩ :=
      (Lexical.tokenize_eq_ok_iff_tokenizes.mp htokens).exists_place hmem hfits.ne_eof
    exact ⟨⟨earlier, later, front, rest, htokens, hplace⟩, hfits⟩

/-- The name has its value from an earlier text, and the fault is at the operator in the second line
of this one. -/
theorem Session.fault_in_source_secondLine :
    (∃ earlier later front rest,
      tokenize "nil;\n-a;" = .ok (earlier ++ ⟨.minus, "-", none, 2⟩ :: later) ∧
      "nil;\n-a;".toList = front ++ "-".toList ++ rest ∧
      2 = 1 + (front ++ "-".toList).count '\n') ∧
    RuntimeError.Fits ⟨⟨.minus, "-", none, 2⟩, .operandNotNumber⟩ := by
  have hrun : ((fileSession.run "var a = true;").session.run "nil;\n-a;").outcome =
      .error (.execution (.runtime ⟨⟨.minus, "-", none, 2⟩, .operandNotNumber⟩)) := by
    decide +kernel
  obtain ⟨⟨earlier, later, front, rest, htokens, htext, hline, -⟩, hfits⟩ :=
    Session.fault_in_source hrun
  exact ⟨⟨earlier, later, front, rest, htokens, htext, hline⟩, hfits⟩

end LoxLang
