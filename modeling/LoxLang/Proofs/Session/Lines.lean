import LoxLang.Proofs.Execution.Lines
import LoxLang.Proofs.Grammar.Recognition
import LoxLang.Proofs.Session.Scopes
import LoxLang.Proofs.Token.NextLine

/-!
# Source texts one below the other

Two programs in one source text, the second in the lines below the first, are read as the two and
run as the two, one after the other in the same session (`Session.run_append_line`).
-/

namespace LoxLang

/-- An error with its tokens on the lines that are given for theirs. -/
def RunError.mapLine (g : Nat → Nat) : RunError → RunError
  | .lexical errors => .lexical (errors.map fun error => { error with line := g error.line })
  | .syntactic errors =>
    .syntactic (errors.map fun error => { error with token := error.token.mapLine g })
  | .execution error => .execution (error.mapLine g)

/-! ### Reading -/

theorem Program.ofSource_eq_ok_iff {lenient : Bool} {source : String} {program : Program} :
    Program.ofSource lenient source = .ok program ↔
      ∃ tokens, tokenize source = .ok tokens ∧ Grammar.parse lenient tokens = .ok program := by
  unfold Program.ofSource
  cases tokenize source with
  | error errors => simp
  | ok tokens =>
    cases h : Grammar.parse lenient tokens with
    | error errors => simp [Except.mapError, h]
    | ok body => simp [Except.mapError, h]

/-- The tokens before the end, where the end token is last. -/
theorem Grammar.beforeEnd_of_tokenize {source : String} {lexemes : List Token} {last : Nat}
    (h : tokenize source = .ok (lexemes ++ [Token.endAt last])) :
    Grammar.beforeEnd (lexemes ++ [Token.endAt last]) = lexemes := by
  obtain ⟨lexemes', last', htokens, hlexemes⟩ :=
    (Lexical.tokenize_eq_ok_iff_tokenizes.mp h).exists_lexemes
  obtain ⟨rfl, -⟩ := List.append_inj' htokens rfl
  refine Grammar.beforeEnd_append (fun token htoken => ?_) rfl
  obtain ⟨hpattern, heq⟩ := hlexemes token htoken
  rw [heq]
  exact hpattern.kindOf_ne_eof

/-- **Two programs one below the other are a program**: the statements of both, those of the
second on later lines. -/
theorem Program.ofSource_append_line {first second : String} {p q : Program}
    (hfirst : Program.ofSource false first = .ok p)
    (hsecond : Program.ofSource false second = .ok q) :
    Program.ofSource false (first ++ "\n" ++ second) =
      .ok (p ++ q.map (Stmt.mapLine (· + (first.toList.count '\n' + 1)))) := by
  obtain ⟨tokens, htokens, hp⟩ := Program.ofSource_eq_ok_iff.mp hfirst
  obtain ⟨tokens', htokens', hq⟩ := Program.ofSource_eq_ok_iff.mp hsecond
  obtain ⟨lexemes, last, rfl, hwhole⟩ := tokenize_append_line htokens htokens'
  obtain ⟨lexemes', last', rfl, -⟩ :=
    (Lexical.tokenize_eq_ok_iff_tokenizes.mp htokens').exists_lexemes
  rw [List.map_append, ← List.append_assoc] at hwhole
  obtain ⟨hderives, hnearest⟩ := Grammar.parse_eq_ok_iff_derivesProgram.mp hp
  obtain ⟨hderives', hnearest'⟩ := Grammar.parse_eq_ok_iff_derivesProgram.mp hq
  rw [Grammar.beforeEnd_of_tokenize htokens] at hderives
  rw [Grammar.beforeEnd_of_tokenize htokens'] at hderives'
  refine Program.ofSource_eq_ok_iff.mpr
    ⟨_, hwhole, Grammar.parse_eq_ok_iff_derivesProgram.mpr ⟨?_, ?_⟩⟩
  · have hbefore := @Grammar.beforeEnd_of_tokenize _ _
      (last' + (first.toList.count '\n' + 1)) hwhole
    rw [List.map_cons, List.map_nil]
    change Grammar.DerivesProgram (Grammar.beforeEnd (_ ++ [Token.endAt (last' + _)])) _
    rw [hbefore]
    exact hderives.append (hderives'.mapLine _)
  · exact hnearest.append (hnearest'.mapLine _)

/-! ### Running -/

variable {σ : Type} [Sink σ]

/-- What a program comes to in a session: how its statements end, and the state they leave. -/
theorem Session.execute_of_execAll {session : Session σ} {program : Program}
    {result : Except ExecutionError Unit} {state : RunState σ}
    (h : Stmt.execAll session.interpreter.echo program
      ⟨session.interpreter.scopes, session.output⟩ =
      (result, state)) :
    (session.execute program).outcome = result.mapError .execution ∧
    (session.execute program).session =
      ⟨session.settings, ⟨state.scopes, session.interpreter.echo⟩, state.output⟩ := by
  simp only [execute, Interpreter.interpret, h]
  exact ⟨trivial, trivial⟩

/-- A program that goes on after one that did not fail goes on in the session which that one
leaves. -/
theorem Session.execute_append_of_ok {session : Session σ} {p : Program}
    (h : (session.execute p).outcome = .ok ()) (q : Program) (g : Nat → Nat) :
    (session.execute (p ++ q.map (Stmt.mapLine g))).session =
      ((session.execute p).session.execute q).session ∧
    (session.execute (p ++ q.map (Stmt.mapLine g))).outcome =
      ((session.execute p).session.execute q).outcome.mapError (RunError.mapLine g) := by
  rcases hp : Stmt.execAll session.interpreter.echo p
    ⟨session.interpreter.scopes, session.output⟩ with
    ⟨result, state⟩
  obtain ⟨houtcome, hsession⟩ := Session.execute_of_execAll hp
  cases result with
  | error error => exact absurd (houtcome.symm.trans h) (by simp [Except.mapError])
  | ok done =>
    have hboth := (Stmt.execAll_append_of_ok hp (q.map (Stmt.mapLine g))).trans
      (Stmt.execAll_mapLine g _ q state)
    rcases hq : Stmt.execAll session.interpreter.echo q state with ⟨result', state'⟩
    rw [hq] at hboth
    obtain ⟨houtcome', hsession'⟩ := Session.execute_of_execAll hboth
    have hsecond : Stmt.execAll (session.execute p).session.interpreter.echo q
        ⟨(session.execute p).session.interpreter.scopes, (session.execute p).session.output⟩ =
          (result', state') := by
      rw [hsession]
      exact hq
    obtain ⟨houtcome'', hsession''⟩ := Session.execute_of_execAll hsecond
    rw [houtcome', hsession', houtcome'', hsession'', hsession]
    cases result' <;> exact ⟨rfl, rfl⟩

/-- What comes after a program that fails is not run. -/
theorem Session.execute_append_of_error {session : Session σ} {p : Program} {error : RunError}
    (h : (session.execute p).outcome = .error error) (q : Program) :
    (session.execute (p ++ q)).session = (session.execute p).session ∧
    (session.execute (p ++ q)).outcome = .error error := by
  rcases hp : Stmt.execAll session.interpreter.echo p
    ⟨session.interpreter.scopes, session.output⟩ with
    ⟨result, state⟩
  obtain ⟨houtcome, hsession⟩ := Session.execute_of_execAll hp
  cases result with
  | ok done => exact absurd (houtcome.symm.trans h) (by simp [Except.mapError])
  | error stop =>
    obtain ⟨houtcome', hsession'⟩ := Session.execute_of_execAll (Stmt.execAll_append_of_error hp q)
    exact ⟨hsession'.trans hsession.symm, houtcome'.trans (houtcome.symm.trans h)⟩

/-- **A program in pieces is the program.** Two programs one below the other, run at once, come to
what the two come to when run one after the other, if the first one does not fail; an error of
the second names its token on a later line. If the first one fails, they come to what it comes
to alone. -/
theorem Session.run_append_line (session : Session σ) (first second : String) (p q : Program)
    (hfile : session.settings.interactive = false) (hfirst : Program.ofSource false first = .ok p)
    (hsecond : Program.ofSource false second = .ok q) :
    (∃ whole, Program.ofSource false (first ++ "\n" ++ second) = .ok whole) ∧
    ((session.run first).outcome = .ok () →
      (session.run (first ++ "\n" ++ second)).session =
        ((session.run first).session.run second).session ∧
      (session.run (first ++ "\n" ++ second)).outcome =
        ((session.run first).session.run second).outcome.mapError
        (RunError.mapLine (· + (first.toList.count '\n' + 1)))) ∧
    (∀ error, (session.run first).outcome = .error error →
      (session.run (first ++ "\n" ++ second)).session = (session.run first).session ∧
      (session.run (first ++ "\n" ++ second)).outcome = .error error) := by
  have hwhole := Program.ofSource_append_line hfirst hsecond
  obtain ⟨houtcome, hsession⟩ := session.run_of_ofSource first
  obtain ⟨houtcome', hsession'⟩ := session.run_of_ofSource (first ++ "\n" ++ second)
  rw [hfile, hfirst] at houtcome hsession
  rw [hfile, hwhole] at houtcome' hsession'
  refine ⟨⟨_, hwhole⟩, ?_, ?_⟩
  · intro hok
    obtain ⟨hrest, hend⟩ := Session.execute_append_of_ok (houtcome.symm.trans hok) q
      (· + (first.toList.count '\n' + 1))
    have hsettings : (session.run first).session.settings.interactive = false := by
      rw [hsession]
      exact hfile
    obtain ⟨houtcome'', hsession''⟩ := (session.run first).session.run_of_ofSource second
    rw [hsettings, hsecond] at houtcome'' hsession''
    rw [houtcome', hsession', houtcome'', hsession'', hsession]
    exact ⟨hrest, hend⟩
  · intro error herror
    obtain ⟨hrest, hend⟩ := Session.execute_append_of_error (houtcome.symm.trans herror)
      (q.map (Stmt.mapLine (· + (first.toList.count '\n' + 1))))
    rw [houtcome', hsession', hsession]
    exact ⟨hrest, hend⟩

/-- A session that runs files and keeps all lines. -/
def fileSession : Session Transcript := .new .standard .unlimited

/-- The undefined name in the second line is found there, whether the lines are run at once or one
by one, and where it stands in the first line the second is not run. -/
theorem Session.run_append_line_undefined :
    (∃ whole, Program.ofSource false ("nil;" ++ "\n" ++ "a;") = .ok whole) ∧
    (fileSession.run ("nil;" ++ "\n" ++ "a;")).outcome =
      .error (.execution (.runtime ⟨⟨.identifier, "a", none, 2⟩, .undefinedVariable "a"⟩)) ∧
    (fileSession.run ("a;" ++ "\n" ++ "nil;")).outcome =
      .error (.execution (.runtime ⟨⟨.identifier, "a", none, 1⟩, .undefinedVariable "a"⟩)) := by
  have hnil : Program.ofSource false "nil;" = .ok [.expression (.literal .nil)] := by decide +kernel
  have hname : Program.ofSource false "a;" =
      .ok [.expression (.variable ⟨.identifier, "a", none, 1⟩)] := by decide +kernel
  have hdone : (fileSession.run "nil;").outcome = .ok () := by decide +kernel
  have hstopped : (fileSession.run "a;").outcome =
      .error (.execution (.runtime ⟨⟨.identifier, "a", none, 1⟩, .undefinedVariable "a"⟩)) := by
    decide +kernel
  have hafter : ((fileSession.run "nil;").session.run "a;").outcome =
      .error (.execution (.runtime ⟨⟨.identifier, "a", none, 1⟩, .undefinedVariable "a"⟩)) := by
    decide +kernel
  obtain ⟨hwhole, hgoesOn, -⟩ := Session.run_append_line fileSession "nil;" "a;" _ _ rfl hnil hname
  obtain ⟨-, -, hstops⟩ := Session.run_append_line fileSession "a;" "nil;" _ _ rfl hname hnil
  refine ⟨hwhole, ?_, (hstops _ hstopped).2⟩
  rw [(hgoesOn hdone).2, hafter]
  rfl

end LoxLang
