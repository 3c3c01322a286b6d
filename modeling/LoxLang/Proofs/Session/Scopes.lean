import LoxLang.Proofs.Execution.ScopeCalls
import LoxLang.Session.Basic

/-!
# Scopes in a session

Whatever programs an interpreter has run, and however they ended, only the global scope is open
afterwards; the same for the source texts of a session (`exec_releases_scopes`).
-/

namespace LoxLang

/-! ### What interpreters and sessions come to -/

/-- An interpreter that has run programs, one after the other and each on any output. -/
inductive Interpreter.Reachable : Interpreter → Prop where
  | new (echo : Bool) : Reachable (.new echo)
  | interpret {σ : Type} [Sink σ] {interpreter : Interpreter} (program : Program) (output : σ) :
      Reachable interpreter → Reachable (interpreter.interpret program output).2.1

variable {σ : Type} [Sink σ]

/-- A session that has run source texts, one after the other. -/
inductive Session.Reachable : Session σ → Prop where
  | new (settings : Settings) (output : σ) : Reachable (.new settings output)
  | run {session : Session σ} (source : String) : Reachable session →
      Reachable (session.run source).session

/-- **A source text that is a program is run, and any other leaves the session as it was.** -/
theorem Session.run_of_ofSource (session : Session σ) (source : String) :
    (session.run source).outcome = (match Program.ofSource session.settings.interactive source with
      | .error error => .error error
      | .ok program => (session.execute program).outcome) ∧
    (session.run source).session = (match Program.ofSource session.settings.interactive source with
      | .error _ => session
      | .ok program => (session.execute program).session) := by
  unfold run Program.ofSource tokenize
  dsimp only
  cases errorsOf (Cursor.start source).scan with
  | cons error errors => exact ⟨rfl, rfl⟩
  | nil =>
    unfold runTokens Grammar.parse
    dsimp only
    cases (Grammar.program session.settings.interactive
      (tokensOf (Cursor.start source).scan)).reported with
    | cons error errors => exact ⟨rfl, rfl⟩
    | nil => exact ⟨rfl, rfl⟩

/-! ### Only the global scope is left -/

theorem Interpreter.interpret_depth (interpreter : Interpreter) (program : Program) (output : σ) :
    (interpreter.interpret program output).2.1.scopes.depth = interpreter.scopes.depth :=
  Stmt.execAll_depth interpreter.echo program ⟨interpreter.scopes, output⟩

theorem Interpreter.Reachable.depth_eq {interpreter : Interpreter} (h : interpreter.Reachable) :
    interpreter.scopes.depth = 1 := by
  induction h with
  | new echo => rfl
  | interpret program output _ ih => rw [Interpreter.interpret_depth, ih]

/-- The interpreter of a session has run programs. -/
theorem Session.Reachable.interpreter {session : Session σ} (h : session.Reachable) :
    session.interpreter.Reachable := by
  induction h with
  | new settings output => exact .new _
  | @run session source _ ih =>
    rw [(session.run_of_ofSource source).2]
    split
    · exact ih
    · next program _ => exact .interpret program session.output ih

/-- **Scopes are released however a run ends.** A statement leaves as many scopes open as before,
and a block keeps the names of every scope and takes no value away. A scope is closed only inside
another one, and names are bound only in an open scope. So interpreters and sessions are left with
the global scope alone. -/
theorem exec_releases_scopes :
    (∀ (echo : Bool) (stmt : Stmt) (state : RunState σ),
      (stmt.exec echo state).2.scopes.depth = state.scopes.depth) ∧
    (∀ (echo : Bool) (body : List Stmt) (state : RunState σ),
      Scope.KeepsAll state.scopes.toList ((Stmt.block body).exec echo state).2.scopes.toList) ∧
    (∀ (echo : Bool) (stmt : Stmt) (state : RunState σ),
      ScopeCall.replay (stmt.calls echo state) state.scopes.toList =
        some (stmt.exec echo state).2.scopes.toList) ∧
    (∀ (echo : Bool) (stmt : Stmt) (state : RunState σ) (before after : List ScopeCall)
      (call : ScopeCall), stmt.calls echo state = before ++ call :: after →
      ∃ scopes, ScopeCall.replay before state.scopes.toList = some scopes ∧
        (call = .pop → 2 ≤ scopes.length) ∧
        (∀ name binding, call = .bind name binding → scopes ≠ [])) ∧
    (∀ interpreter : Interpreter, interpreter.Reachable → interpreter.scopes.depth = 1) ∧
    (∀ session : Session σ, session.Reachable → session.interpreter.scopes.depth = 1) := by
  refine ⟨fun echo stmt state => stmt.exec_depth echo state,
    fun echo body state => Stmt.exec_block_keeps echo body state,
    fun echo stmt state => stmt.replay_calls echo state, ?_,
    fun interpreter h => h.depth_eq, fun session h => h.interpreter.depth_eq⟩
  intro echo stmt state before after call hcalls
  have hreplay := stmt.replay_calls echo state
  rw [hcalls] at hreplay
  obtain ⟨scopes, next, hscopes, hnext⟩ := ScopeCall.exists_apply_of_replay hreplay
  refine ⟨scopes, hscopes, ?_, ?_⟩
  · rintro rfl
    exact ScopeCall.two_le_of_apply_pop hnext
  · rintro name binding rfl
    exact ScopeCall.ne_nil_of_apply_bind hnext

/-- A block that declares a name and then prints to an output that takes no line. -/
def refusedBlock : Stmt :=
  .block [.declare ⟨.identifier, "a", none, 1⟩ none, .print (.literal .nil)]

/-- The block stops at its last statement, and its scope is closed from inside the global one;
nothing else is open afterwards. -/
theorem exec_releases_scopes_refusedBlock :
    (refusedBlock.exec false ⟨.initial, Transcript.limitedTo 0⟩).1 = .error (.output "closed") ∧
    (refusedBlock.exec false ⟨.initial, Transcript.limitedTo 0⟩).2.scopes.depth = 1 ∧
    (∃ scopes, ScopeCall.replay [.push, .bind "a" none] Scopes.initial.toList = some scopes ∧
      2 ≤ scopes.length) ∧
    ((Interpreter.new false).interpret [refusedBlock]
      (Transcript.limitedTo 0)).2.1.scopes.depth = 1 ∧
    ((Session.new .standard (Transcript.limitedTo 0)).run
      "\x7b print nil; \x7d").session.interpreter.scopes.depth = 1 := by
  obtain ⟨hdepth, -, -, hcalls, hinterpreter, hsession⟩ := @exec_releases_scopes Transcript _
  have hcall : refusedBlock.calls false ⟨.initial, Transcript.limitedTo 0⟩ =
      [.push, .bind "a" none] ++ .pop :: [] := rfl
  obtain ⟨scopes, hscopes, hpop, -⟩ := hcalls false refusedBlock
    ⟨.initial, Transcript.limitedTo 0⟩ _ _ _ hcall
  exact ⟨rfl, hdepth false refusedBlock _, ⟨scopes, hscopes, hpop rfl⟩,
    hinterpreter _ (.interpret _ _ (.new false)), hsession _ (.run _ (.new .standard _))⟩

end LoxLang
