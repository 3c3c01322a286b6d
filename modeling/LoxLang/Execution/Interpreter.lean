import LoxLang.Execution.Evaluation
import LoxLang.Execution.Sink

/-!
# Running programs

Statements run one after the other until one stops the run. A block runs in a scope of
its own, which is closed whether or not the block stops early. With echo on, an expression
statement writes its value as a print statement does.

An `Interpreter` keeps its scopes from one program to the next; the output is handed to
each run.
-/

namespace LoxLang

/-- What a run changes: the scopes and the output. -/
structure RunState (σ : Type) where
  scopes : Scopes
  output : σ
  deriving DecidableEq

namespace RunState

variable {σ : Type}

/-- Evaluates an expression. -/
def eval (state : RunState σ) (e : Expr) : Except RuntimeError Value × RunState σ :=
  match e.eval state.scopes with
  | (result, scopes) => (result, { state with scopes })

/-- Writes the display text of a value. -/
def write [Sink σ] (state : RunState σ) (value : Value) : Except ExecutionError Unit × RunState σ :=
  match Sink.writeLine value.display state.output with
  | (result, output) => (result.mapError .output, { state with output })

end RunState

variable {σ : Type} [Sink σ]

mutual

/-- Runs a statement. -/
def Stmt.exec (echo : Bool) : Stmt → RunState σ → Except ExecutionError Unit × RunState σ
  | .expression e, state =>
    match state.eval e with
    | (.error error, state) => (.error (.runtime error), state)
    | (.ok value, state) => if echo then state.write value else (.ok (), state)
  | .print e, state =>
    match state.eval e with
    | (.error error, state) => (.error (.runtime error), state)
    | (.ok value, state) => state.write value
  | .declare name none, state => (.ok (), { state with scopes := state.scopes.declare name.lexeme })
  | .declare name (some initial), state =>
    match state.eval initial with
    | (.error error, state) => (.error (.runtime error), state)
    | (.ok value, state) => (.ok (), { state with scopes := state.scopes.define name.lexeme value })
  | .block body, state =>
    match Stmt.execAll echo body { state with scopes := state.scopes.push } with
    | (result, state) => (result, { state with scopes := state.scopes.pop })
  | .conditional condition yes no, state =>
    match state.eval condition with
    | (.error error, state) => (.error (.runtime error), state)
    | (.ok value, state) =>
      if value.isTruthy then yes.exec echo state
      else
        match no with
        | none => (.ok (), state)
        | some no => no.exec echo state

/-- Runs statements in order up to the first that stops the run. -/
def Stmt.execAll (echo : Bool) : List Stmt → RunState σ → Except ExecutionError Unit × RunState σ
  | [], state => (.ok (), state)
  | stmt :: rest, state =>
    match stmt.exec echo state with
    | (.error error, state) => (.error error, state)
    | (.ok (), state) => Stmt.execAll echo rest state

end

/-- The scopes that runs share, and whether expression statements write their values. -/
structure Interpreter where
  scopes : Scopes
  echo : Bool
  deriving DecidableEq

namespace Interpreter

/-- An interpreter that has run nothing. -/
def new (echo : Bool) : Interpreter := ⟨.initial, echo⟩

/-- Runs a program and keeps the scopes that it leaves, whether or not it stopped early. -/
def interpret (interpreter : Interpreter) (program : Program) (output : σ) :
    Except ExecutionError Unit × Interpreter × σ :=
  match Stmt.execAll interpreter.echo program ⟨interpreter.scopes, output⟩ with
  | (result, state) => (result, { interpreter with scopes := state.scopes }, state.output)

end Interpreter

end LoxLang
