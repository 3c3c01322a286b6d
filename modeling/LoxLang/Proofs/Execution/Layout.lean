import LoxLang.Proofs.Execution.SideBySide

/-!
# Layout does not matter

What a program does depends on its bare tree alone: groupings may be put in or left out anywhere, and
of the tokens only the lexemes of names count (`Interpreter.interpret_of_bare_eq`). Only the token at
which a fault is reported may be another one.
-/

namespace LoxLang

/-- What went wrong, wherever it did: the fault of the program, or why the output refused a line. -/
def ExecutionError.cause : ExecutionError → RuntimeFault ⊕ String
  | .runtime error => .inl error.fault
  | .output reason => .inr reason

/-- Name tokens match if they are spelled alike; the tokens of operators all match. -/
def Matching.spelledAlike : Matching :=
  let spelledAlike (token token' : Token) : Prop := token'.lexeme = token.lexeme
  ⟨spelledAlike, spelledAlike, fun _ => spelledAlike, fun _ _ => True⟩

/-- An expression is like its bare tree. -/
theorem Expr.alike_bare (e : Expr) : e.Alike .spelledAlike e.bare := by
  induction e with
  | literal value => exact .literal value
  | «variable» name => exact .variable rfl
  | grouping inner ih => exact .groupingLeft ih
  | unary op token right ih => exact .unary trivial ih
  | binary left op token right ihleft ihright => exact .binary ihleft trivial ihright
  | assign name value ih => exact .assign rfl ih

/-- A statement is like its bare tree. -/
theorem Stmt.alike_bare (n : Nat) (s : Stmt) : s.Alike .spelledAlike n s.bare := by
  have hname : ∀ n x, Matching.spelledAlike.declares n x x.bareName := fun _ _ => rfl
  exact Stmt.alike_mapParts Expr.alike_bare hname n s

theorem Matching.spelledAlike_evaluates :
    Matching.spelledAlike.Evaluates Eq fun error error' => error'.fault = error.fault :=
  evaluates_of_lexemes (fun _ _ h => h) (fun _ _ h => h)
    (fun _ _ fault h => congrArg fault.toRuntimeFault h)
    (fun _ _ fault h => congrArg fault.toRuntimeFault h) (fun _ _ _ _ => rfl)

variable {σ : Type} [Sink σ]

/-- **A program does what its bare tree does**, in the same state, but for the token of an error. -/
theorem Stmt.execAll_bare (echo : Bool) (body : List Stmt) (state : RunState σ) :
    (Stmt.execAll echo (body.map Stmt.bare) state).1.mapError ExecutionError.cause =
      (Stmt.execAll echo body state).1.mapError ExecutionError.cause ∧
    (Stmt.execAll echo (body.map Stmt.bare) state).2 = (Stmt.execAll echo body state).2 := by
  have hruns : Matching.spelledAlike.Runs echo echo (fun _ => Eq) (@Eq σ)
      fun error error' => error'.fault = error.fault :=
    Matching.runs_of_lexemes Matching.spelledAlike_evaluates (fun _ _ _ h => h)
      (fun _ _ _ h => h ▸ EndsAlike.refl _) (fun _ _ _ h => h ▸ EndsAlike.refl _)
  have hends : EndsAlike _ _ (Stmt.execAll echo body state)
      (Stmt.execAll echo (body.map Stmt.bare) state) :=
    Stmt.Alike.execAll_map hruns (fun s _ => s.alike_bare 0) ⟨rfl, rfl⟩
  generalize Stmt.execAll echo body state = r at hends
  generalize Stmt.execAll echo (body.map Stmt.bare) state = r' at hends
  refine ⟨?_, hends.states.eq.symm⟩
  cases hends with
  | ok done _ => rfl
  | error herror _ =>
    cases herror with
    | runtime hfault => exact congrArg (fun fault => Except.error (Sum.inl fault)) hfault
    | output reason => rfl

/-- **Only the bare tree of a program matters.** Programs with the same bare tree give the same output
and the same scopes, and end in the same way: well, or with the same fault, or at the same line that the
output refuses. Faults may differ in their tokens. -/
theorem Interpreter.interpret_of_bare_eq {program other : Program}
    (h : other.map Stmt.bare = program.map Stmt.bare) (interpreter : Interpreter) (output : σ) :
    let first := interpreter.interpret program output
    let second := interpreter.interpret other output
    second.2.2 = first.2.2 ∧ second.2.1.scopes = first.2.1.scopes ∧
    second.1.mapError ExecutionError.cause = first.1.mapError ExecutionError.cause := by
  intro first second
  obtain ⟨hcause, hstate⟩ :=
    Stmt.execAll_bare interpreter.echo program ⟨interpreter.scopes, output⟩
  obtain ⟨hcause', hstate'⟩ :=
    Stmt.execAll_bare interpreter.echo other ⟨interpreter.scopes, output⟩
  rw [h] at hcause' hstate'
  have hsame := hstate'.symm.trans hstate
  exact ⟨congrArg RunState.output hsame, congrArg RunState.scopes hsame,
    hcause'.symm.trans hcause⟩

/-- An assignment and then a sum, which fails, in a block: with groupings around the operands or
without, and with the tokens on one line or another. -/
def failingSum (grouped : Bool) (line : Nat) : Program :=
  let a : Token := ⟨.identifier, "a", none, line⟩
  let around (e : Expr) : Expr := if grouped then .grouping e else e
  [.declare a none,
    .block [.expression (.assign a (around (.literal (.boolean true)))),
      .print (around (.binary (.literal .nil) .plus ⟨.plus, "+", none, line⟩ (around (.variable a))))]]

/-- The sum fails in the same way and leaves the same scopes; it is reported on its own line. -/
theorem Interpreter.interpret_of_bare_eq_failingSum :
    let first := (Interpreter.new false).interpret (failingSum false 1) Transcript.unlimited
    let second := (Interpreter.new false).interpret (failingSum true 7) Transcript.unlimited
    (failingSum true 7).map Stmt.bare = (failingSum false 1).map Stmt.bare ∧
    first.1 = .error (.runtime ⟨⟨.plus, "+", none, 1⟩, .operandsNotAddable⟩) ∧
    second.1 = .error (.runtime ⟨⟨.plus, "+", none, 7⟩, .operandsNotAddable⟩) ∧
    second.2.1.scopes = ⟨⟨[("a", some (.boolean true))]⟩, []⟩ ∧
    second.1.mapError ExecutionError.cause = .error (.inl .operandsNotAddable) := by
  intro first second
  have h : (failingSum true 7).map Stmt.bare = (failingSum false 1).map Stmt.bare := rfl
  obtain ⟨-, hscopes, hcause⟩ :=
    Interpreter.interpret_of_bare_eq h (Interpreter.new false) Transcript.unlimited
  exact ⟨h, rfl, rfl, hscopes.trans rfl, hcause.trans rfl⟩

end LoxLang
