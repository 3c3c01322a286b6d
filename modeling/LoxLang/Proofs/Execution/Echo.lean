import LoxLang.Proofs.Execution.Output
import LoxLang.Proofs.Execution.SideBySide

/-!
# Echo

With echo on, an expression statement is a print statement: a run writes what the program writes with
print statements in place of its expression statements, and ends as that does, also where the output
refuses a line (`Interpreter.interpret_printed`). To an output that refuses nothing, echo makes no
difference but for what is written.
-/

namespace LoxLang

/-! ### Print statements for expression statements -/

mutual

/-- The statement with print statements for its expression statements. -/
def Stmt.printed : Stmt → Stmt
  | .expression e => .print e
  | .print e => .print e
  | .declare name initial => .declare name initial
  | .block body => .block (Stmt.printedAll body)
  | .conditional condition yes none => .conditional condition yes.printed none
  | .conditional condition yes (some no) => .conditional condition yes.printed (some no.printed)

/-- The statements with print statements for their expression statements. -/
def Stmt.printedAll : List Stmt → List Stmt
  | [] => []
  | s :: rest => s.printed :: Stmt.printedAll rest

end

theorem Stmt.printedAll_eq_map (body : List Stmt) :
    Stmt.printedAll body = body.map Stmt.printed := by
  induction body with
  | nil => rfl
  | cons s rest ih => rw [Stmt.printedAll, ih, List.map_cons]

variable {σ : Type} [Sink σ]

theorem Stmt.execAll_printed {body : List Stmt}
    (hbody : ∀ s ∈ body, ∀ state : RunState σ, s.printed.exec false state = s.exec true state)
    (state : RunState σ) :
    Stmt.execAll false (body.map Stmt.printed) state = Stmt.execAll true body state := by
  induction body generalizing state with
  | nil => rfl
  | cons s body ih =>
    obtain ⟨hfirst, hrest⟩ := List.forall_mem_cons.mp hbody
    simp only [List.map_cons, Stmt.execAll, hfirst, ih hrest]

/-- **Echo is printing**: with echo on, a statement does what it does with echo off and print
statements for its expression statements. -/
theorem Stmt.exec_printed (s : Stmt) (state : RunState σ) :
    s.printed.exec false state = s.exec true state := by
  induction s using Stmt.induct generalizing state with
  | expression e => simp only [Stmt.printed, Stmt.exec, ↓reduceIte]
  | print e => rfl
  | declare name initial => cases initial <;> rfl
  | block body ih =>
    have hbody := Stmt.execAll_printed ih { state with scopes := state.scopes.push }
    simp only [Stmt.printed, Stmt.printedAll_eq_map, Stmt.exec, hbody]
  | conditional condition yes no ihyes ihno =>
    cases no with
    | none => simp only [Stmt.printed, Stmt.exec, ihyes]
    | some no => simp only [Stmt.printed, Stmt.exec, ihyes, ihno no rfl]

/-! ### Outputs that refuse nothing -/

/-- Whatever is written to the output, it takes the next line. -/
def Sink.NeverRefuses (output : σ) : Prop :=
  ∀ after, Sink.Written output after → ∀ line, (Sink.writeLine line after).1 = .ok ()

/-- What takes every line still does so after a line, written or kept back. -/
theorem Sink.NeverRefuses.echo {output : σ} (h : Sink.NeverRefuses output) (echo : Bool)
    (line : String) :
    ∃ after, Sink.echo echo line output = (.ok (), after) ∧ Sink.NeverRefuses after := by
  cases echo with
  | false => exact ⟨output, rfl, h⟩
  | true =>
    refine ⟨(Sink.writeLine line output).2, Prod.ext (h output .refl line) rfl, ?_⟩
    intro after hwritten
    exact h after (.head ⟨line, rfl⟩ hwritten)

theorem Transcript.neverRefuses_unlimited : Sink.NeverRefuses Transcript.unlimited := by
  intro after hwritten line
  have hlimit : after.limit = none := by
    induction hwritten with
    | refl => rfl
    | @tail mid _ _ hstep ih =>
      obtain ⟨other, rfl⟩ := hstep
      simp only [Sink.writeLine, Transcript.write]
      split <;> exact ih
  simp [Sink.writeLine, Transcript.write, Transcript.isFull, hlimit]

/-- Where no line is refused, it does not matter which are kept back. -/
theorem Sink.NeverRefuses.endsAlike (echo echo' : Bool) (o o' : σ) (line : String)
    (h : Sink.NeverRefuses o ∧ Sink.NeverRefuses o') :
    EndsAlike (α := Unit) Eq (fun o o' : σ => Sink.NeverRefuses o ∧ Sink.NeverRefuses o')
      (Sink.echo echo line o) (Sink.echo echo' line o') := by
  obtain ⟨after, hwrite, hafter⟩ := h.1.echo echo line
  obtain ⟨after', hwrite', hafter'⟩ := h.2.echo echo' line
  rw [hwrite, hwrite']
  exact .ok () ⟨hafter, hafter'⟩

/-- To an output that refuses nothing, echo changes neither the result of a run nor the scopes. -/
theorem Stmt.execAll_neverRefuses (echo echo' : Bool) (body : List Stmt) (state : RunState σ)
    (h : Sink.NeverRefuses state.output) :
    (Stmt.execAll echo' body state).1 = (Stmt.execAll echo body state).1 ∧
    (Stmt.execAll echo' body state).2.scopes = (Stmt.execAll echo body state).2.scopes := by
  have hruns : Matching.same.Runs echo echo' (fun _ => Eq)
      (fun o o' : σ => Sink.NeverRefuses o ∧ Sink.NeverRefuses o') Eq :=
    Matching.runs_of_lexemes Matching.same_evaluates (fun _ _ _ h => congrArg Token.lexeme h.symm)
      (Sink.NeverRefuses.endsAlike true true) (Sink.NeverRefuses.endsAlike echo echo')
  have hsame : ∀ s ∈ body, s.Alike .same 0 (id s) := fun s _ => s.alike_same 0
  have hends := Stmt.Alike.execAll_map hruns hsame ⟨rfl, h, h⟩
  rw [List.map_id] at hends
  exact ⟨hends.result_eq ExecutionError.Alike.eq, hends.states.scopes.symm⟩

/-! ### Programs -/

/-- **Echo is printing.** A program that is interpreted with echo on gives the same output, the same
result and the same scopes as, with echo off, the one with print statements for its expression
statements. To an output that refuses nothing, the program itself gives the same result and the same
scopes with echo off. -/
theorem Interpreter.interpret_printed (scopes : Scopes) (program : Program) (output : σ) :
    let echoed := (Interpreter.mk scopes true).interpret program output
    let printed := (Interpreter.mk scopes false).interpret (program.map Stmt.printed) output
    let silent := (Interpreter.mk scopes false).interpret program output
    (printed.2.2 = echoed.2.2 ∧ printed.1 = echoed.1 ∧ printed.2.1.scopes = echoed.2.1.scopes) ∧
    (Sink.NeverRefuses output → silent.1 = echoed.1 ∧ silent.2.1.scopes = echoed.2.1.scopes) := by
  intro echoed printed silent
  have hprinted : Stmt.execAll false (program.map Stmt.printed) ⟨scopes, output⟩ =
      Stmt.execAll true program ⟨scopes, output⟩ :=
    Stmt.execAll_printed (fun s _ => s.exec_printed) ⟨scopes, output⟩
  refine ⟨?_, fun h => ?_⟩
  · simp only [printed, echoed, Interpreter.interpret, hprinted, and_self]
  · exact Stmt.execAll_neverRefuses true false program ⟨scopes, output⟩ h

/-- A value in a block, and then an operator on a value that it does not take. -/
def negatedTruth : Program :=
  [.block [.expression (.literal (.boolean true))],
    .expression (.unary .negate ⟨.minus, "-", none, 1⟩ (.literal (.boolean true)))]

/-- With echo on, the value is written; without, nothing is. The fault is the same. -/
theorem Interpreter.interpret_printed_negatedTruth :
    let echoed := (Interpreter.new true).interpret negatedTruth Transcript.unlimited
    let silent := (Interpreter.new false).interpret negatedTruth Transcript.unlimited
    Sink.NeverRefuses Transcript.unlimited ∧ echoed.2.2.lines = #["true"] ∧
    silent.2.2.lines = #[] ∧
    silent.1 = .error (.runtime ⟨⟨.minus, "-", none, 1⟩, .operandNotNumber⟩) := by
  intro echoed silent
  have hsilent := (Interpreter.interpret_printed .initial negatedTruth Transcript.unlimited).2
    Transcript.neverRefuses_unlimited
  exact ⟨Transcript.neverRefuses_unlimited, by decide +kernel, by decide +kernel,
    hsilent.1.trans (by decide +kernel)⟩

end LoxLang
