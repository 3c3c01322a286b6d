import Mathlib.Logic.Relation
import LoxLang.Execution.Interpreter
import LoxLang.Proofs.Tree.Induction

/-!
# What running does to the output

A program does nothing to its output but write lines to it (`Stmt.exec_written`). So a transcript
only grows: what it held before a run stands in front of what the run wrote
(`Transcript.text_of_written`).
-/

namespace LoxLang

section

variable {σ : Type} [Sink σ]

/-- The output after lines were written to it, each of them taken or refused. -/
def Sink.Written (before after : σ) : Prop :=
  Relation.ReflTransGen (fun a b => ∃ line, b = (Sink.writeLine line a).2) before after

theorem RunState.write_written (state : RunState σ) (value : Value) :
    Sink.Written state.output (state.write value).2.output := .single ⟨value.display, rfl⟩

/-- Evaluating writes nothing. -/
theorem RunState.eval_written {state after : RunState σ} {e : Expr}
    {result : Except RuntimeError Value} (h : state.eval e = (result, after)) :
    Sink.Written state.output after.output := by
  have houtput : after.output = state.output := congrArg (·.2.output) h.symm
  rw [houtput]
  exact .refl

theorem Stmt.execAll_written {echo : Bool} {body : List Stmt}
    (hbody : ∀ s ∈ body, ∀ state : RunState σ,
      Sink.Written state.output (s.exec echo state).2.output)
    (state : RunState σ) : Sink.Written state.output (Stmt.execAll echo body state).2.output := by
  induction body generalizing state with
  | nil => exact .refl
  | cons s body ih =>
    have hfirst := hbody s List.mem_cons_self state
    have hrest := ih fun s hs => hbody s (List.mem_cons_of_mem _ hs)
    unfold Stmt.execAll
    split
    · next h => rwa [h] at hfirst
    · next mid h =>
      rw [h] at hfirst
      exact hfirst.trans (hrest mid)

/-- **Running a statement only writes lines to the output**, however it ends. -/
theorem Stmt.exec_written (echo : Bool) (stmt : Stmt) (state : RunState σ) :
    Sink.Written state.output (stmt.exec echo state).2.output := by
  induction stmt using Stmt.induct generalizing state with
  | expression e =>
    unfold Stmt.exec
    split
    · next h => exact RunState.eval_written h
    · next value mid h =>
      have hvalue := RunState.eval_written h
      split
      · exact hvalue.trans (mid.write_written value)
      · exact hvalue
  | print e =>
    unfold Stmt.exec
    split
    · next h => exact RunState.eval_written h
    · next value mid h => exact (RunState.eval_written h).trans (mid.write_written value)
  | declare name initial =>
    cases initial with
    | none => exact .refl
    | some initial =>
      unfold Stmt.exec
      split
      · next h => exact RunState.eval_written h
      · next h =>
        have hvalue := RunState.eval_written h
        exact hvalue
  | block body ih =>
    unfold Stmt.exec
    exact Stmt.execAll_written ih { state with scopes := state.scopes.push }
  | conditional condition yes no ihyes ihno =>
    unfold Stmt.exec
    split
    · next h => exact RunState.eval_written h
    · next mid h =>
      have hcondition := RunState.eval_written h
      split
      · exact hcondition.trans (ihyes mid)
      · cases no with
        | none => exact hcondition
        | some no => exact hcondition.trans (ihno no rfl mid)

end

/-! ### Transcripts -/

namespace Transcript

/-- A transcript keeps its lines. -/
theorem exists_lines_of_written {before after : Transcript} (h : Sink.Written before after) :
    ∃ more, after.lines.toList = before.lines.toList ++ more := by
  induction h with
  | refl => exact ⟨[], (List.append_nil _).symm⟩
  | @tail mid after _ hstep ih =>
    obtain ⟨more, hmore⟩ := ih
    obtain ⟨line, rfl⟩ := hstep
    show ∃ more, (mid.write line).2.lines.toList = _
    unfold write
    split
    · exact ⟨more, hmore⟩
    · exact ⟨more ++ [line], by simp [hmore]⟩

end Transcript

end LoxLang
