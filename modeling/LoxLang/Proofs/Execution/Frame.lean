import LoxLang.Execution.Interpreter
import LoxLang.Proofs.Scope.Keeping
import LoxLang.Proofs.Tree.Induction

/-!
# What running leaves in place

Evaluating keeps all scopes, and running a statement keeps all scopes but the current one, in
which it may declare. Both hold however the run ends: at its end, at a fault of the program, or
at a line that the output refuses. So a block, whose declarations go to a scope of its own,
keeps all scopes (`Stmt.exec_block_keeps`), and the number of scopes never changes
(`Stmt.exec_depth`).
-/

namespace LoxLang

/-! ### Evaluating -/

/-- **Evaluating keeps all scopes**, also where it ends in an error. -/
theorem Expr.eval_keeps (e : Expr) (scopes : Scopes) :
    Scope.KeepsAll scopes.toList (e.eval scopes).2.toList := by
  induction e generalizing scopes with
  | literal value => exact Scope.KeepsAll.refl _
  | «variable» name => exact Scope.KeepsAll.refl _
  | grouping inner ih => exact ih scopes
  | unary op token right ih =>
    have hright := ih scopes
    unfold Expr.eval
    split
    · next h => rwa [h] at hright
    · next h => rwa [h] at hright
  | binary left op token right ihleft ihright =>
    have hleft := ihleft scopes
    unfold Expr.eval
    split
    · next h => rwa [h] at hleft
    · next mid h =>
      rw [h] at hleft
      have hright := ihright mid
      split
      · next h => rw [h] at hright; exact hleft.trans hright
      · next h => rw [h] at hright; exact hleft.trans hright
  | assign name value ih =>
    have hvalue := ih scopes
    unfold Expr.eval
    split
    · next h => rwa [h] at hvalue
    · next mid h =>
      rw [h] at hvalue
      split
      · next h => exact hvalue.trans (Scopes.assign_keeps h)
      · exact hvalue

/-! ### Running -/

/-- The scopes around the current one are kept. -/
def Scopes.KeepsEnclosing (before after : Scopes) : Prop :=
  Scope.KeepsAll before.enclosing after.enclosing

/-- Closing a scope leaves those around it. -/
theorem Scopes.toList_pop {scopes : Scopes} (h : scopes.enclosing ≠ []) :
    scopes.pop.toList = scopes.enclosing := by
  obtain ⟨current, enclosing⟩ := scopes
  cases enclosing with
  | nil => exact absurd rfl h
  | cons outer rest => rfl

/-- A new scope is still inside another one when everything around it was kept. -/
theorem Scopes.KeepsEnclosing.ne_nil {scopes after : Scopes}
    (h : scopes.push.KeepsEnclosing after) : after.enclosing ≠ [] := by
  intro hnil
  have hlength := h.length_eq
  rw [hnil] at hlength
  exact absurd hlength (by simp [push, toList])

/-- What is kept around a new scope is what is there when that scope is closed. -/
theorem Scopes.KeepsEnclosing.pop {scopes after : Scopes} (h : scopes.push.KeepsEnclosing after) :
    Scope.KeepsAll scopes.toList after.pop.toList := by
  rw [toList_pop h.ne_nil]
  exact h

/-- The same where a run evaluates. -/
theorem RunState.eval_keeps {σ : Type} {state after : RunState σ} {e : Expr}
    {result : Except RuntimeError Value} (h : state.eval e = (result, after)) :
    Scope.KeepsAll state.scopes.toList after.scopes.toList := by
  have hkeeps : Scope.KeepsAll state.scopes.toList (state.eval e).2.scopes.toList :=
    e.eval_keeps state.scopes
  rwa [h] at hkeeps

theorem RunState.eval_keepsEnclosing {σ : Type} {state after : RunState σ} {e : Expr}
    {result : Except RuntimeError Value} (h : state.eval e = (result, after)) :
    state.scopes.KeepsEnclosing after.scopes :=
  (List.forall₂_cons.mp (RunState.eval_keeps h)).2

variable {σ : Type} [Sink σ]

theorem Stmt.execAll_keepsEnclosing {echo : Bool} {body : List Stmt}
    (hbody : ∀ s ∈ body, ∀ state : RunState σ,
      state.scopes.KeepsEnclosing (s.exec echo state).2.scopes)
    (state : RunState σ) : state.scopes.KeepsEnclosing (Stmt.execAll echo body state).2.scopes := by
  induction body generalizing state with
  | nil => exact Scope.KeepsAll.refl _
  | cons s body ih =>
    have hfirst := hbody s List.mem_cons_self state
    have hrest := ih fun s hs => hbody s (List.mem_cons_of_mem _ hs)
    unfold Stmt.execAll
    split
    · next h => rwa [h] at hfirst
    · next mid h =>
      rw [h] at hfirst
      exact hfirst.trans (hrest mid)

/-- **Running a statement keeps the scopes around the current one**, however it ends. -/
theorem Stmt.exec_keepsEnclosing (echo : Bool) (stmt : Stmt) (state : RunState σ) :
    state.scopes.KeepsEnclosing (stmt.exec echo state).2.scopes := by
  induction stmt using Stmt.induct generalizing state with
  | expression e =>
    unfold Stmt.exec
    split
    · next h => exact RunState.eval_keepsEnclosing h
    · next h =>
      have hvalue := RunState.eval_keepsEnclosing h
      split
      · exact hvalue
      · exact hvalue
  | print e =>
    unfold Stmt.exec
    split
    · next h => exact RunState.eval_keepsEnclosing h
    · next h =>
      have hvalue := RunState.eval_keepsEnclosing h
      exact hvalue
  | declare name initial =>
    cases initial with
    | none => exact Scope.KeepsAll.refl _
    | some initial =>
      unfold Stmt.exec
      split
      · next h => exact RunState.eval_keepsEnclosing h
      · next h =>
        have hvalue := RunState.eval_keepsEnclosing h
        exact hvalue
  | block body ih =>
    have hbody := Stmt.execAll_keepsEnclosing ih { state with scopes := state.scopes.push }
    unfold Stmt.exec
    exact (List.forall₂_cons.mp hbody.pop).2
  | conditional condition yes no ihyes ihno =>
    unfold Stmt.exec
    split
    · next h => exact RunState.eval_keepsEnclosing h
    · next mid h =>
      have hcondition := RunState.eval_keepsEnclosing h
      split
      · exact hcondition.trans (ihyes mid)
      · cases no with
        | none => exact hcondition
        | some no => exact hcondition.trans (ihno no rfl mid)

/-- **A block keeps all scopes**, however it ends. -/
theorem Stmt.exec_block_keeps (echo : Bool) (body : List Stmt) (state : RunState σ) :
    Scope.KeepsAll state.scopes.toList ((Stmt.block body).exec echo state).2.scopes.toList := by
  have hbody := @Stmt.execAll_keepsEnclosing σ _ echo body (fun s _ => s.exec_keepsEnclosing echo)
    { state with scopes := state.scopes.push }
  unfold Stmt.exec
  exact hbody.pop

theorem Scopes.KeepsEnclosing.depth_eq {before after : Scopes} (h : before.KeepsEnclosing after) :
    after.depth = before.depth := congrArg (· + 1) h.length_eq

/-- **Running a statement leaves as many scopes open as before**, however it ends. -/
theorem Stmt.exec_depth (echo : Bool) (stmt : Stmt) (state : RunState σ) :
    (stmt.exec echo state).2.scopes.depth = state.scopes.depth :=
  (stmt.exec_keepsEnclosing echo state).depth_eq

theorem Stmt.execAll_depth (echo : Bool) (body : List Stmt) (state : RunState σ) :
    (Stmt.execAll echo body state).2.scopes.depth = state.scopes.depth :=
  (Stmt.execAll_keepsEnclosing (fun s _ => s.exec_keepsEnclosing echo) state).depth_eq

end LoxLang
