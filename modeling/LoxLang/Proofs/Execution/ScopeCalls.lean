import LoxLang.Proofs.Execution.Frame

/-!
# The operations on scopes in a run

A run opens and closes scopes, binds names in the current scope, and assigns. On a bare list of
scopes some of these may be impossible: no name can be bound where no scope is open, and the last
scope must not be closed. `Stmt.calls` lists the operations of a run in order. Each of them is
possible when its turn comes, and together they make the scopes what the run makes them
(`Stmt.replay_calls`).
-/

namespace LoxLang

/-- An operation on the open scopes. -/
inductive ScopeCall where
  | push
  | pop
  | bind (name : String) (binding : Binding)
  | assign (name : String) (value : Value)
  deriving DecidableEq

namespace ScopeCall

/-- What an operation makes of a list of scopes, the current one first, where it is possible. A
scope is closed only if another one is open around it, and a name is bound only in an open scope.
-/
def apply : ScopeCall → List Scope → Option (List Scope)
  | .push, scopes => some (.empty :: scopes)
  | .pop, _ :: outer :: rest => some (outer :: rest)
  | .pop, _ => none
  | .bind name binding, current :: enclosing => some (current.insert name binding :: enclosing)
  | .bind _ _, [] => none
  | .assign name value, scopes => Scopes.assignOuter name value scopes

/-- Operations one after the other, as long as they are possible. -/
def replay : List ScopeCall → List Scope → Option (List Scope)
  | [], scopes => some scopes
  | call :: calls, scopes => (call.apply scopes).bind (replay calls)

theorem replay_append (calls more : List ScopeCall) (scopes : List Scope) :
    replay (calls ++ more) scopes = (replay calls scopes).bind (replay more) := by
  induction calls generalizing scopes with
  | nil => rfl
  | cons call calls ih =>
    simp only [List.cons_append, replay, Option.bind_assoc]
    exact congrArg _ (funext ih)

/-- Where operations are possible altogether, each one is when its turn comes. -/
theorem exists_apply_of_replay {before after : List ScopeCall} {call : ScopeCall}
    {scopes last : List Scope} (h : replay (before ++ call :: after) scopes = some last) :
    ∃ mid next, replay before scopes = some mid ∧ call.apply mid = some next := by
  rw [replay_append, Option.bind_eq_some_iff] at h
  obtain ⟨mid, hmid, hcall⟩ := h
  obtain ⟨next, hnext, -⟩ := Option.bind_eq_some_iff.mp hcall
  exact ⟨mid, next, hmid, hnext⟩

theorem two_le_of_apply_pop {scopes next : List Scope} (h : apply .pop scopes = some next) :
    2 ≤ scopes.length := by
  match scopes, h with
  | _ :: _ :: _, _ => simp

theorem ne_nil_of_apply_bind {name : String} {binding : Binding} {scopes next : List Scope}
    (h : apply (.bind name binding) scopes = some next) : scopes ≠ [] := by
  rintro rfl
  exact absurd h (by simp [apply])

theorem replay_append_of_eq {calls more : List ScopeCall} {scopes mid : List Scope}
    (h : replay calls scopes = some mid) : replay (calls ++ more) scopes = replay more mid := by
  rw [replay_append, h, Option.bind_some]

end ScopeCall

/-! ### The operations of a run -/

/-- The operations on scopes in an evaluation. -/
def Expr.calls : Expr → Scopes → List ScopeCall
  | .literal _, _ => []
  | .grouping inner, scopes => inner.calls scopes
  | .variable _, _ => []
  | .assign name value, scopes =>
    value.calls scopes ++
      match value.eval scopes with
      | (.error _, _) => []
      | (.ok assigned, mid) =>
        match mid.assign name.lexeme assigned with
        | .ok _ => [.assign name.lexeme assigned]
        | .error _ => []
  | .unary _ _ right, scopes => right.calls scopes
  | .binary left _ _ right, scopes =>
    left.calls scopes ++
      match left.eval scopes with
      | (.error _, _) => []
      | (.ok _, mid) => right.calls mid

variable {σ : Type} [Sink σ]

mutual

/-- The operations on scopes in the run of a statement. -/
def Stmt.calls (echo : Bool) : Stmt → RunState σ → List ScopeCall
  | .expression e, state => e.calls state.scopes
  | .print e, state => e.calls state.scopes
  | .declare name none, _ => [.bind name.lexeme none]
  | .declare name (some initial), state =>
    initial.calls state.scopes ++
      match state.eval initial with
      | (.error _, _) => []
      | (.ok value, _) => [.bind name.lexeme (some value)]
  | .block body, state =>
    .push :: (Stmt.callsAll echo body { state with scopes := state.scopes.push } ++ [.pop])
  | .conditional condition yes no, state =>
    condition.calls state.scopes ++
      match state.eval condition with
      | (.error _, _) => []
      | (.ok value, mid) =>
        if value.isTruthy then yes.calls echo mid
        else
          match no with
          | none => []
          | some no => no.calls echo mid

/-- The operations on scopes in the run of statements up to the first that stops it. -/
def Stmt.callsAll (echo : Bool) : List Stmt → RunState σ → List ScopeCall
  | [], _ => []
  | stmt :: rest, state =>
    stmt.calls echo state ++
      match stmt.exec echo state with
      | (.error _, _) => []
      | (.ok (), mid) => Stmt.callsAll echo rest mid

end

/-! ### They are possible -/

/-- The operations of an evaluation are possible and make the scopes what the evaluation makes
them. -/
theorem Expr.replay_calls (e : Expr) (scopes : Scopes) :
    ScopeCall.replay (e.calls scopes) scopes.toList = some (e.eval scopes).2.toList := by
  induction e generalizing scopes with
  | literal value => rfl
  | «variable» name => rfl
  | grouping inner ih => exact ih scopes
  | unary op token right ih =>
    have hright := ih scopes
    rcases h : right.eval scopes with ⟨result, after⟩
    rw [h] at hright
    cases result with
    | error error => simpa only [Expr.calls, Expr.eval, h] using hright
    | ok value => simpa only [Expr.calls, Expr.eval, h] using hright
  | binary left op token right ihleft ihright =>
    have hleft := ihleft scopes
    rcases h : left.eval scopes with ⟨result, mid⟩
    rw [h] at hleft
    cases result with
    | error error => simpa only [Expr.calls, Expr.eval, h, List.append_nil] using hleft
    | ok x =>
      have hright := ihright mid
      rcases h' : right.eval mid with ⟨result, after⟩
      rw [h'] at hright
      cases result with
      | error error => simpa only [Expr.calls, Expr.eval, h, h',
        ScopeCall.replay_append_of_eq hleft] using hright
      | ok y => simpa only [Expr.calls, Expr.eval, h, h',
        ScopeCall.replay_append_of_eq hleft] using hright
  | assign name value ih =>
    have hvalue := ih scopes
    rcases h : value.eval scopes with ⟨result, mid⟩
    rw [h] at hvalue
    cases result with
    | error error => simpa only [Expr.calls, Expr.eval, h, List.append_nil] using hvalue
    | ok assigned =>
      cases h' : mid.assign name.lexeme assigned with
      | error fault => simpa only [Expr.calls, Expr.eval, h, h', List.append_nil] using hvalue
      | ok after =>
        simp only [Expr.calls, Expr.eval, h, h', ScopeCall.replay_append_of_eq hvalue,
          ScopeCall.replay, ScopeCall.apply, Scopes.assignOuter_toList h', Option.bind_some]

/-- The same where a run evaluates. -/
theorem RunState.replay_calls {σ : Type} {state after : RunState σ} {e : Expr}
    {result : Except RuntimeError Value} (h : state.eval e = (result, after)) :
    ScopeCall.replay (e.calls state.scopes) state.scopes.toList = some after.scopes.toList := by
  rw [e.replay_calls]
  exact congrArg (fun r : Except RuntimeError Value × RunState σ => some r.2.scopes.toList) h

theorem Stmt.replay_callsAll {echo : Bool} {body : List Stmt}
    (hbody : ∀ s ∈ body, ∀ state : RunState σ,
      ScopeCall.replay (s.calls echo state) state.scopes.toList =
      some (s.exec echo state).2.scopes.toList) (state : RunState σ) :
    ScopeCall.replay (Stmt.callsAll echo body state) state.scopes.toList =
      some (Stmt.execAll echo body state).2.scopes.toList := by
  induction body generalizing state with
  | nil => rfl
  | cons s body ih =>
    have hfirst := hbody s List.mem_cons_self state
    have hrest := ih fun s hs => hbody s (List.mem_cons_of_mem _ hs)
    rcases h : s.exec echo state with ⟨result, mid⟩
    rw [h] at hfirst
    cases result with
    | error error => simpa only [Stmt.callsAll, Stmt.execAll, h, List.append_nil] using hfirst
    | ok done =>
      have hmore := hrest mid
      simpa only [Stmt.callsAll, Stmt.execAll, h, ScopeCall.replay_append_of_eq hfirst] using hmore

/-- A scope that was closed leaves at least one open. -/
theorem ScopeCall.apply_pop {scopes : Scopes} (h : scopes.enclosing ≠ []) :
    ScopeCall.apply .pop scopes.toList = some scopes.pop.toList := by
  obtain ⟨current, enclosing⟩ := scopes
  cases enclosing with
  | nil => exact absurd rfl h
  | cons outer rest => rfl

/-- **Every operation of a run is possible**, and together they make the scopes what the run makes
them. -/
theorem Stmt.replay_calls (echo : Bool) (stmt : Stmt) (state : RunState σ) :
    ScopeCall.replay (stmt.calls echo state) state.scopes.toList =
      some (stmt.exec echo state).2.scopes.toList := by
  induction stmt using Stmt.induct generalizing state with
  | expression e =>
    rcases h : state.eval e with ⟨result, after⟩
    have hvalue := RunState.replay_calls h
    cases result with
    | error error => simpa only [Stmt.calls, Stmt.exec, h] using hvalue
    | ok value =>
      simp only [Stmt.calls, Stmt.exec, h]
      cases echo with
      | true => exact hvalue
      | false => exact hvalue
  | print e =>
    rcases h : state.eval e with ⟨result, after⟩
    have hvalue := RunState.replay_calls h
    cases result with
    | error error => simpa only [Stmt.calls, Stmt.exec, h] using hvalue
    | ok value =>
      simp only [Stmt.calls, Stmt.exec, h]
      exact hvalue
  | declare name initial =>
    cases initial with
    | none => rfl
    | some initial =>
      rcases h : state.eval initial with ⟨result, after⟩
      have hvalue := RunState.replay_calls h
      cases result with
      | error error => simpa only [Stmt.calls, Stmt.exec, h, List.append_nil] using hvalue
      | ok value =>
        simp only [Stmt.calls, Stmt.exec, h, ScopeCall.replay_append_of_eq hvalue]
        rfl
  | block body ih =>
    have hbody := Stmt.replay_callsAll ih { state with scopes := state.scopes.push }
    have hkeeps := @Stmt.execAll_keepsEnclosing σ _ echo body
      (fun s _ => s.exec_keepsEnclosing echo)
      { state with scopes := state.scopes.push }
    have hclose := @ScopeCall.replay_append_of_eq _ [.pop] _ _ hbody
    simp only [Stmt.calls, Stmt.exec, ScopeCall.replay, ScopeCall.apply, Option.bind_some]
    refine hclose.trans ?_
    simp only [ScopeCall.replay, ScopeCall.apply_pop hkeeps.ne_nil, Option.bind_some]
  | conditional condition yes no ihyes ihno =>
    rcases h : state.eval condition with ⟨result, mid⟩
    have hcondition := RunState.replay_calls h
    cases result with
    | error error => simpa only [Stmt.calls, Stmt.exec, h, List.append_nil] using hcondition
    | ok value =>
      simp only [Stmt.calls, Stmt.exec, h, ScopeCall.replay_append_of_eq hcondition]
      cases hvalue : value.isTruthy with
      | true => simpa using ihyes mid
      | false =>
        cases no with
        | none => rfl
        | some no => simpa using ihno no rfl mid

end LoxLang
