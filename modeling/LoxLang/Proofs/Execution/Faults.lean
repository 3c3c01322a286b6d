import LoxLang.Execution.Interpreter
import LoxLang.Proofs.Grammar.Origin
import LoxLang.Proofs.Tree.Induction

/-!
# Where faults arise

A fault arises at a token of the tree that is run, never at one that a value or a binding has kept,
and the token fits the fault: it spells an operator that can fail in this way, or it is the name
without a value (`Stmt.exec_error`).
-/

namespace LoxLang

/-- The token is such as the fault arises at. -/
def RuntimeError.Fits (error : RuntimeError) : Prop :=
  match error.fault with
  | .operandNotNumber => error.token.kind = .minus
  | .operandsNotAddable => error.token.kind = .plus
  | .divisionByZero => error.token.kind = .slash
  | .operandsNotNumbers => error.token.kind ∈
      [.minus, .star, .slash, .less, .lessEqual, .greater, .greaterEqual]
  | .undefinedVariable name => error.token.kind = .identifier ∧ error.token.lexeme = name
  | .uninitializedVariable name => error.token.kind = .identifier ∧ error.token.lexeme = name

/-- The error is at one of the tokens, which fits the fault. -/
structure RuntimeError.ArisesIn (tokens : List Token) (error : RuntimeError) : Prop where
  mem : error.token ∈ tokens
  fits : error.Fits

/-! ### Operators and names -/

theorem UnaryOp.apply_error {op : UnaryOp} {value : Value} {fault : RuntimeFault}
    (h : op.apply value = .error fault) : op = .negate ∧ fault = .operandNotNumber := by
  unfold UnaryOp.apply at h
  split at h <;> grind

/-- Which operators fail, and in which way. -/
theorem BinaryOp.apply_error {op : BinaryOp} {x y : Value} {fault : RuntimeFault}
    (h : op.apply x y = .error fault) :
    (op = .plus ∧ fault = .operandsNotAddable) ∨ (op = .divide ∧ fault = .divisionByZero) ∨
      (op ∉ [.equal, .notEqual, .plus] ∧ fault = .operandsNotNumbers) := by
  unfold BinaryOp.apply at h
  split at h <;> grind

theorem UnaryOp.fits_of_apply {op : UnaryOp} {value : Value} {fault : RuntimeFault} {token : Token}
    (h : op.apply value = .error fault) (htoken : token.kind = op.tokenKind) :
    RuntimeError.Fits ⟨token, fault⟩ := by
  obtain ⟨rfl, rfl⟩ := UnaryOp.apply_error h
  exact htoken

theorem BinaryOp.fits_of_apply {op : BinaryOp} {x y : Value} {fault : RuntimeFault} {token : Token}
    (h : op.apply x y = .error fault) (htoken : token.kind = op.tokenKind) :
    RuntimeError.Fits ⟨token, fault⟩ := by
  obtain ⟨rfl, rfl⟩ | ⟨rfl, rfl⟩ | ⟨hop, rfl⟩ := BinaryOp.apply_error h
  · exact htoken
  · exact htoken
  · simp only [RuntimeError.Fits, htoken]
    cases op with
    | equal | notEqual | plus => exact absurd (by decide) hop
    | minus | multiply | divide => decide
    | lessThan | lessThanOrEqual | greaterThan | greaterThanOrEqual => decide

theorem RuntimeError.fits_ofName {token : Token} (htoken : token.kind = .identifier)
    (fault : NameFault) : (RuntimeError.ofName token fault).Fits := by
  cases fault with
  | undefined => exact ⟨htoken, rfl⟩
  | uninitialized => exact ⟨htoken, rfl⟩

/-- No fault arises at the end of the text. -/
theorem RuntimeError.Fits.ne_eof {error : RuntimeError} (h : error.Fits) :
    error.token.kind ≠ .eof := by
  obtain ⟨token, fault⟩ := error
  intro (heof : token.kind = .eof)
  cases fault <;> simp [RuntimeError.Fits, heof] at h

/-! ### Evaluating -/

/-- An error that `mapError` has made comes from a fault. -/
theorem exists_of_mapError_eq_error {α β ε : Type} {f : α → ε} {result : Except α β} {error : ε}
    (h : result.mapError f = .error error) : ∃ fault, result = .error fault ∧ f fault = error := by
  cases result with
  | ok value => exact absurd h (by simp [Except.mapError])
  | error fault => exact ⟨fault, rfl, Except.error.inj h⟩

/-- **An evaluation fails at a token of the expression**, and the token fits the fault. -/
theorem Expr.eval_error {tokens : List Token} {e : Expr} (hdrawn : e.DrawnFrom tokens)
    {scopes after : Scopes} {error : RuntimeError} (h : e.eval scopes = (.error error, after)) :
    error.ArisesIn tokens := by
  induction e generalizing scopes after with
  | literal value => exact absurd (congrArg Prod.fst h) (by simp [Expr.eval])
  | grouping inner ih => exact ih hdrawn h
  | «variable» name =>
    obtain ⟨fault, -, rfl⟩ := exists_of_mapError_eq_error (congrArg Prod.fst h)
    exact ⟨hdrawn.1, RuntimeError.fits_ofName hdrawn.2 fault⟩
  | unary op token right ih =>
    obtain ⟨⟨hmem, hkind⟩, hright⟩ := hdrawn
    unfold Expr.eval at h
    split at h
    · next hvalue => exact ih hright (hvalue.trans h)
    · obtain ⟨fault, hfault, rfl⟩ := exists_of_mapError_eq_error (congrArg Prod.fst h)
      exact ⟨hmem, UnaryOp.fits_of_apply hfault hkind⟩
  | binary left op token right ihleft ihright =>
    obtain ⟨hleft, ⟨hmem, hkind⟩, hright⟩ := hdrawn
    unfold Expr.eval at h
    split at h
    · next hvalue => exact ihleft hleft (hvalue.trans h)
    · split at h
      · next hvalue => exact ihright hright (hvalue.trans h)
      · obtain ⟨fault, hfault, rfl⟩ := exists_of_mapError_eq_error (congrArg Prod.fst h)
        exact ⟨hmem, BinaryOp.fits_of_apply hfault hkind⟩
  | assign name value ih =>
    obtain ⟨⟨hmem, hkind⟩, hvalue⟩ := hdrawn
    unfold Expr.eval at h
    split at h
    · next hfailed => exact ih hvalue (hfailed.trans h)
    · split at h
      · exact absurd (congrArg Prod.fst h) (by simp)
      · next fault _ =>
        rw [← Except.error.inj (congrArg Prod.fst h)]
        exact ⟨hmem, RuntimeError.fits_ofName hkind fault⟩

/-! ### Running -/

/-- The same where a run evaluates. -/
theorem RunState.eval_error {σ : Type} {tokens : List Token} {e : Expr}
    (hdrawn : e.DrawnFrom tokens) {state after : RunState σ} {error : RuntimeError}
    (h : state.eval e = (.error error, after)) : error.ArisesIn tokens := by
  have hvalue : (e.eval state.scopes).1 = .error error := congrArg Prod.fst h
  exact Expr.eval_error hdrawn (Prod.ext hvalue rfl)

variable {σ : Type} [Sink σ]

/-- Writing fails for a reason of the output, at no token. -/
theorem RunState.write_ne_runtime {state after : RunState σ} {value : Value}
    {error : RuntimeError} : state.write value ≠ (.error (.runtime error), after) := by
  intro h
  obtain ⟨reason, -, hreason⟩ := exists_of_mapError_eq_error (congrArg Prod.fst h)
  exact absurd hreason (by simp)

theorem Stmt.execAll_error {tokens : List Token} {echo : Bool} {body : List Stmt}
    {error : RuntimeError}
    (hbody : ∀ s ∈ body, ∀ state after : RunState σ,
      s.exec echo state = (.error (.runtime error), after) → error.ArisesIn tokens)
    {state after : RunState σ}
    (h : Stmt.execAll echo body state = (.error (.runtime error), after)) :
    error.ArisesIn tokens := by
  induction body generalizing state with
  | nil => exact absurd (congrArg Prod.fst h) (by simp [Stmt.execAll])
  | cons s body ih =>
    obtain ⟨hfirst, hrest⟩ := List.forall_mem_cons.mp hbody
    unfold Stmt.execAll at h
    split at h
    · next hs => exact hfirst state after (hs.trans h)
    · exact ih hrest h

/-- **A run fails at a token of the statement**, if it is not the output that fails, and the token
fits the fault. -/
theorem Stmt.exec_error {tokens : List Token} {s : Stmt} (hdrawn : s.DrawnFrom tokens) {echo : Bool}
    {state after : RunState σ} {error : RuntimeError}
    (h : s.exec echo state = (.error (.runtime error), after)) : error.ArisesIn tokens := by
  induction hdrawn generalizing state after with
  | expression hvalue =>
    unfold Stmt.exec at h
    split at h
    · next hfailed =>
      cases h
      exact RunState.eval_error hvalue hfailed
    · split at h
      · exact absurd h RunState.write_ne_runtime
      · exact absurd (congrArg Prod.fst h) (by simp)
  | print hvalue =>
    unfold Stmt.exec at h
    split at h
    · next hfailed =>
      cases h
      exact RunState.eval_error hvalue hfailed
    · exact absurd h RunState.write_ne_runtime
  | @declare name initial _ hinitial =>
    cases initial with
    | none => exact absurd (congrArg Prod.fst h) (by simp [Stmt.exec])
    | some initial =>
      unfold Stmt.exec at h
      split at h
      · next hfailed =>
        cases h
        exact RunState.eval_error (hinitial initial rfl) hfailed
      · exact absurd (congrArg Prod.fst h) (by simp)
  | @block body _ ih =>
    rcases hbody : Stmt.execAll echo body { state with scopes := state.scopes.push } with
      ⟨result, last⟩
    simp only [Stmt.exec, hbody] at h
    cases h
    exact Stmt.execAll_error (fun s hs state after => ih s hs) hbody
  | @conditional condition yes no hcondition _ _ ihyes ihno =>
    unfold Stmt.exec at h
    split at h
    · next hfailed =>
      cases h
      exact RunState.eval_error hcondition hfailed
    · split at h
      · exact ihyes h
      · cases no with
        | none => exact absurd (congrArg Prod.fst h) (by simp)
        | some no => exact ihno no rfl h

end LoxLang
