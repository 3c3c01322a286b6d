import LoxLang.Proofs.Execution.SideBySide
import LoxLang.Proofs.Tree.Lines

/-!
# Running on other lines

Lines are only reported: a program with its tokens on other lines does the same to the scopes and
the output, and an error names its token on that token's line (`Stmt.execAll_mapLine`). And a
program that goes on after another one goes on in the state which that one leaves
(`Stmt.execAll_append_of_ok`).
-/

namespace LoxLang

/-- The error with its token on the line that is given for its own. -/
def RuntimeError.mapLine (g : Nat → Nat) (error : RuntimeError) : RuntimeError :=
  { error with token := error.token.mapLine g }

/-- A fault with its token on the line that is given for its own; output has no line. -/
def ExecutionError.mapLine (g : Nat → Nat) : ExecutionError → ExecutionError
  | .runtime error => .runtime (error.mapLine g)
  | .output reason => .output reason

/-! ### Trees on other lines are alike -/

/-- A token matches itself on the line that is given for its own. -/
def Matching.onLines (g : Nat → Nat) : Matching :=
  let moved (token token' : Token) : Prop := token' = token.mapLine g
  ⟨moved, moved, fun _ => moved, moved⟩

theorem Expr.alike_mapLine (g : Nat → Nat) (e : Expr) : e.Alike (.onLines g) (e.mapLine g) := by
  induction e with
  | literal value => exact .literal value
  | «variable» name => exact .variable rfl
  | grouping inner ih => exact .groupingLeft (.groupingRight ih)
  | unary op token right ih => exact .unary rfl ih
  | binary left op token right ihleft ihright => exact .binary ihleft rfl ihright
  | assign name value ih => exact .assign rfl ih

theorem Stmt.alike_mapLine (g : Nat → Nat) (n : Nat) (s : Stmt) :
    s.Alike (.onLines g) n (s.mapLine g) := by
  have hname : ∀ n x, (Matching.onLines g).declares n x (x.mapLine g) := fun _ _ => rfl
  rw [Stmt.mapLine_eq_mapParts]
  exact Stmt.alike_mapParts (Expr.alike_mapLine g) hname n s

/-! ### Running -/

theorem Matching.onLines_evaluates (g : Nat → Nat) : (Matching.onLines g).Evaluates Eq
    fun error error' => error' = error.mapLine g :=
  evaluates_of_lexemes (fun _ _ h => by rw [h]; rfl) (fun _ _ h => by rw [h]; rfl)
    (fun _ _ _ h => by rw [h]; rfl) (fun _ _ _ h => by rw [h]; rfl) (fun _ _ _ h => by rw [h]; rfl)

variable {σ : Type} [Sink σ]

/-- **Running on other lines is the same but for the lines in errors.** -/
theorem Stmt.execAll_mapLine (g : Nat → Nat) (echo : Bool) (body : List Stmt) (state : RunState σ) :
    Stmt.execAll echo (body.map (Stmt.mapLine g)) state =
      ((Stmt.execAll echo body state).1.mapError (ExecutionError.mapLine g),
        (Stmt.execAll echo body state).2) := by
  have hruns : (Matching.onLines g).Runs echo echo (fun _ => Eq) (@Eq σ)
      fun error error' => error' = error.mapLine g :=
    Matching.runs_of_lexemes (Matching.onLines_evaluates g)
      (fun _ _ _ h => by rw [h]; rfl) (fun _ _ _ h => h ▸ EndsAlike.refl _)
      (fun _ _ _ h => h ▸ EndsAlike.refl _)
  have hends : EndsAlike _ _ (Stmt.execAll echo body state)
      (Stmt.execAll echo (body.map (Stmt.mapLine g)) state) :=
    Stmt.Alike.execAll_map hruns (fun s _ => s.alike_mapLine g 0) ⟨rfl, rfl⟩
  refine hends.eq_mapError (fun herror => ?_) fun hstates => hstates.eq.symm
  cases herror with
  | runtime herror => rw [herror]; rfl
  | output reason => rfl

/-! ### One program after the other -/

theorem Stmt.execAll_append_of_ok {echo : Bool} {first : List Stmt} {state mid : RunState σ}
    (h : Stmt.execAll echo first state = (.ok (), mid)) (second : List Stmt) :
    Stmt.execAll echo (first ++ second) state = Stmt.execAll echo second mid := by
  induction first generalizing state with
  | nil =>
    have hmid : state = mid := congrArg Prod.snd h
    rw [hmid, List.nil_append]
  | cons s first ih =>
    rcases hs : s.exec echo state with ⟨result, after⟩
    simp only [List.cons_append, Stmt.execAll, hs] at h ⊢
    cases result with
    | error error => exact absurd (congrArg Prod.fst h) (by simp)
    | ok done => exact ih h

theorem Stmt.execAll_append_of_error {echo : Bool} {first : List Stmt} {state mid : RunState σ}
    {error : ExecutionError} (h : Stmt.execAll echo first state = (.error error, mid))
    (second : List Stmt) : Stmt.execAll echo (first ++ second) state = (.error error, mid) := by
  induction first generalizing state with
  | nil => exact absurd (congrArg Prod.fst h) (by simp [Stmt.execAll])
  | cons s first ih =>
    rcases hs : s.exec echo state with ⟨result, after⟩
    simp only [List.cons_append, Stmt.execAll, hs] at h ⊢
    cases result with
    | error error => exact h
    | ok done => exact ih h

end LoxLang
