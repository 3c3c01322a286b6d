import LoxLang.Proofs.Execution.SideBySide
import LoxLang.Proofs.Scope.Renaming
import Mathlib.Logic.Equiv.Basic

/-!
# Renaming

Names are only told apart. If the variables of a program and the names in its scopes are changed, each
to a name of its own, then the program does the same with the names changed
(`Interpreter.interpret_renamed`).
-/

namespace LoxLang

/-! ### Renamed errors -/

/-- The error with its name changed, and so that of its token, if the fault is about a name. -/
def RuntimeError.rename (f : String → String) (error : RuntimeError) : RuntimeError :=
  match error.fault with
  | .undefinedVariable name => ⟨error.token.rename f, .undefinedVariable (f name)⟩
  | .uninitializedVariable name => ⟨error.token.rename f, .uninitializedVariable (f name)⟩
  | _ => error

/-- The error with its name changed, if it is one of the program. -/
def ExecutionError.rename (f : String → String) : ExecutionError → ExecutionError
  | .runtime error => .runtime (error.rename f)
  | .output reason => .output reason

theorem RuntimeError.rename_ofName (f : String → String) (token : Token) (fault : NameFault) :
    (RuntimeError.ofName token fault).rename f = .ofName (token.rename f) fault := by
  cases fault with
  | undefined => rfl
  | uninitialized => rfl

theorem RuntimeError.rename_of_name?_eq_none {fault : RuntimeFault} (h : fault.name? = none)
    (f : String → String) (token : Token) :
    (RuntimeError.mk token fault).rename f = ⟨token, fault⟩ := by
  cases fault with
  | undefinedVariable | uninitializedVariable => exact absurd h (by simp [RuntimeFault.name?])
  | operandNotNumber | operandsNotNumbers | operandsNotAddable | divisionByZero => rfl

/-! ### Renamed trees are alike -/

/-- A name token matches itself with its name changed, and one of an operator itself. -/
def Matching.renamed (f : String → String) : Matching :=
  let renamed (token token' : Token) : Prop := token' = token.rename f
  ⟨renamed, renamed, fun _ => renamed, Eq⟩

theorem Expr.alike_rename (f : String → String) (e : Expr) : e.Alike (.renamed f) (e.rename f) := by
  induction e with
  | literal value => exact .literal value
  | «variable» name => exact .variable rfl
  | grouping inner ih => exact .groupingLeft (.groupingRight ih)
  | unary op token right ih => exact .unary rfl ih
  | binary left op token right ihleft ihright => exact .binary ihleft rfl ihright
  | assign name value ih => exact .assign rfl ih

theorem Stmt.alike_rename (f : String → String) (n : Nat) (s : Stmt) :
    s.Alike (.renamed f) n (s.rename f) := by
  have hname : ∀ n x, (Matching.renamed f).declares n x (x.rename f) := fun _ _ => rfl
  exact Stmt.alike_mapParts (Expr.alike_rename f) hname n s

/-! ### Running -/

variable {f : String → String}

theorem Matching.renamed_evaluates (hf : Function.Injective f) :
    (Matching.renamed f).Evaluates (fun a b => b = a.rename f)
      fun error error' => error' = error.rename f where
  get {a b x x'} h hname := by
    obtain rfl : x' = x.rename f := hname
    rw [h]
    exact Scopes.get_rename hf a x.lexeme
  assign {a b x x'} value h hname := by
    obtain rfl : x' = x.rename f := hname
    have hassign := Scopes.assign_rename hf a x.lexeme value
    rw [h]
    cases hresult : a.assign x.lexeme value with
    | ok assigned => exact .inl ⟨assigned, _, rfl, by rw [hresult] at hassign; exact hassign, rfl⟩
    | error fault => exact .inr ⟨fault, rfl, by rw [hresult] at hassign; exact hassign⟩
  read_error {x x'} fault hname := by
    obtain rfl : x' = x.rename f := hname
    exact (RuntimeError.rename_ofName f x fault).symm
  assign_error {x x'} fault hname := by
    obtain rfl : x' = x.rename f := hname
    exact (RuntimeError.rename_ofName f x fault).symm
  operator_error {t t'} fault hfault htoken := by
    obtain rfl : t = t' := htoken
    exact (RuntimeError.rename_of_name?_eq_none hfault f t).symm

/-- The state with all names changed. -/
def RunState.rename {σ : Type} (f : String → String) (state : RunState σ) : RunState σ :=
  { state with scopes := state.scopes.rename f }

theorem RunState.Alike.eq_rename {σ : Type} {a b : RunState σ}
    (h : RunState.Alike (fun a b => b = a.rename f) Eq a b) : b = a.rename f := by
  obtain ⟨scopes, output⟩ := b
  obtain ⟨hscopes, houtput⟩ := h
  cases houtput
  exact congrArg (RunState.mk · a.output) hscopes

variable {σ : Type} [Sink σ]

theorem Matching.renamed_runs (hf : Function.Injective f) (echo : Bool) :
    (Matching.renamed f).Runs echo echo (fun _ a b => b = a.rename f) (@Eq σ)
      fun error error' => error' = error.rename f where
  evaluates _ := renamed_evaluates hf
  bind {n a b x x'} binding h hname := by
    obtain rfl : x' = x.rename f := hname
    rw [h]
    exact Scopes.bind_rename hf a x.lexeme binding
  push {n a b} h := by
    rw [h]
    exact Scopes.push_rename f a
  pop {n a b} h := by
    rw [h]
    exact Scopes.pop_rename f a
  write line h := h ▸ EndsAlike.refl _
  echoes line h := h ▸ EndsAlike.refl _

/-- **Renamed statements do the same to renamed scopes.** -/
theorem Stmt.execAll_rename (hf : Function.Injective f) (echo : Bool) (body : List Stmt)
    (state : RunState σ) :
    Stmt.execAll echo (body.map (Stmt.rename f)) (state.rename f) =
      ((Stmt.execAll echo body state).1.mapError (ExecutionError.rename f),
        (Stmt.execAll echo body state).2.rename f) := by
  have hends := Stmt.Alike.execAll_map (Matching.renamed_runs (σ := σ) hf echo)
    (fun s (_ : s ∈ body) => s.alike_rename f 0) (a := state) (b := state.rename f) ⟨rfl, rfl⟩
  refine hends.eq_mapError (fun herror => ?_) fun hstates => hstates.eq_rename
  cases herror with
  | runtime herror => rw [herror]; rfl
  | output reason => rfl

/-- **A renamed program does the same to renamed scopes**: it gives the same output and ends in the same
way, in the scopes that it would leave, renamed, and with the error that there would be, renamed. -/
theorem Interpreter.interpret_renamed (hf : Function.Injective f) (scopes : Scopes) (echo : Bool)
    (program : Program) (output : σ) :
    let run := (Interpreter.mk scopes echo).interpret program output
    (Interpreter.mk (scopes.rename f) echo).interpret (program.map (Stmt.rename f)) output =
      (run.1.mapError (ExecutionError.rename f), ⟨run.2.1.scopes.rename f, echo⟩, run.2.2) := by
  have hrun := Stmt.execAll_rename hf echo program ⟨scopes, output⟩
  simp only [RunState.rename] at hrun
  simp only [Interpreter.interpret, hrun]

/-- `var a = true; { var a = b; b = nil; print a; } print c;`, with names for `a` and `c`. -/
def shadowed (a c : String) : Program :=
  let named (name : String) (line : Nat) : Token := ⟨.identifier, name, none, line⟩
  [.declare (named a 1) (some (.literal (.boolean true))),
    .block [.declare (named a 1) (some (.variable (named "b" 1))),
      .expression (.assign (named "b" 1) (.literal .nil)), .print (.variable (named a 1))],
    .print (.variable (named c 2))]

/-- With `a` and `c` swapped, the same is printed, and the name that is not found is the other one. -/
theorem Interpreter.interpret_renamed_shadowed :
    let swapped := Equiv.swap "a" "c"
    let start : Interpreter := ⟨⟨⟨[("b", some (.boolean false))]⟩, []⟩, false⟩
    let ending (a c : String) : Except ExecutionError Unit × Interpreter × Transcript :=
      (.error (.runtime ⟨⟨.identifier, c, none, 2⟩, .undefinedVariable c⟩),
        ⟨⟨⟨[("b", some .nil), (a, some (.boolean true))]⟩, []⟩, false⟩, ⟨#["false"], none⟩)
    Function.Injective swapped ∧ start.scopes.rename swapped = start.scopes ∧
    (shadowed "a" "c").map (Stmt.rename swapped) = shadowed "c" "a" ∧
    start.interpret (shadowed "a" "c") Transcript.unlimited = ending "a" "c" ∧
    start.interpret (shadowed "c" "a") Transcript.unlimited = ending "c" "a" := by
  intro swapped start ending
  have hscopes : start.scopes.rename swapped = start.scopes := by decide +kernel
  have hprogram : (shadowed "a" "c").map (Stmt.rename swapped) = shadowed "c" "a" := by
    decide +kernel
  have hfirst : start.interpret (shadowed "a" "c") Transcript.unlimited = ending "a" "c" := by
    decide +kernel
  have hsecond := Interpreter.interpret_renamed swapped.injective start.scopes start.echo
    (shadowed "a" "c") Transcript.unlimited
  rw [hscopes, hprogram, hfirst] at hsecond
  exact ⟨swapped.injective, hscopes, hprogram, hfirst, hsecond.trans (by decide +kernel)⟩

end LoxLang
