import LoxLang.Proofs.Execution.Frame
import LoxLang.Proofs.Grammar.LenientReading
import LoxLang.Proofs.Tree.Declarations

/-!
# Which names are bound

Running a statement binds the name that it declares, if it ends well, and no other one in the
current scope, unless a declaration is a branch in it. In a program that was read none is, so which
names are bound can be told from the statements that have been run, whatever values there are
(`Interpreter.names_of_statements`).
-/

namespace LoxLang

theorem Program.mem_declaredNames_cons {s : Stmt} {rest : Program} {name : String} :
    name ∈ Program.declaredNames (s :: rest) ↔
      s.declaredName? = some name ∨ name ∈ Program.declaredNames rest := by
  simp [Program.declaredNames, List.mem_filterMap]

/-! ### Statements -/

/-- Evaluating binds no name. -/
theorem RunState.eval_names {σ : Type} {state after : RunState σ} {e : Expr}
    {result : Except RuntimeError Value} (h : state.eval e = (result, after)) :
    after.scopes.current.names = state.scopes.current.names :=
  (List.forall₂_cons.mp (RunState.eval_keeps h)).1.names

variable {σ : Type} [Sink σ]

/-- **A statement that declares nothing binds no name in the current scope**, however it ends. -/
theorem Stmt.exec_names {s : Stmt} (hplain : s.PlainBranches) (hnothing : s.declaredName? = none)
    (echo : Bool) (state : RunState σ) :
    (s.exec echo state).2.scopes.current.names = state.scopes.current.names := by
  induction hplain generalizing state with
  | @expression e =>
    unfold Stmt.exec
    split
    · next h => exact RunState.eval_names h
    · next h =>
      have hnames := RunState.eval_names h
      split
      · exact hnames
      · exact hnames
  | @print e =>
    unfold Stmt.exec
    split
    · next h => exact RunState.eval_names h
    · next h =>
      have hnames := RunState.eval_names h
      exact hnames
  | declare => exact absurd hnothing (by simp [Stmt.declaredName?])
  | @block body _ _ =>
    have hkeeps := Stmt.exec_block_keeps echo body state
    exact (List.forall₂_cons.mp hkeeps).1.names
  | @conditional condition yes no hyes _ hno _ ihyes ihno =>
    unfold Stmt.exec
    split
    · next h => exact RunState.eval_names h
    · next mid h =>
      have hnames := RunState.eval_names h
      split
      · exact (ihyes hyes mid).trans hnames
      · cases no with
        | none => exact hnames
        | some no => exact (ihno no rfl (hno no rfl) mid).trans hnames

/-- A statement binds the name that it declares, if it ends well, and no other one. -/
theorem Stmt.mem_names {echo : Bool} {s : Stmt} (hplain : s.PlainBranches)
    {state after : RunState σ} {result : Except ExecutionError Unit}
    (h : s.exec echo state = (result, after)) (name : String) :
    name ∈ after.scopes.current.names ↔
      name ∈ state.scopes.current.names ∨ result = .ok () ∧ s.declaredName? = some name := by
  cases hname : s.declaredName? with
  | none =>
    have hsame := Stmt.exec_names hplain hname echo state
    rw [h] at hsame
    simp [hsame]
  | some declared =>
    obtain ⟨token, initial, rfl, rfl⟩ := Stmt.declaredName?_eq_some_iff.mp hname
    rw [Option.some_inj, eq_comm (a := token.lexeme)]
    cases initial with
    | none =>
      obtain ⟨rfl, rfl⟩ := Prod.mk.inj h
      rw [and_iff_right rfl]
      exact Scope.mem_names_insert
    | some initial =>
      unfold Stmt.exec at h
      split at h
      · next hvalue =>
        obtain ⟨rfl, rfl⟩ := Prod.mk.inj h
        simp [RunState.eval_names hvalue]
      · next hvalue =>
        obtain ⟨rfl, rfl⟩ := Prod.mk.inj h
        rw [and_iff_right rfl, ← RunState.eval_names hvalue]
        exact Scope.mem_names_insert

/-- **Statements that end well bind the names that they declare**, and no others. -/
theorem Stmt.mem_names_of_execAll {echo : Bool} {body : List Stmt}
    (hplain : ∀ s ∈ body, s.PlainBranches) {state after : RunState σ}
    (h : Stmt.execAll echo body state = (.ok (), after)) (name : String) :
    name ∈ after.scopes.current.names ↔
      name ∈ state.scopes.current.names ∨ name ∈ Program.declaredNames body := by
  induction body generalizing state with
  | nil =>
    obtain rfl := congrArg Prod.snd h
    simp [Stmt.execAll, Program.declaredNames]
  | cons s rest ih =>
    rcases hs : s.exec echo state with ⟨result, mid⟩
    simp only [Stmt.execAll, hs] at h
    cases result with
    | error error => exact absurd (congrArg Prod.fst h) (by simp)
    | ok done =>
      obtain ⟨hfirst, hrest⟩ := List.forall_mem_cons.mp hplain
      rw [ih hrest h, Stmt.mem_names hfirst hs, Program.mem_declaredNames_cons, or_assoc,
        and_iff_right rfl]

/-! ### Where statements start -/

/-- A statement among others as it starts: those before it, itself, and the state. -/
structure Stmt.Start (σ : Type) where
  before : List Stmt
  stmt : Stmt
  state : RunState σ

/-- Statements run in order get to one of them: those before it end well. -/
def Program.Reaches (echo : Bool) (body : Program) (state : RunState σ)
    (start : Stmt.Start σ) : Prop :=
  (∃ after, body = start.before ++ start.stmt :: after) ∧
    Stmt.execAll echo start.before state = (.ok (), start.state)

/-- In the run of a statement, one starts that stands directly in a block. -/
inductive Stmt.StartsInBlock (echo : Bool) : Stmt → RunState σ → Stmt.Start σ → Prop where
  | direct {body : List Stmt} {state : RunState σ} {start : Stmt.Start σ} :
      Program.Reaches echo body { state with scopes := state.scopes.push } start →
      StartsInBlock echo (.block body) state start
  | nested {body : List Stmt} {state : RunState σ} {outer start : Stmt.Start σ} :
      Program.Reaches echo body { state with scopes := state.scopes.push } outer →
      StartsInBlock echo outer.stmt outer.state start → StartsInBlock echo (.block body) state start
  | yes {condition : Expr} {yes : Stmt} {no : Option Stmt} {value : Value} {state mid : RunState σ}
      {start : Stmt.Start σ} :
      state.eval condition = (.ok value, mid) → value.isTruthy = true →
      StartsInBlock echo yes mid start →
      StartsInBlock echo (.conditional condition yes no) state start
  | no {condition : Expr} {yes no : Stmt} {value : Value} {state mid : RunState σ}
      {start : Stmt.Start σ} :
      state.eval condition = (.ok value, mid) → value.isTruthy = false →
      StartsInBlock echo no mid start →
      StartsInBlock echo (.conditional condition yes (some no)) state start

/-- Statements that do not end well get to one that does not. -/
theorem Program.exists_reaches_of_error {echo : Bool} {body : Program} {state after : RunState σ}
    {error : ExecutionError} (h : Stmt.execAll echo body state = (.error error, after)) :
    ∃ start, Program.Reaches echo body state start ∧
      start.stmt.exec echo start.state = (.error error, after) := by
  induction body generalizing state with
  | nil => exact absurd (congrArg Prod.fst h) (by simp [Stmt.execAll])
  | cons s rest ih =>
    rcases hs : s.exec echo state with ⟨result, mid⟩
    simp only [Stmt.execAll, hs] at h
    cases result with
    | error other => exact ⟨⟨[], s, state⟩, ⟨⟨rest, rfl⟩, rfl⟩, hs.trans h⟩
    | ok done =>
      obtain ⟨⟨before, stmt, last⟩, ⟨⟨later, rfl⟩, hbefore⟩, hstmt⟩ := ih h
      refine ⟨⟨s :: before, stmt, last⟩, ⟨⟨later, rfl⟩, ?_⟩, hstmt⟩
      simp only [Stmt.execAll, hs]
      exact hbefore

/-- Where a statement is reached, the names are those from before and those declared since. -/
theorem Program.Reaches.mem_names {echo : Bool} {body : Program} {state : RunState σ}
    {start : Stmt.Start σ} (h : body.Reaches echo state start)
    (hplain : ∀ s ∈ body, s.PlainBranches) (name : String) : name ∈ start.state.scopes.current.names ↔
      name ∈ state.scopes.current.names ∨ name ∈ Program.declaredNames start.before := by
  obtain ⟨⟨after, rfl⟩, hbefore⟩ := h
  exact Stmt.mem_names_of_execAll (fun s hs => hplain s (List.mem_append_left _ hs)) hbefore name

theorem Program.Reaches.plainBranches {echo : Bool} {body : Program} {state : RunState σ}
    {start : Stmt.Start σ} (h : body.Reaches echo state start)
    (hplain : ∀ s ∈ body, s.PlainBranches) : start.stmt.PlainBranches := by
  obtain ⟨⟨after, rfl⟩, -⟩ := h
  exact hplain _ (by simp)

/-- **A block has bound what it has declared so far**, wherever one of its statements starts. -/
theorem Stmt.StartsInBlock.mem_names {echo : Bool} {s : Stmt} {state : RunState σ}
    {start : Stmt.Start σ} (h : s.StartsInBlock echo state start) (hplain : s.PlainBranches)
    (name : String) : name ∈ start.state.scopes.current.names ↔
      name ∈ Program.declaredNames start.before := by
  induction h with
  | direct hreaches =>
    cases hplain with
    | block hbody =>
      rw [hreaches.mem_names hbody]
      exact or_iff_right (by simp [Scopes.push, Scope.empty, Scope.names])
  | nested hreaches _ ih =>
    cases hplain with
    | block hbody => exact ih (hreaches.plainBranches hbody)
  | yes _ _ _ ih =>
    cases hplain with
    | conditional _ hyes _ _ => exact ih hyes
  | no _ _ _ ih =>
    cases hplain with
    | conditional _ _ _ hno => exact ih (hno _ rfl)

/-! ### Programs -/

/-- A declaration as a branch, which no tokens are read as. -/
def branchDeclaration (chosen : Bool) (name : Token) : Stmt :=
  .conditional (.literal (.boolean chosen)) (.declare name none) none

/-- Whether a declaration as a branch binds its name depends on the condition. -/
theorem Interpreter.names_of_branchDeclaration (interpreter : Interpreter) (output : σ)
    (chosen : Bool) {name : Token} (hnew : name.lexeme ∉ interpreter.scopes.current.names) :
    (interpreter.interpret [branchDeclaration chosen name] output).1 = .ok () ∧
    (name.lexeme ∈
      (interpreter.interpret [branchDeclaration chosen name] output).2.1.scopes.current.names ↔
      chosen = true) := by
  cases chosen with
  | true => exact ⟨rfl, iff_of_true (Scope.mem_names_insert.mpr (.inr rfl)) rfl⟩
  | false => exact ⟨rfl, iff_of_false hnew (by decide)⟩

/-- **Which names are bound depends on the statements that were run, and on no value.** A program
that was read binds its own declarations if it ends well; if one of its statements does not, it
binds those before that statement. And a block has bound those of its declarations that stand
before the statement that starts. With a declaration as a branch this would not be so. -/
theorem Interpreter.names_of_statements {lenient : Bool} {tokens : List Token} {program : Program}
    (hread : Grammar.parse lenient tokens = .ok program) {interpreter after : Interpreter}
    (hglobal : interpreter.scopes.enclosing = []) {output written : σ}
    {result : Except ExecutionError Unit}
    (hrun : interpreter.interpret program output = (result, after, written)) :
    after.scopes.enclosing = [] ∧
    (result = .ok () → ∀ name, name ∈ after.scopes.current.names ↔
      name ∈ interpreter.scopes.current.names ∨ name ∈ program.declaredNames) ∧
    (∀ error, result = .error error →
      ∃ start, program.Reaches interpreter.echo ⟨interpreter.scopes, output⟩ start ∧
        start.stmt.exec interpreter.echo start.state = (.error error, ⟨after.scopes, written⟩) ∧
        ∀ name, name ∈ after.scopes.current.names ↔
          name ∈ interpreter.scopes.current.names ∨ name ∈ Program.declaredNames start.before) ∧
    (∀ outer start, program.Reaches interpreter.echo ⟨interpreter.scopes, output⟩ outer →
      outer.stmt.StartsInBlock interpreter.echo outer.state start →
      ∀ name, name ∈ start.state.scopes.current.names ↔
        name ∈ Program.declaredNames start.before) ∧
    (∀ chosen name, name.lexeme ∉ interpreter.scopes.current.names →
      (interpreter.interpret [branchDeclaration chosen name] output).1 = .ok () ∧
      (name.lexeme ∈
        (interpreter.interpret [branchDeclaration chosen name] output).2.1.scopes.current.names ↔
        chosen = true)) := by
  obtain ⟨ts, hderives, -⟩ := Grammar.exists_derivesProgram hread
  have hplain := hderives.plainBranches
  have hkeeps := @Stmt.execAll_keepsEnclosing σ _ interpreter.echo program
    (fun s _ => s.exec_keepsEnclosing interpreter.echo) ⟨interpreter.scopes, output⟩
  rcases hexec : Stmt.execAll interpreter.echo program ⟨interpreter.scopes, output⟩ with ⟨_, last⟩
  simp only [Interpreter.interpret, hexec, Prod.mk.injEq] at hrun
  obtain ⟨rfl, rfl, rfl⟩ := hrun
  refine ⟨?_, ?_, ?_, ?_, ?_⟩
  · rw [hexec, Scopes.KeepsEnclosing, hglobal] at hkeeps
    exact List.forall₂_nil_left_iff.mp hkeeps
  · rintro rfl name
    exact Stmt.mem_names_of_execAll hplain hexec name
  · rintro error rfl
    obtain ⟨start, hreaches, hstop⟩ := Program.exists_reaches_of_error hexec
    refine ⟨start, hreaches, hstop, fun name => ?_⟩
    rw [Stmt.mem_names (hreaches.plainBranches hplain) hstop, hreaches.mem_names hplain]
    simp
  · intro outer start hreaches hstart name
    exact hstart.mem_names (hreaches.plainBranches hplain) name
  · intro chosen name hnew
    exact interpreter.names_of_branchDeclaration output chosen hnew

/-- The tokens of `var a; { var b; print a; }`. -/
def unfinishedBlock : List Token :=
  [⟨.kwVar, "var", none, 1⟩, ⟨.identifier, "a", none, 1⟩, ⟨.semicolon, ";", none, 1⟩,
    ⟨.leftBrace, "\x7b", none, 1⟩, ⟨.kwVar, "var", none, 1⟩, ⟨.identifier, "b", none, 1⟩,
    ⟨.semicolon, ";", none, 1⟩, ⟨.kwPrint, "print", none, 1⟩, ⟨.identifier, "a", none, 1⟩,
    ⟨.semicolon, ";", none, 1⟩, ⟨.rightBrace, "\x7d", none, 1⟩]

/-- The second statement stops the program at a name without a value. When it does, its block has
bound the name declared before, and the first statement has bound the only global name. -/
theorem Interpreter.names_of_statements_unfinishedBlock :
    let first : Stmt := .declare ⟨.identifier, "a", none, 1⟩ none
    let inner : Stmt := .declare ⟨.identifier, "b", none, 1⟩ none
    let last : Stmt := .print (.variable ⟨.identifier, "a", none, 1⟩)
    let global : Scope := ⟨[("a", none)]⟩
    Grammar.parse false unfinishedBlock = .ok [first, .block [inner, last]] ∧
    (∃ start, Program.Reaches false [first, .block [inner, last]]
        ⟨.initial, Transcript.unlimited⟩ start ∧
      ∀ name, name ∈ global.names ↔ name ∈ Program.declaredNames start.before) ∧
    ∀ name, name ∈ Scope.names ⟨[("b", none)]⟩ ↔ name ∈ Program.declaredNames [inner] := by
  intro first inner last global
  have hread : Grammar.parse false unfinishedBlock = .ok [first, .block [inner, last]] := by
    decide +kernel
  have hrun : (Interpreter.new false).interpret [first, .block [inner, last]] Transcript.unlimited =
      (.error (.runtime ⟨⟨.identifier, "a", none, 1⟩, .uninitializedVariable "a"⟩),
        ⟨⟨global, []⟩, false⟩, Transcript.unlimited) := rfl
  obtain ⟨-, -, hstop, hblock, -⟩ := Interpreter.names_of_statements hread rfl hrun
  obtain ⟨start, hreaches, -, hnames⟩ := hstop _ rfl
  refine ⟨hread, ⟨start, hreaches, fun name => ?_⟩, ?_⟩
  · exact (hnames name).trans (or_iff_right (by simp [Interpreter.new, Scopes.initial, Scope.empty,
      Scope.names]))
  · exact hblock ⟨[first], .block [inner, last], ⟨⟨global, []⟩, Transcript.unlimited⟩⟩
      ⟨[inner], last, ⟨⟨⟨[("b", none)]⟩, [global]⟩, Transcript.unlimited⟩⟩
      ⟨⟨[], rfl⟩, rfl⟩ (.direct ⟨⟨[], rfl⟩, rfl⟩)

end LoxLang
